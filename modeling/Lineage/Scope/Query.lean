import Lineage.Catalog

/-! # What a query can see

Inside a query a name means, in this order: something declared by the query itself, one of the
tables it reads from, or a column of one of them. -/

namespace Lineage

/-- A table that a query reads from, under its own name or another one. -/
structure Source where
  relation : BindingId
  aliasName : Option String
deriving DecidableEq, Repr

/-- The name by which a query refers to the source. -/
def Source.name (source : Source) (graph : Graph) : String :=
  source.aliasName.getD (graph.name source.relation)

/-- The first column of the source with the exact name and an accepted kind. -/
def Source.column? (source : Source) (graph : Graph) (name : String)
    (accepts : Binding.Kind → Bool) : Option BindingId :=
  (graph.children source.relation).find? fun child =>
    graph.name child == name && accepts (graph.kind child)

structure QueryScope where
  catalog : Catalog
  sources : List Source

namespace QueryScope

def empty : QueryScope := ⟨.empty, []⟩

/-- The first source that goes by the name, if its kind is accepted. Of several sources with one
    name the others do not count. -/
def source? (query : QueryScope) (graph : Graph) (name : String) (accepts : Binding.Kind → Bool) :
    Option BindingId :=
  match query.sources.find? fun source => source.name graph == name with
  | some source => if accepts (graph.kind source.relation) then some source.relation else none
  | none => none

/-- What a name means inside the query. -/
def resolve? (query : QueryScope) (graph : Graph) (name : String) (accepts : Binding.Kind → Bool) :
    Option BindingId :=
  (query.catalog.lookup? graph name accepts).or <|
    (query.source? graph name accepts).or <|
      query.sources.findSome? fun source => source.column? graph name accepts

/-- The table, if the query reads from just one. -/
def onlySource? (query : QueryScope) : Option BindingId :=
  match query.sources with
  | [source] => some source.relation
  | _ => none

/-- Makes a table a source under its own name, unless it is a source already. -/
def addSource (query : QueryScope) (relation : BindingId) : QueryScope :=
  if query.sources.any (·.relation == relation) then query
  else { query with sources := query.sources ++ [⟨relation, none⟩] }

/-- Gives another name to the last source that stands for the table, if there is one. -/
def renameLast? (relation : BindingId) (aliasName : Option String) :
    List Source → Option (List Source)
  | [] => none
  | source :: rest =>
    match renameLast? relation aliasName rest with
    | some rest => some (source :: rest)
    | none => if source.relation = relation then some (⟨relation, aliasName⟩ :: rest) else none

/-- The query with another name for the last source that stands for the table. -/
def rename? (query : QueryScope) (relation : BindingId) (aliasName : Option String) :
    Option QueryScope :=
  (renameLast? relation aliasName query.sources).map fun sources => { query with sources }

end QueryScope

end Lineage
