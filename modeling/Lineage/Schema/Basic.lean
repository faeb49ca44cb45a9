import Lineage.Graph

/-! # Schemas

The tables and views that are known from outside. A schema has one relation for each folded name: of
several tables with the same name the last one listed counts. -/

namespace Lineage

inductive Relation.Type where
  | table
  | view
deriving DecidableEq, Repr

/-- The type as bindings are tagged with it. -/
def Relation.Type.tag : Relation.Type → String
  | table => "TABLE"
  | view => "VIEW"

structure Column where
  name : String
  comment : Option String
deriving DecidableEq, Repr

structure Relation where
  name : String
  type : Relation.Type
  comment : Option String
  columns : List Column
deriving DecidableEq, Repr

namespace Relation

/-- The relation with the names of itself and its columns folded. -/
def folded (relation : Relation) : Relation :=
  { relation with
    name := fold relation.name
    columns := relation.columns.map fun column => { column with name := fold column.name } }

/-- Adds a column to the graph as the last member of its relation. -/
def addColumn (owner : BindingId) (graph : Graph) (column : Column) : Graph :=
  let (id, graph) := graph.add { Binding.ofName column.name .column with comment := column.comment }
  graph.addChild owner id

/-- Adds the relation and its columns to a graph and tells the relation's id. -/
def instantiate (relation : Relation) (graph : Graph) : BindingId × Graph :=
  let (id, graph) := graph.add
    { Binding.ofName relation.name .relation with
      comment := relation.comment
      types := [relation.type.tag] }
  (id, relation.columns.foldl (addColumn id) graph)

end Relation

structure Schema where
  relations : List Relation
  /-- The names ascend, so each has at most one relation. -/
  ascending : relations.Pairwise fun first second => first.name < second.name
  /-- Every relation is the folded form of one. -/
  folded : ∀ relation ∈ relations, ∃ listed : Relation, relation = listed.folded
deriving DecidableEq, Repr

namespace Schema

def empty : Schema :=
  ⟨[], .nil, by simp⟩

/-- Puts a relation at its place in the order of names; it replaces one of the same name. -/
def insert (relation : Relation) : List Relation → List Relation
  | [] => [relation]
  | first :: rest =>
    if relation.name < first.name then relation :: first :: rest
    else if relation.name = first.name then relation :: rest
    else first :: insert relation rest

theorem eq_or_mem_of_mem_insert {relation other : Relation} {known : List Relation}
    (h : other ∈ insert relation known) : other = relation ∨ other ∈ known := by
  induction known with
  | nil => exact .inl (List.mem_singleton.mp h)
  | cons first rest ih =>
    unfold insert at h
    split at h
    · exact List.mem_cons.mp h
    · split at h
      · exact (List.mem_cons.mp h).imp_right (List.mem_cons_of_mem _)
      · rcases List.mem_cons.mp h with rfl | hrest
        · exact .inr List.mem_cons_self
        · exact (ih hrest).imp_right (List.mem_cons_of_mem _)

theorem ascending_insert (relation : Relation) {known : List Relation}
    (h : known.Pairwise fun first second => first.name < second.name) :
    (insert relation known).Pairwise fun first second => first.name < second.name := by
  induction known with
  | nil => exact List.pairwise_singleton _ _
  | cons first rest ih =>
    obtain ⟨hfirst, hrest⟩ := List.pairwise_cons.mp h
    unfold insert
    split
    · next hlt =>
      refine List.pairwise_cons.mpr ⟨fun table htable => ?_, h⟩
      rcases List.mem_cons.mp htable with rfl | hmem
      · exact hlt
      · exact String.lt_trans hlt (hfirst table hmem)
    · split
      · next hsame =>
        exact List.pairwise_cons.mpr ⟨fun table htable => hsame ▸ hfirst table htable, hrest⟩
      · next hnot hne =>
        refine List.pairwise_cons.mpr ⟨fun table htable => ?_, ih hrest⟩
        -- A table after the first one is the new one, which does not come before it, or was there.
        rcases eq_or_mem_of_mem_insert htable with rfl | hmem
        · exact Std.lt_of_le_of_ne (String.not_lt.mp hnot) fun heq => hne heq.symm
        · exact hfirst table hmem

/-- The schema with one more relation, which replaces one of the same name. -/
def add (schema : Schema) (relation : Relation) : Schema where
  relations := insert relation.folded schema.relations
  ascending := ascending_insert _ schema.ascending
  folded table htable :=
    (eq_or_mem_of_mem_insert htable).elim (fun h => ⟨relation, h⟩) (schema.folded table)

/-- The schema of a list of relations. -/
def ofRelations (relations : List Relation) : Schema :=
  relations.foldl add empty

def size (schema : Schema) : Nat :=
  schema.relations.length

/-- The relation with this name, in whatever spelling. -/
def resolve? (schema : Schema) (name : String) : Option Relation :=
  schema.relations.find? fun relation => relation.name == fold name

/-- Adds all relations to a graph, in the order of their names, and tells their ids by name. -/
def instantiate (schema : Schema) (graph : Graph) : List (String × BindingId) × Graph :=
  schema.relations.foldl
    (fun (known, graph) relation =>
      let (id, graph) := relation.instantiate graph
      (known ++ [(relation.name, id)], graph))
    ([], graph)

end Schema

end Lineage
