import Lineage.Scope.Resolve

/-! # References that may find nothing

A name in an expression or in a query always stands for something: if no declaration is found, a
placeholder is made, so that a later reference finds it. -/

namespace Lineage.Scope

/-- Adds a binding and declares it. -/
def declareNew (scope : Scope) (binding : Binding) : BindingId × Scope :=
  let (id, scope) := scope.add binding
  (id, scope.declare id)

/-- Adds a binding and declares it at the root. -/
def declareNewGlobal (scope : Scope) (binding : Binding) : BindingId × Scope :=
  let (id, scope) := scope.add binding
  (id, scope.declareGlobal id)

/-- What a plain name stands for. A name without meaning is a field of the only table that the
    innermost query reads from, or else a field of its own. -/
def reference (scope : Scope) (name : String) : BindingId × Scope :=
  match scope.resolve? (.ofName name) with
  | some id => (id, scope)
  | none =>
    match scope.nearestQuery?.bind QueryScope.onlySource? with
    | some source => scope.childOrInsert source name .field
    | none => scope.declareNew (.ofName name .field)

/-- What the first segment of a dotted name stands for. A segment without meaning is a
    global record. -/
def referenceHead (scope : Scope) (name : String) : BindingId × Scope :=
  match scope.resolve? (.ofName name) with
  | some id => (id, scope)
  | none => scope.declareNewGlobal (.ofName name .record)

/-- From member to member along the names; missing members are added as fields. -/
def memberChain : List String → BindingId → Scope → BindingId × Scope
  | [], current, scope => (current, scope)
  | name :: rest, current, scope =>
    let (member, scope) := scope.childOrInsert current name .field
    memberChain rest member scope

/-- What a name under qualifying segments stands for. -/
def dottedReference (scope : Scope) (qualifiers : List String) (name : String) :
    BindingId × Scope :=
  match qualifiers with
  | [] => scope.reference name
  | head :: rest =>
    let (first, scope) := scope.referenceHead head
    memberChain (rest ++ [name]) first scope

/-- A name of the given kind, looked up in the levels only. -/
def declaredOfKind? (scope : Scope) (name : String) (kind : Binding.Kind) : Option BindingId :=
  scope.resolve? ((QualifiedName.ofName name).restricted.ofKind kind)

/-- What a table name in a query stands for: a record in scope, a table of the schema, a relation in
    scope, or else a new global record. A table of the schema becomes global by its first use. -/
def table (scope : Scope) (name : String) : BindingId × Scope :=
  match scope.declaredOfKind? name .record with
  | some id => (id, scope)
  | none =>
    match scope.external? name with
    | some id => (id, scope.declareGlobal id)
    | none =>
      match scope.declaredOfKind? name .relation with
      | some id => (id, scope)
      | none => scope.declareNewGlobal (.ofName name .record)

/-- What the target of an insert stands for: a table of the schema, a relation or record in scope,
    or else a new global relation. -/
def insertTarget (scope : Scope) (name : String) : BindingId × Scope :=
  match scope.external? name with
  | some id => (id, scope.declareGlobal id)
  | none =>
    match (scope.declaredOfKind? name .relation).or (scope.declaredOfKind? name .record) with
    | some id => (id, scope)
    | none => scope.declareNewGlobal (.ofName name .relation)

/-- The columns of a table with the given names; missing ones are added. -/
def columnsNamed (table : BindingId) : List String → Scope → List BindingId × Scope
  | [], scope => ([], scope)
  | name :: rest, scope =>
    let (column, scope) := scope.childOrInsert table name .column
    let (columns, scope) := columnsNamed table rest scope
    (column :: columns, scope)

/-- The columns that a table is known to have, in order. -/
def knownColumns (scope : Scope) (table : BindingId) : List BindingId :=
  (scope.graph.children table).filter fun child => scope.graph.kind child == .column

end Lineage.Scope
