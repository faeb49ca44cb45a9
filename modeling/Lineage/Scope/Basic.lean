import Lineage.Schema.Basic
import Lineage.Scope.Frame

/-! # Scopes

A scope is the graph built so far and the frames around the current place, innermost first.
Outermost stands the root: it knows the tables of the schema, declares what no other level does, and
takes every binding that reaches it. -/

namespace Lineage

/-- The outermost level: global declarations, and the tables of the schema by name. -/
structure Root where
  catalog : Catalog
  external : List (String × BindingId)

structure Scope where
  graph : Graph
  root : Root
  frames : List Frame

namespace Scope

/-- The scope outside of everything: a graph that holds just the tables of the schema. -/
def ofSchema (schema : Schema) : Scope :=
  let (external, graph) := schema.instantiate .empty
  { graph, root := { catalog := .empty, external }, frames := [] }

/-- The number of levels, the root included. -/
def height (scope : Scope) : Nat :=
  scope.frames.length + 1

/-- The words of all levels, outermost first. -/
def roles (scope : Scope) : List String :=
  "root" :: (scope.frames.map Frame.role).reverse

/-- The global declarations, first to last. -/
def globals (scope : Scope) : List BindingId :=
  scope.root.catalog.order

/-- The table of the schema with this name, in whatever spelling. -/
def external? (scope : Scope) (name : String) : Option BindingId :=
  scope.root.external.lookup (fold name)

/-- Opens a level. -/
def push (scope : Scope) (frame : Frame) : Scope :=
  { scope with frames := frame :: scope.frames }

/-- Leaves all levels above a height without closing them. The root stays. -/
def dropTo (scope : Scope) (height : Nat) : Scope :=
  { scope with frames := scope.frames.drop (scope.height - max height 1) }

/-! ## Graph -/

/-- Adds a binding to the graph and tells its id. -/
def add (scope : Scope) (binding : Binding) : BindingId × Scope :=
  let (id, graph) := scope.graph.add binding
  (id, { scope with graph })

/-- Adds a member to a binding of the graph. -/
def addChild (scope : Scope) (parent child : BindingId) : Scope :=
  { scope with graph := scope.graph.addChild parent child }

/-- Adds a flow of values to the graph. -/
def addOutput (scope : Scope) (source target : BindingId) : Scope :=
  { scope with graph := scope.graph.addOutput source target }

/-- Finds a member of a binding or adds it. -/
def childOrInsert (scope : Scope) (parent : BindingId) (name : String) (kind : Binding.Kind) :
    BindingId × Scope :=
  let (child, graph) := scope.graph.childOrInsert parent name kind
  (child, { scope with graph })

/-! ## Declaring -/

/-- Declares a binding at the root. -/
def declareGlobal (scope : Scope) (id : BindingId) : Scope :=
  { scope with root := { scope.root with catalog := scope.root.catalog.add scope.graph id } }

/-- Declares a binding at the innermost of the given levels that takes it. -/
def declareAmong? (id : BindingId) (graph : Graph) : List Frame → Option (List Frame × Graph)
  | [] => none
  | frame :: rest =>
    match frame.declare? graph id with
    | some (frame, graph) => some (frame :: rest, graph)
    | none => (declareAmong? id graph rest).map fun (rest, graph) => (frame :: rest, graph)

/-- Declares a binding at the innermost level that takes it. -/
def declare (scope : Scope) (id : BindingId) : Scope :=
  match declareAmong? id scope.graph scope.frames with
  | some (frames, graph) => { scope with frames, graph }
  | none => scope.declareGlobal id

/-- Declares a binding at the innermost level, if that takes it. -/
def declareInnermost? (scope : Scope) (id : BindingId) : Option Scope :=
  match scope.frames with
  | [] => some (scope.declareGlobal id)
  | frame :: rest =>
    (frame.declare? scope.graph id).map fun (frame, graph) =>
      { scope with frames := frame :: rest, graph }

/-! ## Queries and their targets -/

/-- The innermost query. -/
def nearestQuery? (scope : Scope) : Option QueryScope :=
  scope.frames.findSome? fun frame =>
    match frame with
    | .select query => some query
    | _ => none

/-- Changes the innermost query among the given levels, if the change succeeds. -/
def changeNearestQuery? (change : QueryScope → Option QueryScope) : List Frame → Option (List Frame)
  | [] => none
  | .select query :: rest => (change query).map fun query => .select query :: rest
  | frame :: rest => (changeNearestQuery? change rest).map (frame :: ·)

/-- In the innermost query, gives another name to the last source that stands for the table. -/
def renameSource? (scope : Scope) (relation : BindingId) (aliasName : Option String) :
    Option Scope :=
  (changeNearestQuery? (·.rename? relation aliasName) scope.frames).map fun frames =>
    { scope with frames }

/-- The targets and the count of received values of the multiple assignment around the given number
    of queries, if there is one just there. -/
def pendingAssignment? (scope : Scope) (queries : Nat) : Option (List BindingId × Nat) :=
  if (scope.frames.take queries).all Frame.isSelect then
    match scope.frames[queries]? with
    | some (.multipleAssignment targets received) => some (targets, received)
    | _ => none
  else none

/-- Starts the multiple assignment around the given number of queries anew, if there is
    one just there. -/
def restartAssignment? (scope : Scope) (queries : Nat) : Option Scope :=
  (scope.pendingAssignment? queries).map fun (targets, _) =>
    { scope with frames := scope.frames.set queries (.multipleAssignment targets 0) }

end Scope

end Lineage
