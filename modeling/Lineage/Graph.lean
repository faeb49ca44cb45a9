import Lineage.Binding.Basic

/-! # The graph of bindings

A graph only grows: bindings are added at the end, and members and outputs at the end of their
lists. Nothing is added to a list twice. -/

namespace Lineage

structure Graph where
  bindings : Array Binding
deriving DecidableEq, Repr

namespace Graph

def empty : Graph := ⟨#[]⟩

def size (graph : Graph) : Nat :=
  graph.bindings.size

/-- The id is that of a binding of the graph. -/
def contains (graph : Graph) (id : BindingId) : Bool :=
  id.index < graph.size

/-- The binding with the given id; `Binding.blank` if there is none. -/
def get (graph : Graph) (id : BindingId) : Binding :=
  graph.bindings.getD id.index .blank

/-- All ids, in ascending order. -/
def ids (graph : Graph) : List BindingId :=
  (List.range graph.size).map BindingId.mk

def name (graph : Graph) (id : BindingId) : String :=
  (graph.get id).name

def kind (graph : Graph) (id : BindingId) : Binding.Kind :=
  (graph.get id).kind

def children (graph : Graph) (id : BindingId) : List BindingId :=
  (graph.get id).children

def outputs (graph : Graph) (id : BindingId) : List BindingId :=
  (graph.get id).outputs

/-- The id of the next binding. -/
def nextId (graph : Graph) : BindingId :=
  ⟨graph.size⟩

/-- The graph with one more binding, whose id is `nextId`. -/
def push (graph : Graph) (binding : Binding) : Graph :=
  ⟨graph.bindings.push binding⟩

/-- Adds a binding and tells its id. -/
def add (graph : Graph) (binding : Binding) : BindingId × Graph :=
  (graph.nextId, graph.push binding)

/-- Changes one binding. -/
def update (graph : Graph) (id : BindingId) (change : Binding → Binding) : Graph :=
  ⟨graph.bindings.modify id.index change⟩

/-- Makes `child` a member of `parent`, the last one, unless it is one already. -/
def addChild (graph : Graph) (parent child : BindingId) : Graph :=
  if (graph.children parent).contains child then graph
  else graph.update parent fun binding => { binding with children := binding.children ++ [child] }

/-- Records that the value of `source` flows into `target`, unless that is known already. -/
def addOutput (graph : Graph) (source target : BindingId) : Graph :=
  if (graph.outputs source).contains target then graph
  else graph.update source fun binding => { binding with outputs := binding.outputs ++ [target] }

def setComment (graph : Graph) (id : BindingId) (comment : String) : Graph :=
  graph.update id fun binding => { binding with comment := some comment }

/-- The member of `parent` attached last among those with the exact name and an accepted kind. -/
def latestChild? (graph : Graph) (parent : BindingId) (name : String)
    (accepts : Binding.Kind → Bool) : Option BindingId :=
  (graph.children parent).reverse.find? fun child =>
    graph.name child == name && accepts (graph.kind child)

/-- The latest member of `parent` with this name, in whatever spelling, and this kind if
    one is given. -/
def childNamed? (graph : Graph) (parent : BindingId) (name : String) (kind : Option Binding.Kind) :
    Option BindingId :=
  graph.latestChild? parent (fold name) fun found => kind.all (· == found)

/-- The latest member of `parent` with this name, or else a new one of the given kind. -/
def childOrInsert (graph : Graph) (parent : BindingId) (name : String) (kind : Binding.Kind) :
    BindingId × Graph :=
  match graph.childNamed? parent name none with
  | some child => (child, graph)
  | none =>
    let (child, graph) := graph.add (.ofName name kind)
    (child, graph.addChild parent child)

/-- The bindings whose value flows into `target`, in ascending order. -/
def sourcesOf (graph : Graph) (target : BindingId) : List BindingId :=
  graph.ids.filter fun source => (graph.outputs source).contains target

end Graph

end Lineage
