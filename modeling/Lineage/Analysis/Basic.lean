import Lineage.Graph
import Lineage.Text.Segments

/-! # Analyses

The finished graph of a unit and its global bindings, the roots. A binding is owned by the first
binding that it is a member of; its path lists the names from the outermost owner down to itself. -/

namespace Lineage

namespace Graph

/-- Makes `parent` the owner of those of the children that have none yet. -/
def claimChildren (parent : BindingId) (owners : Array (Option BindingId))
    (children : List BindingId) : Array (Option BindingId) :=
  children.foldl
    (fun owners child => owners.modify child.index fun owner => owner.or (some parent)) owners

/-- The owner of every binding, by index. -/
def owners (graph : Graph) : Array (Option BindingId) :=
  graph.ids.foldl (fun owners parent => claimChildren parent owners (graph.children parent))
    (Array.replicate graph.size none)

end Graph

structure Analysis where
  graph : Graph
  roots : List BindingId
  owners : Array (Option BindingId)
  owners_eq : owners = graph.owners

namespace Analysis

def ofGraph (graph : Graph) (roots : List BindingId) : Analysis :=
  ⟨graph, roots, graph.owners, rfl⟩

/-- The binding that owns a binding. -/
def owner? (analysis : Analysis) (id : BindingId) : Option BindingId :=
  analysis.owners.getD id.index none

/-- A binding and its owners, nearest first, up to the first owner that was seen before. Each step
    uses up one of the bindings not seen yet. -/
def ownerChain (analysis : Analysis) : Nat → List BindingId → BindingId → List BindingId
  | 0, _, id => [id]
  | steps + 1, seen, id =>
    match analysis.owner? id with
    | some owner =>
      if seen.contains owner then [id] else id :: analysis.ownerChain steps (owner :: seen) owner
    | none => [id]

/-- The names from the outermost owner down to the binding, joined by dots. -/
def path (analysis : Analysis) (id : BindingId) : String :=
  Text.joinDots ((analysis.ownerChain analysis.graph.size [id] id).reverse.map analysis.graph.name)

/-- From a binding down along names; of several members with one name the latest counts. -/
def descend (graph : Graph) : List String → BindingId → Option BindingId
  | [], id => some id
  | name :: rest, id => (graph.childNamed? id name none).bind (descend graph rest)

/-- The binding with a dotted path. The first segment names a root, of several the last one. -/
def find? (analysis : Analysis) (path : String) : Option BindingId :=
  match Text.segments path with
  | [] => none
  | first :: rest =>
    (analysis.roots.reverse.find? fun id => (analysis.graph.get id).isNamed first).bind
      (descend analysis.graph rest)

/-- All flows of values, as pairs of a source and a target. -/
def edges (analysis : Analysis) : List (BindingId × BindingId) :=
  analysis.graph.ids.flatMap fun source => (analysis.graph.outputs source).map fun target =>
    (source, target)

end Analysis

end Lineage
