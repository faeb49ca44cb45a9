import Lineage.Analysis.Basic

/-! # Bindings in use

The bindings that belong to a root, directly or as members of members, and how many there are of
each kind. -/

namespace Lineage.Analysis

/-- The bindings on the stack and those below them, each before its members, leaving out what
    was seen before. -/
def preorder (children : BindingId → List BindingId) (unseen : List BindingId) :
    List BindingId → List BindingId
  | [] => []
  | id :: stack =>
    if id ∈ unseen then id :: preorder children (unseen.erase id) (children id ++ stack)
    else preorder children unseen stack
termination_by stack => (unseen.length, stack.length)
decreasing_by
  · apply Prod.Lex.left
    rename_i mem
    have := List.length_pos_of_mem mem
    rw [List.length_erase_of_mem mem]
    omega
  · apply Prod.Lex.right
    simp

/-- The bindings that belong to a root, each before its members. -/
def bindings (analysis : Analysis) : List BindingId :=
  preorder analysis.graph.children analysis.graph.ids analysis.roots

/-- How many bindings belong to a root, by kind. Kinds without any are left out. -/
def countByKind (analysis : Analysis) : List (Binding.Kind × Nat) :=
  let reachable := analysis.bindings
  (Binding.Kind.all.map fun kind =>
    (kind, reachable.countP fun id => analysis.graph.kind id == kind)).filter
      fun entry => 0 < entry.2

end Lineage.Analysis
