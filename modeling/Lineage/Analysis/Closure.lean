import Lineage.Analysis.Basic

/-! # Closures

What a binding's value flows into in any number of steps, nearest first, and what flows into it. -/

namespace Lineage.Analysis

/-- Takes the listed bindings out of those not seen yet: the ones taken, in the order listed, and
    the ones left. -/
def take : List BindingId → List BindingId → List BindingId × List BindingId
  | [], unseen => ([], unseen)
  | id :: rest, unseen =>
    if id ∈ unseen then
      let (taken, left) := take rest (unseen.erase id)
      (id :: taken, left)
    else take rest unseen

theorem length_take (ids unseen : List BindingId) :
    (take ids unseen).1.length + (take ids unseen).2.length = unseen.length := by
  induction ids generalizing unseen with
  | nil => simp [take]
  | cons id rest ih =>
    by_cases mem : id ∈ unseen
    · have pos := List.length_pos_of_mem mem
      have rest := ih (unseen.erase id)
      rw [List.length_erase_of_mem mem] at rest
      simp only [take, mem, if_true, List.length_cons]
      omega
    · simpa only [take, mem, if_false] using ih unseen

/-- What can be reached from the bindings of the queue, in the order in which it is found: the steps
    from the first of the queue, then those from the next, and so on. -/
def reach (next : BindingId → List BindingId) (unseen : List BindingId) :
    List BindingId → List BindingId
  | [] => []
  | current :: queue =>
    let found := take (next current) unseen
    found.1 ++ reach next found.2 (queue ++ found.1)
termination_by queue => unseen.length + queue.length
decreasing_by
  have := length_take (next current) unseen
  simp only [List.length_append, List.length_cons]
  omega

/-- What the value of a binding flows into, nearest first. -/
def outflow (analysis : Analysis) (id : BindingId) : List BindingId :=
  reach analysis.graph.outputs (analysis.graph.ids.erase id) [id]

/-- What flows into a binding, nearest first. -/
def inflow (analysis : Analysis) (id : BindingId) : List BindingId :=
  reach analysis.graph.sourcesOf (analysis.graph.ids.erase id) [id]

end Lineage.Analysis
