import Lineage.Scope.Frame

/-!
# How a graph grows

Every operation changes a graph in three ways only: a binding is added at the end, a binding becomes
a member of another one, or the value of one flows into another. `Grows` relates a graph to those
that come from it in this way, and what every such change keeps is shown here once.

## Key results

- `Grows.trans`: growth composes
- `Grows.contains`, `Grows.kind`: what a graph holds stays, and keeps its kind
- `grows_childOrInsert`, `grows_passArgument`: the operations that do more than one step
-/

namespace Lineage.Graph

/-- The second graph comes from the first one by adding bindings, members and flows of values. -/
inductive Grows (before : Graph) : Graph → Prop where
  | refl : Grows before before
  | push {after : Graph} (binding : Binding) : Grows before after →
      Grows before (after.push binding)
  | addChild {after : Graph} (parent child : BindingId) :
      Grows before after → Grows before (after.addChild parent child)
  | addOutput {after : Graph} (source target : BindingId) :
      Grows before after → Grows before (after.addOutput source target)

variable {before middle after : Graph} (graph : Graph) {id parent child : BindingId}

theorem Grows.trans (hfirst : before.Grows middle) (hlast : middle.Grows after) :
    before.Grows after := by
  induction hlast with
  | refl => exact hfirst
  | push binding _ ih => exact ih.push binding
  | addChild parent child _ ih => exact ih.addChild parent child
  | addOutput source target _ ih => exact ih.addOutput source target

/-! ### What one step keeps -/

@[simp] theorem size_push (binding : Binding) : (graph.push binding).size = graph.size + 1 := by
  simp [push, size]

@[simp] theorem size_update (id : BindingId) (change : Binding → Binding) :
    (graph.update id change).size = graph.size := by
  simp [update, size]

@[simp] theorem size_addChild (parent child : BindingId) :
    (graph.addChild parent child).size = graph.size := by
  unfold addChild
  split <;> simp

@[simp] theorem size_addOutput (source target : BindingId) :
    (graph.addOutput source target).size = graph.size := by
  unfold addOutput
  split <;> simp

theorem contains_iff {graph : Graph} : graph.contains id = true ↔ id.index < graph.size :=
  decide_eq_true_iff

theorem get_push_of_contains {graph : Graph} (binding : Binding) (h : graph.contains id = true) :
    (graph.push binding).get id = graph.get id := by
  have hlt : id.index < graph.bindings.size := contains_iff.mp h
  simp [get, push, Array.getD_eq_getD_getElem?, Array.getElem?_push, Nat.ne_of_lt hlt]

/-- The new binding is the one that was added. -/
@[simp] theorem get_push_nextId (binding : Binding) :
    (graph.push binding).get graph.nextId = binding := by
  simp [get, push, nextId, size]

@[simp] theorem contains_push_nextId (binding : Binding) :
    (graph.push binding).contains graph.nextId = true := by
  rw [contains_iff, size_push]
  exact Nat.lt_succ_self _

/-- The next id is not in use. -/
theorem contains_nextId : graph.contains graph.nextId = false := by
  rw [← Bool.not_eq_true, contains_iff]
  exact Nat.lt_irrefl _

/-- An id that was not there before is that of the new binding. -/
theorem eq_nextId_of_push {graph : Graph} {binding : Binding}
    (h : (graph.push binding).contains id = true) (hnot : ¬graph.contains id = true) :
    id = graph.nextId := by
  rw [contains_iff, size_push] at h
  rw [contains_iff] at hnot
  have hindex : id.index = graph.size := by omega
  rw [nextId, ← hindex]

/-- A change of one binding leaves the others, and those that do not exist. -/
theorem get_update (id other : BindingId) (change : Binding → Binding) :
    (graph.update id change).get other =
      if id = other ∧ graph.contains other = true then change (graph.get other)
      else graph.get other := by
  obtain ⟨index⟩ := id
  obtain ⟨place⟩ := other
  simp only [contains_iff, get, update, size, Array.getD_eq_getD_getElem?, Array.getElem?_modify,
    BindingId.mk.injEq]
  by_cases hlt : place < graph.bindings.size
  -- Ids beyond the end read as an empty binding, and stay so.
  · by_cases hsame : index = place <;> simp [hlt, hsame]
  · simp [hlt]

@[simp] theorem kind_addChild (parent child id : BindingId) :
    (graph.addChild parent child).kind id = graph.kind id := by
  unfold addChild kind
  split
  · rfl
  · rw [get_update]
    split <;> rfl

@[simp] theorem kind_addOutput (source target id : BindingId) :
    (graph.addOutput source target).kind id = graph.kind id := by
  unfold addOutput kind
  split
  · rfl
  · rw [get_update]
    split <;> rfl

theorem get_addChild_of_ne (h : id ≠ parent) :
    (graph.addChild parent child).get id = graph.get id := by
  unfold addChild
  split
  · rfl
  · rw [get_update, if_neg fun hsame => h hsame.1.symm]

theorem get_addOutput_of_ne {source target : BindingId} (h : id ≠ source) :
    (graph.addOutput source target).get id = graph.get id := by
  unfold addOutput
  split
  · rfl
  · rw [get_update, if_neg fun hsame => h hsame.1.symm]

@[simp] theorem outputs_addChild (parent child id : BindingId) :
    (graph.addChild parent child).outputs id = graph.outputs id := by
  unfold addChild outputs
  split
  · rfl
  · rw [get_update]
    split <;> rfl

@[simp] theorem children_addOutput (source target id : BindingId) :
    (graph.addOutput source target).children id = graph.children id := by
  unfold addOutput children
  split
  · rfl
  · rw [get_update]
    split <;> rfl

/-- A child that is not known yet becomes the last one. -/
theorem children_addChild {graph : Graph} (hparent : graph.contains parent = true)
    (hnew : child ∉ graph.children parent) :
    (graph.addChild parent child).children parent = graph.children parent ++ [child] := by
  unfold addChild
  rw [if_neg (by simpa using hnew)]
  simp [children, get_update, hparent]

/-- No other member is added. -/
theorem mem_children_addChild {graph : Graph} {other : BindingId}
    (h : other ∈ (graph.addChild parent child).children id) :
    other ∈ graph.children id ∨ id = parent ∧ other = child := by
  by_cases hsame : id = parent
  · unfold addChild at h
    split at h
    · exact .inl h
    · rw [children, get_update] at h
      split at h
      · rcases List.mem_append.mp h with hold | hnew
        · exact .inl hold
        · exact .inr ⟨hsame, List.mem_singleton.mp hnew⟩
      · exact .inl h
  · rw [children, get_addChild_of_ne graph hsame] at h
    exact .inl h

/-! ### What growth keeps -/

theorem Grows.size_le (h : before.Grows after) : before.size ≤ after.size := by
  induction h with
  | refl => exact Nat.le_refl _
  | push binding _ ih => rw [size_push]; omega
  | addChild parent child _ ih => rwa [size_addChild]
  | addOutput source target _ ih => rwa [size_addOutput]

/-- What a graph holds stays in it. -/
theorem Grows.contains (h : before.Grows after) (hid : before.contains id = true) :
    after.contains id = true := by
  have hsize := h.size_le
  rw [contains_iff] at hid ⊢
  omega

/-- No binding changes its kind. -/
theorem Grows.kind (h : before.Grows after) (hid : before.contains id = true) :
    after.kind id = before.kind id := by
  -- Kinds are given when a binding is added, and no step changes them.
  induction h with
  | refl => rfl
  | push binding hgrows ih =>
    rw [← ih]
    exact congrArg Binding.kind (get_push_of_contains binding (hgrows.contains hid))
  | addChild parent child _ ih => rw [kind_addChild, ih]
  | addOutput source target _ ih => rw [kind_addOutput, ih]

/-! ### Operations of several steps -/

theorem grows_childOrInsert (parent : BindingId) (name : String) (kind : Binding.Kind) :
    graph.Grows (graph.childOrInsert parent name kind).2 := by
  unfold childOrInsert
  split
  · exact .refl
  · exact (Grows.refl.push _).addChild parent _

/-- Several values flow into one target. -/
theorem grows_addOutputs (sources : List BindingId) (target : BindingId) :
    graph.Grows (sources.foldl (fun graph source => graph.addOutput source target) graph) := by
  induction sources generalizing graph with
  | nil => exact .refl
  | cons source rest ih => exact (Grows.refl.addOutput source target).trans (ih _)

@[simp] theorem kind_addOutputs (sources : List BindingId) (target id : BindingId) :
    (sources.foldl (fun graph source => graph.addOutput source target) graph).kind id =
      graph.kind id := by
  induction sources generalizing graph with
  | nil => rfl
  | cons source rest ih => rw [List.foldl_cons, ih, kind_addOutput]

@[simp] theorem children_addOutputs (sources : List BindingId) (target id : BindingId) :
    (sources.foldl (fun graph source => graph.addOutput source target) graph).children id =
      graph.children id := by
  induction sources generalizing graph with
  | nil => rfl
  | cons source rest ih => rw [List.foldl_cons, ih, children_addOutput]

theorem get_addOutputs_of_not_mem {sources : List BindingId} (target : BindingId)
    (h : id ∉ sources) :
    (sources.foldl (fun graph source => graph.addOutput source target) graph).get id =
      graph.get id := by
  induction sources generalizing graph with
  | nil => rfl
  | cons source rest ih =>
    rw [List.mem_cons, not_or] at h
    rw [List.foldl_cons, ih _ h.2, get_addOutput_of_ne graph h.1]

theorem grows_passArgument (routine argument : BindingId) :
    graph.Grows (Frame.passArgument graph routine argument) :=
  (Grows.refl.addOutput argument _).trans (grows_addOutputs _ _ _)

end Lineage.Graph
