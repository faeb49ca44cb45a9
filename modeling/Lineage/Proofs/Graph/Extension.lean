import Lineage.Proofs.Graph.Growth

/-!
# Nothing in a graph is ever lost

A graph extends an earlier one if every binding of the earlier graph is still there under its id,
with the same name, kind, position and types, and with the members and outputs that it had, in their
order, before any newer ones. The comment is the one thing that may be replaced, and only where it
is set.

## Key results

- `Extends.trans`: extensions compose
- `extends_of_grows`: a graph that grows extends the one it grows from, comments included
- `extends_setComment`: setting a comment extends the graph, that comment apart
-/

namespace Lineage

/-- The second binding is the first one at a later time: it may have more members and outputs. -/
structure Binding.Extends (before after : Binding) : Prop where
  name : after.name = before.name
  kind : after.kind = before.kind
  position : after.position = before.position
  types : after.types = before.types
  children : before.children <+: after.children
  outputs : before.outputs <+: after.outputs

namespace Binding.Extends

variable {before middle after : Binding}

theorem refl (binding : Binding) : binding.Extends binding :=
  ⟨rfl, rfl, rfl, rfl, List.prefix_refl _, List.prefix_refl _⟩

theorem trans (hfirst : before.Extends middle) (hlast : middle.Extends after) :
    before.Extends after where
  name := hlast.name.trans hfirst.name
  kind := hlast.kind.trans hfirst.kind
  position := hlast.position.trans hfirst.position
  types := hlast.types.trans hfirst.types
  children := hfirst.children.trans hlast.children
  outputs := hfirst.outputs.trans hlast.outputs

end Binding.Extends

namespace Graph

/-- The second graph is the first one at a later time. Its bindings keep their comments, except for
    those whose comments were set. -/
structure Extends (commented : List BindingId) (before after : Graph) : Prop where
  contains : ∀ id, before.contains id = true → after.contains id = true
  binding : ∀ id, before.contains id = true → (before.get id).Extends (after.get id)
  comment : ∀ id, before.contains id = true → id ∉ commented →
    (after.get id).comment = (before.get id).comment

variable {before middle after graph : Graph} {commented more : List BindingId}

namespace Extends

theorem refl (commented : List BindingId) (graph : Graph) : graph.Extends commented graph :=
  ⟨fun _ hid => hid, fun _ _ => .refl _, fun _ _ _ => rfl⟩

theorem trans (hfirst : before.Extends commented middle) (hlast : middle.Extends commented after) :
    before.Extends commented after where
  contains id hid := hlast.contains id (hfirst.contains id hid)
  binding id hid := (hfirst.binding id hid).trans (hlast.binding id (hfirst.contains id hid))
  comment id hid hplain :=
    (hlast.comment id (hfirst.contains id hid) hplain).trans (hfirst.comment id hid hplain)

theorem mono (h : before.Extends commented after) (hmore : commented ⊆ more) :
    before.Extends more after :=
  ⟨h.contains, h.binding, fun id hid hplain => h.comment id hid fun hmem => hplain (hmore hmem)⟩

end Extends

/-! ### What one step extends -/

theorem extends_push (graph : Graph) (binding : Binding) :
    graph.Extends [] (graph.push binding) where
  contains _ hid := (Grows.refl.push binding).contains hid
  binding id hid := by
    rw [get_push_of_contains binding hid]
    exact .refl _
  comment id hid _ := by rw [get_push_of_contains binding hid]

/-- A change of one binding extends the graph if it extends the binding. -/
theorem extends_update {id : BindingId} {change : Binding → Binding}
    (hbinding : ∀ binding : Binding, binding.Extends (change binding))
    (hcomment : id ∉ commented → ∀ binding : Binding, (change binding).comment = binding.comment) :
    graph.Extends commented (graph.update id change) where
  contains other hother := by rwa [contains_iff, size_update, ← contains_iff]
  binding other _ := by
    -- Only one binding changes, and not if its id is beyond the end.
    rw [get_update]
    split
    · exact hbinding _
    · exact .refl _
  comment other _ hplain := by
    rw [get_update]
    split
    · next h => exact hcomment (h.1 ▸ hplain) _
    · rfl

theorem extends_addChild (graph : Graph) (parent child : BindingId) :
    graph.Extends [] (graph.addChild parent child) := by
  unfold addChild
  split
  · exact .refl _ _
  · exact extends_update (fun _ => ⟨rfl, rfl, rfl, rfl, List.prefix_append _ _, List.prefix_refl _⟩)
      fun _ _ => rfl

theorem extends_addOutput (graph : Graph) (source target : BindingId) :
    graph.Extends [] (graph.addOutput source target) := by
  unfold addOutput
  split
  · exact .refl _ _
  · exact extends_update (fun _ => ⟨rfl, rfl, rfl, rfl, List.prefix_refl _, List.prefix_append _ _⟩)
      fun _ _ => rfl

/-- Setting a comment extends the graph, that comment apart. -/
theorem extends_setComment (graph : Graph) (id : BindingId) (comment : String) :
    graph.Extends [id] (graph.setComment id comment) :=
  extends_update (fun _ => ⟨rfl, rfl, rfl, rfl, List.prefix_refl _, List.prefix_refl _⟩)
    fun hplain => absurd (List.mem_singleton_self id) hplain

/-- A graph that grows extends the one it grows from. -/
theorem extends_of_grows (h : before.Grows after) : before.Extends [] after := by
  induction h with
  | refl => exact .refl _ _
  | push binding _ ih => exact ih.trans (extends_push _ binding)
  | addChild parent child _ ih => exact ih.trans (extends_addChild _ parent child)
  | addOutput source target _ ih => exact ih.trans (extends_addOutput _ source target)

/-- No binding changes its name. -/
theorem Grows.name (h : before.Grows after) {id : BindingId} (hid : before.contains id = true) :
    after.name id = before.name id :=
  ((extends_of_grows h).binding id hid).name

/-- Where a value of the graph once flows into a target, it does ever after. -/
theorem mem_outputs_of_addOutput {source target : BindingId}
    (hsource : graph.contains source = true) (h : (graph.addOutput source target).Grows after) :
    target ∈ after.outputs source := by
  -- The output is there right after it was added, or even before.
  have hadded : target ∈ (graph.addOutput source target).outputs source := by
    unfold addOutput
    split
    · next hknown => simpa using hknown
    · simp [outputs, get_update, hsource]
  have hcontains := (extends_addOutput graph source target).contains source hsource
  exact ((extends_of_grows h).binding source hcontains).outputs.subset hadded

/-- Each of several values flows into their target. -/
theorem mem_outputs_addOutputs {sources : List BindingId} {source target : BindingId}
    (h : source ∈ sources) (hcontains : graph.contains source = true) :
    target ∈
      (sources.foldl (fun graph source => graph.addOutput source target) graph).outputs source := by
  induction sources generalizing graph with
  | nil => simp at h
  | cons first rest ih =>
    rcases List.mem_cons.mp h with rfl | hrest
    · exact mem_outputs_of_addOutput hcontains (grows_addOutputs _ rest target)
    · exact ih hrest ((Grows.refl.addOutput first target).contains hcontains)

end Graph

end Lineage
