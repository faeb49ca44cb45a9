import Mathlib.Data.List.Induction
import Mathlib.Tactic.Tauto
import Lineage.Proofs.Graph.WellFormed

/-!
# The edges that a graph gains

Members and outputs come to the end of their lists, each once. `Gains` says of two graphs that they
differ by given edges and by nothing else, so it says of every binding what all its fields are.

## Key results

- `appendNew_appendNew`: items that come in two parts
- `Gains.trans`: edges that come in two parts
- `gains_addChild`, `gains_addOutput`: one edge
- `Gains.push`: the same edges with one more binding in both graphs
- `Gains.nodup`: nothing comes twice
-/

namespace Lineage

/-- The known items, and those added to them that are not known, each once and in the order in
    which they come. -/
def appendNew {α : Type} [BEq α] (known added : List α) : List α :=
  known ++ (added.filter (!known.contains ·)).eraseDups

section

variable {α : Type} [BEq α] [LawfulBEq α]

@[simp] theorem appendNew_nil (known : List α) : appendNew known [] = known := by
  simp [appendNew]

theorem mem_appendNew {known added : List α} {item : α} :
    item ∈ appendNew known added ↔ item ∈ known ∨ item ∈ added := by
  simp only [appendNew, List.mem_append, List.mem_eraseDups, List.mem_filter, Bool.not_eq_true',
    List.contains_eq_mem, decide_eq_false_iff_not]
  tauto

theorem appendNew_singleton (known : List α) (item : α) :
    appendNew known [item] = if known.contains item then known else known ++ [item] := by
  by_cases hknown : known.contains item = true <;> simp_all [appendNew, List.eraseDups_cons]

/-- Items that come in two parts come one part after the other. -/
theorem appendNew_appendNew (known first second : List α) :
    appendNew (appendNew known first) second = appendNew known (first ++ second) := by
  -- What is new to the first result is what is new at all and not among the first additions.
  have hfilter : second.filter (!(appendNew known first).contains ·) =
      (second.filter (!known.contains ·)).removeAll (first.filter (!known.contains ·)) := by
    rw [List.removeAll, List.filter_filter]
    refine List.filter_congr fun item _ => ?_
    rw [Bool.eq_iff_iff]
    simp only [Bool.not_eq_true', List.contains_eq_mem, decide_eq_false_iff_not, mem_appendNew,
      Bool.and_eq_true, List.mem_filter]
    tauto
  rw [appendNew, hfilter, appendNew, appendNew, List.append_assoc, List.filter_append,
    List.eraseDups_append]

/-- What is not known and comes once is added as it comes. -/
theorem appendNew_of_disjoint {known added : List α} (hnew : ∀ item ∈ added, item ∉ known)
    (hnodup : added.Nodup) : appendNew known added = known ++ added := by
  induction added using List.reverseRecOn with
  | nil => simp
  | append_singleton front item ih =>
    obtain ⟨hfront, -, hitem⟩ := List.nodup_append.mp hnodup
    have hknown : (known ++ front).contains item = false := by
      have hseparate : item ∉ front := fun hmem => hitem item hmem item List.mem_cons_self rfl
      simpa [hseparate] using hnew item (by simp)
    rw [← appendNew_appendNew,
      ih (fun other hother => hnew other (List.mem_append_left _ hother)) hfront,
      appendNew_singleton, hknown, List.append_assoc]
    rfl

theorem nodup_appendNew {known : List α} (h : known.Nodup) (added : List α) :
    (appendNew known added).Nodup := by
  induction added using List.reverseRecOn with
  | nil => simpa using h
  | append_singleton front item ih =>
    rw [← appendNew_appendNew, appendNew_singleton]
    split
    · exact ih
    · next hknown => exact List.concat_eq_append ▸ ih.concat (by simpa using hknown)

end

namespace Graph

/-- Where the edges from a binding lead, first to last. -/
def targetsOf (edges : List (BindingId × BindingId)) (id : BindingId) : List BindingId :=
  (edges.filter (·.1 = id)).map (·.2)

@[simp] theorem targetsOf_nil (id : BindingId) : targetsOf [] id = [] :=
  rfl

theorem targetsOf_append (first second : List (BindingId × BindingId)) (id : BindingId) :
    targetsOf (first ++ second) id = targetsOf first id ++ targetsOf second id := by
  simp [targetsOf]

theorem targetsOf_singleton (source target id : BindingId) :
    targetsOf [(source, target)] id = if source = id then [target] else [] := by
  by_cases hsource : source = id <;> simp [targetsOf, hsource]

theorem mem_targetsOf {edges : List (BindingId × BindingId)} {source target : BindingId} :
    target ∈ targetsOf edges source ↔ (source, target) ∈ edges := by
  simp [targetsOf]

/-- The second graph has the given edges from owner to member and from source to target more than
    the first one. No binding is added, an edge that is known or comes twice is there once, and
    nothing else is changed. -/
structure Gains (before after : Graph) (members flows : List (BindingId × BindingId)) : Prop where
  size : after.size = before.size
  binding : ∀ id, before.contains id = true →
    after.get id =
      { before.get id with
        children := appendNew (before.children id) (targetsOf members id)
        outputs := appendNew (before.outputs id) (targetsOf flows id) }

variable {before middle after graph : Graph}
  {members flows moreMembers moreFlows : List (BindingId × BindingId)}

theorem gains_refl (graph : Graph) : graph.Gains graph [] [] where
  size := rfl
  binding id _ := by simp [children, outputs]

theorem Gains.contains (h : before.Gains after members flows) (id : BindingId) :
    after.contains id = before.contains id := by
  rw [Bool.eq_iff_iff, contains_iff, contains_iff, h.size]

/-- Edges that come in two parts. -/
theorem Gains.trans (hfirst : before.Gains middle members flows)
    (hlast : middle.Gains after moreMembers moreFlows) :
    before.Gains after (members ++ moreMembers) (flows ++ moreFlows) where
  size := hlast.size.trans hfirst.size
  binding id hid := by
    have hbinding := hlast.binding id (by rwa [hfirst.contains])
    simp only [children, outputs, hfirst.binding id hid] at hbinding
    rw [hbinding, targetsOf_append, targetsOf_append, ← appendNew_appendNew, ← appendNew_appendNew]
    rfl

/-- One more member. -/
theorem gains_addChild (graph : Graph) (parent child : BindingId) :
    graph.Gains (graph.addChild parent child) [(parent, child)] [] where
  size := size_addChild graph parent child
  binding id hid := by
    rw [targetsOf_singleton]
    by_cases hparent : parent = id
    · subst hparent
      -- The edge is added unless it is known, just as `appendNew` does.
      rw [if_pos rfl, appendNew_singleton, addChild]
      split
      · simp [children, outputs]
      · simp [get_update, hid, children, outputs]
    · rw [if_neg hparent, get_addChild_of_ne graph (Ne.symm hparent)]
      simp [children, outputs]

/-- One more flow. -/
theorem gains_addOutput (graph : Graph) (source target : BindingId) :
    graph.Gains (graph.addOutput source target) [] [(source, target)] where
  size := size_addOutput graph source target
  binding id hid := by
    rw [targetsOf_singleton]
    by_cases hsource : source = id
    · subst hsource
      rw [if_pos rfl, appendNew_singleton, addOutput]
      split
      · simp [children, outputs]
      · simp [get_update, hid, children, outputs]
    · rw [if_neg hsource, get_addOutput_of_ne graph (Ne.symm hsource)]
      simp [children, outputs]

namespace Gains

variable (h : before.Gains after members flows) {id : BindingId}

include h

theorem name (hid : before.contains id = true) : after.name id = before.name id := by
  rw [Graph.name, h.binding id hid]
  rfl

theorem kind (id : BindingId) : after.kind id = before.kind id := by
  by_cases hid : before.contains id = true
  · rw [Graph.kind, h.binding id hid]
    rfl
  · rw [Graph.kind, Graph.kind, get_of_not_contains hid, get_of_not_contains (by rwa [h.contains])]

theorem children (hid : before.contains id = true) :
    after.children id = appendNew (before.children id) (targetsOf members id) := by
  rw [Graph.children, h.binding id hid]

theorem outputs (hid : before.contains id = true) :
    after.outputs id = appendNew (before.outputs id) (targetsOf flows id) := by
  rw [Graph.outputs, h.binding id hid]

/-- Nothing comes twice. -/
theorem nodup (hid : before.contains id = true) (hchildren : (before.children id).Nodup)
    (houtputs : (before.outputs id).Nodup) :
    (after.children id).Nodup ∧ (after.outputs id).Nodup := by
  rw [h.children hid, h.outputs hid]
  exact ⟨nodup_appendNew hchildren _, nodup_appendNew houtputs _⟩

/-- A binding comes to both graphs, and no edge starts from it. -/
theorem push (hmembers : ∀ edge ∈ members, before.contains edge.1 = true)
    (hflows : ∀ edge ∈ flows, before.contains edge.1 = true) (binding : Binding) :
    (before.push binding).Gains (after.push binding) members flows where
  size := by rw [size_push, size_push, h.size]
  binding id hid := by
    by_cases hold : before.contains id = true
    · rw [get_push_of_contains _ (by rwa [h.contains]), h.binding id hold]
      simp only [Graph.children, Graph.outputs, get_push_of_contains _ hold]
    · -- No edge starts from the new binding, since all sources were there before.
      obtain rfl := eq_nextId_of_push hid hold
      have hnone : ∀ edges : List (BindingId × BindingId),
          (∀ edge ∈ edges, before.contains edge.1 = true) → targetsOf edges before.nextId = [] := by
        intro edges hedges
        rw [targetsOf, List.map_eq_nil_iff, List.filter_eq_nil_iff]
        intro edge hedge hsame
        have hsource := hedges edge hedge
        rw [of_decide_eq_true hsame] at hsource
        exact hold hsource
      have hnext : after.nextId = before.nextId := by rw [nextId, nextId, h.size]
      rw [← hnext, get_push_nextId, hnext, hnone members hmembers, hnone flows hflows]
      simp [Graph.children, Graph.outputs]

end Gains

end Graph

end Lineage
