import Lineage.Proofs.Graph.WellFormed

/-!
# Arguments and calls keep to themselves

No name stands for an argument or a call. They are not declared, and in a sealed graph they are
members of each other only, so whoever goes from member to member, starting from a binding that
names can stand for, never meets them. `Calm` relates a graph to those that come from it by steps
that leave arguments alone: no argument or call is added, no value of an argument flows anywhere,
and no argument gets a member, except for those that are known to be open.

## Key results

- `Sealed.isPublic`: the members of public bindings are public
- `Calm.isSealed`, `Calm.spares`, `Calm.contains`: what calm steps do to arguments and calls
- `outputs_passArgument`, `mem_outputs_passArgument`, `get_passArgument_of_argument`: what passing
  an argument does
-/

namespace Lineage.Graph

variable {graph before middle after : Graph} {touched : List BindingId} {id child : BindingId}

/-- A binding that names can stand for. -/
structure Public (graph : Graph) (id : BindingId) : Prop where
  contains : graph.contains id = true
  kind : (graph.kind id).isPublic = true

theorem Public.grow (h : before.Public id) (hgrows : before.Grows after) : after.Public id :=
  ⟨hgrows.contains h.contains, by rw [hgrows.kind h.contains]; exact h.kind⟩

theorem Public.ne_argument (h : graph.Public id) : graph.kind id ≠ .argument := fun hkind => by
  have hpublic := h.kind
  rw [hkind] at hpublic
  cases hpublic

theorem Public.ne_call (h : graph.Public id) : graph.kind id ≠ .call := fun hkind => by
  have hpublic := h.kind
  rw [hkind] at hpublic
  cases hpublic

theorem isPublic_of_ne {kind : Binding.Kind} (hargument : kind ≠ .argument) (hcall : kind ≠ .call) :
    kind.isPublic = true := by
  cases kind with
  | argument => exact absurd rfl hargument
  | call => exact absurd rfl hcall
  | _ => rfl

/-- What stands in for a binding that does not exist is public, so arguments and calls exist. -/
theorem contains_of_kind (h : (graph.kind id).isPublic = false) : graph.contains id = true := by
  by_contra hnot
  rw [Graph.kind, get_of_not_contains hnot] at h
  cases h

theorem contains_of_argument (h : graph.kind id = .argument) : graph.contains id = true :=
  contains_of_kind (by rw [h]; rfl)

/-- What can be a member of what: an argument only of a call, and a call only of an argument. -/
structure Joins (graph : Graph) (parent child : BindingId) : Prop where
  contains : graph.contains child = true
  argument : graph.kind child = .argument → graph.kind parent = .call
  call : graph.kind child = .call → graph.kind parent = .argument

theorem Joins.congr {parent : BindingId} (h : before.Joins parent child)
    (hgrows : before.Grows after) (hkind : ∀ id, after.kind id = before.kind id) :
    after.Joins parent child :=
  ⟨hgrows.contains h.contains, by rw [hkind, hkind]; exact h.argument,
    by rw [hkind, hkind]; exact h.call⟩

/-- Public bindings may be members of each other. -/
theorem Public.joins {parent : BindingId} (h : graph.Public child) : graph.Joins parent child :=
  ⟨h.contains, fun hkind => absurd hkind h.ne_argument, fun hkind => absurd hkind h.ne_call⟩

/-- Arguments are members of calls only, and calls of arguments only. -/
def Sealed (graph : Graph) : Prop :=
  ∀ parent, ∀ child ∈ graph.children parent, graph.Joins parent child

theorem sealed_empty : empty.Sealed := fun _ _ hchild => nomatch hchild

namespace Sealed

/-- The members of public bindings are public. -/
theorem isPublic (h : graph.Sealed) {owner id : BindingId} (howner : graph.Public owner)
    (hid : id ∈ graph.children owner) : graph.Public id := by
  have hjoins := h owner id hid
  refine ⟨hjoins.contains, isPublic_of_ne (fun hkind => ?_) fun hkind => ?_⟩
  · exact howner.ne_call (hjoins.argument hkind)
  · exact howner.ne_argument (hjoins.call hkind)

/-- No argument is a member of an argument. -/
theorem ne_argument (h : graph.Sealed) {argument id : BindingId}
    (hargument : graph.kind argument = .argument) (hid : id ∈ graph.children argument) :
    graph.kind id ≠ .argument := fun hkind => by
  have hcall := (h argument id hid).argument hkind
  rw [hargument] at hcall
  cases hcall

theorem push (h : graph.Sealed) {binding : Binding} (hchildren : binding.children = []) :
    (graph.push binding).Sealed := by
  intro parent child hchild
  by_cases hparent : graph.contains parent = true
  · rw [children, get_push_of_contains binding hparent] at hchild
    have hjoins := h parent child hchild
    refine ⟨(Grows.refl.push binding).contains hjoins.contains, ?_, ?_⟩ <;>
      rw [kind, kind, get_push_of_contains binding hparent,
        get_push_of_contains binding hjoins.contains]
    · exact hjoins.argument
    · exact hjoins.call
  · -- A new binding has no members, and neither has one that does not exist.
    have hnone : (graph.push binding).children parent = [] := by
      by_cases hnew : (graph.push binding).contains parent = true
      · rw [children, eq_nextId_of_push hnew hparent, get_push_nextId, hchildren]
      · rw [children, get_of_not_contains hnew]
        rfl
    simp [hnone] at hchild

theorem addChild (h : graph.Sealed) {parent child : BindingId} (hjoins : graph.Joins parent child) :
    (graph.addChild parent child).Sealed := by
  intro other member hmember
  rcases mem_children_addChild hmember with hold | ⟨rfl, rfl⟩
  · exact (h other member hold).congr (.addChild _ _ .refl) (kind_addChild graph parent child)
  · exact hjoins.congr (.addChild _ _ .refl) (kind_addChild graph _ _)

theorem addOutput (h : graph.Sealed) (source target : BindingId) :
    (graph.addOutput source target).Sealed := by
  intro parent child hchild
  rw [children_addOutput] at hchild
  exact (h parent child hchild).congr (.addOutput _ _ .refl) (kind_addOutput graph source target)

end Sealed

/-! ### Arguments that are left alone -/

/-- The arguments of the first graph have the same outputs in the second graph and, those touched
    apart, the same members. -/
structure Spares (touched : List BindingId) (before after : Graph) : Prop where
  outputs : ∀ id, before.kind id = .argument → after.outputs id = before.outputs id
  children : ∀ id, before.kind id = .argument → id ∉ touched →
    after.children id = before.children id

namespace Spares

theorem refl : Spares touched before before :=
  ⟨fun _ _ => rfl, fun _ _ _ => rfl⟩

theorem trans (hfirst : Spares touched before middle) (hgrows : before.Grows middle)
    (hlast : Spares touched middle after) : Spares touched before after where
  outputs id hid := by
    have hkind := (hgrows.kind (contains_of_argument hid)).trans hid
    rw [hlast.outputs id hkind, hfirst.outputs id hid]
  children id hid hnot := by
    have hkind := (hgrows.kind (contains_of_argument hid)).trans hid
    rw [hlast.children id hkind hnot, hfirst.children id hid hnot]

/-- An argument that was not there at first need not be spared afterwards. -/
theorem trans_of_fresh (hfirst : Spares touched before middle) (hgrows : before.Grows middle)
    {fresh : BindingId} (hfresh : before.contains fresh = false)
    (houtputs : ∀ id, middle.kind id = .argument → id ≠ fresh →
      after.outputs id = middle.outputs id)
    (hchildren : ∀ id, middle.kind id = .argument → id ≠ fresh → id ∉ touched →
      after.children id = middle.children id) : Spares touched before after := by
  have hold : ∀ id, before.kind id = .argument → middle.kind id = .argument ∧ id ≠ fresh := by
    intro id hid
    refine ⟨(hgrows.kind (contains_of_argument hid)).trans hid, ?_⟩
    rintro rfl
    rw [contains_of_argument hid] at hfresh
    cases hfresh
  refine ⟨fun id hid => ?_, fun id hid hnot => ?_⟩
  · obtain ⟨hkind, hne⟩ := hold id hid
    rw [houtputs id hkind hne, hfirst.outputs id hid]
  · obtain ⟨hkind, hne⟩ := hold id hid
    rw [hchildren id hkind hne hnot, hfirst.children id hid hnot]

theorem push (binding : Binding) : Spares touched graph (graph.push binding) where
  outputs id hid := by
    rw [Graph.outputs, get_push_of_contains binding (contains_of_argument hid)]; rfl
  children id hid _ := by
    rw [Graph.children, get_push_of_contains binding (contains_of_argument hid)]; rfl

theorem addChild {parent child : BindingId} (h : graph.kind parent = .argument → parent ∈ touched) :
    Spares touched graph (graph.addChild parent child) where
  outputs id _ := outputs_addChild graph parent child id
  children id hid hnot := by
    have hne : id ≠ parent := fun hsame => hnot (hsame ▸ h (hsame ▸ hid))
    rw [Graph.children, get_addChild_of_ne graph hne]
    rfl

theorem addOutput {source target : BindingId} (h : graph.kind source ≠ .argument) :
    Spares touched graph (graph.addOutput source target) where
  outputs id hid := by
    have hne : id ≠ source := fun hsame => h (hsame ▸ hid)
    rw [Graph.outputs, get_addOutput_of_ne graph hne]
    rfl
  children id _ _ := children_addOutput graph source target id

end Spares

/-- The second graph comes from the first one by adding public bindings, members of public or
    touched bindings, and flows of values that are no arguments. -/
inductive Calm (touched : List BindingId) (before : Graph) : Graph → Prop where
  | refl : Calm touched before before
  | push {after : Graph} {binding : Binding} :
      Calm touched before after → binding.Fresh → Calm touched before (after.push binding)
  | addChild {after : Graph} {parent child : BindingId} :
      Calm touched before after → after.Joins parent child →
      (after.kind parent = .argument → parent ∈ touched) →
        Calm touched before (after.addChild parent child)
  | addOutput {after : Graph} {source : BindingId} (target : BindingId) :
      Calm touched before after → after.kind source ≠ .argument →
      Calm touched before (after.addOutput source target)

namespace Calm

theorem grows (h : Calm touched before after) : before.Grows after := by
  induction h with
  | refl => exact .refl
  | push _ _ ih => exact ih.push _
  | addChild _ _ _ ih => exact ih.addChild _ _
  | addOutput target _ _ ih => exact ih.addOutput _ target

theorem trans (hfirst : Calm touched before middle) (hlast : Calm touched middle after) :
    Calm touched before after := by
  induction hlast with
  | refl => exact hfirst
  | push _ hfresh ih => exact ih.push hfresh
  | addChild _ hjoins hparent ih => exact ih.addChild hjoins hparent
  | addOutput target _ hsource ih => exact ih.addOutput target hsource

theorem mono {more : List BindingId} (h : Calm touched before after) (hmore : touched ⊆ more) :
    Calm more before after := by
  induction h with
  | refl => exact .refl
  | push _ hfresh ih => exact ih.push hfresh
  | addChild _ hjoins hparent ih => exact ih.addChild hjoins fun hkind => hmore (hparent hkind)
  | addOutput target _ hsource ih => exact ih.addOutput target hsource

theorem spares (h : Calm touched before after) : Spares touched before after := by
  induction h with
  | refl => exact .refl
  | push hcalm _ ih => exact ih.trans hcalm.grows (.push _)
  | addChild hcalm _ hparent ih => exact ih.trans hcalm.grows (.addChild hparent)
  | addOutput target hcalm hsource ih => exact ih.trans hcalm.grows (.addOutput hsource)

/-- Calm steps keep a graph sealed. -/
theorem isSealed (h : Calm touched before after) (hsealed : before.Sealed) : after.Sealed := by
  induction h with
  | refl => exact hsealed
  | push _ hfresh ih => exact ih.push hfresh.children
  | addChild _ hjoins _ ih => exact ih.addChild hjoins
  | addOutput target _ _ ih => exact ih.addOutput _ target

/-- No argument or call is added. -/
theorem contains {id : BindingId} (h : Calm touched before after)
    (hid : (after.kind id).isPublic = false) : before.contains id = true := by
  -- Only public bindings are added, so a private one was there from the start.
  induction h with
  | refl => exact contains_of_kind hid
  | @push after binding _ hfresh ih =>
    by_cases hold : after.contains id = true
    · rw [kind, get_push_of_contains binding hold] at hid
      exact ih hid
    · rw [kind, eq_nextId_of_push (contains_of_kind hid) hold, get_push_nextId,
        hfresh.isPublic] at hid
      cases hid
  | addChild _ _ _ ih => exact ih (by rwa [kind_addChild] at hid)
  | addOutput target _ _ ih => exact ih (by rwa [kind_addOutput] at hid)

/-- A member that is found or added. -/
theorem childOrInsert {parent : BindingId} (name : String) {kind : Binding.Kind}
    (hparent : graph.Public parent) (hkind : kind.isPublic = true) :
    Calm touched graph (graph.childOrInsert parent name kind).2 := by
  unfold Graph.childOrInsert
  split
  · exact .refl
  · have hfresh := Binding.fresh_ofName name hkind
    have hgrows : graph.Grows (graph.push (.ofName name kind)) := .push _ .refl
    have hnew : (graph.push (.ofName name kind)).Public graph.nextId :=
      ⟨graph.contains_push_nextId _, by rw [Graph.kind, get_push_nextId]; exact hkind⟩
    exact (Calm.refl.push hfresh).addChild hnew.joins fun hargument =>
      absurd hargument (hparent.grow hgrows).ne_argument

/-- Several values flow into one target. -/
theorem addOutputs {sources : List BindingId} (target : BindingId)
    (h : ∀ source ∈ sources, graph.kind source ≠ .argument) :
    Calm touched graph
      (sources.foldl (fun graph source => graph.addOutput source target) graph) := by
  induction sources generalizing graph with
  | nil => exact .refl
  | cons source rest ih =>
    obtain ⟨hsource, hrest⟩ := List.forall_mem_cons.mp h
    refine (Calm.refl.addOutput target hsource).trans (ih fun other hother => ?_)
    rw [kind_addOutput]
    exact hrest other hother

end Calm

/-! ### Passing an argument -/

/-- Where an argument goes: to the parameter that it is meant for or, if there is none,
    to the routine. -/
def destination (graph : Graph) (routine argument : BindingId) : BindingId :=
  (Frame.parameterFor? graph routine argument).getD routine

section

variable (graph) (routine argument : BindingId)

@[simp] theorem children_passArgument (id : BindingId) :
    (Frame.passArgument graph routine argument).children id = graph.children id := by
  unfold Frame.passArgument
  rw [children_addOutputs, children_addOutput]

@[simp] theorem kind_passArgument (id : BindingId) :
    (Frame.passArgument graph routine argument).kind id = graph.kind id := by
  unfold Frame.passArgument
  rw [kind_addOutputs, kind_addOutput]

/-- Passing an argument changes the argument and its members, and nothing else. -/
theorem get_passArgument_of_ne {id : BindingId} (hne : id ≠ argument)
    (hnot : id ∉ graph.children argument) :
    (Frame.passArgument graph routine argument).get id = graph.get id := by
  unfold Frame.passArgument
  rw [get_addOutputs_of_not_mem _ _ (by rwa [children_addOutput]), get_addOutput_of_ne graph hne]

end

variable {routine argument : BindingId}

/-- An argument without outputs gets just one. -/
theorem outputs_passArgument (hcontains : graph.contains argument = true)
    (hnone : graph.outputs argument = []) (hself : argument ∉ graph.children argument) :
    (Frame.passArgument graph routine argument).outputs argument =
      [graph.destination routine argument] := by
  unfold Frame.passArgument
  rw [outputs, get_addOutputs_of_not_mem _ _ (by rwa [children_addOutput])]
  have hnone' : (graph.get argument).outputs = [] := hnone
  simp [addOutput, hnone, get_update, hcontains, hnone', destination]

/-- The members of an argument flow where the argument does. -/
theorem mem_outputs_passArgument (hchild : child ∈ graph.children argument)
    (hcontains : graph.contains child = true) :
    graph.destination routine argument ∈
      (Frame.passArgument graph routine argument).outputs child := by
  unfold Frame.passArgument destination
  simp only [children_addOutput]
  exact mem_outputs_addOutputs hchild ((Grows.refl.addOutput _ _).contains hcontains)

theorem Sealed.passArgument (h : graph.Sealed) :
    (Frame.passArgument graph routine argument).Sealed := by
  intro parent child hchild
  rw [children_passArgument] at hchild
  exact (h parent child hchild).congr (grows_passArgument graph routine argument)
    (kind_passArgument graph routine argument)

/-- Passing an argument leaves all other arguments alone. -/
theorem get_passArgument_of_argument (hsealed : graph.Sealed)
    (hargument : graph.kind argument = .argument) (hid : graph.kind id = .argument)
    (hne : id ≠ argument) : (Frame.passArgument graph routine argument).get id = graph.get id :=
  get_passArgument_of_ne graph routine argument hne fun hmem =>
    hsealed.ne_argument hargument hmem hid

end Lineage.Graph
