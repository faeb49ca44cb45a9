import Mathlib.Data.List.Nodup
import Lineage.Catalog
import Lineage.Proofs.Graph.Extension

/-!
# Well-formed graphs and catalogs

In a well-formed graph all members and outputs exist, none is listed twice, and every name is
folded. In a well-formed catalog all ids exist, and the index by name holds the declared ids and
nothing else, those of each name in the order of their declaration.

## Key results

- `WellFormed.push`, `WellFormed.addChild`, `WellFormed.addOutput`, `WellFormed.setComment`,
  `WellFormed.childOrInsert`, `WellFormed.addOutputs`: what is done to a graph keeps it well-formed
- `Catalog.WellFormed.extend`: a catalog stays well-formed when the graph is extended
- `Catalog.WellFormed.add`: declaring keeps a catalog well-formed
- `Catalog.WellFormed.of_lookup?`: what a catalog finds is declared, exists and has the name
-/

namespace Lineage

namespace Graph

/-- Every one of the ids is that of a binding of the graph. -/
def Holds (graph : Graph) (ids : List BindingId) : Prop :=
  ∀ id ∈ ids, graph.contains id = true

instance (graph : Graph) (ids : List BindingId) : Decidable (graph.Holds ids) :=
  inferInstanceAs (Decidable (∀ id ∈ ids, graph.contains id = true))

variable {graph before after : Graph} {ids more : List BindingId}

theorem holds_nil (graph : Graph) : graph.Holds [] := by
  simp [Holds]

theorem Holds.append (hids : graph.Holds ids) (hmore : graph.Holds more) :
    graph.Holds (ids ++ more) := by
  intro id hid
  rcases List.mem_append.mp hid with hmem | hmem
  · exact hids id hmem
  · exact hmore id hmem

theorem holds_singleton {id : BindingId} (hid : graph.contains id = true) : graph.Holds [id] := by
  simpa [Holds] using hid

theorem Holds.subset (h : graph.Holds ids) (hsub : more ⊆ ids) : graph.Holds more :=
  fun id hid => h id (hsub hid)

/-- What a graph holds stays in it. -/
theorem Holds.extend {commented : List BindingId} (h : before.Holds ids)
    (hextends : before.Extends commented after) : after.Holds ids :=
  fun id hid => hextends.contains id (h id hid)

theorem Holds.grow (h : before.Holds ids) (hgrows : before.Grows after) : after.Holds ids :=
  h.extend (extends_of_grows hgrows)

end Graph

/-- The name is folded, and members and outputs exist and are listed once. -/
structure Binding.WellFormed (graph : Graph) (binding : Binding) : Prop where
  folded : ∃ spelling, binding.name = fold spelling
  children : graph.Holds binding.children
  outputs : graph.Holds binding.outputs
  nodup_children : binding.children.Nodup
  nodup_outputs : binding.outputs.Nodup

/-- A new binding is well-formed. -/
theorem Binding.wellFormed_ofName (graph : Graph) (name : String) (kind : Kind) :
    (ofName name kind).WellFormed graph :=
  ⟨⟨name, rfl⟩, graph.holds_nil, graph.holds_nil, List.nodup_nil, List.nodup_nil⟩

variable {binding : Binding}

theorem Binding.WellFormed.withPosition {graph : Graph} (h : binding.WellFormed graph)
    (position : Nat) : (binding.withPosition position).WellFormed graph :=
  { h with }

theorem Binding.WellFormed.grow {before after : Graph} (h : binding.WellFormed before)
    (hgrows : before.Grows after) : binding.WellFormed after :=
  { h with children := h.children.grow hgrows, outputs := h.outputs.grow hgrows }

/-- Names can stand for bindings of this kind: all but arguments and calls. -/
def Binding.Kind.isPublic : Binding.Kind → Bool
  | argument | call => false
  | _ => true

/-- The binding is as it can be added: its name is folded, names can stand for it, and it has
    neither members nor outputs. -/
structure Binding.Fresh (binding : Binding) : Prop where
  folded : ∃ spelling, binding.name = fold spelling
  isPublic : binding.kind.isPublic = true
  children : binding.children = []
  outputs : binding.outputs = []

theorem Binding.fresh_ofName (name : String) {kind : Kind} (h : kind.isPublic = true) :
    (ofName name kind).Fresh :=
  ⟨⟨name, rfl⟩, h, rfl, rfl⟩

theorem Binding.Fresh.withPosition (h : binding.Fresh) (position : Nat) :
    (binding.withPosition position).Fresh :=
  ⟨h.folded, h.isPublic, h.children, h.outputs⟩

theorem Binding.Fresh.wellFormed (h : binding.Fresh) (graph : Graph) :
    binding.WellFormed graph where
  folded := h.folded
  children := h.children ▸ graph.holds_nil
  outputs := h.outputs ▸ graph.holds_nil
  nodup_children := h.children ▸ List.nodup_nil
  nodup_outputs := h.outputs ▸ List.nodup_nil

namespace Graph

/-- All bindings of the graph are well-formed. -/
def WellFormed (graph : Graph) : Prop :=
  ∀ id, graph.contains id = true → (graph.get id).WellFormed graph

theorem wellFormed_empty : empty.WellFormed := by
  intro id hid
  simp [contains, empty, size] at hid

theorem get_of_not_contains {graph : Graph} {id : BindingId} (h : ¬graph.contains id = true) :
    graph.get id = .blank := by
  rw [contains_iff, size] at h
  simp [get, h]

namespace WellFormed

variable {graph : Graph} (h : graph.WellFormed)

include h

theorem children (id : BindingId) : graph.Holds (graph.children id) := by
  by_cases hid : graph.contains id = true
  · exact (h id hid).children
  · rw [Graph.children, get_of_not_contains hid]
    exact graph.holds_nil

theorem push {binding : Binding} (hbinding : binding.WellFormed graph) :
    (graph.push binding).WellFormed := by
  have hgrows : graph.Grows (graph.push binding) := .push binding .refl
  intro id hid
  by_cases hold : graph.contains id = true
  · rw [get_push_of_contains binding hold]
    exact (h id hold).grow hgrows
  · rw [eq_nextId_of_push hid hold, get_push_nextId]
    exact hbinding.grow hgrows

/-- A change of one binding that keeps it well-formed. -/
theorem update {id : BindingId} {change : Binding → Binding}
    (hchange : (graph.get id).WellFormed graph → (change (graph.get id)).WellFormed graph) :
    (graph.update id change).WellFormed := by
  have hsame : ∀ binding : Binding, binding.WellFormed graph →
      -- Being well-formed is about which ids exist, and an update adds and removes none.
      binding.WellFormed (graph.update id change) := by
    have hholds : ∀ ids, graph.Holds ids → (graph.update id change).Holds ids := by
      intro ids hids other hother
      rw [contains_iff, size_update, ← contains_iff]
      exact hids other hother
    exact fun binding hbinding => { hbinding with
      children := hholds _ hbinding.children
      outputs := hholds _ hbinding.outputs }
  intro other hother
  rw [contains_iff, size_update, ← contains_iff] at hother
  rw [get_update]
  split
  · next hid =>
    rw [← hid.1]
    exact hsame _ (hchange (hid.1 ▸ h other hother))
  · exact hsame _ (h other hother)

theorem addChild (parent : BindingId) {child : BindingId} (hchild : graph.contains child = true) :
    (graph.addChild parent child).WellFormed := by
  unfold Graph.addChild
  split
  · exact h
  · next hnew =>
    refine h.update fun hbinding => { hbinding with
      children := hbinding.children.append (holds_singleton hchild)
      nodup_children := ?_ }
    have hnot : child ∉ (graph.get parent).children := by simpa [Graph.children] using hnew
    exact List.concat_eq_append ▸ hbinding.nodup_children.concat hnot

theorem addOutput (source : BindingId) {target : BindingId}
    (htarget : graph.contains target = true) : (graph.addOutput source target).WellFormed := by
  unfold Graph.addOutput
  split
  · exact h
  · next hnew =>
    refine h.update fun hbinding => { hbinding with
      outputs := hbinding.outputs.append (holds_singleton htarget)
      nodup_outputs := ?_ }
    have hnot : target ∉ (graph.get source).outputs := by simpa [Graph.outputs] using hnew
    exact List.concat_eq_append ▸ hbinding.nodup_outputs.concat hnot

theorem setComment (id : BindingId) (comment : String) : (graph.setComment id comment).WellFormed :=
  h.update fun hbinding => { hbinding with }

/-- Several values flow into one target. -/
theorem addOutputs (sources : List BindingId) {target : BindingId}
    (htarget : graph.contains target = true) :
    (sources.foldl (fun graph source => graph.addOutput source target) graph).WellFormed := by
  induction sources generalizing graph with
  | nil => exact h
  | cons source rest ih =>
    exact ih (h.addOutput source htarget) ((Grows.refl.addOutput source target).contains htarget)

theorem of_latestChild? {parent id : BindingId} {name : String} {accepts : Binding.Kind → Bool}
    (hfound : graph.latestChild? parent name accepts = some id) : graph.contains id = true := by
  have hmem := List.mem_of_find?_eq_some hfound
  exact h.children parent id (List.mem_reverse.mp hmem)

/-- A member that is found or added. -/
theorem childOrInsert (parent : BindingId) (name : String) (kind : Binding.Kind) :
    (graph.childOrInsert parent name kind).2.WellFormed ∧
      (graph.childOrInsert parent name kind).2.contains (graph.childOrInsert parent name kind).1 =
        true := by
  unfold Graph.childOrInsert
  split
  · next hfound => exact ⟨h, h.of_latestChild? hfound⟩
  · have hnew := graph.contains_push_nextId (.ofName name kind)
    exact ⟨(h.push (Binding.wellFormed_ofName graph name kind)).addChild parent hnew,
      (Grows.refl.addChild parent graph.nextId).contains hnew⟩

end WellFormed

end Graph

/-! ### Catalogs -/

namespace Catalog

/-- The declared ids of a name, in the order of their declaration. -/
def group (catalog : Catalog) (graph : Graph) (name : String) : List BindingId :=
  catalog.order.filter fun id => graph.name id == name

/-- The declared ids exist and are listed once, and the index holds them and nothing else, grouped
    by their names. -/
structure WellFormed (graph : Graph) (catalog : Catalog) : Prop where
  holds : graph.Holds catalog.order
  nodup : catalog.order.Nodup
  indexed : ∀ name, catalog.byName[name]? =
    if catalog.group graph name = [] then none else some (catalog.group graph name)

theorem mem_order_add {catalog : Catalog} {graph : Graph} {id other : BindingId} :
    other ∈ (catalog.add graph id).order ↔ other ∈ catalog.order ∨ other = id := by
  unfold add contains
  split
  · next hmem =>
    have hid : id ∈ catalog.order := by simpa using hmem
    exact ⟨.inl, fun h => h.elim (fun h => h) fun h => h ▸ hid⟩
  · simp

theorem wellFormed_empty (graph : Graph) : empty.WellFormed graph :=
  ⟨graph.holds_nil, List.nodup_nil, fun name => by simp [empty, group]⟩

namespace WellFormed

variable {graph after : Graph} {catalog : Catalog} {id : BindingId}

/-- The ids declared under a name. -/
theorem named (h : catalog.WellFormed graph) (name : String) :
    catalog.named name = catalog.group graph name := by
  rw [Catalog.named, Std.TreeMap.getD_eq_getD_getElem?, h.indexed name]
  split
  · next hnil => rw [hnil]; rfl
  · rfl

/-- Names stay, so the index stays right when the graph is extended. -/
theorem extend {commented : List BindingId} (h : catalog.WellFormed graph)
    (hextends : graph.Extends commented after) : catalog.WellFormed after := by
  have hname : ∀ id ∈ catalog.order, after.name id = graph.name id := fun id hid =>
    (hextends.binding id (h.holds id hid)).name
  have hgroup : ∀ name, catalog.group after name = catalog.group graph name := fun name =>
    List.filter_congr fun id hid => by rw [hname id hid]
  exact ⟨h.holds.extend hextends, h.nodup, fun name => by rw [hgroup, h.indexed name]⟩

theorem grow (h : catalog.WellFormed graph) (hgrows : graph.Grows after) :
    catalog.WellFormed after :=
  h.extend (Graph.extends_of_grows hgrows)

theorem add (h : catalog.WellFormed graph) (hid : graph.contains id = true) :
    (catalog.add graph id).WellFormed graph := by
  unfold Catalog.add
  split
  · exact h
  · next hnew =>
    have hnot : id ∉ catalog.order := by simpa [Catalog.contains] using hnew
    refine ⟨h.holds.append (Graph.holds_singleton hid), List.concat_eq_append ▸ h.nodup.concat hnot,
      fun name => ?_⟩
    -- The group of the id's own name gets longer, and all others stay.
    rw [Std.TreeMap.getElem?_insert, h.named]
    by_cases hname : graph.name id = name
    · simp [group, hname]
    · simpa [group, hname] using h.indexed name

/-- Several bindings are declared in a row. -/
theorem addAll (h : catalog.WellFormed graph) {ids : List BindingId} (hids : graph.Holds ids) :
    (ids.foldl (·.add graph) catalog).WellFormed graph := by
  induction ids generalizing catalog with
  | nil => exact h
  | cons id rest ih =>
    obtain ⟨hid, hrest⟩ := List.forall_mem_cons.mp hids
    exact ih (h.add hid) hrest

/-- What a catalog finds is declared there under the name, with an accepted kind. -/
theorem of_lookup? (h : catalog.WellFormed graph) {name : String} {accepts : Binding.Kind → Bool}
    (hfound : catalog.lookup? graph name accepts = some id) :
    id ∈ catalog.order ∧ graph.name id = name ∧ accepts (graph.kind id) = true := by
  unfold Catalog.lookup? at hfound
  have hmem := List.mem_of_find?_eq_some hfound
  have haccepts := List.find?_some hfound
  rw [h.named, List.mem_reverse, group, List.mem_filter] at hmem
  exact ⟨hmem.1, by simpa using hmem.2, haccepts⟩

/-- Where nothing is found under a name, nothing of an accepted kind is declared under it. -/
theorem not_accepts_of_lookup? (h : catalog.WellFormed graph) {accepts : Binding.Kind → Bool}
    (hid : id ∈ catalog.order) (hnone : catalog.lookup? graph (graph.name id) accepts = none) :
    accepts (graph.kind id) = false := by
  unfold Catalog.lookup? at hnone
  rw [h.named, List.find?_eq_none] at hnone
  rw [← Bool.not_eq_true]
  exact hnone id (by simp [group, hid])

end WellFormed

end Catalog

end Lineage
