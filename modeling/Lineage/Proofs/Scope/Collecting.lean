import Lineage.Proofs.Graph.Edges
import Lineage.Proofs.Scope.Shadowing

/-!
# The edges that collecting frames add

Some frames take whatever reaches them and connect it: with a target, with the first value, with the
value before, with a binding that wraps the values, or with the members of an owner. For bindings
that are delivered one after the other to such a frame, the edges that come to the graph are given
as lists, and the graph gains these edges and nothing else.

## Key results

- `Frame.receive_of_connects`: the edges that one binding adds
- `Scope.receiveAll_connecting`: the edges that several bindings add
- `Graph.Fed.passToMember`: one more value for the members of an owner
- `Graph.Fed.exists_member`: in the end each value flows into a member of its name
- `Scope.collected_edges`: the exact edges, frame by frame
-/

namespace Lineage

namespace Frame

/-- The frame takes every binding and adds edges only. -/
def connects : Frame → Bool
  | assignment _ | wrapper .. | chain _ | members _ true => true
  | _ => false

/-- The edges from owner to member that the frame adds for a binding. -/
def memberEdges : Frame → BindingId → List (BindingId × BindingId)
  | wrapper binding true, id => [(binding, id)]
  | members owner true, id => [(owner, id)]
  | chain (some head), id => if head = id then [] else [(head, id)]
  | _, _ => []

/-- The edges from source to target that the frame adds for a binding. -/
def flowEdges : Frame → BindingId → List (BindingId × BindingId)
  | assignment (some target), id => if target = id then [] else [(id, target)]
  | wrapper binding false, id => [(id, binding)]
  | _, _ => []

variable {frame : Frame}

/-- The edges that one binding adds. -/
theorem receive_of_connects (h : frame.connects = true) (graph : Graph) (id : BindingId) :
    ∃ after, frame.receive graph id = .ok (.consumed (frame.taking id) after) ∧
      graph.Gains after (frame.memberEdges id) (frame.flowEdges id) := by
  cases frame with
  | assignment target =>
    cases target with
    | none => exact ⟨graph, rfl, graph.gains_refl⟩
    | some target =>
      refine ⟨_, rfl, ?_⟩
      -- A target that is sent to itself gets no edge.
      by_cases hsame : target = id
      · simpa [hsame, memberEdges, flowEdges] using graph.gains_refl
      · simpa [hsame, memberEdges, flowEdges] using graph.gains_addOutput id target
  | wrapper binding structural =>
    cases structural with
    | false => exact ⟨_, rfl, graph.gains_addOutput id binding⟩
    | true => exact ⟨_, rfl, graph.gains_addChild binding id⟩
  | members owner structural =>
    cases structural with
    | false => cases h
    | true => exact ⟨_, rfl, graph.gains_addChild owner id⟩
  | chain head =>
    cases head with
    | none => exact ⟨graph, rfl, graph.gains_refl⟩
    | some head =>
      refine ⟨_, rfl, ?_⟩
      by_cases hsame : head = id
      · simpa [hsame, memberEdges, flowEdges] using graph.gains_refl
      · simpa [hsame, memberEdges, flowEdges] using graph.gains_addChild head id
  | _ => cases h

theorem connects_taking (h : frame.connects = true) (id : BindingId) :
    (frame.taking id).connects = true := by
  cases frame with
  | assignment target => cases target <;> rfl
  | members owner structural => cases structural <;> exact h
  | wrapper binding structural => rfl
  | chain head => rfl
  | _ => cases h

/-- The edges that a frame adds for bindings that reach it one after the other. -/
def edgesAlong (edges : Frame → BindingId → List (BindingId × BindingId)) :
    Frame → List BindingId → List (BindingId × BindingId)
  | _, [] => []
  | frame, id :: rest => edges frame id ++ edgesAlong edges (frame.taking id) rest

end Frame

namespace Scope

/-- The bindings are taken by a frame that is opened in the scope for them, which leaves the graph.
    When the frame closes, it reports `reported` to the levels around it. -/
structure Collects (scope : Scope) (frame : Frame) (ids : List BindingId) (graph : Graph)
    (reported : List BindingId) : Prop where
  taken : ∃ full, receiveAll ids (scope.push frame) = (.ok (), { scope with graph }.push full)
  closed : (receiveAll ids (scope.push frame)).2.pop = receiveAll reported { scope with graph }

variable {scope : Scope} {frame full : Frame} {ids reported : List BindingId} {graph : Graph}

theorem collects_of_finish
    (htaken : receiveAll ids (scope.push frame) = (.ok (), { scope with graph }.push full))
    (hfinish : full.finish graph = .ok reported) : scope.Collects frame ids graph reported where
  taken := ⟨full, htaken⟩
  closed := by
    rw [htaken]
    simp only [pop, push, hfinish]

/-- A frame that takes the first binding waits for the others. -/
theorem receiveAll_push_cons {id : BindingId} {after : Frame} (rest : List BindingId)
    (h : frame.receive scope.graph id = .ok (.consumed after graph)) :
    receiveAll (id :: rest) (scope.push frame) =
      receiveAll rest ({ scope with graph }.push after) := by
  have hreceive : (scope.push frame).receive id = .ok ({ scope with graph }.push after) := by
    simp [receive, push, receiveAmong, h, Except.map]
  rw [receiveAll, hreceive]

/-- The edges that several bindings add. -/
theorem receiveAll_connecting (h : frame.connects = true) (scope : Scope) (ids : List BindingId) :
    ∃ graph, receiveAll ids (scope.push frame) =
      (.ok (), { scope with graph }.push (ids.foldl Frame.taking frame)) ∧
      scope.graph.Gains graph (Frame.edgesAlong Frame.memberEdges frame ids)
        (Frame.edgesAlong Frame.flowEdges frame ids) := by
  -- Assignments and chains change by the first binding, so the induction is over all frames that
  -- connect.
  induction ids generalizing frame scope with
  | nil => exact ⟨scope.graph, rfl, scope.graph.gains_refl⟩
  | cons id rest ih =>
    obtain ⟨middle, hreceive, hfirst⟩ := Frame.receive_of_connects h scope.graph id
    obtain ⟨graph, hrest, hlater⟩ := ih (Frame.connects_taking h id) { scope with graph := middle }
    exact ⟨graph, (receiveAll_push_cons rest hreceive).trans hrest, hfirst.trans hlater⟩

end Scope

/-! ### Values for the members of an owner -/

namespace Graph

/-- The graph with a new field for each of the names. -/
def withFields (graph : Graph) (names : List String) : Graph :=
  names.foldl (fun graph name => graph.push (.ofName name .field)) graph

/-- The ids of the next bindings. -/
def nextIds (graph : Graph) (count : Nat) : List BindingId :=
  (List.range count).map fun place => ⟨graph.size + place⟩

/-- The names of the bindings that no member of the owner has, each once. -/
def missingMembers (graph : Graph) (owner : BindingId) (ids : List BindingId) : List String :=
  ((ids.map graph.name).filter fun name => (graph.membersNamed owner name).isEmpty).eraseDups

variable {graph before after : Graph} {owner id : BindingId} {names : List String}

theorem withFields_concat (graph : Graph) (names : List String) (name : String) :
    graph.withFields (names ++ [name]) = (graph.withFields names).push (.ofName name .field) := by
  simp [withFields]

@[simp] theorem size_withFields (graph : Graph) (names : List String) :
    (graph.withFields names).size = graph.size + names.length := by
  induction names using List.reverseRecOn with
  | nil => rfl
  | append_singleton front name ih =>
    rw [withFields_concat, size_push, ih, List.length_append, List.length_singleton]; omega

theorem contains_withFields (hid : graph.contains id = true) (names : List String) :
    (graph.withFields names).contains id = true := by
  rw [contains_iff] at hid ⊢
  rw [size_withFields]
  omega

theorem get_withFields_of_contains (hid : graph.contains id = true) (names : List String) :
    (graph.withFields names).get id = graph.get id := by
  induction names using List.reverseRecOn with
  | nil => rfl
  | append_singleton front name ih =>
    rw [withFields_concat, get_push_of_contains _ (contains_withFields hid front), ih]

/-- The new fields have the names, in order. -/
theorem get_withFields (graph : Graph) {place : Nat} {name : String}
    (h : names[place]? = some name) :
    (graph.withFields names).get ⟨graph.size + place⟩ = .ofName name .field := by
  induction names using List.reverseRecOn with
  | nil => simp at h
  | append_singleton front last ih =>
    rw [withFields_concat]
    -- The fields before the last one keep their places.
    by_cases hplace : place < front.length
    · rw [List.getElem?_append_left hplace] at h
      rw [get_push_of_contains _
        (by rw [contains_iff, size_withFields]; exact Nat.add_lt_add_left hplace _), ih h]
    · obtain ⟨hlt, hname⟩ := List.getElem?_eq_some_iff.mp h
      obtain rfl : place = front.length := by
        rw [List.length_append, List.length_singleton] at hlt
        omega
      have hnext : (graph.withFields front).nextId = ⟨graph.size + front.length⟩ := by
        rw [nextId, size_withFields]
      obtain rfl : last = name := by simpa using hname
      rw [← hnext, get_push_nextId]

theorem mem_nextIds {count : Nat} :
    id ∈ graph.nextIds count ↔ graph.size ≤ id.index ∧ id.index < graph.size + count := by
  constructor
  · intro h
    obtain ⟨place, hplace, rfl⟩ := List.mem_map.mp h
    have hlt := List.mem_range.mp hplace
    exact ⟨Nat.le_add_right _ _, Nat.add_lt_add_left hlt _⟩
  · rintro ⟨hle, hlt⟩
    refine List.mem_map.mpr ⟨id.index - graph.size, List.mem_range.mpr (by omega), ?_⟩
    obtain ⟨index⟩ := id
    rw [Nat.add_sub_cancel' hle]

theorem nodup_nextIds (graph : Graph) (count : Nat) : (graph.nextIds count).Nodup := by
  refine List.Nodup.map ?_ List.nodup_range
  intro place other h
  simpa using h

theorem nextIds_succ (graph : Graph) (count : Nat) :
    graph.nextIds (count + 1) = graph.nextIds count ++ [⟨graph.size + count⟩] := by
  simp [nextIds, List.range_succ]

/-- A name is missing for all bindings if it is for those before or for the last one. -/
theorem missingMembers_concat (graph : Graph) (owner : BindingId) (front : List BindingId)
    (id : BindingId) :
    graph.missingMembers owner (front ++ [id]) =
      if graph.membersNamed owner (graph.name id) = [] ∧
        graph.name id ∉ graph.missingMembers owner front then
        graph.missingMembers owner front ++ [graph.name id]
      else graph.missingMembers owner front := by
  unfold missingMembers
  rw [List.map_append, List.filter_append, List.eraseDups_append, List.map_singleton]
  generalize (front.map graph.name).filter _ = missing
  by_cases hmembers : graph.membersNamed owner (graph.name id) = []
  · -- A name for which an earlier binding brought a field is not missing again.
    by_cases hknown : graph.name id ∈ missing <;>
      simp [hmembers, hknown, List.removeAll, List.mem_eraseDups, List.eraseDups_cons]
  · simp [hmembers, List.removeAll]

@[simp] theorem name_addOutput (graph : Graph) (source target id : BindingId) :
    (graph.addOutput source target).name id = graph.name id := by
  unfold addOutput name
  split
  · rfl
  · rw [get_update]
    split <;> rfl

theorem childNamed?_addOutput (graph : Graph) (source target parent : BindingId) (name : String)
    (kind : Option Binding.Kind) :
    (graph.addOutput source target).childNamed? parent name kind =
      graph.childNamed? parent name kind := by
  simp [childNamed?, latestChild?]

/-- What is left of a graph after values were passed to the members of an owner: a field has come
    for each name that no member had, and each value flows into the latest member of its name. -/
structure Fed (before after : Graph) (owner : BindingId) (ids : List BindingId) : Prop where
  gains : (before.withFields (before.missingMembers owner ids)).Gains after
    ((before.nextIds (before.missingMembers owner ids).length).map (owner, ·))
    (ids.filterMap fun id => (after.childNamed? owner (before.name id) none).map (id, ·))
  found : ∀ id ∈ ids, (after.childNamed? owner (before.name id) none).isSome = true

/-- The owner has its members and the new fields. -/
theorem membersNamed_of_gains {flows : List (BindingId × BindingId)} (hwell : before.WellFormed)
    (howner : before.contains owner = true)
    (h : (before.withFields names).Gains after ((before.nextIds names.length).map (owner, ·)) flows)
    (name : String) :
    after.membersNamed owner name =
      before.membersNamed owner name ++
      (before.nextIds names.length).filter (after.name · == name) := by
  have htargets : targetsOf ((before.nextIds names.length).map (owner, ·)) owner =
      before.nextIds names.length := by
    simp [targetsOf, List.filter_map, Function.comp_def]
  have hchildren : after.children owner = before.children owner ++ before.nextIds names.length := by
    have hold : (before.withFields names).children owner = before.children owner := by
      rw [children, children, get_withFields_of_contains howner]
    rw [h.children (contains_withFields howner names), htargets, hold]
    -- Members that were there have smaller ids than the new ones.
    refine appendNew_of_disjoint (fun id hid hchild => ?_) (before.nodup_nextIds _)
    have hlt := contains_iff.mp (hwell.children owner id hchild)
    have hle := (mem_nextIds.mp hid).1
    omega
  rw [membersNamed, hchildren, List.filter_append, membersNamed]
  congr 1
  refine List.filter_congr fun child hchild => ?_
  have hcontains := hwell.children owner child hchild
  rw [h.name (contains_withFields hcontains names), Graph.name,
    get_withFields_of_contains hcontains]
  rfl

/-- The new fields have the names for which they came. -/
theorem filter_nextIds_eq_nil_iff {members flows : List (BindingId × BindingId)}
    (h : (before.withFields names).Gains after members flows) (name : String) :
    (before.nextIds names.length).filter (after.name · == name) = [] ↔ name ∉ names.map fold := by
  -- The edges that came later leave the names of the new fields.
  have hnamed : ∀ place wanted, names[place]? = some wanted →
      after.name ⟨before.size + place⟩ = fold wanted := by
    intro place wanted hplace
    have hlt := (List.getElem?_eq_some_iff.mp hplace).1
    rw [h.name (by rw [contains_iff, size_withFields]; exact Nat.add_lt_add_left hlt _), Graph.name,
      get_withFields before hplace]
    rfl
  rw [List.filter_eq_nil_iff, nextIds, List.forall_mem_map]
  constructor
  · intro hnone hmem
    obtain ⟨wanted, hwanted, rfl⟩ := List.mem_map.mp hmem
    obtain ⟨place, hlt, hplace⟩ := List.mem_iff_getElem.mp hwanted
    refine hnone place (List.mem_range.mpr hlt) ?_
    rw [hnamed place wanted (List.getElem?_eq_some_iff.mpr ⟨hlt, hplace⟩), beq_self_eq_true]
  · intro hmem place hplace hsame
    have hlt := List.mem_range.mp hplace
    rw [hnamed place _ (List.getElem?_eq_getElem hlt), beq_iff_eq] at hsame
    exact hmem (List.mem_map.mpr ⟨_, List.getElem_mem hlt, hsame⟩)

/-- In a well-formed graph names are folded. -/
theorem WellFormed.fold_name (hwell : graph.WellFormed) (hid : graph.contains id = true) :
    fold (graph.name id) = graph.name id := by
  obtain ⟨spelling, hname⟩ := (hwell id hid).folded
  rw [Graph.name, hname, fold_fold]

theorem map_fold_missingMembers (hwell : graph.WellFormed) (owner : BindingId)
    {ids : List BindingId} (hids : graph.Holds ids) :
    (graph.missingMembers owner ids).map fold = graph.missingMembers owner ids := by
  refine (List.map_congr_left fun name hname => ?_).trans (List.map_id _)
  rw [missingMembers, List.mem_eraseDups] at hname
  obtain ⟨id, hid, rfl⟩ := List.mem_map.mp (List.mem_of_mem_filter hname)
  exact hwell.fold_name (hids id hid)

section

variable {front : List BindingId} (hwell : before.WellFormed)
  (howner : before.contains owner = true) (h : before.Fed after owner front)
  (hfront : before.Holds front) (hid : before.contains id = true)

include howner h

theorem Fed.contains_owner : after.contains owner = true := by
  rw [h.gains.contains]
  exact contains_withFields howner _

omit howner in
theorem Fed.name (hid : before.contains id = true) : after.name id = before.name id := by
  rw [h.gains.name (contains_withFields hid _), Graph.name, get_withFields_of_contains hid]
  rfl

/-- One more binding leaves the edges as they are, since these start from bindings
    that were there. -/
theorem Fed.gains_push (hfront : before.Holds front) (binding : Binding) :
    ((before.withFields (before.missingMembers owner front)).push binding).Gains
      (after.push binding)
      ((before.nextIds (before.missingMembers owner front).length).map (owner, ·))
      (front.filterMap fun id => (after.childNamed? owner (before.name id) none).map (id, ·)) := by
  refine h.gains.push (by simp [contains_withFields howner]) ?_ binding
  intro edge hedge
  obtain ⟨other, hother, hfed⟩ := List.mem_filterMap.mp hedge
  obtain ⟨member, -, rfl⟩ := Option.map_eq_some_iff.mp hfed
  exact contains_withFields (hfront other hother) _

/-- The values before have members of their names, so a name without a member is none of theirs, and
    a field that comes for it does not change what they flow into. -/
theorem Fed.childNamed?_insert (hafter : after.WellFormed)
    (hnone : after.childNamed? owner (before.name id) none = none) {other : BindingId}
    (hother : other ∈ front) :
    ((after.push (.ofName (before.name id) .field)).addChild owner after.nextId).childNamed? owner
      (before.name other) none = after.childNamed? owner (before.name other) none := by
  rw [hafter.childNamed?_insert (h.contains_owner howner), if_neg]
  intro hsame
  have hsome := h.found other hother
  rw [childNamed?, ← hsame, ← childNamed?, hnone] at hsome
  cases hsome

include hwell hfront hid

/-- No member has the name of a value just where it did not have one at first and no field
    has come for it. -/
theorem Fed.childNamed?_eq_none_iff : after.childNamed? owner (before.name id) none = none ↔
    before.membersNamed owner (before.name id) = [] ∧
    before.name id ∉ before.missingMembers owner front := by
  rw [childNamed?_eq, hwell.fold_name hid, List.getLast?_eq_none_iff,
    membersNamed_of_gains hwell howner h.gains, List.append_eq_nil_iff,
    filter_nextIds_eq_nil_iff h.gains, map_fold_missingMembers hwell owner hfront]

/-- A member that a name had at first is the one of that name in the end. -/
theorem Fed.childNamed?_of_some {known : BindingId}
    (hknown : before.childNamed? owner (before.name id) none = some known) :
    after.childNamed? owner (before.name id) none = some known := by
  rw [childNamed?_eq, hwell.fold_name hid] at hknown ⊢
  have hmissing : before.name id ∉ before.missingMembers owner front := by
    rw [missingMembers, List.mem_eraseDups, List.mem_filter, List.isEmpty_iff]
    rintro ⟨-, hempty⟩
    rw [hempty] at hknown
    cases hknown
  rw [← map_fold_missingMembers hwell owner hfront] at hmissing
  rw [membersNamed_of_gains hwell howner h.gains,
    (filter_nextIds_eq_nil_iff h.gains _).mpr hmissing, List.append_nil, hknown]

/-- A value flows into the member of its name that is there. -/
theorem Fed.addOutput {member : BindingId}
    (hfound : after.childNamed? owner (before.name id) none = some member) :
    before.Fed (after.addOutput id member) owner (front ++ [id]) := by
  have hmissing : before.missingMembers owner (front ++ [id]) =
      before.missingMembers owner front := by
    rw [missingMembers_concat, if_neg]
    rw [← h.childNamed?_eq_none_iff hwell howner hfront hid, hfound]
    exact Option.some_ne_none _
  have hgains := h.gains.trans (gains_addOutput after id member)
  refine ⟨?_, fun other hother => ?_⟩
  · rw [hmissing]
    simpa [childNamed?_addOutput, hfound] using hgains
  · rw [childNamed?_addOutput]
    rcases List.mem_append.mp hother with hold | hlast
    · exact h.found other hold
    · rw [List.mem_singleton.mp hlast, hfound]
      rfl

/-- Where no member has the name of a value, a field comes for it, and the value flows into that. -/
theorem Fed.insert (hafter : after.WellFormed)
    (hnone : after.childNamed? owner (before.name id) none = none) :
    before.Fed
      (((after.push (.ofName (before.name id) .field)).addChild owner after.nextId).addOutput id
        after.nextId) owner (front ++ [id]) := by
  -- The new field is the next of the missing ones.
  have hmissing : before.missingMembers owner (front ++ [id]) =
      before.missingMembers owner front ++ [before.name id] := by
    rw [missingMembers_concat,
      if_pos ((h.childNamed?_eq_none_iff hwell howner hfront hid).mp hnone)]
  have hsize : after.nextId = ⟨before.size + (before.missingMembers owner front).length⟩ := by
    rw [nextId, h.gains.size, size_withFields]
  have hpushed := h.gains_push howner hfront (.ofName (before.name id) .field)
  have hgains :=
    (hpushed.trans (gains_addChild _ owner after.nextId)).trans (gains_addOutput _ id after.nextId)
  generalize hfed :
    ((after.push (.ofName (before.name id) .field)).addChild owner after.nextId).addOutput id
    after.nextId = fed at hgains ⊢
  have hself : fed.childNamed? owner (before.name id) none = some after.nextId := by
    rw [← hfed, childNamed?_addOutput, hafter.childNamed?_insert (h.contains_owner howner),
      if_pos rfl]
  -- The others have found a member already, and the new one comes last.
  have hothers : ∀ other ∈ front, fed.childNamed? owner (before.name other) none =
      after.childNamed? owner (before.name other) none := by
    intro other hother
    rw [← hfed, childNamed?_addOutput]
    exact h.childNamed?_insert howner hafter hnone hother
  have hflows : (front ++ [id]).filterMap
      (fun other => (fed.childNamed? owner (before.name other) none).map (other, ·)) =
      front.filterMap (fun other => (after.childNamed? owner (before.name other) none).map
        (other, ·)) ++ [(id, after.nextId)] := by
    rw [List.filterMap_append,
      List.filterMap_congr fun other hother => by rw [hothers other hother]]
    simp [hself]
  refine ⟨?_, fun other hother => ?_⟩
  · rw [hflows, hmissing, withFields_concat, List.length_append, List.length_singleton,
      nextIds_succ, ← hsize]
    simpa using hgains
  · rcases List.mem_append.mp hother with hold | hlast
    · rw [hothers other hold]
      exact h.found other hold
    · rw [List.mem_singleton.mp hlast, hself]
      rfl

/-- One more value for the members of an owner. -/
theorem Fed.passToMember (hafter : after.WellFormed) :
    before.Fed (Frame.passToMember after owner id) owner (front ++ [id]) := by
  rw [Frame.passToMember, h.name hid, childOrInsert]
  cases hfound : after.childNamed? owner (before.name id) none with
  | some member => exact h.addOutput hwell howner hfront hid hfound
  | none => exact h.insert hwell howner hfront hid hafter hfound

end

theorem fed_nil (graph : Graph) (owner : BindingId) : graph.Fed graph owner [] where
  gains := graph.gains_refl
  found := by simp

/-- In the end each value flows into a member of its name, and it is the one that had the name at
    first if there was one. -/
theorem Fed.exists_member {ids : List BindingId} (hwell : before.WellFormed)
    (howner : before.contains owner = true) (hids : before.Holds ids)
    (h : before.Fed after owner ids) {id : BindingId} (hid : id ∈ ids) :
    ∃ member ∈ after.children owner, after.name member = after.name id ∧ member ∈ after.outputs id ∧
      ∀ known, before.childNamed? owner (before.name id) none = some known → member = known := by
  have hcontains := hids id hid
  obtain ⟨member, hfound⟩ := Option.isSome_iff_exists.mp (h.found id hid)
  have hmember : member ∈ after.membersNamed owner (fold (before.name id)) :=
    List.mem_of_getLast? ((childNamed?_eq after owner _).symm.trans hfound)
  rw [membersNamed, List.mem_filter, beq_iff_eq] at hmember
  refine ⟨member, hmember.1, ?_, ?_, fun known hknown => ?_⟩
  · rw [hmember.2, h.name hcontains, hwell.fold_name hcontains]
  · rw [h.gains.outputs (contains_withFields hcontains _), mem_appendNew, mem_targetsOf,
      List.mem_filterMap]
    exact .inr ⟨id, hid, by rw [hfound]; rfl⟩
  · rw [h.childNamed?_of_some hwell howner hids hcontains hknown] at hfound
    exact (Option.some.inj hfound).symm

end Graph

/-! ### Bindings one after the other -/

namespace Frame

/-- A wrapper connects all values with its binding. -/
theorem edgesAlong_wrapper (binding : BindingId) (structural : Bool) (ids : List BindingId) :
    ids.foldl taking (wrapper binding structural) = wrapper binding structural ∧
      edgesAlong memberEdges (wrapper binding structural) ids =
        (if structural then ids.map (binding, ·) else []) ∧
      edgesAlong flowEdges (wrapper binding structural) ids =
        if structural then [] else ids.map (·, binding) := by
  induction ids with
  | nil => cases structural <;> exact ⟨rfl, rfl, rfl⟩
  | cons id rest ih =>
    obtain ⟨hend, hmembers, hflows⟩ := ih
    refine ⟨hend, ?_, ?_⟩
    · rw [edgesAlong]
      refine (congrArg (memberEdges (wrapper binding structural) id ++ ·) hmembers).trans ?_
      cases structural <;> rfl
    · rw [edgesAlong]
      refine (congrArg (flowEdges (wrapper binding structural) id ++ ·) hflows).trans ?_
      cases structural <;> rfl

/-- All values but the target itself flow into the target. -/
theorem edgesAlong_assignment (target : BindingId) (ids : List BindingId) :
    ids.foldl taking (assignment (some target)) = assignment (some target) ∧
      edgesAlong memberEdges (assignment (some target)) ids = [] ∧
      edgesAlong flowEdges (assignment (some target)) ids =
        (ids.filter (· ≠ target)).map (·, target) := by
  induction ids with
  | nil => exact ⟨rfl, rfl, rfl⟩
  | cons id rest ih =>
    obtain ⟨hend, hmembers, hflows⟩ := ih
    refine ⟨hend, hmembers, ?_⟩
    rw [edgesAlong]
    refine (congrArg (flowEdges (assignment (some target)) id ++ ·) hflows).trans ?_
    by_cases hsame : target = id
    · simp [flowEdges, hsame]
    · simp [flowEdges, hsame, Ne.symm hsame]

/-- A chain ends with the last binding, and each binding comes under the one before it unless they
    are the same. -/
theorem edgesAlong_chain (head : BindingId) (ids : List BindingId) :
    ids.foldl taking (chain (some head)) = chain (some (ids.getLastD head)) ∧
      edgesAlong memberEdges (chain (some head)) ids =
        ((head :: ids).zip ids).filter (fun link => link.1 ≠ link.2) ∧
      edgesAlong flowEdges (chain (some head)) ids = [] := by
  induction ids generalizing head with
  | nil => exact ⟨rfl, rfl, rfl⟩
  | cons id rest ih =>
    obtain ⟨hend, hmembers, hflows⟩ := ih id
    refine ⟨?_, ?_, ?_⟩
    · rw [List.foldl_cons, List.getLastD_cons]
      exact hend
    · rw [edgesAlong]
      refine (congrArg (memberEdges (chain (some head)) id ++ ·) hmembers).trans ?_
      by_cases hsame : head = id <;> simp [memberEdges, hsame]
    · exact hflows

end Frame

namespace Scope

/-- Values for the members of an owner, after those of `front`. -/
theorem receiveAll_members {scope : Scope} {owner : BindingId} {front rest : List BindingId}
    {graph : Graph} (hwell : scope.graph.WellFormed) (howner : scope.graph.contains owner = true)
    (hids : scope.graph.Holds (front ++ rest)) (hgraph : graph.WellFormed)
    (h : scope.graph.Fed graph owner front) :
    ∃ after, receiveAll rest ({ scope with graph }.push (.members owner false)) =
        (.ok (), { scope with graph := after }.push (.members owner false)) ∧
      scope.graph.Fed after owner (front ++ rest) := by
  induction rest generalizing front graph with
  | nil =>
    rw [List.append_nil]
    exact ⟨graph, rfl, h⟩
  | cons id rest ih =>
    have hfront : scope.graph.Holds front := hids.subset (List.subset_append_left _ _)
    have hnext := h.passToMember hwell howner hfront (hids id (by simp)) hgraph
    rw [List.append_cons] at hids ⊢
    obtain ⟨after, hrest, hfed⟩ := ih hids (Frame.wellFormed_passToMember hgraph owner id) hnext
    refine ⟨after, (receiveAll_push_cons rest ?_).trans hrest, hfed⟩
    rfl

variable {scope : Scope} {frame : Frame} {ids reported : List BindingId}

/-- A frame that connects what it takes, with its edges and what it reports. -/
theorem exists_collects {full : Frame} {members flows : List (BindingId × BindingId)}
    (h : frame.connects = true) (hfull : ids.foldl Frame.taking frame = full)
    (hmembers : Frame.edgesAlong Frame.memberEdges frame ids = members)
    (hflows : Frame.edgesAlong Frame.flowEdges frame ids = flows)
    (hfinish : ∀ graph, scope.graph.Gains graph members flows → full.finish graph = .ok reported) :
    ∃ graph, scope.Collects frame ids graph reported ∧ scope.graph.Gains graph members flows := by
  obtain ⟨graph, htaken, hgains⟩ := receiveAll_connecting h scope ids
  rw [hfull] at htaken
  rw [hmembers, hflows] at hgains
  exact ⟨graph, collects_of_finish htaken (hfinish graph hgains), hgains⟩

/-- A wrapper reports its binding if the kind of that is reported, whatever it has taken. -/
theorem finish_wrapper {before after : Graph} {members flows : List (BindingId × BindingId)}
    (binding : BindingId) (structural : Bool) (h : before.Gains after members flows) :
    (Frame.wrapper binding structural).finish after =
      .ok (if (before.kind binding).isSignal then [binding] else []) := by
  rw [Frame.finish, h.kind]
  split <;> rfl

/-- The exact edges that bindings add, delivered one after the other to a new frame that closes
    after the last of them. An assignment without a target lets all values flow into the first one,
    and one with a target into that, but no value flows into itself. A chain puts each binding
    under the one before it unless they are the same, and reports the last one. A wrapper lets the
    values flow into its binding or makes them its members, and reports it if its kind is reported.
    Values for the members of an owner flow into the latest members of their names, and for each
    name that no member has one field comes. The graph gains these edges and nothing else, and no
    edge comes twice. -/
theorem collected_edges (scope : Scope) (first : BindingId) (rest : List BindingId) :
    (∃ graph, scope.Collects (.assignment none) (first :: rest) graph [] ∧
      scope.graph.Gains graph [] ((rest.filter (· ≠ first)).map (·, first))) ∧
    (∀ target, ∃ graph, scope.Collects (.assignment (some target)) (first :: rest) graph [] ∧
      scope.graph.Gains graph [] (((first :: rest).filter (· ≠ target)).map (·, target))) ∧
    (∃ graph, scope.Collects (.chain none) (first :: rest) graph [rest.getLastD first] ∧
      scope.graph.Gains graph (((first :: rest).zip rest).filter fun link => link.1 ≠ link.2) []) ∧
    (∀ binding, ∃ graph, scope.Collects (.wrapper binding false) (first :: rest) graph
        (if (scope.graph.kind binding).isSignal then [binding] else []) ∧
      scope.graph.Gains graph [] ((first :: rest).map (·, binding))) ∧
    (∀ binding, ∃ graph, scope.Collects (.wrapper binding true) (first :: rest) graph
        (if (scope.graph.kind binding).isSignal then [binding] else []) ∧
      scope.graph.Gains graph ((first :: rest).map (binding, ·)) []) ∧
    (∀ owner, scope.graph.WellFormed → scope.graph.contains owner = true →
      scope.graph.Holds (first :: rest) →
      ∃ graph, scope.Collects (.members owner false) (first :: rest) graph [] ∧
        scope.graph.Fed graph owner (first :: rest) ∧
        ∀ id ∈ first :: rest, ∃ member ∈ graph.children owner, graph.name member = graph.name id ∧
          member ∈ graph.outputs id ∧
          ∀ known, scope.graph.childNamed? owner (scope.graph.name id) none = some known →
            member = known) ∧
    ∀ (before after : Graph) (members flows : List (BindingId × BindingId)),
      before.Gains after members flows →
      ∀ id, before.contains id = true → (before.children id).Nodup → (before.outputs id).Nodup →
        (after.children id).Nodup ∧ (after.outputs id).Nodup := by
  refine ⟨?_, fun target => ?_, ?_, fun binding => ?_, fun binding => ?_,
    fun owner hwell howner hids => ?_,
    fun before after members flows hgains id hid hchildren houtputs =>
      hgains.nodup hid hchildren houtputs⟩
  · obtain ⟨hend, hmembers, hflows⟩ := Frame.edgesAlong_assignment first rest
    exact exists_collects rfl hend hmembers hflows fun _ _ => rfl
  · obtain ⟨hend, hmembers, hflows⟩ := Frame.edgesAlong_assignment target (first :: rest)
    exact exists_collects rfl hend hmembers hflows fun _ _ => rfl
  · obtain ⟨hend, hmembers, hflows⟩ := Frame.edgesAlong_chain first rest
    exact exists_collects rfl hend hmembers hflows fun _ _ => rfl
  · obtain ⟨hend, hmembers, hflows⟩ := Frame.edgesAlong_wrapper binding false (first :: rest)
    exact exists_collects rfl hend hmembers hflows fun graph hgains =>
      finish_wrapper binding false hgains
  · obtain ⟨hend, hmembers, hflows⟩ := Frame.edgesAlong_wrapper binding true (first :: rest)
    exact exists_collects rfl hend hmembers hflows fun graph hgains =>
      finish_wrapper binding true hgains
  · obtain ⟨graph, htaken, hfed⟩ := @receiveAll_members scope owner [] (first :: rest) _ hwell
      howner hids hwell (Graph.fed_nil scope.graph owner)
    exact ⟨graph, collects_of_finish htaken rfl, hfed, fun id hid =>
      hfed.exists_member hwell howner hids hid⟩

/-- A record `w` with a member `x`, and the variables `x` and `y`. -/
def recordAndVariables : Scope :=
  let record := (Graph.empty.push (.ofName "w" .record)).push (.ofName "x" .field)
  { graph := ((record.addChild ⟨0⟩ ⟨1⟩).push (.ofName "x" .var)).push (.ofName "y" .var)
    root := ⟨.empty, []⟩
    frames := [] }

/-- The first variable flows into the member that is there. For the other one a field comes, though
    it is passed on twice. -/
theorem collected_edges_recordAndVariables :
    recordAndVariables.graph.WellFormed ∧ recordAndVariables.graph.Holds [⟨2⟩, ⟨3⟩, ⟨3⟩] ∧
      ∃ graph, recordAndVariables.Collects (.members ⟨0⟩ false) [⟨2⟩, ⟨3⟩, ⟨3⟩] graph [] ∧
        graph.size = 5 ∧
        ⟨1⟩ ∈ graph.outputs ⟨2⟩ ∧
        ∃ member ∈ graph.children ⟨0⟩, graph.name member = graph.name ⟨3⟩ ∧
          member ∈ graph.outputs ⟨3⟩ := by
  have hwell : recordAndVariables.graph.WellFormed := by
    have hnames := (Graph.wellFormed_empty.push (Binding.wellFormed_ofName _ "w" .record)).push
      (Binding.wellFormed_ofName _ "x" .field)
    have hmember : ((Graph.empty.push (.ofName "w" .record)).push (.ofName "x" .field)).contains
        ⟨1⟩ = true := rfl
    exact ((hnames.addChild ⟨0⟩ hmember).push (Binding.wellFormed_ofName _ "x" .var)).push
      (Binding.wellFormed_ofName _ "y" .var)
  have hids : recordAndVariables.graph.Holds [⟨2⟩, ⟨3⟩, ⟨3⟩] := by
    unfold Graph.Holds
    decide +kernel
  obtain ⟨-, -, -, -, -, hmembers, -⟩ := collected_edges recordAndVariables ⟨2⟩ [⟨3⟩, ⟨3⟩]
  obtain ⟨graph, hcollects, hfed, hflows⟩ := hmembers ⟨0⟩ hwell rfl hids
  obtain ⟨known, -, -, hknown, hsame⟩ := hflows ⟨2⟩ (by simp)
  obtain ⟨member, hchild, hname, hmember, -⟩ := hflows ⟨3⟩ (by simp)
  have hmissing : recordAndVariables.graph.missingMembers ⟨0⟩ [⟨2⟩, ⟨3⟩, ⟨3⟩] = ["y"] := by
    decide +kernel
  refine ⟨hwell, hids, graph, hcollects, ?_, ?_, member, hchild, hname, hmember⟩
  · rw [hfed.gains.size, Graph.size_withFields, hmissing]
    rfl
  · rwa [hsame ⟨1⟩ (by decide +kernel)] at hknown

end Scope

end Lineage
