import Lineage.Proofs.Graph.Extension
import Lineage.Proofs.Scope.Faults

/-!
# Where a binding on its way out stops

A produced binding stops at the innermost level that takes it, or at the root if none does. The
kinds that each level takes are given by `Frame.Takes`. Only the level at which the binding stops
may change, and where it is refused nothing changes at all.

## Key results

- `Frame.receive_eq_forwarded_iff`: a frame passes on just what it does not take
- `Scope.exists_innermost_taker`: there is an innermost level that takes a binding, or there is none
- `Scope.receiveAll_of_inner`: the levels inside of the one that takes a binding stay as they are
- `Scope.bindings_stop_at_innermost_taker`: what becomes of a produced binding, and of the result of
  a routine
-/

namespace Lineage

namespace Frame

variable {frame : Frame} {graph : Graph} {id : BindingId}

/-- The frame takes a binding, for its kind or for its name. -/
def Takes (graph : Graph) (id : BindingId) : Frame → Prop
  | lexical _ owner =>
    graph.kind id = .call ∨ graph.kind id = .field ∧ graph.name id = "delete" ∨
    graph.kind id = .result ∧ owner ≠ none
  | routineCall _ => graph.kind id = .argument
  | select _ => graph.kind id = .relation ∨ graph.kind id = .record
  | effectClause => ¬(graph.kind id = .relation ∨ graph.kind id = .record)
  | _ => True

theorem isSource_iff {kind : Binding.Kind} :
    kind.isSource = true ↔ kind = .relation ∨ kind = .record := by
  cases kind <;> simp [Binding.Kind.isSource]

theorem forwards_eq_true_iff : frame.forwards graph id = true ↔ ¬frame.Takes graph id := by
  cases frame with
  | lexical catalog owner => cases hkind : graph.kind id <;> simp [forwards, Takes, hkind]
  | routineCall routine => simp [forwards, Takes]
  | select query => simp [forwards, Takes, ← isSource_iff]
  | effectClause => simp [forwards, Takes, ← isSource_iff]
  | _ => simp [forwards, Takes]

/-- A frame passes on just what it does not take. -/
theorem receive_eq_forwarded_iff :
    frame.receive graph id = .ok .forwarded ↔ ¬frame.Takes graph id := by
  rw [← forwards_eq_true_iff]
  rcases frame.receive_cases graph id with
      ⟨hforwards, h⟩ | ⟨hforwards, after, h⟩ | ⟨hforwards, _, fault, h⟩ <;>
    simp [hforwards, h]

/-- Only a multiple assignment without a target left refuses a binding. -/
theorem eq_of_receive_error {error : Error} (h : frame.receive graph id = .error error) :
    ∃ targets received, frame = multipleAssignment targets received ∧ targets.length ≤ received ∧
      error = .mispaired (.surplus targets.length) := by
  cases frame with
  | multipleAssignment targets received =>
    -- The next value goes to the target at the place that is counted, if there is one.
    by_cases hroom : received < targets.length
    · simp [receive, hroom] at h
    · have hfull : targets.length ≤ received := Nat.le_of_not_lt hroom
      simp only [receive, List.getElem?_eq_none hfull, Except.error.injEq] at h
      exact ⟨targets, received, rfl, hfull, h.symm⟩
  | lexical catalog owner =>
    cases hkind : graph.kind id <;> cases owner <;> simp [receive, hkind] at h <;>
      split at h <;> cases h
  | assignment target => cases target <;> simp [receive] at h
  | chain head => cases head <;> simp [receive] at h
  | routineCall routine => cases routine <;> simp [receive] at h <;> split at h <;> cases h
  | select query =>
    simp only [receive] at h
    split at h <;> cases h
  | effectClause =>
    simp only [receive] at h
    split at h <;> cases h
  | _ => simp [receive] at h

/-- A frame changes by what it takes as `taking` says. -/
theorem receive_of_takes (h : frame.Takes graph id) :
    (∃ after, frame.receive graph id = .ok (.consumed (frame.taking id) after)) ∨
      ∃ error, frame.receive graph id = .error error := by
  rcases frame.receive_cases graph id with ⟨hforwards, _⟩ | ⟨_, taken⟩ | ⟨_, _, fault, hrefused⟩
  · exact absurd h (forwards_eq_true_iff.mp hforwards)
  · exact .inl taken
  · exact .inr ⟨_, hrefused⟩

end Frame

namespace Scope

variable {scope : Scope} {id : BindingId} {inner outer : List Frame}

/-- There is an innermost level that takes a binding, or there is none. -/
theorem exists_innermost_taker (graph : Graph) (id : BindingId) (frames : List Frame) :
    (∀ frame ∈ frames, ¬frame.Takes graph id) ∨
      ∃ inner frame outer, frames = inner ++ frame :: outer ∧
        (∀ passing ∈ inner, ¬passing.Takes graph id) ∧
        frame.Takes graph id := by
  induction frames with
  | nil => exact .inl (by simp)
  | cons frame rest ih =>
    by_cases htakes : frame.Takes graph id
    · exact .inr ⟨[], frame, rest, rfl, by simp, htakes⟩
    · rcases ih with hnone | ⟨inner, taker, outer, rfl, hinner, htaker⟩
      · exact .inl (List.forall_mem_cons.mpr ⟨htakes, hnone⟩)
      · exact .inr ⟨frame :: inner, taker, outer, rfl,
          List.forall_mem_cons.mpr ⟨htakes, hinner⟩, htaker⟩

theorem passAll?_of_not_takes {graph : Graph} (h : ∀ frame ∈ inner, ¬frame.Takes graph id) :
    passAll? graph inner (.value id) = some (.value id) := by
  induction inner with
  | nil => rfl
  | cons frame rest ih =>
    obtain ⟨hframe, hrest⟩ := List.forall_mem_cons.mp h
    simp [passAll?, Frame.pass?, Frame.forwards_eq_true_iff.mpr hframe, ih hrest]

section

variable (hframes : scope.frames = inner ++ outer) (hinner : ∀ frame ∈ inner,
  ¬frame.Takes scope.graph id)

include hframes hinner

/-- The levels inside of the one that takes a binding stay as they are. -/
theorem receiveAll_of_inner {frames : List Frame} {graph : Graph}
    (h : receiveAmong id scope.graph outer = .ok (frames, graph)) :
    receiveAll [id] scope = (.ok (), { scope with graph, frames := inner ++ frames }) := by
  rw [receiveAll, receive, hframes, receiveAmong_append (passAll?_of_not_takes hinner), h]
  rfl

/-- Where a binding is refused, everything stays as it is. -/
theorem receiveAll_of_inner_error {error : Error}
    (h : receiveAmong id scope.graph outer = .error error) :
    receiveAll [id] scope = (.error error, scope) := by
  rw [receiveAll, receive, hframes, receiveAmong_append (passAll?_of_not_takes hinner), h]
  rfl

end

/-- The result of a routine passes the bodies of loops and flows into the routine. -/
theorem receiveAll_result {loops outer : List Frame} {catalog : Catalog} {owner : BindingId}
    (hframes : scope.frames = loops ++ .lexical catalog (some owner) :: outer)
    (hloops : ∀ loop ∈ loops, ∃ names, loop = .lexical names none)
    (hkind : scope.graph.kind id = .result) :
    receiveAll [id] scope = (.ok (), scope.addOutput id owner) := by
  have hpass : ∀ loop ∈ loops, ¬loop.Takes scope.graph id := by
    intro loop hloop
    obtain ⟨names, rfl⟩ := hloops loop hloop
    simp [Frame.Takes, hkind]
  have htaken : receiveAmong id scope.graph (.lexical catalog (some owner) :: outer) =
      .ok (.lexical catalog (some owner) :: outer, scope.graph.addOutput id owner) := by
    simp [receiveAmong, Frame.receive, hkind]
  rw [receiveAll_of_inner hframes hpass htaken, ← hframes]
  rfl

/-- A produced binding stops at exactly one level, the innermost one that takes it, or at the root
    if no level does. Only the level at which it stops changes, and a level that passes it on
    neither changes nor adds to the graph. A binding is refused only by a multiple assignment
    without a target left, and then the graph and all levels are as they were. So the result of a
    routine flows into the routine, and into nothing else, from inside any number of loops. -/
theorem bindings_stop_at_innermost_taker (scope : Scope) (id : BindingId) :
    ((∀ frame ∈ scope.frames, ¬frame.Takes scope.graph id) ∧
      receiveAll [id] scope = (.ok (), scope) ∨
      ∃ inner frame outer, scope.frames = inner ++ frame :: outer ∧
        (∀ passing ∈ inner, ¬passing.Takes scope.graph id) ∧ frame.Takes scope.graph id ∧
        ((∃ graph, frame.receive scope.graph id = .ok (.consumed (frame.taking id) graph) ∧
            receiveAll [id] scope =
              (.ok (), { scope with graph, frames := inner ++ frame.taking id :: outer })) ∨
          ∃ targets received, frame = .multipleAssignment targets received ∧
            targets.length ≤ received ∧
            receiveAll [id] scope = (.error (.mispaired (.surplus targets.length)), scope))) ∧
    (∀ frame : Frame, frame.receive scope.graph id = .ok .forwarded ↔ ¬frame.Takes scope.graph id) ∧
    (∀ error after, receiveAll [id] scope = (.error error, after) → after = scope) ∧
    ∀ loops catalog owner outer, scope.frames = loops ++ .lexical catalog (some owner) :: outer →
      (∀ loop ∈ loops, ∃ names, loop = .lexical names none) → scope.graph.kind id = .result →
        receiveAll [id] scope = (.ok (), scope.addOutput id owner) ∧
        (∀ structural, (scope.push (.wrapper id structural)).pop =
          (.ok (), scope.addOutput id owner)) ∧
        (scope.graph.contains id = true → owner ∈ (scope.addOutput id owner).graph.outputs id) := by
  have hstops := exists_innermost_taker scope.graph id scope.frames
  refine ⟨?_, fun frame => Frame.receive_eq_forwarded_iff, ?_, ?_⟩
  · rcases hstops with hnone | ⟨inner, frame, outer, hframes, hinner, htakes⟩
    · refine .inl ⟨hnone, ?_⟩
      rw [receiveAll_of_inner (List.append_nil _).symm hnone rfl, List.append_nil]
    · refine .inr ⟨inner, frame, outer, hframes, hinner, htakes, ?_⟩
      rcases Frame.receive_of_takes htakes with ⟨graph, hreceive⟩ | ⟨error, hreceive⟩
      · exact .inl ⟨graph, hreceive,
          receiveAll_of_inner hframes hinner (by simp [receiveAmong, hreceive])⟩
      · obtain ⟨targets, received, hframe, hfull, rfl⟩ := Frame.eq_of_receive_error hreceive
        exact .inr ⟨targets, received, hframe, hfull,
          receiveAll_of_inner_error hframes hinner (by simp [receiveAmong, hreceive])⟩
  · intro error after hrefused
    rw [receiveAll] at hrefused
    split at hrefused
    · simp [receiveAll] at hrefused
    · exact (Prod.mk.inj hrefused).2.symm
  · intro loops catalog owner outer hframes hloops hkind
    have hsent := receiveAll_result hframes hloops hkind
    refine ⟨hsent, fun structural => ?_, fun hid => ?_⟩
    · -- A wrapper around the result reports it when it closes.
      have hreported : (Frame.wrapper id structural).finish scope.graph = .ok [id] := by
        simp [Frame.finish, hkind, Binding.Kind.isSignal]
      simp only [pop, push, hreported]
      exact hsent
    · exact Graph.mem_outputs_of_addOutput hid .refl

/-- The result of a routine inside of two loops, with the graph and the levels that
    surround it there. -/
def insideLoops : Scope :=
  let routine := ((ofSchema .empty).add (.ofName "f" .routine)).2
  let body := ((routine.push (.body (some ⟨0⟩))).push (.body none)).push (.body none)
  (body.add (.ofName "return" .result)).2

/-- From inside of two loops the result flows into the routine. -/
theorem bindings_stop_at_innermost_taker_insideLoops :
    insideLoops.frames = [.body none, .body none] ++ .body (some ⟨0⟩) :: [] ∧
    insideLoops.graph.kind ⟨1⟩ = .result ∧
      receiveAll [⟨1⟩] insideLoops = (.ok (), insideLoops.addOutput ⟨1⟩ ⟨0⟩) ∧
      ⟨0⟩ ∈ (insideLoops.addOutput ⟨1⟩ ⟨0⟩).graph.outputs ⟨1⟩ := by
  have hloops : ∀ loop ∈ [Frame.body none, Frame.body none], ∃ names, loop =
      .lexical names none := by
    simp [Frame.body]
  obtain ⟨-, -, -, hresult⟩ := bindings_stop_at_innermost_taker insideLoops ⟨1⟩
  obtain ⟨hsent, -, hflows⟩ := hresult _ _ ⟨0⟩ [] rfl hloops rfl
  exact ⟨rfl, rfl, hsent, hflows rfl⟩

end Scope

end Lineage
