import Lineage.Proofs.Scope.Signals

/-!
# Signals that cannot be taken

A signal stops at one level, and only a multiple assignment may be unable to take it there: a value
comes when no target is left, or an operator before every target has a value. `faultAmong?` tells
why. Whoever sends such a signal fails for this very reason.

## Key results

- `faultAmong?_append`: a signal that passes the upper levels fails as it does in the lower ones
- `receiveAmong_append`: a binding that passes the upper levels is taken as it is by the lower ones
- `receiveAmong_of_fault`, `faultAmong?_operator`: how a binding and an operator fail
-/

namespace Lineage

/-- Why the frame cannot take a signal that stops here. -/
def Frame.fault? (frame : Frame) (signal : Signal) : Option PairingFault :=
  match frame, signal with
  | multipleAssignment targets received, .value _ =>
    if received < targets.length then none else some (.surplus targets.length)
  | multipleAssignment targets received, .operator 0 =>
    if received = targets.length then none else some (.shortfall received targets.length)
  | _, _ => none

/-- A binding that the frame cannot take is refused, and not passed on. -/
theorem Frame.receive_of_fault {frame : Frame} {graph : Graph} {id : BindingId}
    {fault : PairingFault} (h : frame.fault? (.value id) = some fault) :
    frame.receive graph id = .error (.mispaired fault) := by
  cases frame with
  | multipleAssignment targets received =>
    simp only [fault?, Option.ite_none_left_eq_some, Option.some.injEq] at h
    obtain ⟨hfull, rfl⟩ := h
    simp [receive, hfull]
  | _ => simp [fault?] at h

namespace Scope

/-- Why the level at which a signal stops cannot take it. -/
def faultAmong? (graph : Graph) : Signal → List Frame → Option PairingFault
  | _, [] => none
  | signal, frame :: rest =>
    match frame.pass? graph signal with
    | some signal => faultAmong? graph signal rest
    | none => frame.fault? signal

variable {graph : Graph} {above : List Frame} {passed : Signal} {id : BindingId}

/-- A signal that passes the upper levels fails as it does in the lower ones. -/
theorem faultAmong?_append {signal : Signal} (h : passAll? graph above signal = some passed)
    (below : List Frame) :
    faultAmong? graph signal (above ++ below) = faultAmong? graph passed below := by
  induction above generalizing signal with
  | nil =>
    cases h
    rfl
  | cons frame rest ih =>
    obtain ⟨next, hpass, hrest⟩ := Option.bind_eq_some_iff.mp h
    simp only [List.cons_append, faultAmong?, hpass]
    exact ih hrest

/-- A binding is passed on as it is. -/
theorem passAll?_value (h : passAll? graph above (.value id) = some passed) :
    passed = .value id := by
  induction above with
  | nil => exact (Option.some.inj h).symm
  | cons frame rest ih =>
    obtain ⟨next, hpass, hrest⟩ := Option.bind_eq_some_iff.mp h
    simp only [Frame.pass?, Option.ite_none_right_eq_some, Option.some.injEq] at hpass
    obtain ⟨_, rfl⟩ := hpass
    exact ih hrest

/-- An operator passes queries and nothing else, and counts those that it passes. -/
theorem passAll?_operator (graph : Graph) (above : List Frame) (queries : Nat) :
    passAll? graph above (.operator queries) =
      if above.length ≤ queries ∧ above.all Frame.isSelect = true then
        some (.operator (queries - above.length))
      else none := by
  induction above generalizing queries with
  | nil => simp [passAll?]
  | cons frame rest ih =>
    cases queries with
    | zero => simp [passAll?, Frame.pass?]
    | succ queries =>
      by_cases hselect : frame.isSelect = true
      · simp [passAll?, Frame.pass?, hselect, ih]
      · simp [passAll?, Frame.pass?, hselect]

/-- What arrives as a binding was sent as one. -/
theorem eq_value_of_passAll? {signal : Signal}
    (h : passAll? graph above signal = some (.value id)) : signal = .value id := by
  cases signal with
  | value other => exact (passAll?_value h).symm
  | operator queries => simp [passAll?_operator] at h

/-- A binding that passes the upper levels is taken as it is by the lower ones. -/
theorem receiveAmong_append (h : passAll? graph above (.value id) = some passed)
    (below : List Frame) :
    receiveAmong id graph (above ++ below) =
      (receiveAmong id graph below).map fun taken => (above ++ taken.1, taken.2) := by
  induction above with
  | nil =>
    rw [List.nil_append]
    cases receiveAmong id graph below <;> rfl
  | cons frame rest ih =>
    obtain ⟨next, hpass, hrest⟩ := Option.bind_eq_some_iff.mp h
    simp only [Frame.pass?, Option.ite_none_right_eq_some, Option.some.injEq] at hpass
    obtain ⟨hforwards, rfl⟩ := hpass
    -- Of the three things that can become of a binding, only passing it on agrees with `hforwards`.
    have hreceive : frame.receive graph id = .ok .forwarded := by
      rcases frame.receive_cases graph id with ⟨_, hreceive⟩ | ⟨hstops, _⟩ | ⟨hstops, _⟩
      · exact hreceive
      all_goals simp [hforwards] at hstops
    simp only [List.cons_append, receiveAmong, hreceive, ih hrest]
    cases receiveAmong id graph below <;> rfl

/-- A binding is refused where it cannot be taken. -/
theorem receiveAmong_of_fault {frames : List Frame} {fault : PairingFault}
    (h : faultAmong? graph (.value id) frames = some fault) :
    receiveAmong id graph frames = .error (.mispaired fault) := by
  induction frames with
  | nil => cases h
  | cons frame rest ih =>
    simp only [faultAmong?] at h
    split at h
    · -- The frame passes the binding on, so it is refused further out.
      next passed hpass =>
      have hself : passAll? graph [frame] (.value id) = some passed := by simp [passAll?, hpass]
      obtain rfl := passAll?_value hself
      rw [← List.singleton_append, receiveAmong_append hself, ih h]
      rfl
    · simp only [receiveAmong, Frame.receive_of_fault h]

/-- An operator fails at the multiple assignment that it is meant for, if that lacks values. -/
theorem faultAmong?_operator (graph : Graph) (scope : Scope) (queries : Nat) :
    faultAmong? graph (.operator queries) scope.frames =
      (scope.pendingAssignment? queries).bind fun pending =>
        if pending.2 = pending.1.length then none else some
            (.shortfall pending.2 pending.1.length) := by
  obtain ⟨_, _, frames⟩ := scope
  simp only [pendingAssignment?]
  induction queries generalizing frames with
  | zero =>
    cases frames with
    | nil => rfl
    | cons frame rest => cases frame <;> simp [faultAmong?, Frame.pass?, Frame.fault?]
  | succ queries ih =>
    cases frames with
    | nil => simp [faultAmong?]
    | cons frame rest =>
      -- At a frame that is no query the operator is lost, and so it cannot fail.
      by_cases hselect : frame.isSelect = true
      · simp only [faultAmong?, Frame.pass?, hselect, if_true, ih rest, List.take_succ_cons,
          List.all_cons, Bool.true_and, List.getElem?_cons_succ]
      · cases frame <;> simp_all [faultAmong?, Frame.pass?, Frame.fault?, Frame.isSelect]

end Scope

end Lineage
