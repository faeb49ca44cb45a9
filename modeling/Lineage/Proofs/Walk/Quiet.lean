import Lineage.Proofs.Scope.Learning
import Lineage.Walk.Declarations
import Lineage.Walk.Queries

/-!
# Quiet walks

Much of what a rule does is quiet: it looks names up, declares them and adds to the graph, but sends
nothing outward and neither opens nor closes a level. A quiet walk does no more than learn, and if
it fails, the input is to blame.

## Key results

- `Quiet.bind`, `Quiet.mapM`, `Quiet.forM`: quiet walks in a row are quiet
- `quiet_parameters`, `quiet_hoistAll`, `quiet_routineId`, `quiet_existing`, `quiet_fetch`,
  `quiet_claimInto`, `quiet_insertColumns`: the quiet parts of the rules
-/

namespace Lineage

/-- The fault lies in what the tree holds, and not in where a rule was applied. -/
def ShapeFault.blamesInput : ShapeFault → Bool
  | rootPopped | elementOutsideList | operatorOutsideQuery | stated _ => false
  | _ => true

/-- The error says what is wrong with the input: a name without meaning, a number of values that
    does not match, or a tree that lacks something. -/
def Error.blamesInput : Error → Bool
  | unresolved .. | pairing .. => true
  | shape fault _ => fault.blamesInput
  | unknownDialect _ | unreadable _ => false

@[simp] theorem Error.blamesInput_atLocation (error : Error) (place : Location) :
    (error.atLocation place).blamesInput = error.blamesInput := by
  cases error <;> rfl

namespace Stateful

variable {σ ε α β : Type} {first : Stateful σ ε α} {next : α → Stateful σ ε β} {state after : σ}

theorem bind_ok {value : α} (h : first state = (.ok value, after)) :
    (first >>= next) state = next value after := by
  simp only [bind, h]

theorem bind_error {error : ε} (h : first state = (.error error, after)) :
    (first >>= next) state = (.error error, after) := by
  simp only [bind, h]

/-- Steps that succeed have a first part that succeeds. -/
theorem exists_of_bind {value : β} (h : (first >>= next) state = (.ok value, after)) :
    ∃ result middle, first state = (.ok result, middle) ∧
      next result middle = (.ok value, after) := by
  rcases hfirst : first state with ⟨error | result, middle⟩
  · rw [bind_error hfirst] at h
    cases h
  -- The result of the first part is what the second one went on with.
  · exact ⟨result, middle, rfl, (bind_ok hfirst).symm.trans h⟩

/-- What the first part leaves behind is enough where it fails, and carries the rest
    where it succeeds. -/
theorem state_bind (middle : σ → Prop) {last : σ → Prop} (hfirst : middle (first state).2)
    (hfail : ∀ after, middle after → last after)
    (hnext : ∀ value after, middle after → last (next value after).2) :
    last ((first >>= next) state).2 := by
  -- After an error nothing more happens, so this is the last state.
  rcases hrun : first state with ⟨error | value, after⟩ <;> rw [hrun] at hfirst
  · rw [bind_error hrun]
    exact hfail after hfirst
  · rw [bind_ok hrun]
    exact hnext value after hfirst

instance : LawfulMonad (Stateful σ ε) :=
  LawfulMonad.mk' _
    (fun walk => by
      funext state
      simp only [Functor.map]
      rcases walk state with ⟨_ | _, _⟩ <;> rfl)
    (fun _ _ => rfl)
    (fun first second third => by
      funext state
      -- An error in the first walk skips the other two, however they are bracketed.
      simp only [bind]
      rcases first state with ⟨_ | _, _⟩ <;> rfl)

end Stateful

namespace Walk

variable {α β ι : Type}

/-! ### What walks fail with -/

/-- Whatever error the walk ends with is allowed. -/
def Fails (allowed : Error → Prop) (walk : Walk α) : Prop :=
  ∀ session error, (walk session).1 = .error error → allowed error

namespace Fails

variable {allowed : Error → Prop}

/-- A walk that cannot fail. -/
theorem of_ok {walk : Walk α} (h : ∀ session, ∃ value, (walk session).1 = .ok value) :
    Fails allowed walk := by
  intro session error herror
  obtain ⟨value, hvalue⟩ := h session
  rw [hvalue] at herror
  cases herror

theorem pure (value : α) : Fails allowed (Pure.pure value) :=
  of_ok fun _ => ⟨value, rfl⟩

theorem fail {error : Error} (h : allowed error) : Fails allowed (Walk.fail error : Walk α) :=
  fun _ _ herror => Except.error.inj herror ▸ h

theorem bind {first : Walk α} {next : α → Walk β} (hfirst : Fails allowed first)
    (hnext : ∀ value, Fails allowed (next value)) : Fails allowed (first >>= next) := by
  intro session error herror
  -- The error of two steps is that of the first, or that of the second after the first succeeded.
  rcases hrun : first session with ⟨cause | value, after⟩
  · rw [Stateful.bind_error hrun] at herror
    obtain rfl : cause = error := Except.error.inj herror
    exact hfirst session cause (by rw [hrun])
  · rw [Stateful.bind_ok hrun] at herror
    exact hnext value after error herror

theorem forM {items : List ι} {step : ι → Walk Unit}
    (h : ∀ item ∈ items, Fails allowed (step item)) : Fails allowed (items.forM step) := by
  induction items with
  | nil => exact pure ()
  | cons item rest ih =>
    exact (h item List.mem_cons_self).bind fun _ => ih fun other hother =>
      h other (List.mem_cons_of_mem _ hother)

theorem mapM {items : List ι} {step : ι → Walk α} (h : ∀ item ∈ items, Fails allowed (step item)) :
    Fails allowed (items.mapM step) := by
  induction items with
  | nil => exact pure []
  | cons item rest ih =>
    rw [List.mapM_cons]
    exact (h item List.mem_cons_self).bind fun _ =>
      -- Unlike `forM`, `mapM` puts its results together in a last step, which cannot fail.
      (ih fun other hother => h other (List.mem_cons_of_mem _ hother)).bind fun _ => pure _

end Fails

/-! ### Steps that learn -/

/-- The walk does no more than learn and visits nothing, and if it fails, the input is to blame. -/
structure Quiet (walk : Walk α) : Prop where
  learns : ∀ session : Session, session.scope.Learns (walk session).2.scope
  visits : ∀ session : Session, (walk session).2.visited = session.visited
  blames : ∀ (session : Session) (error : Error), (walk session).1 = .error error →
    error.blamesInput = true

namespace Quiet

theorem pure (value : α) : Quiet (Pure.pure value) :=
  ⟨fun _ => .refl, fun _ => rfl, fun _ _ h => by simp [Pure.pure] at h⟩

theorem fail (error : Error) (h : error.blamesInput = true) : Quiet (Walk.fail error : Walk α) :=
  ⟨fun _ => .refl, fun _ => rfl, fun _ _ hfail => by rwa [← Except.error.inj hfail]⟩

theorem read (look : Session → α) : Quiet (Walk.read look) :=
  ⟨fun _ => .refl, fun _ => rfl, fun _ _ h => by simp [Walk.read, Stateful.read] at h⟩

theorem require (found : Option α) (error : Error) (h : error.blamesInput = true) :
    Quiet (Walk.require found error) := by
  cases found with
  | none => exact fail error h
  | some value => exact pure value

theorem change {step : Session → Session}
    (h : ∀ session : Session, session.scope.Learns (step session).scope)
    (hvisits : ∀ session : Session, (step session).visited = session.visited) :
    Quiet (Walk.change step) :=
  ⟨h, hvisits, fun _ _ hfail => by simp [Walk.change, Stateful.change] at hfail⟩

theorem changeScope {step : Scope → Scope} (h : ∀ scope : Scope, scope.Learns (step scope)) :
    Quiet (Walk.changeScope step) :=
  change (fun session => h session.scope) fun _ => rfl

theorem onScope {step : Scope → α × Scope} (h : ∀ scope : Scope, scope.Learns (step scope).2) :
    Quiet (Walk.onScope step) :=
  ⟨fun session => h session.scope, fun _ => rfl, fun _ _ hfail => by simp [Walk.onScope] at hfail⟩

/-- Quiet walks in a row are quiet. -/
theorem bind {first : Walk α} {next : α → Walk β} (hfirst : Quiet first)
    (hnext : ∀ value, Quiet (next value)) : Quiet (first >>= next) := by
  refine ⟨fun session => ?_, fun session => ?_, ?_⟩
  -- What is learnt adds up, also if the second walk is never reached.
  · exact Stateful.state_bind (session.scope.Learns ·.scope) (hfirst.learns session) (fun _ h => h)
      fun value after hlearns => hlearns.trans ((hnext value).learns after)
  · exact Stateful.state_bind (·.visited = session.visited) (hfirst.visits session) (fun _ h => h)
      fun value after hvisits => ((hnext value).visits after).trans hvisits
  · exact Fails.bind hfirst.blames fun value => (hnext value).blames

theorem mapM (items : List ι) {step : ι → Walk α} (h : ∀ item, Quiet (step item)) :
    Quiet (items.mapM step) := by
  induction items with
  | nil => exact pure []
  | cons item rest ih =>
    rw [List.mapM_cons]
    exact bind (h item) fun _ => bind ih fun _ => pure _

theorem forM (items : List ι) {step : ι → Walk Unit} (h : ∀ item, Quiet (step item)) :
    Quiet (items.forM step) := by
  induction items with
  | nil => exact pure ()
  | cons item rest ih => exact bind (h item) fun _ => ih

end Quiet

/-! ### The quiet parts of the rules -/

theorem quiet_add (binding : Binding) : Quiet (add binding) :=
  .onScope fun scope => scope.learns_add binding

theorem quiet_declare (binding : Binding) : Quiet (declare binding) :=
  .onScope fun scope => scope.learns_declareNew binding

theorem quiet_declareAll (ids : List BindingId) : Quiet (declareAll ids) :=
  .changeScope fun scope => scope.learns_declareAll ids

variable {tree : Tree} (dialect : Dialect) (node : Node tree)

theorem quiet_declaredName : Quiet (declaredName dialect node) :=
  .require _ _ rfl

theorem quiet_addParameter (owner : BindingId) (parameter : Node tree) (position : Nat) :
    Quiet (addParameter dialect owner parameter position) :=
  (quiet_declaredName dialect parameter).bind fun _ => (quiet_add _).bind fun _ =>
    (Quiet.changeScope fun scope => scope.learns_addChild owner _).bind fun _ => .pure _

theorem quiet_parameters (owner : BindingId) (node : Node tree) (tag : String) :
    Quiet (parameters dialect owner node tag) := by
  -- Parameters that the owner has already are taken as they are.
  refine (Quiet.read _).bind fun known => ?_
  split
  · exact .mapM _ fun _ => quiet_addParameter dialect owner _ _
  · exact .pure _

theorem quiet_hoistAll (package : Node tree) : Quiet (hoistAll dialect package) :=
  .forM _ fun routine => (quiet_declaredName dialect routine).bind fun _ =>
    (quiet_declare _).bind fun _ =>
    (quiet_parameters dialect _ routine _).bind fun _ => .change (fun _ => .refl) fun _ => rfl

theorem quiet_takeHoisted : Quiet (takeHoisted node) := by
  -- The walk reads and writes the list of hoisted routines only, which is no part of the scope.
  constructor
  · intro session
    unfold takeHoisted
    split <;> exact .refl
  · intro session
    unfold takeHoisted
    split <;> rfl
  · intro session error hfail
    unfold takeHoisted at hfail
    split at hfail <;> simp at hfail

theorem quiet_routineId : Quiet (routineId dialect node) := by
  refine (quiet_takeHoisted node).bind fun hoisted => ?_
  cases hoisted with
  | some id => exact .pure id
  | none => exact (quiet_declaredName dialect node).bind fun _ => quiet_declare _

theorem quiet_existing : Quiet (existing dialect node) := by
  unfold existing
  split
  · exact (Quiet.read _).bind fun found => .require found _ rfl
  · exact .fail _ rfl

theorem quiet_fetch : Quiet (fetch dialect node) :=
  (quiet_existing dialect _).bind fun cursor => .forM _ fun target =>
    (quiet_existing dialect target).bind fun _ => .changeScope fun scope =>
      scope.learns_addOutput cursor _

theorem quiet_claimInto : Quiet (claimInto dialect node) := by
  -- The walk does not fail, and all that changes is which clause is claimed.
  constructor
  · intro session
    simp only [claimInto]
    split
    · exact .refl
    · split <;> exact .refl
  · intro session
    simp only [claimInto]
    split
    · rfl
    · split <;> rfl
  · intro session error hfail
    simp only [claimInto] at hfail
    split at hfail
    · simp at hfail
    · split at hfail <;> simp at hfail

theorem quiet_insertColumns (parts : Dialect.InsertParts tree) (table : BindingId) :
    Quiet (insertColumns dialect parts table) := by
  unfold insertColumns
  split
  · refine (Quiet.read _).bind fun known => ?_
    split
    -- Without a list, columns are made up only where none are known.
    · exact .onScope fun scope => scope.learns_columnsNamed table _
    · exact .pure known
  · exact .onScope fun scope => scope.learns_columnsNamed table _

/-! ### Levels and operators -/

/-- Steps on a level of their own that succeed succeed inside, and then in closing what they
    have left open. -/
theorem exists_of_within {frame : Frame} {walk : Walk Unit} {session after : Session}
    (h : within frame walk session = (.ok (), after)) :
    ∃ last, walk { session with scope := session.scope.push frame } = (.ok (), last) ∧
      attempt (·.unwind session.scope.height true) last = (.ok (), after) := by
  simp only [within] at h
  -- An error inside would have dropped the level and been passed on.
  rcases hrun : walk { session with scope := session.scope.push frame } with ⟨error | ⟨⟩, last⟩
  · rw [hrun] at h
    cases h
  · rw [hrun] at h
    exact ⟨last, rfl, h⟩

theorem exists_of_attempt {step : Scope → Scope.Outcome} {session after : Session}
    (h : attempt step session = (.ok (), after)) :
    ∃ scope, step session.scope = (.ok (), scope) ∧ after = { session with scope } := by
  rcases hstep : step session.scope with ⟨result, scope⟩
  rw [attempt, hstep] at h
  cases h
  exact ⟨scope, rfl, rfl⟩

/-- The level of an arm ends where it is the innermost one; anywhere else this is a fault. -/
theorem closeArm_eq (session : Session) :
    closeArm session =
      match session.scope.frames with
      | .select _ :: _ => attempt Scope.pop session
      | _ => (.error (.misshapen .operatorOutsideQuery), session) := by
  rcases hframes : session.scope.frames with _ | ⟨frame, rest⟩
  -- The match looks at the innermost level only, so it is decided by the kind of that one.
  · simp only [closeArm, Bind.bind, Walk.read, Stateful.read, hframes]
    rfl
  · cases frame <;> simp only [closeArm, Bind.bind, Walk.read, Stateful.read, hframes] <;> rfl

/-- An operator restarts the multiple assignment that waits for it, or fails if this
    lacks values. -/
theorem nextArm_eq (queries : Nat) (session : Session) :
    nextArm queries session =
      match session.scope.pendingAssignment? queries with
      | none => (.ok (), session)
      | some (targets, received) =>
        if received = targets.length then
          (.ok (),
            { session with scope := (session.scope.restartAssignment? queries).getD session.scope })
        else (.error (.mispaired (.shortfall received targets.length)), session) := by
  cases hpending : session.scope.pendingAssignment? queries with
  | none =>
    -- Nothing waits for the operator.
    simp only [nextArm, Bind.bind, Walk.read, Stateful.read, hpending]
    rfl
  | some pending =>
    -- The targets are complete, and are started anew, or some of them lack a value.
    simp only [nextArm, Bind.bind, Walk.read, Stateful.read, hpending]
    split <;> rfl

end Walk

end Lineage
