import Lineage.Proofs.Graph.Extension
import Lineage.Proofs.Scope.Progress
import Lineage.Proofs.Walk.History

/-!
# The moments of a run

A run goes through many states: one after each step of a script, one on each level that is opened,
and one after it is closed, whether the steps inside succeeded or not. This file lists them in
order.

## Key results

- `Script.moments`, `visitMoments`: the states that a run goes through, in order
- `trail_visit`: a visit ends in the last of its moments, and each moment comes later than the ones
  before
- `before_mem_moments`: every visit in a history starts at one of the moments
-/

namespace Lineage

namespace Walk

variable {tree : Tree} {α β : Type}

/-! ### The states that a run goes through -/

/-- The moments after a walk, if it succeeds. -/
def momentsAfter (outcome : Except Error α × Session) (next : α → Session → List Session) :
    List Session :=
  match outcome with
  | (.ok value, session) => next value session
  | (.error _, _) => []

/-- The moments on a level around a walk: the level is opened, the walk goes on inside, and the
    level is closed or left. -/
def momentsWithin (frame : Frame) (walk : Walk Unit) (inner : Session → List Session)
    (session : Session) : List Session :=
  let inside := { session with scope := session.scope.push frame }
  inside :: inner inside ++ [(Walk.within frame walk session).2]

/-- The moments of visiting nodes in order, given those of visiting one of them. -/
def momentsOfAll (walk : Node tree → Walk Unit) (inner : Node tree → Session → List Session) :
    List (Node tree) → Session → List Session
  | [], _ => []
  | node :: rest, session =>
    inner node session ++ momentsAfter (walk node session) fun _ after =>
      momentsOfAll walk inner rest after

/-- The states that the run of a script goes through, in order, given those of visiting a node. -/
def Script.moments (walk : Node tree → Walk Unit) (inner : Node tree → Session → List Session) :
    {α : Type} → Script tree α → Session → List Session
  | _, quiet walk _, session => [(walk session).2]
  | _, send id, session => [(produce id session).2]
  | _, flush position, session => [(attempt (·.flushElement position) session).2]
  | _, closeArm, session => [(Walk.closeArm session).2]
  | _, nextArm queries, session => [(Walk.nextArm queries session).2]
  | _, visits nodes, session => momentsOfAll walk inner nodes session
  | _, query parts, session =>
    momentsWithin .query (parts.forM walk) (momentsOfAll walk inner parts) session
  | _, within frame body, session =>
    momentsWithin frame (body.run walk) (body.moments walk inner) session
  | _, andThen first next, session =>
    first.moments walk inner session ++ momentsAfter (first.run walk session) fun value after =>
      (next value).moments walk inner after

/-- The states that a visit goes through: the node is noted, and then its steps are taken. -/
def visitMoments (dialect : Dialect) : Nat → Node tree → Session → List Session
  | 0, _, _ => []
  | _ + 1, .absent, _ => []
  | levels + 1, .present index, session =>
    let noted := { session with visited := index :: session.visited }
    noted :: (nodeScript dialect (.present index)).moments (visit dialect levels)
    (visitMoments dialect levels) noted

/-! ### From the first moment to the last -/

/-- States from one to another, each of which comes later than the one before. -/
inductive Trail : Session → List Session → Session → Prop where
  | nil (session : Session) : Trail session [] session
  | cons {session next last : Session} {rest : List Session} :
      session.scope.Later next.scope → Trail next rest last → Trail session (next :: rest) last

namespace Trail

variable {session middle last : Session} {moments more : List Session}

theorem single (h : session.scope.Later last.scope) : Trail session [last] last :=
  .cons h (.nil last)

theorem append (hfirst : Trail session moments middle) (hlast : Trail middle more last) :
    Trail session (moments ++ more) last := by
  induction hfirst with
  | nil session => exact hlast
  | cons hlater _ ih => exact .cons hlater (ih hlast)

theorem later (h : Trail session moments last) : session.scope.Later last.scope := by
  induction h with
  | nil session => exact .refl
  | cons hlater _ ih => exact hlater.trans ih

theorem grows (h : Trail session moments last) : session.scope.graph.Grows last.scope.graph :=
  h.later.grows

/-- The state at the end is one of the moments, unless there are none. -/
theorem last_mem (h : Trail session moments last) : last ∈ session :: moments := by
  induction h with
  | nil session => exact List.mem_singleton_self session
  | cons _ _ ih => exact List.mem_cons_of_mem _ ih

/-- The end comes later than any moment. -/
theorem later_last (h : Trail session moments last) :
    ∀ moment ∈ session :: moments, moment.scope.Later last.scope := by
  induction h with
  | nil session => simpa using .refl
  | cons hlater hrest ih =>
    exact List.forall_mem_cons.mpr ⟨hlater.trans hrest.later, ih⟩

/-- Each moment comes later than those before it. -/
theorem pairwise (h : Trail session moments last) :
    (session :: moments).Pairwise fun earlier later => earlier.scope.Later later.scope := by
  induction h with
  | nil session => simp
  | cons hlater _ ih =>
    refine List.pairwise_cons.mpr ⟨fun moment hmoment => ?_, ih⟩
    rcases List.mem_cons.mp hmoment with rfl | hmem
    · exact hlater
    · exact hlater.trans ((List.pairwise_cons.mp ih).1 moment hmem)

/-- Two walks in a row. -/
theorem bind {walk : Walk α} {next : α → Walk β} {later : α → Session → List Session}
    (hfirst : Trail session moments (walk session).2)
    (hnext : ∀ value after, walk session = (.ok value, after) →
      Trail after (later value after) (next value after).2) :
    Trail session (moments ++ momentsAfter (walk session) later) ((walk >>= next) session).2 := by
  rcases hrun : walk session with ⟨error | value, after⟩ <;> rw [hrun] at hfirst
  · rw [Stateful.bind_error hrun, momentsAfter, List.append_nil]
    exact hfirst
  · rw [Stateful.bind_ok hrun]
    exact hfirst.append (hnext value after hrun)

/-- Opening a level and closing or leaving it. -/
theorem within {frame : Frame} {walk : Walk Unit} {inner : Session → List Session}
    (h : Trail { session with scope := session.scope.push frame }
      (inner { session with scope := session.scope.push frame })
      (walk { session with scope := session.scope.push frame }).2) :
    Trail session (momentsWithin frame walk inner session) (Walk.within frame walk session).2 := by
  have hinside : Trail session ({ session with scope := session.scope.push frame } ::
      inner { session with scope := session.scope.push frame })
      (walk { session with scope := session.scope.push frame }).2 := .cons (.of_root .refl rfl) h
  refine hinside.append (single ?_)
  simp only [Walk.within]
  rcases walk { session with scope := session.scope.push frame } with ⟨error | ⟨⟩, after⟩
  · exact .of_root .refl rfl
  · exact .of_root (after.scope.grows_unwind _ true) (after.scope.root_unwind _ true)

end Trail

/-- Ending the level of an arm leaves the root alone. -/
theorem root_closeArm (session : Session) :
    (closeArm session).2.scope.root = session.scope.root := by
  rw [closeArm_eq]
  split
  · exact session.scope.root_pop
  · rfl

theorem grows_closeArm (session : Session) :
    session.scope.graph.Grows (closeArm session).2.scope.graph := by
  rw [closeArm_eq]
  split
  · exact session.scope.grows_pop
  · exact .refl

theorem root_nextArm (queries : Nat) (session : Session) :
    (nextArm queries session).2.scope.root = session.scope.root := by
  rw [nextArm_eq]
  split
  · rfl
  · split
    · exact session.scope.root_restartAssignment? queries
    · rfl

theorem graph_nextArm (queries : Nat) (session : Session) :
    (nextArm queries session).2.scope.graph = session.scope.graph := by
  rw [nextArm_eq]
  unfold Scope.restartAssignment?
  cases session.scope.pendingAssignment? queries with
  | none => rfl
  | some pending =>
    simp only
    split <;> rfl

/-- The run of a script ends in the last of its moments, if the visits of nodes do. -/
theorem Script.trail {walk : Node tree → Walk Unit} {inner : Node tree → Session → List Session}
    (hwalk : ∀ node session, Trail session (inner node session) (walk node session).2)
    (script : Script tree α) (session : Session) :
    Trail session (script.moments walk inner session) (script.run walk session).2 := by
  -- Nodes are visited by two kinds of steps, so their loop is settled beforehand.
  have hnodes : ∀ nodes session, Trail session (momentsOfAll walk inner nodes session)
      (nodes.forM walk session).2 := by
    intro nodes
    induction nodes with
    | nil => exact fun session => .nil session
    | cons node rest ih =>
      exact fun session => Trail.bind (hwalk node session) fun _ after _ => ih after
  induction script generalizing session with
  | quiet walk h => exact .single (h.learns session).later
  | send id =>
    exact .single
      (.of_root (Scope.grows_receiveAll [id] session.scope)
        (Scope.root_receiveAll [id] session.scope))
  | flush position =>
    exact .single
      (.of_root (session.scope.grows_flushElement position)
        (session.scope.root_flushElement position))
  | closeArm => exact .single (.of_root (grows_closeArm session) (root_closeArm session))
  | nextArm queries =>
    have hsame := graph_nextArm queries session
    exact .single (.of_root (hsame ▸ .refl) (root_nextArm queries session))
  | visits nodes => exact hnodes nodes session
  | query parts => exact Trail.within (hnodes parts _)
  | within frame body ih => exact Trail.within (ih _)
  | andThen first next ihfirst ihnext =>
    exact Trail.bind (ihfirst session) fun value after _ => ihnext value after

/-- A visit ends in the last of its moments, and each moment comes later than the ones before. -/
theorem trail_visit (dialect : Dialect) (levels : Nat) (node : Node tree) (session : Session) :
    Trail session (visitMoments dialect levels node session)
      (visit dialect levels node session).2 := by
  induction levels generalizing node session with
  | zero => exact .nil session
  | succ levels ih =>
    cases node with
    | absent => exact .nil session
    | present index =>
      rw [visit_present, state_located]
      exact .cons (.of_root .refl rfl) (Script.trail ih _ _)

/-! ### The moments at which nodes are visited -/

section

variable {dialect : Dialect} {levels : Nat} {target : Node tree} {before : Session}
  {outcome : Except Error Unit × Session} {session : Session}

/-- A state after a first walk is the one before it or one of its moments. -/
private theorem mem_of_mem_after {middle last : Session} {first rest : List Session}
    (htrail : Trail session first middle) (h : last ∈ middle :: rest) :
    last ∈ session :: (first ++ rest) := by
  rcases List.mem_cons.mp h with rfl | hrest
  · exact List.mem_append_left rest htrail.last_mem
  · exact List.mem_cons_of_mem _ (List.mem_append_right first hrest)

theorem before_mem_momentsOfAll
    (hinner : ∀ node session, .visited target before outcome ∈
      visitHistory dialect levels node session →
      before ∈ session :: visitMoments dialect levels node session)
    {nodes : List (Node tree)}
    (h : .visited target before outcome ∈
      eventsOfAll (visit dialect levels) (visitHistory dialect levels) nodes session) :
    before ∈ session :: momentsOfAll (visit dialect levels) (visitMoments dialect levels)
      nodes session := by
  induction nodes generalizing session with
  | nil => simp [eventsOfAll] at h
  | cons node rest ih =>
    have htrail := trail_visit dialect levels node session
    rcases List.mem_append.mp h with hnode | hrest
    · rcases List.mem_cons.mp (hinner node session hnode) with rfl | hmem
      · exact List.mem_cons_self
      · exact List.mem_cons_of_mem _ (List.mem_append_left _ hmem)
    · obtain ⟨_, after, hrun, hafter⟩ := mem_eventsAfter hrest
      rw [hrun] at htrail
      -- The visit of the rest starts from the last moment of the first one.
      simp only [momentsOfAll, hrun, momentsAfter]
      exact mem_of_mem_after htrail (ih hafter)

/-- A visit in the run of a script starts at one of its moments, if the visits in the
    visits of nodes do. -/
theorem Script.before_mem_moments {script : Script tree α}
    (hinner : ∀ node session, .visited target before outcome ∈
      visitHistory dialect levels node session →
      before ∈ session :: visitMoments dialect levels node session)
    (h : .visited target before outcome ∈
      script.history (visit dialect levels) (visitHistory dialect levels) session) :
    before ∈ session :: script.moments (visit dialect levels)
      (visitMoments dialect levels) session := by
  induction script generalizing session with
  | quiet walk hquiet => simp [history] at h
  | send id => exact absurd h not_mem_offered
  | flush position => exact absurd h not_mem_offered
  | closeArm =>
    simp only [history] at h
    split at h
    · exact absurd h not_mem_offered
    · simp at h
  | nextArm queries => simp [history] at h
  | visits nodes => exact before_mem_momentsOfAll hinner h
  | query parts =>
    have hinside := before_mem_momentsOfAll hinner (mem_of_mem_eventsWithin h)
    exact List.mem_cons_of_mem _ (List.mem_append_left _ hinside)
  | within frame body ih =>
    have hinside := ih (mem_of_mem_eventsWithin h)
    exact List.mem_cons_of_mem _ (List.mem_append_left _ hinside)
  | andThen first next ihfirst ihnext =>
    have htrail := first.trail (trail_visit dialect levels) session
    rcases List.mem_append.mp h with hfirst | hnext
    · rcases List.mem_cons.mp (ihfirst hfirst) with rfl | hmem
      · exact List.mem_cons_self
      · exact List.mem_cons_of_mem _ (List.mem_append_left _ hmem)
    · -- The second part starts in the last moment of the first.
      obtain ⟨value, after, hrun, hafter⟩ := mem_eventsAfter hnext
      rw [hrun] at htrail
      simp only [moments, hrun, momentsAfter]
      exact mem_of_mem_after htrail (ihnext value hafter)

/-- Every visit in a history starts at one of the moments. -/
theorem before_mem_moments {node : Node tree}
    (h : .visited target before outcome ∈ visitHistory dialect levels node session) :
    before ∈ session :: visitMoments dialect levels node session := by
  induction levels generalizing node session with
  | zero => simp [visitHistory] at h
  | succ levels ih =>
    cases node with
    | absent => simp [visitHistory] at h
    | present index =>
      rcases List.mem_cons.mp h with hself | hsteps
      · cases hself
        exact List.mem_cons_self
      · exact List.mem_cons_of_mem _ (Script.before_mem_moments (fun node session h => ih h) hsteps)

end

end Walk

end Lineage
