import Lineage.Proofs.Scope.Offers
import Lineage.Proofs.Walk.Script

/-!
# The history of a run

A script tells what happens when it is run: which nodes are visited in which state and with which
outcome, and what is offered to which levels.

## Key results

- `Script.history`, `visitHistory`: what happens in a run, in order
- `Script.exists_of_mem_history`: the visits in the run of a script
- `notes_visit`: the visits in a history are those that the run itself notes
-/

namespace Lineage.Walk

variable {tree : Tree}

/-- Something that happens in a run. -/
inductive Event (tree : Tree) where
  /-- A node is visited in some state, with some outcome. -/
  | visited (node : Node tree) (before : Session) (outcome : Except Error Unit × Session)
  /-- A signal is offered to some levels. -/
  | offered (offer : Offer)

/-- The offers among some events. -/
def offersOf (events : List (Event tree)) : List Offer :=
  events.filterMap fun event =>
    match event with
    | .offered offer => some offer
    | .visited .. => none

/-- What happens after a walk, if it succeeds. -/
def eventsAfter {α : Type} (outcome : Except Error α × Session)
    (next : α → Session → List (Event tree)) : List (Event tree) :=
  match outcome with
  | (.ok value, session) => next value session
  | (.error _, _) => []

/-- What happens inside and when closing a level around a walk. -/
def eventsWithin (frame : Frame) (walk : Walk Unit) (inner : Session → List (Event tree))
    (session : Session) : List (Event tree) :=
  let inside := { session with scope := session.scope.push frame }
  inner inside ++ eventsAfter (walk inside) fun _ after =>
    (after.scope.popAllOffers (after.scope.height - session.scope.height)).map .offered

/-- What happens when nodes are visited in order, given what happens when one of them is. -/
def eventsOfAll (walk : Node tree → Walk Unit) (inner : Node tree → Session → List (Event tree)) :
    List (Node tree) → Session → List (Event tree)
  | [], _ => []
  | node :: rest, session =>
    inner node session ++ eventsAfter (walk node session) fun _ after =>
      eventsOfAll walk inner rest after

/-- What happens in the run of a script, in order, given what happens when a node is visited. -/
def Script.history (walk : Node tree → Walk Unit)
    (inner : Node tree → Session → List (Event tree)) :
    {α : Type} → Script tree α → Session → List (Event tree)
  | _, quiet _ _, _ => []
  | _, send id, session => (Scope.receiveOffers [id] session.scope).map .offered
  | _, flush position, session => (session.scope.flushOffers position).map .offered
  | _, closeArm, session =>
    match session.scope.frames with
    | .select _ :: _ => session.scope.popOffers.map .offered
    | _ => []
  | _, nextArm queries, session =>
    [.offered ⟨session.scope.graph, session.scope.frames, .operator queries⟩]
  | _, visits nodes, session => eventsOfAll walk inner nodes session
  | _, query parts, session =>
    eventsWithin .query (parts.forM walk) (eventsOfAll walk inner parts) session
  | _, within frame body, session =>
    eventsWithin frame (body.run walk) (body.history walk inner) session
  | _, andThen first next, session =>
    first.history walk inner session ++ eventsAfter (first.run walk session) fun value after =>
      (next value).history walk inner after

variable {before session : Session} {α : Type} {walk : Node tree → Walk Unit}
  {inner : Node tree → Session → List (Event tree)} {outcome : Except Error Unit × Session}
  {node : Node tree}

theorem Script.history_bind {β : Type} (walk : Node tree → Walk Unit)
    (inner : Node tree → Session → List (Event tree)) (first : Script tree α)
    (next : α → Script tree β) (session : Session) :
    (first >>= next).history walk inner session =
      first.history walk inner session ++ eventsAfter (first.run walk session) fun value after =>
        (next value).history walk inner after := rfl

/-- What happens when a node is visited: the visit itself, and then its steps. -/
def visitHistory (dialect : Dialect) : Nat → Node tree → Session → List (Event tree)
  | 0, _, _ => []
  | _ + 1, .absent, _ => []
  | levels + 1, .present index, session =>
    .visited (.present index) session (visit dialect (levels + 1) (.present index) session) ::
      (nodeScript dialect (.present index)).history (visit dialect levels)
        (visitHistory dialect levels) { session with visited := index :: session.visited }

/-! ### The visits in a history -/

theorem mem_eventsAfter {outcome : Except Error α × Session}
    {next : α → Session → List (Event tree)} {event : Event tree}
    (h : event ∈ eventsAfter outcome next) :
    ∃ value session, outcome = (.ok value, session) ∧ event ∈ next value session := by
  rcases outcome with ⟨error | value, session⟩
  · simp [eventsAfter] at h
  · exact ⟨value, session, rfl, h⟩

theorem not_mem_offered {offers : List Offer} :
    .visited node before outcome ∉ (offers.map .offered : List (Event tree)) := by
  simp

/-- The visits on a level of their own. -/
theorem mem_of_mem_eventsWithin {frame : Frame} {walk : Walk Unit}
    {inner : Session → List (Event tree)}
    (h : .visited node before outcome ∈ eventsWithin frame walk inner session) :
    .visited node before outcome ∈ inner { session with scope := session.scope.push frame } := by
  rcases List.mem_append.mp h with hinner | hclose
  · exact hinner
  · obtain ⟨_, _, _, hoffered⟩ := mem_eventsAfter hclose
    exact absurd hoffered not_mem_offered

theorem exists_of_mem_eventsOfAll {nodes : List (Node tree)} {event : Event tree}
    (h : event ∈ eventsOfAll walk inner nodes session) :
    ∃ node ∈ nodes, ∃ state, event ∈ inner node state := by
  induction nodes generalizing session with
  | nil => simp [eventsOfAll] at h
  | cons node rest ih =>
    rcases List.mem_append.mp h with hnode | hrest
    · exact ⟨node, List.mem_cons_self, session, hnode⟩
    · obtain ⟨_, after, _, hafter⟩ := mem_eventsAfter hrest
      obtain ⟨other, hother, hstate⟩ := ih hafter
      exact ⟨other, List.mem_cons_of_mem _ hother, hstate⟩

/-- Every visit in the run of a script happens when one of the script's nodes is visited. -/
theorem Script.exists_of_mem_history {allowed : Node tree → Prop} {script : Script tree α}
    (hvisits : script.Visits allowed)
    (h : .visited node before outcome ∈ script.history walk inner session) :
    ∃ below, allowed below ∧ ∃ state, .visited node before outcome ∈ inner below state := by
  -- Of the steps only visits leave visits in the history; all others leave offers at most.
  induction script generalizing session with
  | quiet walk hquiet => simp [history] at h
  | send id => exact absurd h not_mem_offered
  | flush position => exact absurd h not_mem_offered
  | closeArm =>
    simp only [history] at h
    split at h
    · exact absurd h not_mem_offered
    · simp at h
  | nextArm queries => simp [history] at h
  | visits nodes =>
    obtain ⟨below, hbelow, hstate⟩ := exists_of_mem_eventsOfAll h
    exact ⟨below, hvisits below hbelow, hstate⟩
  | query parts =>
    obtain ⟨below, hbelow, hstate⟩ := exists_of_mem_eventsOfAll (mem_of_mem_eventsWithin h)
    exact ⟨below, hvisits below hbelow, hstate⟩
  | within frame body ih => exact ih hvisits (mem_of_mem_eventsWithin h)
  | andThen first next ihfirst ihnext =>
    rcases List.mem_append.mp h with hfirst | hnext
    · exact ihfirst hvisits.1 hfirst
    · obtain ⟨value, after, _, hafter⟩ := mem_eventsAfter hnext
      exact ihnext value (hvisits.2 value) hafter

/-! ### The nodes that a run notes -/

/-- The indexes of the nodes that are visited among some events. -/
def visitsOf (events : List (Event tree)) : List Nat :=
  events.filterMap fun event =>
    match event with
    | .visited node _ _ => node.index?
    | .offered _ => none

/-- The second state has noted the visits among the events, the latest first. -/
def Notes (events : List (Event tree)) (before after : Session) : Prop :=
  after.visited = (visitsOf events).reverse ++ before.visited

/-- A step without visits. -/
theorem notes_offered (offers : List Offer) {after : Session} (h : after.visited = before.visited) :
    Notes (offers.map .offered : List (Event tree)) before after := by
  have hnone : visitsOf (offers.map .offered : List (Event tree)) = [] := by
    simp [visitsOf, List.filterMap_map]
  rw [Notes, hnone, h]
  rfl

theorem Notes.trans {first last : List (Event tree)} {middle after : Session}
    (hfirst : Notes first before middle) (hlast : Notes last middle after) :
    Notes (first ++ last) before after := by
  unfold Notes at *
  rw [hlast, hfirst, visitsOf, visitsOf, visitsOf, List.filterMap_append, List.reverse_append,
    List.append_assoc]

theorem Notes.bind {β : Type} {walk : Walk α} {next : α → Walk β} {first : List (Event tree)}
    {later : α → Session → List (Event tree)} (hfirst : Notes first session (walk session).2)
    (hnext : ∀ value after, walk session = (.ok value, after) →
      Notes (later value after) after (next value after).2) :
    Notes (first ++ eventsAfter (walk session) later) session ((walk >>= next) session).2 := by
  rcases hrun : walk session with ⟨error | value, after⟩ <;> rw [hrun] at hfirst
  · rw [Stateful.bind_error hrun, eventsAfter, List.append_nil]
    exact hfirst
  · rw [Stateful.bind_ok hrun]
    exact hfirst.trans (hnext value after hrun)

theorem Notes.within {frame : Frame} {walk : Walk Unit} {inner : Session → List (Event tree)}
    (h : Notes (inner { session with scope := session.scope.push frame })
      { session with scope := session.scope.push frame }
      (walk { session with scope := session.scope.push frame }).2) :
    Notes (eventsWithin frame walk inner session) session (Walk.within frame walk session).2 := by
  have hstart : Notes ([] : List (Event tree)) session
      { session with scope := session.scope.push frame } :=
    notes_offered [] rfl
  simp only [eventsWithin, Walk.within]
  rcases hrun : walk { session with scope := session.scope.push frame } with ⟨error | ⟨⟩, after⟩ <;>
      rw [hrun] at h
  · rw [eventsAfter, List.append_nil]
    exact hstart.trans h
  · exact (hstart.trans h).trans (notes_offered _ rfl)

/-- A run of a script notes the visits of its history, if the visits of nodes do. -/
theorem Script.notes
    (hwalk : ∀ node session, Notes (inner node session) session (walk node session).2)
    (script : Script tree α) (session : Session) :
    Notes (script.history walk inner session) session (script.run walk session).2 := by
  have hnodes : ∀ nodes session, Notes (eventsOfAll walk inner nodes session) session
      (nodes.forM walk session).2 := by
    intro nodes
    induction nodes with
    | nil => exact fun session => notes_offered [] rfl
    | cons node rest ih =>
      exact fun session => Notes.bind (hwalk node session) fun _ after _ => ih after
  -- Nothing but a visit changes the list of visited nodes.
  induction script generalizing session with
  | quiet walk h => exact notes_offered [] (h.visits session)
  | send id => exact notes_offered _ rfl
  | flush position => exact notes_offered _ rfl
  | closeArm =>
    have hsame : (Walk.closeArm session).2.visited = session.visited := by
      rw [closeArm_eq]
      split <;> rfl
    simp only [history]
    split
    · exact notes_offered _ hsame
    · exact notes_offered [] hsame
  | nextArm queries =>
    refine notes_offered [_] ?_
    rw [run_nextArm, nextArm_eq]
    split
    · rfl
    · split <;> rfl
  | visits nodes => exact hnodes nodes session
  | query parts => exact Notes.within (hnodes parts _)
  | within frame body ih => exact Notes.within (ih _)
  | andThen first next ihfirst ihnext =>
    exact Notes.bind (ihfirst session) fun value after _ => ihnext value after

/-- A visit notes the visits of its history. -/
theorem notes_visit (dialect : Dialect) (levels : Nat) (node : Node tree) (session : Session) :
    Notes (visitHistory dialect levels node session) session
      (visit dialect levels node session).2 := by
  induction levels generalizing node session with
  | zero => exact notes_offered [] rfl
  | succ levels ih =>
    cases node with
    | absent => exact notes_offered [] rfl
    | present index =>
      rw [visit_present, state_located]
      have hsteps := Script.notes ih (nodeScript dialect (.present index))
        { session with visited := index :: session.visited }
      have hnoted : Notes
          [.visited (.present index) session (visit dialect (levels + 1) (.present index) session)]
          session { session with visited := index :: session.visited } := rfl
      exact hnoted.trans hsteps

end Lineage.Walk
