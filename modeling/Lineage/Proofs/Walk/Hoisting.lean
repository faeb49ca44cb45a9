import Mathlib.Data.List.Perm.Subperm
import Lineage.Dialect.Grammar
import Lineage.Proofs.Walk.Ledger
import Lineage.Proofs.Walk.Regions

/-!
# Each routine is declared once

The routines of a package are declared before its body is read, and met again when it is. The books
of a run are kept region by region: what a step declares it declares for nodes of the region it
works in, so steps in regions that do not meet never declare anything for the same node. A node that
was declared ahead is recognised when it is visited, and nothing is declared for it then.

## Key results

- `Kept`: what a walk in a region does to the books
- `Script.exists_kept`: the steps of most rules keep the books, if the visits of nodes do
- `keepsBooks_visit`: a visit keeps the books in the subtree of its node
- `hoisting_declares_once`: one declaration for a node, at every moment of every run
-/

namespace Lineage.Walk

variable {tree : Tree} {dialect : Dialect} {α β : Type} {session : Session}
  {ledger : List (Declaration tree)}

/-- Where a declaration comes from. Either its node is visited, with nothing declared ahead for it,
    and the new binding is the first one that is added; or a package around it is visited, and the
    new binding is the routine at the place that its node has among the routines of the package. -/
inductive Origin (dialect : Dialect) (entry : Declaration tree) : Event tree → Prop where
  | visited {before : Session} {outcome : Except Error Unit × Session} :
      before.ahead? entry.node = none → entry.id = before.scope.graph.nextId →
        Origin dialect entry (.visited entry.node before outcome)
  | hoisted {package : Node tree} {before : Session} {outcome : Except Error Unit × Session}
      (place : Nat) :
      dialect.binds package .package = true →
      (dialect.routinesOf package)[place]? = some entry.node →
      (outcome.2.scope.graph.ofKind .routine)[(before.scope.graph.ofKind .routine).length + place]?
        = some entry.id →
        Origin dialect entry (.visited package before outcome)

/-- The declarations for nodes of the region were made ahead, and if there are any, no package is
    in the region. -/
structure Fresh (dialect : Dialect) (region : Set (Node tree)) (ledger : List (Declaration tree))
    (session : Session) : Prop where
  ahead : ∀ entry ∈ ledger, entry.node ∈ region →
    dialect.binds entry.node .routine = true ∧ session.ahead? entry.node = some entry.id
  flat : ∀ entry ∈ ledger, entry.node ∈ region →
    ∀ node ∈ region, dialect.binds node .package = false

theorem Fresh.mono {region smaller : Set (Node tree)} (h : Fresh dialect region ledger session)
    (hsmaller : smaller ⊆ region) : Fresh dialect smaller ledger session :=
  ⟨fun entry hentry hin => h.ahead entry hentry (hsmaller hin),
    fun entry hentry hin node hnode => h.flat entry hentry (hsmaller hin) node (hsmaller hnode)⟩

theorem Fresh.of_ahead {region : Set (Node tree)} {before after : Session}
    (h : Fresh dialect region ledger before)
    (hsame : ∀ node : Node tree, node ∈ region → after.ahead? node = before.ahead? node) :
    Fresh dialect region ledger after :=
  ⟨fun entry hentry hin => ⟨(h.ahead entry hentry hin).1,
    by rw [hsame _ hin]; exact (h.ahead entry hentry hin).2⟩, h.flat⟩

/-- A walk in the region entered more declarations in the books: all for nodes of the region, and
    each with an origin among the events. What is declared ahead for other nodes is left alone. At
    every moment the books hold the first of these declarations, and if the walk succeeded, they
    are complete. -/
structure Kept (dialect : Dialect) (region : Set (Node tree)) (ledger : List (Declaration tree))
    (before : Session) (moments : List Session) (events : List (Event tree))
    (outcome : Except Error α × Session) (more : List (Declaration tree)) : Prop where
  books : Books dialect (ledger ++ more) outcome.2
  inside : ∀ entry ∈ more, entry.node ∈ region
  outside : ∀ node : Node tree, node ∉ region → outcome.2.ahead? node = before.ahead? node
  along : ∀ moment ∈ moments, ∃ front, front.map Declaration.label <+: more.map Declaration.label ∧
    Books dialect (ledger ++ front) moment
  origin : ∀ entry ∈ more, ∃ event ∈ events, Origin dialect entry event
  complete : ∀ value, outcome.1 = .ok value → ∀ entry ∈ more, entry.Complete dialect

namespace Kept

variable {region front back larger : Set (Node tree)} {ledger more rest : List (Declaration tree)}
  {before middle : Session} {moments later : List Session} {events after : List (Event tree)}
  {outcome : Except Error α × Session} {start : Session}

/-- A walk that enters nothing. -/
theorem of_books (h : Books dialect ledger outcome.2)
    (houtside : ∀ node : Node tree, node ∉ region → outcome.2.ahead? node = before.ahead? node)
    (hmoments : ∀ moment ∈ moments, Books dialect ledger moment) :
    Kept dialect region ledger before moments events outcome [] := by
  refine ⟨by rwa [List.append_nil], by simp, houtside, fun moment hmoment => ?_, by simp, by simp⟩
  exact ⟨[], List.prefix_rfl, by rw [List.append_nil]; exact hmoments moment hmoment⟩

/-- A step that adds neither routines nor parameters. -/
theorem idle (h : Books dialect ledger before) (hidle : Idle before outcome.2) :
    Kept dialect region ledger before [outcome.2] events outcome [] := by
  have hbooks := h.idle hidle
  refine of_books hbooks (fun node _ => ?_) fun moment hmoment => ?_
  · rw [Session.ahead?, hidle.hoisted]
    rfl
  · rw [List.mem_singleton.mp hmoment]
    exact hbooks

/-- Nothing happens. -/
theorem refl (h : Books dialect ledger before) (value : α) :
    Kept dialect region ledger before [] events (.ok value, before) [] :=
  of_books h (fun _ _ => rfl) (by simp)

theorem mono (h : Kept dialect region ledger before moments events outcome more)
    (hlarger : region ⊆ larger) (hevents : events ⊆ after) :
    Kept dialect larger ledger before moments after outcome more where
  books := h.books
  inside entry hentry := hlarger (h.inside entry hentry)
  outside node hnode := h.outside node fun hin => hnode (hlarger hin)
  along := h.along
  origin entry hentry := by
    obtain ⟨event, hevent, horigin⟩ := h.origin entry hentry
    exact ⟨event, hevents hevent, horigin⟩
  complete := h.complete

/-- A region that the walk leaves alone stays fresh. -/
theorem fresh (h : Kept dialect front ledger before moments events outcome more)
    (hfresh : Fresh dialect back ledger before) (hapart : Disjoint front back) :
    Fresh dialect back (ledger ++ more) outcome.2 := by
  have hold : ∀ entry ∈ ledger ++ more, entry.node ∈ back → entry ∈ ledger := by
    intro entry hentry hin
    rcases List.mem_append.mp hentry with hold | hnew
    · exact hold
    · exact absurd hin (Set.disjoint_left.mp hapart (h.inside entry hnew))
  refine ⟨fun entry hentry hin => ?_, fun entry hentry hin =>
    hfresh.flat entry (hold entry hentry hin) hin⟩
  obtain ⟨hrule, hahead⟩ := hfresh.ahead entry (hold entry hentry hin) hin
  exact ⟨hrule, (h.outside _ (Set.disjoint_right.mp hapart hin)).trans hahead⟩

/-- Two walks in a row. -/
theorem trans {value : β}
    (hfirst : Kept dialect front ledger before moments events (Except.ok value, middle) more)
    (hlast : Kept dialect back (ledger ++ more) middle later after outcome rest)
    (hfront : front ⊆ region) (hback : back ⊆ region) :
    Kept dialect region ledger before (moments ++ later) (events ++ after) outcome
      (more ++ rest) where
  books := by rw [← List.append_assoc]; exact hlast.books
  inside entry hentry := by
    rcases List.mem_append.mp hentry with hin | hin
    · exact hfront (hfirst.inside entry hin)
    · exact hback (hlast.inside entry hin)
  outside node hnode :=
    (hlast.outside node fun hin => hnode (hback hin)).trans (hfirst.outside node fun hin =>
      hnode (hfront hin))
  along moment hmoment := by
    rcases List.mem_append.mp hmoment with hin | hin
    · obtain ⟨entries, hentries, hbooks⟩ := hfirst.along moment hin
      refine ⟨entries, hentries.trans ?_, hbooks⟩
      rw [List.map_append]
      exact List.prefix_append _ _
    · -- In the second walk all entries of the first are in the books already.
      obtain ⟨entries, hentries, hbooks⟩ := hlast.along moment hin
      refine ⟨more ++ entries, ?_, by rw [← List.append_assoc]; exact hbooks⟩
      rw [List.map_append, List.map_append]
      exact (List.prefix_append_right_inj _).mpr hentries
  origin entry hentry := by
    rcases List.mem_append.mp hentry with hin | hin
    · obtain ⟨event, hevent, horigin⟩ := hfirst.origin entry hin
      exact ⟨event, List.mem_append_left _ hevent, horigin⟩
    · obtain ⟨event, hevent, horigin⟩ := hlast.origin entry hin
      exact ⟨event, List.mem_append_right _ hevent, horigin⟩
  complete result hok entry hentry := by
    rcases List.mem_append.mp hentry with hin | hin
    · exact hfirst.complete value rfl entry hin
    · exact hlast.complete result hok entry hin

/-- Two walks in a row, of which the second is reached only if the first succeeds. The first one may
    itself be the end of a longer walk. -/
theorem bind {walk : Walk β} {next : β → Walk α} {moreMoments : β → Session → List Session}
    {moreEvents : β → Session → List (Event tree)}
    (hfirst : Kept dialect front ledger before moments events (walk start) more)
    (hnext : ∀ value middle, walk start = (.ok value, middle) → ∃ rest,
      Kept dialect back (ledger ++ more) middle (moreMoments value middle) (moreEvents value middle)
        (next value middle) rest) (hfront : front ⊆ region) (hback : back ⊆ region) :
    ∃ rest, Kept dialect region ledger before (moments ++ momentsAfter (walk start) moreMoments)
      (events ++ eventsAfter (walk start) moreEvents) ((walk >>= next) start) rest := by
  rcases hrun : walk start with ⟨error | value, middle⟩ <;> rw [hrun] at hfirst
  · rw [Stateful.bind_error hrun]
    refine ⟨more, ?_⟩
    simp only [momentsAfter, eventsAfter, List.append_nil]
    have hmono := hfirst.mono hfront (List.Subset.refl events)
    exact ⟨hmono.books, hmono.inside, hmono.outside, hmono.along, hmono.origin, by simp⟩
  · rw [Stateful.bind_ok hrun]
    obtain ⟨rest, hrest⟩ := hnext value middle hrun
    exact ⟨more ++ rest, hfirst.trans hrest hfront hback⟩

/-- The state at the start is one more moment. -/
theorem cons {moment : Session} (h : Kept dialect region ledger before moments events outcome more)
    (hbooks : Books dialect ledger moment) :
    Kept dialect region ledger before (moment :: moments) events outcome more :=
  { h with along := List.forall_mem_cons.mpr ⟨⟨[], List.nil_prefix,
    by rw [List.append_nil]; exact hbooks⟩, h.along⟩ }

/-- Placing the errors of a walk changes nothing else. -/
theorem located {walk : Walk Unit} (place : Location)
    (h : Kept dialect region ledger before moments events (walk start) more) :
    Kept dialect region ledger before moments events (Walk.located place walk start) more := by
  have hstate := state_located place walk start
  refine ⟨by rw [hstate]; exact h.books, h.inside, by rw [hstate]; exact h.outside,
    h.along, h.origin, fun value hok => ?_⟩
  unfold Walk.located at hok
  rcases hrun : walk start with ⟨error | result, last⟩
  · simp [hrun] at hok
  · exact h.complete result (by rw [hrun])

/-- An earlier state, in which the same was declared ahead for the nodes outside of the region. -/
theorem of_before (h : Kept dialect region ledger start moments events outcome more)
    (hsame : ∀ node : Node tree, node ∉ region → start.ahead? node = before.ahead? node) :
    Kept dialect region ledger before moments events outcome more :=
  { h with outside := fun node hnode => (h.outside node hnode).trans (hsame node hnode) }

/-- A walk on a level of its own. -/
theorem within {frame : Frame} {walk : Walk Unit} {inner : Session → List Session}
    (h : Kept dialect region ledger { before with scope := before.scope.push frame }
      (inner { before with scope := before.scope.push frame }) events
      (walk { before with scope := before.scope.push frame }) more)
    (hevents : events ⊆ after) (hbooks : Books dialect ledger before) :
    Kept dialect region ledger before (momentsWithin frame walk inner before) after
      (Walk.within frame walk before) more := by
  -- Opening and closing the level leaves the books, so only the walk inside counts.
  have hidle := idle_within frame walk before
  have hclosed := h.books.idle hidle
  refine ⟨hclosed, h.inside, fun node hnode => ?_, fun moment hmoment => ?_, fun entry hentry => ?_,
    fun value hok => ?_⟩
  · rw [Session.ahead?, hidle.hoisted]
    exact h.outside node hnode
  · rcases List.mem_append.mp hmoment with hin | hlast
    · rcases List.mem_cons.mp hin with rfl | hinner
      · refine ⟨[], List.nil_prefix, ?_⟩
        rw [List.append_nil]
        exact hbooks.idle ⟨.refl, rfl⟩
      · exact h.along moment hinner
    · rw [List.mem_singleton.mp hlast]
      exact ⟨more, List.prefix_rfl, hclosed⟩
  · obtain ⟨event, hevent, horigin⟩ := h.origin entry hentry
    exact ⟨event, hevents hevent, horigin⟩
  · rcases hrun : walk { before with scope := before.scope.push frame } with
        ⟨error | result, closed⟩
    · simp [Walk.within, hrun] at hok
    · exact h.complete result (by rw [hrun])

end Kept

/-! ### Scripts -/

/-- Visiting nodes down to a number of levels keeps the books in the subtree of each node. -/
def KeepsBooks (dialect : Dialect) (tree : Tree) (levels : Nat) : Prop :=
  ∀ (node : Node tree) (ledger : List (Declaration tree)) (session : Session), session.WellFormed →
    Books dialect ledger session → Fresh dialect node.span ledger session →
    ∃ more, Kept dialect node.span ledger session (visitMoments dialect levels node session)
      (visitHistory dialect levels node session) (visit dialect levels node session) more

section

variable {levels : Nat} {region : Set (Node tree)} {ledger : List (Declaration tree)}
  {session : Session} (hvisit : KeepsBooks dialect tree levels)

include hvisit

/-- Nodes visited in order. -/
theorem exists_kept_forM {nodes : List (Node tree)} (hsplit : Split region nodes)
    (hwell : ∀ moment ∈ session :: momentsOfAll (visit dialect levels) (visitMoments dialect levels)
      nodes session, moment.WellFormed)
    (hbooks : Books dialect ledger session) (hfresh : Fresh dialect region ledger session) :
    ∃ more, Kept dialect region ledger session
      (momentsOfAll (visit dialect levels) (visitMoments dialect levels) nodes session)
      (eventsOfAll (visit dialect levels) (visitHistory dialect levels) nodes session)
      (nodes.forM (visit dialect levels) session) more := by
  induction nodes generalizing region ledger session with
  | nil => exact ⟨[], .refl hbooks ()⟩
  | cons node rest ih =>
    have htrail := trail_visit dialect levels node session
    obtain ⟨more, hmore⟩ := hvisit node ledger session (hwell session List.mem_cons_self) hbooks
      (hfresh.mono (hsplit.inside node List.mem_cons_self))
    refine hmore.bind (fun _ middle hrun => ?_) (hsplit.inside node List.mem_cons_self)
      hsplit.tail.spans_subset
    rw [hrun] at hmore htrail
    have hafter := hmore.fresh (hfresh.mono hsplit.tail.spans_subset) hsplit.disjoint_spans
    refine ih hsplit.tail.tight (fun moment hmoment => ?_) hmore.books hafter
    refine hwell moment ?_
    simp only [momentsOfAll, hrun, momentsAfter]
    rcases List.mem_cons.mp hmoment with rfl | hlater
    · exact List.mem_append_left _ htrail.last_mem
    · exact List.mem_cons_of_mem _ (List.mem_append_right _ hlater)

/-- A script that adds neither routines nor parameters itself keeps the books, if the
    visits of nodes do. -/
theorem Script.exists_kept {script : Script tree α} (hsplits : script.Splits region)
    (hmodest : script.Modest)
    (hwell : ∀ moment ∈ session :: script.moments (visit dialect levels)
      (visitMoments dialect levels) session, moment.WellFormed)
    (hbooks : Books dialect ledger session) (hfresh : Fresh dialect region ledger session) :
    ∃ more, Kept dialect region ledger session
      (script.moments (visit dialect levels) (visitMoments dialect levels) session)
      (script.history (visit dialect levels) (visitHistory dialect levels) session)
      (script.run (visit dialect levels) session) more := by
  -- By induction on the script: the region is split as the script is, and the books pass from part
  -- to part.
  induction script generalizing region ledger session with
  | quiet walk hquiet => exact ⟨[], .idle hbooks (hmodest session)⟩
  | send id => exact ⟨[], .idle hbooks (.of_plain (Scope.plain_receiveAll [id] session.scope))⟩
  | flush position =>
    exact ⟨[], .idle hbooks (.of_plain (session.scope.plain_flushElement position))⟩
  | closeArm => exact ⟨[], .idle hbooks (idle_closeArm session)⟩
  | nextArm queries => exact ⟨[], .idle hbooks (idle_nextArm queries session)⟩
  | visits nodes => exact exists_kept_forM hvisit hsplits hwell hbooks hfresh
  | query parts =>
    obtain ⟨more, hmore⟩ := exists_kept_forM hvisit hsplits
      (fun moment hmoment => hwell moment (List.mem_cons_of_mem _ (List.mem_append_left _ hmoment)))
      (hbooks.idle ⟨.refl, rfl⟩) (hfresh.of_ahead fun _ _ => rfl)
    exact ⟨more, hmore.within (List.subset_append_left _ _) hbooks⟩
  | within frame body ih =>
    obtain ⟨more, hmore⟩ := ih hsplits hmodest
      (fun moment hmoment => hwell moment (List.mem_cons_of_mem _ (List.mem_append_left _ hmoment)))
      (hbooks.idle ⟨.refl, rfl⟩) (hfresh.of_ahead fun _ _ => rfl)
    exact ⟨more, hmore.within (List.subset_append_left _ _) hbooks⟩
  | andThen first next ihfirst ihnext =>
    obtain ⟨front, back, hfront, hback, hapart, hsplitsFirst, hsplitsNext⟩ := hsplits
    have htrail := first.trail (trail_visit dialect levels) session
    obtain ⟨more, hmore⟩ := ihfirst hsplitsFirst hmodest.1 (fun moment hmoment => by
      rcases List.mem_cons.mp hmoment with rfl | hin
      · exact hwell _ List.mem_cons_self
      · exact hwell moment (List.mem_cons_of_mem _ (List.mem_append_left _ hin))) hbooks
          (hfresh.mono hfront)
    refine hmore.bind (fun value middle hrun => ?_) hfront hback
    rw [hrun] at hmore htrail
    -- What the first part enters lies in its own region, so that of the rest is still fresh.
    have hafter := hmore.fresh (hfresh.mono hback) hapart
    refine ihnext value (hsplitsNext value) (hmodest.2 value) (fun moment hmoment => ?_)
      hmore.books hafter
    refine hwell moment ?_
    simp only [moments, hrun, momentsAfter]
    rcases List.mem_cons.mp hmoment with rfl | hlater
    · exact List.mem_append_left _ htrail.last_mem
    · exact List.mem_cons_of_mem _ (List.mem_append_right _ hlater)

end

/-! ### Declarations -/

/-- The moments of a script whose first step is quiet and succeeds. -/
theorem Script.moments_quiet {walk : Walk β} {hquiet : Quiet walk} {next : β → Script tree α}
    {after : Session} {value : β} {levels : Nat} (h : walk session = (.ok value, after)) :
    (Script.quiet walk hquiet >>= next).moments (visit dialect levels)
      (visitMoments dialect levels) session =
      after :: (next value).moments (visit dialect levels) (visitMoments dialect levels) after := by
  show [(walk session).2] ++ momentsAfter (walk session) _ = _
  rw [h]
  rfl

/-- The run of a script keeps the books in the region, where the event that it is part of may be
    an origin too. -/
def Script.KeepsAt (dialect : Dialect) (levels : Nat) (region : Set (Node tree))
    (ledger : List (Declaration tree)) (event : Event tree) (script : Script tree α)
    (before session : Session) (moments : List Session) : Prop :=
  ∃ more, Kept dialect region ledger before
    (moments ++ script.moments (visit dialect levels) (visitMoments dialect levels) session)
    (event :: script.history (visit dialect levels) (visitHistory dialect levels) session)
    (script.run (visit dialect levels) session) more

namespace Script.KeepsAt

variable {levels : Nat} {region : Set (Node tree)} {ledger : List (Declaration tree)}
  {event : Event tree} {walk : Walk β} {hquiet : Quiet walk} {next : β → Script tree α}
  {before session after : Session} {moments : List Session}

/-- A first step that is quiet and succeeds. -/
theorem quiet_ok {value : β} (h : walk session = (.ok value, after))
    (hnext : (next value).KeepsAt dialect levels region ledger event before after
      (moments ++ [after])) :
    (Script.quiet walk hquiet >>= next).KeepsAt dialect levels region ledger event before
      session moments := by
  obtain ⟨more, hmore⟩ := hnext
  refine ⟨more, ?_⟩
  rw [List.append_assoc] at hmore
  have hhistory : (Script.quiet walk hquiet >>= next).history (visit dialect levels)
      (visitHistory dialect levels) session =
        (next value).history (visit dialect levels) (visitHistory dialect levels) after := by
    show [] ++ eventsAfter (walk session) _ = _
    rw [h]
    rfl
  have hrun : (Script.quiet walk hquiet >>= next).run (visit dialect levels) session =
      (next value).run (visit dialect levels) after := Stateful.bind_ok h
  rw [moments_quiet h, hhistory, hrun]
  exact hmore

/-- A first step that is quiet and fails. -/
theorem quiet_error {error : Error} (h : walk session = (.error error, after))
    (hnext : Kept dialect region ledger before (moments ++ [after]) [event] (walk session) []) :
    (Script.quiet walk hquiet >>= next).KeepsAt dialect levels region ledger event before
      session moments := by
  have hmoments : (Script.quiet walk hquiet >>= next).moments (visit dialect levels)
      (visitMoments dialect levels) session = [after] := by
    show [(walk session).2] ++ momentsAfter (walk session) _ = _
    rw [h]
    rfl
  have hrun : (Script.quiet walk hquiet >>= next).run (visit dialect levels) session =
      (.error error, after) :=
    Stateful.bind_error h
  unfold KeepsAt
  rw [hmoments, hrun]
  rw [h] at hnext
  exact ⟨[], hnext.books, hnext.inside, hnext.outside, hnext.along, by simp, by simp⟩

end Script.KeepsAt

section

variable {levels : Nat} {ledger : List (Declaration tree)} {session : Session} {event : Event tree}
  {node : Node tree}

/-- A routine or cursor is declared for a node that has no declaration yet, and its
    parameters are added. -/
theorem exists_kept_declare {name tag : String} {kind : Binding.Kind} (hwell : session.WellFormed)
    (hbooks : Books dialect ledger session) (hnew : node ∉ ledger.map (·.node))
    (hname : dialect.declaredName? node = some name) (hkind : Declares dialect node kind)
    (htag : dialect.formalsOf node = dialect.parametersOf node tag)
    (horigin : ∀ added, Origin dialect ⟨node, session.scope.graph.nextId, added⟩ event) :
    ∃ more, Kept dialect {node} ledger session
      [(declare (.ofName name kind) session).2,
        (parameters dialect session.scope.graph.nextId node tag
          (declare (.ofName name kind) session).2).2] [event]
      (parameters dialect session.scope.graph.nextId node tag
        (declare (.ofName name kind) session).2) more := by
  have hdeclared := books_declare hbooks hwell hnew hname hkind
  obtain ⟨added, hadded, hhoisted, hok⟩ :=
    books_parameters hdeclared (children_declare hwell name kind) htag
  refine ⟨[⟨node, session.scope.graph.nextId, added⟩], hadded, ?_, fun other _ => ?_, ?_, ?_, ?_⟩
  · intro entry hentry
    rw [List.mem_singleton.mp hentry]
    rfl
  · rw [Session.ahead?, hhoisted]
    rfl
  · rw [List.forall_mem_cons]
    refine ⟨⟨[⟨node, session.scope.graph.nextId, []⟩], List.prefix_rfl, hdeclared⟩,
      fun moment hmoment => ?_⟩
    rw [List.mem_singleton.mp hmoment]
    exact ⟨_, List.prefix_rfl, hadded⟩
  · intro entry hentry
    rw [List.mem_singleton.mp hentry]
    exact ⟨event, List.mem_cons_self, horigin added⟩
  · intro ids hids entry hentry
    rw [List.mem_singleton.mp hentry]
    exact (hok ids hids).2

/-- A routine that was declared ahead is recognised, and one that was not is declared. -/
theorem exists_kept_routineId (hrule : dialect.binds node .routine = true)
    (hwell : session.WellFormed) (hbooks : Books dialect ledger session)
    (hfresh : Fresh dialect {node} ledger session)
    (horigin : session.ahead? node = none →
      ∀ added, Origin dialect ⟨node, session.scope.graph.nextId, added⟩ event)
    {id : BindingId} {middle : Session} (hrun : routineId dialect node session = (.ok id, middle)) :
    ∃ more, Kept dialect {node} ledger session
      [middle, (parameters dialect id node dialect.vocabulary.declarations.parameter middle).2]
      [event]
      (parameters dialect id node dialect.vocabulary.declarations.parameter middle) more := by
  have htaken := books_takeHoisted hbooks node
  have hothers : ∀ other : Node tree, other ∉ ({node} : Set (Node tree)) →
      (takeHoisted node session).2.ahead? other = session.ahead? other := fun other hother =>
    (ahead?_takeHoisted node other session).trans (if_neg hother)
  cases hahead : session.ahead? node with
  | some found =>
    rw [routineId_of_ahead dialect hahead] at hrun
    cases hrun
    -- The entry is in the books, with all its parameters: nothing is added.
    obtain ⟨entry, hentry, rfl, rfl, hcomplete⟩ := hbooks.hoisted node id hahead
    obtain ⟨known, hknown, _⟩ := parameters_of_books htaken hentry hcomplete hrule
    rw [hknown]
    exact ⟨[], ((Kept.refl htaken known).cons htaken).cons htaken |>.of_before hothers⟩
  | none =>
    rw [routineId_of_none dialect hahead] at hrun
    -- If the node had an entry, its routine would have been kept for later.
    have hnew : node ∉ ledger.map (·.node) := by
      intro hmem
      obtain ⟨entry, hentry, hsame⟩ := List.mem_map.mp hmem
      have hfound := (hfresh.ahead entry hentry hsame).2
      rw [hsame, hahead] at hfound
      cases hfound
    obtain ⟨name, _, hname, hdeclare⟩ := Stateful.exists_of_bind hrun
    cases hdeclared : dialect.declaredName? node with
    | none =>
      rw [declaredName_of_none _ hdeclared] at hname
      cases hname
    | some declared =>
      rw [declaredName_of_some _ hdeclared] at hname
      cases hname
      cases hdeclare
      have hsame := scope_takeHoisted node session
      have hwellTaken :=
        (honest_takeHoisted node).sound.wellFormed session hwell (Graph.holds_nil _)
      have hnext : ∀ added, Origin dialect ⟨node, (takeHoisted node session).2.scope.graph.nextId,
          added⟩ event := by
        rw [hsame]
        exact horigin hahead
      obtain ⟨more, hmore⟩ := exists_kept_declare hwellTaken htaken hnew hdeclared
        (.inl ⟨hrule, rfl⟩) (formalsOf_of_routine hrule) hnext
      exact ⟨more, hmore.of_before hothers⟩

variable (hvisit : KeepsBooks dialect tree levels)
  {index : Fin tree.size}

include hvisit in
/-- What a declaration goes on with below its node. -/
theorem exists_kept_body {walk : Walk (List BindingId)} {start : Session}
    {steps : List BindingId → Script tree Unit} {moments : List Session}
    {more : List (Declaration tree)}
    (hdeclared : Kept dialect {.present index} ledger session moments [event] (walk start) more)
    (hsplits : ∀ ids, (steps ids).Splits (Node.present index).below)
    (hmodest : ∀ ids, (steps ids).Modest)
    (hwell : ∀ ids middle, walk start = (.ok ids, middle) → ∀ moment ∈ middle ::
      (steps ids).moments (visit dialect levels) (visitMoments dialect levels) middle,
      moment.WellFormed)
    (hfresh : Fresh dialect (Node.present index).span ledger session) :
    ∃ rest, Kept dialect (Node.present index).span ledger session
      (moments ++ momentsAfter (walk start) fun ids =>
        (steps ids).moments (visit dialect levels) (visitMoments dialect levels))
      ([event] ++ eventsAfter (walk start) fun ids =>
        (steps ids).history (visit dialect levels) (visitHistory dialect levels))
      ((walk >>= fun ids => (steps ids).run (visit dialect levels)) start) rest := by
  have hself : {Node.present index} ⊆ (Node.present index).span := by
    rintro found rfl
    exact Node.mem_subtree_self index
  have hapart : Disjoint {Node.present index} (Node.present index).below := by
    rw [Set.disjoint_left]
    rintro found rfl hbelow
    exact Node.not_mem_descendants_self _ hbelow
  refine hdeclared.bind (fun ids middle hrun => ?_) hself (Node.below_subset_span _)
  have hafter := hdeclared.fresh (hfresh.mono (Node.below_subset_span _)) hapart
  have hbooks := hdeclared.books
  rw [hrun] at hafter hbooks
  exact Script.exists_kept hvisit (hsplits ids) (hmodest ids) (hwell ids middle hrun) hbooks hafter

include hvisit

/-- The rule of a routine keeps the books. -/
theorem keepsAt_routine (hrule : dialect.binds (Node.present index) .routine = true)
    (hwell : ∀ moment ∈ session :: (Script.routine dialect (.present index)).moments
      (visit dialect levels) (visitMoments dialect levels) session, moment.WellFormed)
    (hbooks : Books dialect ledger session)
    (hfresh : Fresh dialect (Node.present index).span ledger session)
    (horigin : session.ahead? (Node.present index) = none →
      ∀ added, Origin dialect ⟨.present index, session.scope.graph.nextId, added⟩ event) :
    (Script.routine dialect (.present index)).KeepsAt dialect levels (Node.present index).span
      ledger event session session [] := by
  have hself : {Node.present index} ⊆ (Node.present index).span := by
    rintro found rfl
    exact Node.mem_subtree_self index
  unfold Script.routine at hwell ⊢
  rcases hrun : routineId dialect (.present index) session with ⟨error | id, middle⟩
  · -- A routine without a name fails after it was looked for among those declared ahead.
    refine Script.KeepsAt.quiet_error hrun ?_
    have htaken := books_takeHoisted hbooks (.present index)
    rw [hrun, routineId_of_error hrun]
    refine Kept.of_books htaken (fun node hnode => ?_) (by simpa using htaken)
    exact (ahead?_takeHoisted _ node session).trans (if_neg fun hsame => hnode (hself hsame))
  · refine Script.KeepsAt.quiet_ok hrun ?_
    obtain ⟨more, hmore⟩ := exists_kept_routineId hrule (hwell session List.mem_cons_self) hbooks
      (hfresh.mono hself) horigin hrun
    refine exists_kept_body hvisit hmore (fun ids => ?_) (fun ids => ?_)
      (fun ids last hlast moment hmoment => ?_) hfresh
    · exact Script.splits_within (Script.splits_after trivial fun _ => Script.split_routineBody)
    · exact ⟨modest_declareAll ids, fun _ => trivial⟩
    · refine hwell moment ?_
      rw [Script.moments_quiet hrun, Script.moments_quiet hlast]
      exact List.mem_cons_of_mem _ (List.mem_cons_of_mem _ hmoment)

/-- The rule of a cursor keeps the books. -/
theorem keepsAt_cursor (hrule : dialect.binds (Node.present index) .cursor = true)
    (hwell : ∀ moment ∈ session :: (Script.cursor dialect (.present index)).moments
      (visit dialect levels) (visitMoments dialect levels) session, moment.WellFormed)
    (hbooks : Books dialect ledger session)
    (hfresh : Fresh dialect (Node.present index).span ledger session)
    (horigin : session.ahead? (Node.present index) = none →
      ∀ added, Origin dialect ⟨.present index, session.scope.graph.nextId, added⟩ event) :
    (Script.cursor dialect (.present index)).KeepsAt dialect levels (Node.present index).span ledger
      event session session [] := by
  unfold Script.cursor at hwell ⊢
  cases hname : dialect.declaredName? (Node.present index) with
  | none =>
    have hrun := declaredName_of_none session hname
    refine Script.KeepsAt.quiet_error hrun ?_
    rw [hrun]
    exact .of_books hbooks (fun _ _ => rfl) (by simpa using hbooks)
  | some name =>
    have hrun := declaredName_of_some session hname
    have hdeclare : declare (.ofName name .cursor) session =
        (.ok session.scope.graph.nextId, (declare (.ofName name .cursor) session).2) := rfl
    -- Only routines are declared ahead, so there is no declaration for the cursor yet.
    have hnew : Node.present index ∉ ledger.map (·.node) := by
      intro hmem
      obtain ⟨entry, hentry, hsame⟩ := List.mem_map.mp hmem
      have hroutine := (hfresh.ahead entry hentry (hsame ▸ Node.mem_subtree_self index)).1
      rw [hsame] at hroutine
      simp only [Dialect.binds, Bool.and_eq_true, beq_iff_eq] at hrule hroutine
      rw [hrule.2] at hroutine
      cases hroutine.2
    have hnone : session.ahead? (Node.present index) = none := by
      cases hahead : session.ahead? (Node.present index) with
      | none => rfl
      | some id =>
        obtain ⟨entry, hentry, hsame, _⟩ := hbooks.hoisted _ id hahead
        exact absurd (List.mem_map.mpr ⟨entry, hentry, hsame⟩) hnew
    obtain ⟨more, hmore⟩ := exists_kept_declare (hwell session List.mem_cons_self) hbooks hnew hname
      (.inr ⟨hrule, rfl⟩) (formalsOf_of_cursor hrule) (horigin hnone)
    refine Script.KeepsAt.quiet_ok hrun (Script.KeepsAt.quiet_ok hdeclare ?_)
    refine exists_kept_body hvisit (hmore.cons hbooks) (fun ids => ?_) (fun ids => ?_)
      (fun ids last hlast moment hmoment => ?_) hfresh
    · exact Script.splits_within (Script.splits_after trivial fun _ =>
        .singleton (span_child _ _))
    · exact ⟨modest_declareAll ids, fun _ => trivial⟩
    · refine hwell moment ?_
      rw [Script.moments_quiet hrun, Script.moments_quiet hdeclare, Script.moments_quiet hlast]
      exact List.mem_cons_of_mem _ (List.mem_cons_of_mem _ (List.mem_cons_of_mem _ hmoment))

omit hvisit in
/-- What stands at a place of a list stands there in a longer one. -/
private theorem getElem?_of_isPrefix {γ : Type} {front all : List γ} {place : Nat} {item : γ}
    (h : front <+: all) (hplace : front[place]? = some item) : all[place]? = some item := by
  obtain ⟨back, rfl⟩ := h
  rw [List.getElem?_append_left (List.getElem?_eq_some_iff.mp hplace).1]
  exact hplace

omit hvisit in
/-- The routines of a package come from the visit of the package. -/
theorem origin_of_hoists {package : Node tree} {more : List (Declaration tree)} {start : Session}
    {hoisted outcome : Except Error Unit × Session} (hrule : dialect.binds package .package = true)
    (h : Hoists dialect (dialect.routinesOf package) ledger more start hoisted)
    (hbooks : Books dialect ledger session)
    (hgrows : hoisted.2.scope.graph.Grows outcome.2.scope.graph) :
    ∀ entry ∈ more, Origin dialect entry (.visited package session outcome) := by
  intro entry hentry
  obtain ⟨place, hplace⟩ := List.mem_iff_getElem?.mp hentry
  have hnode : (more.map (·.node))[place]? = some entry.node := by
    rw [List.getElem?_map, hplace]; rfl
  have hroutines : more.filter (fun entry => dialect.binds entry.node .routine) = more := by
    refine List.filter_eq_self.mpr fun other hother => ?_
    have hmem := h.nodes.subset (List.mem_map_of_mem hother)
    have hkept := (List.mem_filter.mp hmem).2
    simp only [Bool.and_eq_true] at hkept
    exact hkept.1
  refine .hoisted place hrule (getElem?_of_isPrefix h.nodes hnode) ?_
  refine getElem?_of_isPrefix (hgrows.ofKind_isPrefix .routine) ?_
  rw [h.books.routines, hbooks.routines, List.filter_append, List.map_append, hroutines,
    List.getElem?_append_right (Nat.le_add_right _ _), Nat.add_sub_cancel_left,
    List.getElem?_map, hplace]
  rfl

omit hvisit in
/-- The routines of a package are entered ahead, and nothing else is in the books for a node
    below the package. -/
theorem exists_kept_hoistAll
    (hflat : ∀ inner ∈ (Node.present index).below, dialect.binds inner .package = false)
    (hwell : session.WellFormed) (hbooks : Books dialect ledger session)
    (hnone : ∀ entry ∈ ledger, entry.node ∉ (Node.present index).below)
    (horigin : ∀ more, Hoists dialect (dialect.routinesOf (.present index)) ledger more session
      (hoistAll dialect (.present index) session) → ∀ entry ∈ more, Origin dialect entry event) :
    ∃ more, Kept dialect (Node.present index).below ledger session
      [(hoistAll dialect (.present index) session).2] [event]
        (hoistAll dialect (.present index) session) more ∧
      ((hoistAll dialect (.present index) session).1 = .ok () →
        Fresh dialect (Node.present index).below (ledger ++ more)
        (hoistAll dialect (.present index) session).2) := by
  have hbelow : ∀ routine ∈ dialect.routinesOf (Node.present index), routine ∈
      (Node.present index).below :=
    fun routine hroutine => (List.mem_filter.mp hroutine).1
  have hrules : ∀ routine ∈ dialect.routinesOf (Node.present index),
      dialect.binds routine .routine = true := by
    intro routine hroutine
    have hkept := (List.mem_filter.mp hroutine).2
    simp only [Bool.and_eq_true] at hkept
    exact hkept.1
  have hnew : ∀ routine ∈ dialect.routinesOf (Node.present index),
      routine ∉ ledger.map (·.node) := by
    intro routine hroutine hmem
    obtain ⟨entry, hentry, hsame⟩ := List.mem_map.mp hmem
    exact hnone entry hentry (hsame ▸ hbelow routine hroutine)
  obtain ⟨more, hhoists⟩ := exists_hoists_forM (dialect.routinesOf (.present index))
    hbooks hwell hnew ((Node.nodup_descendants _).filter _) hrules
  have hnodes : ∀ entry ∈ more, entry.node ∈ dialect.routinesOf (Node.present index) :=
    fun entry hentry => hhoists.nodes.subset (List.mem_map_of_mem hentry)
  -- The new entries are those of the routines, which lie below the package, and all of them are
  -- kept for later.
  refine ⟨more, ⟨hhoists.books, fun entry hentry => hbelow _ (hnodes entry hentry),
    fun node hnode => ?_, fun moment hmoment => ?_, fun entry hentry => ?_,
    fun _ hok entry hentry => (hhoists.complete hok entry hentry).1⟩, fun hok =>
      ⟨fun entry hentry hin => ?_, fun _ _ _ => hflat⟩⟩
  · exact hhoists.others node fun hin => hnode (hbelow node hin)
  · rw [List.mem_singleton.mp hmoment]
    exact ⟨more, List.prefix_rfl, hhoists.books⟩
  · exact ⟨event, List.mem_cons_self, horigin more hhoists entry hentry⟩
  · rcases List.mem_append.mp hentry with hold | hmore
    · exact absurd hin (hnone entry hold)
    · exact ⟨hrules _ (hnodes entry hmore), (hhoists.complete hok entry hmore).2⟩

/-- The routines of a package and then its body, on a level of their own. -/
theorem exists_kept_packageBody {frame : Frame} {body : Script tree Unit}
    (hbody : body = do
      .quiet _ (quiet_hoistAll dialect (.present index))
      .visits (dialect.packageBody (.present index)))
    (hflat : ∀ inner ∈ (Node.present index).below, dialect.binds inner .package = false)
    (hwell : ∀ moment ∈ (Script.within frame body).moments (visit dialect levels)
      (visitMoments dialect levels) session, moment.WellFormed)
    (hbooks : Books dialect ledger session)
    (hnone : ∀ entry ∈ ledger, entry.node ∉ (Node.present index).below)
    (horigin : ∀ start ∈ (Script.within frame body).moments (visit dialect levels)
      (visitMoments dialect levels) session,
      ∀ more, Hoists dialect (dialect.routinesOf (.present index)) ledger more start
        (hoistAll dialect (.present index) start) →
      (hoistAll dialect (.present index) start).2 ∈
        (Script.within frame body).moments (visit dialect levels)
        (visitMoments dialect levels) session →
      ∀ entry ∈ more, Origin dialect entry event) :
    ∃ more, Kept dialect (Node.present index).below ledger session
      ((Script.within frame body).moments (visit dialect levels)
        (visitMoments dialect levels) session)
      (event :: (Script.within frame body).history (visit dialect levels)
        (visitHistory dialect levels) session)
      ((Script.within frame body).run (visit dialect levels) session) more := by
  let inside : Session := { session with scope := session.scope.push frame }
  have hinside : ∀ moment ∈ inside :: body.moments (visit dialect levels)
      (visitMoments dialect levels) inside,
      moment ∈ (Script.within frame body).moments (visit dialect levels)
        (visitMoments dialect levels) session :=
    fun moment hmoment => List.mem_append_left _ hmoment
  have hhoisted : (hoistAll dialect (.present index) inside).2 ∈
      body.moments (visit dialect levels) (visitMoments dialect levels) inside := by
    rw [hbody]
    exact List.mem_append_left _ List.mem_cons_self
  obtain ⟨more, hmore, hafter⟩ := exists_kept_hoistAll hflat
    (hwell inside (hinside _ List.mem_cons_self)) (hbooks.idle ⟨.refl, rfl⟩) hnone
    fun more hhoists => horigin inside (hinside _ List.mem_cons_self) more hhoists
      (hinside _ (List.mem_cons_of_mem _ hhoisted))
  -- After hoisting, the region below the package is fresh but for the routines that wait for their
  -- bodies.
  have hrest : ∃ rest, Kept dialect (Node.present index).below ledger inside
      (body.moments (visit dialect levels) (visitMoments dialect levels) inside)
      (event :: body.history (visit dialect levels) (visitHistory dialect levels) inside)
      (body.run (visit dialect levels) inside) rest := by
    rw [hbody]
    refine hmore.bind (fun _ last hlast => ?_) subset_rfl subset_rfl
    have hbooks := hmore.books
    rw [hlast] at hafter hbooks
    refine exists_kept_forM hvisit (Script.split_packageBody) (fun moment hmoment => ?_)
      hbooks (hafter rfl)
    refine hwell moment (hinside moment (List.mem_cons_of_mem _ ?_))
    rw [hbody, Script.moments_quiet hlast]
    exact hmoment
  obtain ⟨rest, hrest⟩ := hrest
  refine ⟨rest, hrest.within ?_ hbooks⟩
  exact List.cons_subset_cons _ (List.subset_append_left _ _)

/-- The rule of a package keeps the books, if no other package is below it. -/
theorem keepsAt_package {before : Session} {outcome : Except Error Unit × Session}
    (hrule : dialect.binds (Node.present index) .package = true)
    (hflat : ∀ inner ∈ (Node.present index).below, dialect.binds inner .package = false)
    (hwell : ∀ moment ∈ session :: (Script.package dialect (.present index)).moments
      (visit dialect levels) (visitMoments dialect levels) session, moment.WellFormed)
    (hbooks : Books dialect ledger session) (hbefore : Books dialect ledger before)
    (hfresh : Fresh dialect (Node.present index).span ledger session)
    (houtcome : outcome.2 =
      ((Script.package dialect (.present index)).run (visit dialect levels) session).2) :
    (Script.package dialect (.present index)).KeepsAt dialect levels
      (Node.present index).span ledger (.visited (.present index) before outcome) session
      session [] := by
  have hlater :=
    ((Script.package dialect (.present index)).trail (trail_visit dialect levels)
      session).later_last
  rw [← houtcome] at hlater
  unfold Script.package at hwell hlater ⊢
  cases hname : dialect.declaredName? (Node.present index) with
  | none =>
    have hrun := declaredName_of_none session hname
    refine Script.KeepsAt.quiet_error hrun ?_
    rw [hrun]
    exact .of_books hbooks (fun _ _ => rfl) (by simpa using hbooks)
  | some name =>
    have hrun := declaredName_of_some session hname
    have hdeclare : declare (.ofName name .package) session =
        (.ok session.scope.graph.nextId, (declare (.ofName name .package) session).2) := rfl
    rw [Script.moments_quiet hrun, Script.moments_quiet hdeclare] at hwell hlater
    have hidle : Idle session (declare (.ofName name .package) session).2 :=
      modest_declare name (by decide) session
    have hdeclared := hbooks.idle hidle
    -- The package itself is in the region, so there is no declaration for any node of it yet.
    have hnone : ∀ entry ∈ ledger, entry.node ∉ (Node.present index).below := by
      intro entry hentry hin
      have hpackage := hfresh.flat entry hentry (Node.below_subset_span _ hin) (.present index)
        (Node.mem_subtree_self index)
      rw [hrule] at hpackage
      cases hpackage
    refine Script.KeepsAt.quiet_ok hrun (Script.KeepsAt.quiet_ok hdeclare ?_)
    obtain ⟨more, hmore⟩ := exists_kept_packageBody hvisit rfl hflat
      (fun moment hmoment =>
        hwell moment
          (List.mem_cons_of_mem _ (List.mem_cons_of_mem _ (List.mem_cons_of_mem _ hmoment))))
      hdeclared hnone fun start _ more hhoists hmoment => origin_of_hoists hrule hhoists hbefore
        (hlater _
          (List.mem_cons_of_mem _ (List.mem_cons_of_mem _ (List.mem_cons_of_mem _ hmoment)))).grows
    refine ⟨more, ((hmore.of_before fun node _ => ?_).cons hdeclared).cons hbooks |>.mono
      (Node.below_subset_span _) (List.Subset.refl _)⟩
    rw [Session.ahead?, hidle.hoisted]
    rfl

end

/-! ### Visits -/

section

variable (hclauses : dialect.vocabulary.queries.withClause ≠ dialect.vocabulary.queries.fromClause)
  (hflat : ∀ outer inner : Node tree, dialect.binds outer .package = true →
    inner ∈ outer.descendants → dialect.binds inner .package = false)

include hclauses hflat

/-- The script of a node keeps the books, if the visits of the nodes below do. -/
theorem keepsAt_nodeScript {levels : Nat} (hvisit : KeepsBooks dialect tree levels)
    {index : Fin tree.size} {ledger : List (Declaration tree)} {before session : Session}
    {outcome : Except Error Unit × Session}
    (hwell : ∀ moment ∈ session :: (nodeScript dialect (.present index)).moments
      (visit dialect levels) (visitMoments dialect levels) session, moment.WellFormed)
    (hbooks : Books dialect ledger session) (hbefore : Books dialect ledger before)
    (hfresh : Fresh dialect (Node.present index).span ledger session)
    (hahead : ∀ node : Node tree, before.ahead? node = session.ahead? node)
    (hscope : before.scope = session.scope)
    (houtcome : outcome.2 =
      ((nodeScript dialect (.present index)).run (visit dialect levels) session).2) :
    (nodeScript dialect (.present index)).KeepsAt dialect levels (Node.present index).span ledger
      (.visited (.present index) before outcome) session session [] := by
  have hsplits : (nodeScript dialect (Node.present index)).Splits (Node.present index).below :=
    Script.splits_nodeScript hclauses
  have hbelow : Fresh dialect (Node.present index).below ledger session :=
    hfresh.mono (Node.below_subset_span _)
  -- A script that declares neither routines nor cursors.
  have hother : (nodeScript dialect (Node.present index)).Modest →
      (nodeScript dialect (.present index)).KeepsAt dialect levels (Node.present index).span ledger
        (.visited (.present index) before outcome) session session [] := by
    intro hmodest
    obtain ⟨more, hmore⟩ := Script.exists_kept hvisit hsplits hmodest hwell hbooks hbelow
    exact ⟨more, hmore.mono (Node.below_subset_span _) (List.subset_cons_self _ _)⟩
  cases hrule : dialect.rule? (Node.present index).tag with
  | none =>
    have hscript : nodeScript dialect (.present index) = .visits (Node.present index).children := by
      rw [nodeScript, hrule]
    exact hother (by rw [hscript]; trivial)
  | some rule =>
    have hscript : nodeScript dialect (.present index) = .ofRule dialect (.present index) rule := by
      rw [nodeScript, hrule]
    have hbinds : dialect.binds (Node.present index) rule = true := by
      simp [Dialect.binds, Node.isPresent, hrule]
    have horigin : session.ahead? (Node.present index) = none → ∀ added, Origin dialect
        ⟨.present index, session.scope.graph.nextId, added⟩
        (.visited (.present index) before outcome) :=
      fun hnone added => .visited ((hahead _).trans hnone) (by rw [hscope])
    rw [hscript] at hwell houtcome hother ⊢
    by_cases hpackage : rule = .package
    · subst hpackage
      exact keepsAt_package hvisit hbinds (fun inner hinner => hflat _ inner hbinds hinner)
        hwell hbooks hbefore hfresh houtcome
    by_cases hroutine : rule = .routine
    · subst hroutine
      exact keepsAt_routine hvisit hbinds hwell hbooks hfresh horigin
    by_cases hcursor : rule = .cursor
    · subst hcursor
      exact keepsAt_cursor hvisit hbinds hwell hbooks hfresh horigin
    exact hother (Script.modest_ofRule _ hpackage hroutine hcursor)

/-- Visits keep the books, each in the subtree of its node. -/
theorem keepsBooks_visit (levels : Nat) : KeepsBooks dialect tree levels := by
  induction levels with
  | zero => exact fun _ _ _ _ hbooks _ => ⟨[], .refl hbooks ()⟩
  | succ levels ih =>
    intro node ledger session hwell hbooks hfresh
    cases node with
    | absent => exact ⟨[], .refl hbooks ()⟩
    | present index =>
      have hmoments := wellFormed_visitMoments dialect (levels + 1) (.present index) hwell
      have hstate : (visit dialect (levels + 1) (.present index) session).2 =
          ((nodeScript dialect (.present index)).run (visit dialect levels)
            { session with visited := index :: session.visited }).2 := by
        rw [visit_present, state_located]
      -- Noting the visit and placing errors leave the books as they are.
      have hnoted : Books dialect ledger { session with visited := index :: session.visited } :=
        hbooks.idle ⟨.refl, rfl⟩
      obtain ⟨more, hmore⟩ := keepsAt_nodeScript hclauses hflat ih hmoments hnoted hbooks
        (hfresh.of_ahead fun _ _ => rfl) (fun _ => rfl) rfl hstate
      have hahead : ∀ node : Node tree, node ∉ (Node.present index).span →
          ({ session with visited := index :: session.visited } : Session).ahead? node =
            session.ahead? node :=
        fun _ _ => rfl
      refine ⟨more, ?_⟩
      rw [visit_present]
      exact ((hmore.cons hnoted).of_before hahead).located _

end

/-! ### Runs -/

/-- The routine that was declared ahead for the node is taken for it, with the parameters that were
    added then. The graph stays as it is. -/
def Reuses (dialect : Dialect) (node : Node tree) (id : BindingId) (session : Session) : Prop :=
  ∃ entry : Declaration tree, entry.label = (node, id) ∧ entry.Complete dialect ∧
    entry.Stands dialect session.scope.graph ∧
    ∃ known after, routineId dialect node session = (.ok id, after) ∧ after.scope = session.scope ∧
      parameters dialect id node dialect.vocabulary.declarations.parameter after =
        (.ok known, after) ∧
      entry.parameters <+: known

theorem reuses_of_books {node : Node tree} {id : BindingId} (h : Books dialect ledger session)
    (hrule : dialect.binds node .routine = true) (hahead : session.ahead? node = some id) :
    (node, id) ∈ ledger.map Declaration.label ∧ Reuses dialect node id session := by
  obtain ⟨entry, hentry, rfl, rfl, hcomplete⟩ := h.hoisted node id hahead
  obtain ⟨known, hknown, hparameters⟩ :=
    parameters_of_books (books_takeHoisted h entry.node) hentry hcomplete hrule
  exact ⟨List.mem_map_of_mem hentry, entry, rfl, hcomplete, h.stands entry hentry, known, _,
    routineId_of_ahead dialect hahead, scope_takeHoisted _ session, hknown, hparameters⟩

/-- No more routines are in the books than there are nodes of routines. -/
theorem length_routines_le (h : Books dialect ledger session) :
    (session.scope.graph.ofKind .routine).length ≤
      (tree.root.subtree.filter fun node => dialect.binds node .routine).length := by
  have hnodes : ((ledger.filter fun entry => dialect.binds entry.node .routine).map
      (·.node)).Nodup :=
    h.distinct.sublist (List.filter_sublist.map _)
  have hsubset : (ledger.filter fun entry => dialect.binds entry.node .routine).map (·.node) ⊆
      tree.root.subtree.filter fun node => dialect.binds node .routine := by
    intro node hnode
    obtain ⟨entry, hentry, rfl⟩ := List.mem_map.mp hnode
    have hrule := (List.mem_filter.mp hentry).2
    refine List.mem_filter.mpr ⟨?_, hrule⟩
    cases hpresent : entry.node with
    | absent => simp [hpresent, Dialect.binds, Node.isPresent] at hrule
    | present index => exact Node.mem_subtree_root index
  have hlength := (List.subperm_of_subset hnodes hsubset).length_le
  rw [List.length_map] at hlength
  rw [h.routines, List.length_map]
  exact hlength

/-- In a document in which no package is below another one, each routine and each cursor is declared
    once. One list of declarations accounts for the whole run: at every moment its first entries are
    the books, so all routines and all parameters were added for nodes of which no two are the same,
    there are no more routines than nodes of routines, and the parameters of each declaration are
    its first members and have the places of the formal parameters. Every declaration comes from the
    visit of its own node or of the package around it, and when a node is visited for which a
    routine was declared ahead, that routine is taken with its parameters. -/
theorem hoisting_declares_once (document : Document) (grammar : Grammar) (schema : Schema)
    (hflat : ∀ outer inner : Node (Tree.ofDocument document),
      grammar.dialect.binds outer .package = true → inner ∈ outer.descendants →
      grammar.dialect.binds inner .package = false) :
    let tree := Tree.ofDocument document
    let dialect := grammar.dialect
    let start := Session.ofSchema schema
    let history := visitHistory dialect tree.size tree.root start
    ∃ ledger : List (Declaration tree),
      (∀ moment ∈ start :: visitMoments dialect tree.size tree.root start,
        (∃ entries, entries.map Declaration.label <+: ledger.map Declaration.label ∧
          Books dialect entries moment) ∧
        (moment.scope.graph.ofKind .routine).length ≤
          (tree.root.subtree.filter fun node => dialect.binds node .routine).length) ∧
      Books dialect ledger (visitTree dialect tree start).2 ∧
      (∀ entry ∈ ledger, ∃ event ∈ history, Origin dialect entry event) ∧
      ((visitTree dialect tree start).1 = .ok () → ∀ entry ∈ ledger, entry.Complete dialect) ∧
      ∀ (index : Fin tree.size) before outcome id,
        .visited (.present index) before outcome ∈ history →
        dialect.binds (Node.present index) .routine = true →
        before.ahead? (Node.present index) = some id →
        (.present index, id) ∈ ledger.map Declaration.label ∧
          Reuses dialect (.present index) id
            { before with visited := index :: before.visited } := by
  intro tree dialect start history
  have hclauses : dialect.vocabulary.queries.withClause ≠
      dialect.vocabulary.queries.fromClause := by
    cases grammar <;> decide
  have hstart := books_ofSchema dialect tree schema
  obtain ⟨ledger, hkept⟩ := keepsBooks_visit hclauses hflat tree.size tree.root [] start
    (Session.wellFormed_ofSchema schema) hstart ⟨by simp, by simp⟩
  have halong : ∀ moment ∈ start :: visitMoments dialect tree.size tree.root start, ∃ entries,
      entries.map Declaration.label <+: ledger.map Declaration.label ∧
      Books dialect entries moment :=
    List.forall_mem_cons.mpr ⟨⟨[], List.nil_prefix, hstart⟩, hkept.along⟩
  refine ⟨ledger, fun moment hmoment => ?_, hkept.books, hkept.origin, hkept.complete (),
    fun index before outcome id hvisited hrule hahead => ?_⟩
  · obtain ⟨entries, hlabels, hbooks⟩ := halong moment hmoment
    exact ⟨⟨entries, hlabels, hbooks⟩, length_routines_le hbooks⟩
  · obtain ⟨entries, hlabels, hbooks⟩ := halong before (before_mem_moments hvisited)
    have hnoted : Books dialect entries { before with visited := index :: before.visited } :=
      hbooks.idle ⟨.refl, rfl⟩
    obtain ⟨hmem, hreuses⟩ := reuses_of_books hnoted hrule hahead
    exact ⟨hlabels.subset hmem, hreuses⟩

/-- A package with two procedures, of which the first has a parameter. -/
def twoRoutines : Document :=
  .inner "create_package_body"
    [.inner "package_name" [.identifier "p"],
     .inner "procedure_body" [.identifier "f", .inner "parameter" [.identifier "a"]],
     .inner "procedure_body" [.identifier "g"]]

/-- The event is the visit of a routine that was declared ahead. -/
def Event.takes (dialect : Dialect) : Event tree → Bool
  | .visited node before _ => dialect.binds node .routine && (before.ahead? node).isSome
  | .offered _ => false

/-- The package of `twoRoutines` is the only one. There are never more than two routines, and one of
    them is declared ahead and then taken. -/
theorem hoisting_declares_once_twoRoutines :
    let tree := Tree.ofDocument twoRoutines
    let start := Session.ofSchema .empty
    (∀ outer inner : Node tree, Dialect.plsql.binds outer .package = true →
      inner ∈ outer.descendants → Dialect.plsql.binds inner .package = false) ∧
    (∀ moment ∈ visitMoments Dialect.plsql tree.size tree.root start,
      (moment.scope.graph.ofKind .routine).length ≤ 2) ∧
    ∃ (index : Fin tree.size) (before : Session) (outcome : Except Error Unit × Session)
      (id : BindingId),
      .visited (.present index) before outcome ∈
        visitHistory Dialect.plsql tree.size tree.root start ∧
      before.ahead? (Node.present index) = some id ∧
      Reuses Dialect.plsql (.present index) id
        { before with visited := index :: before.visited } := by
  intro tree start
  have honly : ∀ index : Fin tree.size, Dialect.plsql.binds (Node.present index) .package = true →
      index.val = 0 := by
    decide +kernel
  have hflat : ∀ outer inner : Node tree, Dialect.plsql.binds outer .package = true →
      inner ∈ outer.descendants → Dialect.plsql.binds inner .package = false := by
    intro outer inner _ hinner
    obtain ⟨index, below, _, rfl, hlt, _⟩ :=
      Node.mem_descendants_iff.mp hinner
    refine Bool.eq_false_iff.mpr fun hpackage => ?_
    have hzero := honly below hpackage
    omega
  have hcount : (tree.root.subtree.filter fun node => Dialect.plsql.binds node .routine).length =
      2 := by
    decide +kernel
  have htakes : (visitHistory Dialect.plsql tree.size tree.root start).any
      (Event.takes Dialect.plsql) = true := by
    decide +kernel
  obtain ⟨ledger, hmoments, _, _, _, hreuses⟩ :=
    hoisting_declares_once twoRoutines .plsql .empty hflat
  refine ⟨hflat, fun moment hmoment => ?_, ?_⟩
  · have hle := (hmoments moment (List.mem_cons_of_mem _ hmoment)).2
    rw [show (Grammar.plsql.dialect) = Dialect.plsql from rfl, hcount] at hle
    exact hle
  · obtain ⟨event, hevent, htake⟩ := List.any_eq_true.mp htakes
    cases event with
    | offered offer => cases htake
    | visited node before outcome =>
      simp only [Event.takes, Bool.and_eq_true] at htake
      obtain ⟨id, hid⟩ := Option.isSome_iff_exists.mp htake.2
      cases node with
      | absent => cases hid
      | present index =>
        exact ⟨index, before, outcome, id, hevent, hid,
          (hreuses index before outcome id hevent htake.1 hid).2⟩

end Lineage.Walk
