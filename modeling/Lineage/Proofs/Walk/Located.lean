import Lineage.Proofs.Walk.Steps
import Lineage.Proofs.Walk.Visits

/-!
# Where errors are placed

An error is raised by a step of some node's rule, and every visit around this step fails with it.
The first of them places the error at its own node, unless the step has placed it already, and the
ones around it leave it there. The only steps that place errors themselves look up names that must
have been declared before: they place an error at the name.

## Key results

- `Script.Raises`: one of the steps of a script itself raises an error, and no node that it visits
  does
- `Script.answers`: a script fails because one of its own steps does, or because a visit of one of
  its nodes does
- `Script.concerns_of_raises`: what the steps of a rule raise
- `exists_of_visit_error`: of the visits that fail, each one lies around the next, and the last one
  raises the error
- `errors_located`: a whole run
-/

namespace Lineage

/-- Where the error is placed, if it is of a kind that is placed at all. -/
def Error.location? : Error → Option Location
  | unresolved _ location | pairing _ location | shape _ location => some location
  | unknownDialect _ | unreadable _ => none

theorem Error.location?_atLocation {error : Error} (h : error.isUnplaced = true)
    (place : Location) : (error.atLocation place).location? = some place := by
  cases error <;> simp_all [isUnplaced, atLocation, location?]

/-- The names that the rule of a node itself looks up, and that must have been declared before: a
    name alone, the cursor and the variables of a fetch, or the targets of a query. -/
def Dialect.lookedUp {tree : Tree} (dialect : Dialect) (node : Node tree) : List (Node tree) :=
  match dialect.rule? node.tag with
  | some .reference => [node]
  | some .fetch =>
    node.child dialect.vocabulary.statements.fetchCursor ::
      node.find dialect.vocabulary.statements.fetchTarget
  | some .select => dialect.intoTargets (dialect.intoClause node)
  | _ => []

namespace Walk

variable {tree : Tree} {dialect : Dialect} {levels : Nat} {node : Node tree} {error : Error}
  {scope : Scope}

/-! ### What the steps of a rule raise -/

/-- The error is yet to be placed, or it is placed at one of the given names, because this
    was not found. -/
def Concerns (dialect : Dialect) (names : List (Node tree)) (error : Error) : Prop :=
  error.isUnplaced = true ∨ ∃ name ∈ names, name.isPresent = true ∧
    error = .unresolved (QualifiedName.parse (dialect.nameOf name)).restricted.display name.location

theorem LooksUp.mem_lookedUp {name : Node tree} {rule : Rule} (h : LooksUp dialect node rule name)
    (hrule : dialect.rule? node.tag = some rule) (hselect : rule ≠ .select) :
    name ∈ dialect.lookedUp node := by
  cases h with
  | reference | cursor => simp [Dialect.lookedUp, hrule]
  | target htarget => simp [Dialect.lookedUp, hrule, htarget]
  | into => exact absurd rfl hselect

/-- The steps of a rule raise errors at the names that it looks up, and all others are yet
    to be placed. -/
theorem StepsOf.fails {names : List (Node tree)} {α : Type} {rule : Rule} {walk : Walk α}
    (h : StepsOf dialect node rule walk)
    (hnames : ∀ {name}, LooksUp dialect node rule name → name ∈ names) :
    Walk.Fails (Concerns dialect names) walk := by
  induction h with
  | pure value => exact .pure value
  | bind _ _ ihfirst ihnext => exact .bind ihfirst ihnext
  | fail error hunplaced => exact .fail (.inl hunplaced)
  | @missing _ name hpresent hname => exact .fail (.inr ⟨name, hnames hname, hpresent, rfl⟩)
  | takeHoisted =>
    refine .of_ok fun session => ?_
    unfold Walk.takeHoisted
    split <;> exact ⟨_, rfl⟩
  | claimInto =>
    refine .of_ok fun session => ?_
    simp only [Walk.claimInto]
    split
    · exact ⟨_, rfl⟩
    · split <;> exact ⟨_, rfl⟩
  | _ => exact .of_ok fun _ => ⟨_, rfl⟩

namespace Script

/-- What the quiet steps of the script fail with is allowed. -/
def Fails (allowed : Error → Prop) : {α : Type} → Script tree α → Prop
  | _, quiet walk _ => Walk.Fails allowed walk
  | _, within _ body => body.Fails allowed
  | _, andThen first next => first.Fails allowed ∧ ∀ value, (next value).Fails allowed
  | _, send _ | _, flush _ | _, closeArm | _, nextArm _ | _, visits _ | _, query _ => True

theorem StepsOf.fails {allowed : Error → Prop} {α : Type} {node : Node tree} {rule : Rule}
    {script : Script tree α} (h : script.StepsOf dialect node rule)
    (hquiet : ∀ {β : Type} {walk : Walk β}, Walk.StepsOf dialect node rule walk →
      Walk.Fails allowed walk) :
    script.Fails allowed := by
  induction script with
  | quiet walk _ => exact hquiet h
  | within frame body ih => exact ih h.2
  | andThen first next ihfirst ihnext => exact ⟨ihfirst h.1, fun value => ihnext value (h.2 value)⟩
  | _ => trivial

theorem fails_ofRule {node : Node tree} {rule : Rule} (hrule : dialect.rule? node.tag = some rule)
    (hselect : rule ≠ .select) :
    (ofRule dialect node rule).Fails (Concerns dialect (dialect.lookedUp node)) :=
  (stepsOf_ofRule dialect node rule).fails fun hsteps => hsteps.fails fun hname =>
    hname.mem_lookedUp hrule hselect

/-! ### The steps that raise an error -/

/-- One of the steps of the script raises the error itself, so it does not come from a node that the
    script visits. A level that is closed after its steps have succeeded is a step of its own. -/
def Raises (walk : Node tree → Walk Unit) : {α : Type} → Script tree α → Session → Error → Prop
  | _, quiet step _, session, error => (step session).1 = .error error
  | _, send id, session, error => (produce id session).1 = .error error
  | _, flush position, session, error => (session.scope.flushElement position).1 = .error error
  | _, closeArm, session, error => (Walk.closeArm session).1 = .error error
  | _, nextArm queries, session, error => (Walk.nextArm queries session).1 = .error error
  | _, visits _, _, _ => False
  | _, query parts, session, error =>
    ∃ after, parts.forM walk { session with scope := session.scope.push .query } = (.ok (), after) ∧
      (after.scope.unwind session.scope.height true).1 = .error error
  | _, within frame body, session, error =>
    body.Raises walk { session with scope := session.scope.push frame } error ∨
    ∃ after, body.run walk { session with scope := session.scope.push frame } = (.ok (), after) ∧
      (after.scope.unwind session.scope.height true).1 = .error error
  | _, andThen first next, session, error =>
    first.Raises walk session error ∨
    ∃ value after, first.run walk session = (.ok value, after) ∧
      (next value).Raises walk after error

end Script

theorem isUnplaced_of_mispaired (h : ∃ fault, error = .mispaired fault) :
    error.isUnplaced = true := by
  obtain ⟨fault, rfl⟩ := h
  rfl

/-- Closing a level fails with an error that is yet to be placed. -/
theorem isUnplaced_of_pop (h : scope.pop.1 = .error error) : error.isUnplaced = true := by
  rcases hframes : scope.frames with _ | ⟨frame, rest⟩
  · simp only [Scope.pop, hframes] at h
    obtain rfl := Except.error.inj h
    rfl
  · exact isUnplaced_of_mispaired (Scope.pop_error hframes h)

theorem isUnplaced_of_popAll (h : (Scope.popAll levels scope).1 = .error error) :
    error.isUnplaced = true := by
  induction levels generalizing scope with
  | zero => cases h
  | succ levels ih =>
    rcases hpop : scope.pop with ⟨cause | ⟨⟩, after⟩
    · simp only [Scope.popAll, hpop] at h
      obtain rfl : cause = error := Except.error.inj h
      exact isUnplaced_of_pop (congrArg Prod.fst hpop)
    · simp only [Scope.popAll, hpop] at h
      exact ih h

theorem isUnplaced_of_unwind {height : Nat} (h : (scope.unwind height true).1 = .error error) :
    error.isUnplaced = true :=
  isUnplaced_of_popAll h

theorem isUnplaced_of_flushElement {position : Nat}
    (h : (scope.flushElement position).1 = .error error) : error.isUnplaced = true := by
  by_cases hlist : ∃ pending rest, scope.frames = .selectList pending :: rest
  · obtain ⟨pending, rest, hframes⟩ := hlist
    exact isUnplaced_of_mispaired (Scope.flushElement_error hframes h)
  · unfold Scope.flushElement at h
    split at h
    · next pending rest hframes => exact absurd ⟨pending, rest, hframes⟩ hlist
    · obtain rfl := Except.error.inj h
      rfl

theorem isUnplaced_of_closeArm {session : Session} (h : (closeArm session).1 = .error error) :
    error.isUnplaced = true := by
  rw [closeArm_eq] at h
  split at h
  · exact isUnplaced_of_pop h
  · obtain rfl := Except.error.inj h
    rfl

theorem isUnplaced_of_nextArm {queries : Nat} {session : Session}
    (h : (nextArm queries session).1 = .error error) : error.isUnplaced = true := by
  rw [nextArm_eq] at h
  split at h
  · cases h
  · split at h
    · cases h
    · obtain rfl := Except.error.inj h
      rfl

namespace Script

variable {walk : Node tree → Walk Unit} {names : List (Node tree)} {session : Session}
  {error : Error}

/-- Only quiet steps place the errors that they raise. -/
theorem concerns_of_fails {α : Type} {script : Script tree α}
    (h : script.Fails (Concerns dialect names)) (hraises : script.Raises walk session error) :
    Concerns dialect names error := by
  -- What is sent, flushed or closed fails without a place; quiet steps are covered by the
  -- assumption.
  induction script generalizing session with
  | quiet step hquiet => exact h session error hraises
  | send id =>
    have hreceive : (Scope.receiveAll [id] session.scope).1 = .error error := hraises
    exact .inl (isUnplaced_of_mispaired (Scope.receiveAll_error hreceive))
  | flush position => exact .inl (isUnplaced_of_flushElement hraises)
  | closeArm => exact .inl (isUnplaced_of_closeArm hraises)
  | nextArm queries => exact .inl (isUnplaced_of_nextArm hraises)
  | visits nodes => cases hraises
  | query parts =>
    obtain ⟨after, _, hclose⟩ := hraises
    exact .inl (isUnplaced_of_unwind hclose)
  | within frame body ih =>
    rcases hraises with hbody | ⟨after, _, hclose⟩
    · exact ih h hbody
    · exact .inl (isUnplaced_of_unwind hclose)
  | andThen first next ihfirst ihnext =>
    rcases hraises with hfirst | ⟨value, after, _, hnext⟩
    · exact ihfirst h.1 hfirst
    · exact ihnext value (h.2 value) hnext

/-- A query looks up the targets of the clause that it takes, and this is its own one. -/
theorem concerns_of_raises_select {node : Node tree}
    (hraises : (select dialect node).Raises walk session error) :
    Concerns dialect (dialect.intoTargets (dialect.intoClause node)) error := by
  rcases hraises with hclaim | ⟨claimed, after, hclaim, hrest⟩
  · simp only [Raises, claimInto] at hclaim
    split at hclaim
    · cases hclaim
    · split at hclaim <;> cases hclaim
  · cases claimed with
    | none =>
      have hfails : (query (dialect.queryParts node)).Fails
          (Concerns dialect (dialect.intoTargets (dialect.intoClause node))) := trivial
      exact concerns_of_fails hfails hrest
    | some clause =>
      have hclause : clause = dialect.intoClause node := by
        simp only [run_quiet, claimInto] at hclaim
        split at hclaim
        · cases hclaim
        · split at hclaim
          · cases hclaim
          · simp only [Prod.mk.injEq, Except.ok.injEq, Option.some.injEq] at hclaim
            exact hclaim.1.symm
      subst hclause
      rcases hrest with htargets | ⟨targets, after, _, hquery⟩
      · refine Walk.Fails.mapM (fun target htarget => ?_) _ error htargets
        -- Each target is looked up as a name that stands alone is.
        have hsteps : Walk.StepsOf dialect target .reference (existing dialect target) :=
          .existing .reference
        exact hsteps.fails fun hname => by cases hname; exact htarget
      · have hfails :
            (within (.multipleAssignment targets 0) (query (dialect.queryParts node))).Fails
            (Concerns dialect (dialect.intoTargets (dialect.intoClause node))) := trivial
        exact concerns_of_fails hfails hquery

/-- What the steps of a node raise is yet to be placed, or concerns a name that its
    rule looks up. -/
theorem concerns_of_raises {node : Node tree}
    (hraises : (nodeScript dialect node).Raises walk session error) :
    Concerns dialect (dialect.lookedUp node) error := by
  unfold nodeScript at hraises
  split at hraises
  · next rule hrule =>
    by_cases hselect : rule = .select
    · subst hselect
      have hnames : dialect.lookedUp node = dialect.intoTargets (dialect.intoClause node) := by
        simp [Dialect.lookedUp, hrule]
      rw [hnames]
      exact concerns_of_raises_select hraises
    · exact concerns_of_fails (fails_ofRule hrule hselect) hraises
  · cases hraises

/-- The nodes that a script may not visit do not matter for what its steps raise. -/
theorem raises_congr {α : Type} {walk' : Node tree → Walk Unit} {allowed : Node tree → Prop}
    (hwalk : ∀ node, allowed node → walk node = walk' node) {script : Script tree α}
    (hvisits : script.Visits allowed) : script.Raises walk = script.Raises walk' := by
  induction script with
  | query parts =>
    have hparts := forM_congr fun part hpart => hwalk part (hvisits part hpart)
    funext session error
    simp only [Raises, hparts]
  | within frame body ih =>
    have hbody : body.run walk = body.run walk' := run_congr hwalk hvisits
    funext session error
    simp only [Raises, ih hvisits, hbody]
  | andThen first next ihfirst ihnext =>
    have hfirst : first.run walk = first.run walk' := run_congr hwalk hvisits.1
    have hnext : ∀ value, (next value).Raises walk = (next value).Raises walk' := fun value =>
      ihnext value (hvisits.2 value)
    funext session error
    simp only [Raises, ihfirst hvisits.1, hfirst, hnext]
  | _ => rfl

end Script

/-! ### The visits that fail -/

/-- A visit that fails. -/
structure Failure (tree : Tree) where
  node : Node tree
  before : Session
  error : Error

/-- The visits that fail among some events. -/
def failuresOf (events : List (Event tree)) : List (Failure tree) :=
  events.filterMap fun event =>
    match event with
    | .visited node before (.error error, _) => some ⟨node, before, error⟩
    | _ => none

theorem failuresOf_append (first second : List (Event tree)) :
    failuresOf (first ++ second) = failuresOf first ++ failuresOf second :=
  List.filterMap_append

theorem failuresOf_offered (offers : List Offer) :
    failuresOf (offers.map .offered : List (Event tree)) = [] := by
  simp [failuresOf, List.filterMap_map]

theorem mem_failuresOf {events : List (Event tree)} {before : Session} :
    ⟨node, before, error⟩ ∈ failuresOf events ↔
      ∃ after, .visited node before (.error error, after) ∈ events := by
  constructor
  · intro h
    obtain ⟨event, hevent, hfailure⟩ := List.mem_filterMap.mp h
    split at hfailure
    · next after =>
      obtain ⟨rfl, rfl, rfl⟩ := Failure.mk.inj (Option.some.inj hfailure)
      exact ⟨after, hevent⟩
    · cases hfailure
  · rintro ⟨after, hevent⟩
    exact List.mem_filterMap.mpr ⟨_, hevent, rfl⟩

/-- If a walk succeeds, no visit in it fails. If it fails, then one of its own steps does
    and no visit, or it fails as the visit of some allowed node does, and no visit fails
    outside of that one. -/
structure Answers {α : Type} (walk : Node tree → Walk Unit)
    (inner : Node tree → Session → List (Event tree)) (allowed : Node tree → Prop)
    (raises : Error → Prop) (events : List (Event tree)) (result : Except Error α) : Prop where
  ok : ∀ value, result = .ok value → failuresOf events = []
  error : ∀ error, result = .error error → raises error ∧ failuresOf events = [] ∨
    ∃ below, allowed below ∧ ∃ state, (walk below state).1 = .error error ∧
      failuresOf events = failuresOf (inner below state)

namespace Answers

variable {α β : Type} {walk : Node tree → Walk Unit} {inner : Node tree → Session →
  List (Event tree)} {allowed : Node tree → Prop}

/-- Steps without visits. -/
theorem of_quiet {raises : Error → Prop} {events : List (Event tree)} {result : Except Error α}
    (hevents : failuresOf events = []) (hraises : ∀ error, result = .error error → raises error) :
    Answers walk inner allowed raises events result :=
  ⟨fun _ _ => hevents, fun error herror => .inl ⟨hraises error herror, hevents⟩⟩

theorem bind {first : Walk α} {next : α → Walk β} {raisesFirst : Error → Prop}
    {raisesNext : α → Session → Error → Prop} {events : List (Event tree)}
    {later : α → Session → List (Event tree)} {session : Session}
    (hfirst : Answers walk inner allowed raisesFirst events (first session).1)
    (hnext : ∀ value after, first session = (.ok value, after) →
      Answers walk inner allowed (raisesNext value after) (later value after)
        (next value after).1) :
    Answers walk inner allowed
      (fun error => raisesFirst error ∨ ∃ value after, first session = (.ok value, after) ∧
        raisesNext value after error)
      (events ++ eventsAfter (first session) later) ((first >>= next) session).1 := by
  rcases hrun : first session with ⟨cause | value, after⟩
  · rw [Stateful.bind_error hrun, eventsAfter, List.append_nil]
    rw [hrun] at hfirst
    refine ⟨fun _ hvalue => (by cases hvalue), fun error herror => ?_⟩
    obtain rfl : cause = error := Except.error.inj herror
    rcases hfirst.error cause rfl with ⟨hraises, hnone⟩ | hbelow
    · exact .inl ⟨.inl hraises, hnone⟩
    · exact .inr hbelow
  · -- The first part has succeeded, so all failures lie in the second.
    have hevents : failuresOf (events ++ eventsAfter (.ok value, after) later) =
        failuresOf (later value after) := by
      rw [failuresOf_append, hfirst.ok value (by rw [hrun]), List.nil_append]
      rfl
    have hlater := hnext value after hrun
    rw [Stateful.bind_ok hrun]
    refine ⟨fun result hresult => hevents.trans (hlater.ok result hresult), fun error herror => ?_⟩
    rw [hevents]
    rcases hlater.error error herror with ⟨hraises, hnone⟩ | hbelow
    · exact .inl ⟨.inr ⟨value, after, rfl, hraises⟩, hnone⟩
    · exact .inr hbelow

/-- Steps on a level of their own, and its end. -/
theorem within {frame : Frame} {steps : Walk Unit} {raises : Error → Prop}
    {events : Session → List (Event tree)} {session : Session}
    (h : Answers walk inner allowed raises
      (events { session with scope := session.scope.push frame })
      (steps { session with scope := session.scope.push frame }).1) :
    Answers walk inner allowed
      (fun error => raises error ∨
        ∃ after, steps { session with scope := session.scope.push frame } = (.ok (), after) ∧
        (after.scope.unwind session.scope.height true).1 = .error error)
      (eventsWithin frame steps events session) (Walk.within frame steps session).1 := by
  simp only [eventsWithin, Walk.within]
  rcases hrun : steps { session with scope := session.scope.push frame } with ⟨cause | ⟨⟩, after⟩
  · rw [hrun] at h
    rw [eventsAfter, List.append_nil]
    refine ⟨fun _ hvalue => (by cases hvalue), fun error herror => ?_⟩
    rcases h.error error herror with ⟨hraises, hnone⟩ | hbelow
    · exact .inl ⟨.inl hraises, hnone⟩
    · exact .inr hbelow
  · -- All visits inside have succeeded, so only the end of the level can fail.
    have hnone : failuresOf (events { session with scope := session.scope.push frame }) = [] :=
      h.ok () (by rw [hrun])
    refine of_quiet ?_ fun error hclose => .inr ⟨after, rfl, hclose⟩
    rw [failuresOf_append, hnone, List.nil_append]
    exact failuresOf_offered _

end Answers

section

variable {walk : Node tree → Walk Unit} {inner : Node tree → Session → List (Event tree)}
  {allowed : Node tree → Prop} (hinner : ∀ node session, (walk node session).1 = .ok () →
    failuresOf (inner node session) = [])

include hinner

/-- Nodes visited in order fail as one of their visits does. -/
theorem answers_eventsOfAll {nodes : List (Node tree)} (hallowed : ∀ node ∈ nodes, allowed node)
    (session : Session) :
    Answers walk inner allowed (fun _ => False) (eventsOfAll walk inner nodes session)
      (nodes.forM walk session).1 := by
  induction nodes generalizing session with
  | nil => exact .of_quiet rfl fun _ herror => nomatch herror
  | cons node rest ih =>
    obtain ⟨hnode, hrest⟩ := List.forall_mem_cons.mp hallowed
    have hfirst : Answers walk inner allowed (fun _ => False) (inner node session)
        (walk node session).1 :=
      ⟨fun _ hvalue => hinner node session hvalue, fun _ herror =>
        .inr ⟨node, hnode, session, herror, rfl⟩⟩
    have hall : Answers walk inner allowed _ (eventsOfAll walk inner (node :: rest) session)
        ((node :: rest).forM walk session).1 := hfirst.bind fun _ after _ => ih hrest after
    refine ⟨hall.ok, fun error herror => ?_⟩
    rcases hall.error error herror with ⟨hraises, _⟩ | hbelow
    · simp at hraises
    · exact .inr hbelow

/-- A script fails because one of its own steps does, or because the visit of one of
    its nodes does. -/
theorem Script.answers {α : Type} {script : Script tree α} (hvisits : script.Visits allowed)
    (session : Session) :
    Answers walk inner allowed (script.Raises walk session) (script.history walk inner session)
      (script.run walk session).1 := by
  induction script generalizing session with
  | quiet step hquiet => exact .of_quiet rfl fun _ herror => herror
  | send id => exact .of_quiet (failuresOf_offered _) fun _ herror => herror
  | flush position => exact .of_quiet (failuresOf_offered _) fun _ herror => herror
  | closeArm =>
    refine .of_quiet ?_ fun _ herror => herror
    simp only [history]
    split
    · exact failuresOf_offered _
    · rfl
  | nextArm queries => exact .of_quiet rfl fun _ herror => herror
  | visits nodes => exact answers_eventsOfAll hinner hvisits session
  | query parts =>
    have hquery :=
      Answers.within
        (answers_eventsOfAll hinner hvisits { session with scope := session.scope.push .query })
    simp only [false_or] at hquery
    exact hquery
  | within frame body ih => exact Answers.within (ih hvisits _)
  | andThen first next ihfirst ihnext =>
    exact Answers.bind (ihfirst hvisits.1 session) fun value after _ =>
      ihnext value (hvisits.2 value) after

end

/-! ### Visits -/

/-- A name that the rule of a node looks up has a tag. -/
theorem tag_of_mem_lookedUp (htagged : dialect.Tagged) {name : Node tree}
    (h : name ∈ dialect.lookedUp node) (hpresent : name.isPresent = true) :
    name.location.tag ≠ "" := by
  have htag {tag : String} (hhas : name.has tag = true) (hempty : tag ≠ "") :
      name.location.tag ≠ "" := by
    rw [Node.tag_location, Node.tag_of_has hhas]
    exact hempty
  unfold Dialect.lookedUp at h
  -- A name is the node itself, or it was found by its tag.
  split at h
  · next hrule =>
    obtain rfl := List.mem_singleton.mp h
    exact tag_ne_empty htagged hrule
  · rcases List.mem_cons.mp h with rfl | hfound
    · rcases node.child_cases dialect.vocabulary.statements.fetchCursor with habsent | ⟨_, hhas⟩
      · simp [habsent, Node.isPresent] at hpresent
      · exact htag hhas htagged.fetchCursor
    · exact htag (List.mem_filter.mp hfound).2 htagged.fetchTarget
  · exact htag (List.mem_filter.mp h).2 htagged.intoTarget
  · cases h

/-- The steps of the node, taken in the given state, raise an error, and this is the error once
    it is placed. -/
def Raised (dialect : Dialect) (index : Fin tree.size) (before : Session) (error : Error) : Prop :=
  ∃ cause, (nodeScript dialect (.present index)).Raises (visit dialect tree.size)
      { before with visited := index :: before.visited } cause ∧
    error = cause.atLocation (Node.present index).location

/-- No visit fails while a node is visited with success. -/
theorem failuresOf_visit (dialect : Dialect) [dialect.Regular] (levels : Nat) (node : Node tree)
    (session : Session) (h : (visit dialect levels node session).1 = .ok ()) :
    failuresOf (visitHistory dialect levels node session) = [] := by
  induction levels generalizing node session with
  | zero => rfl
  | succ levels ih =>
    cases node with
    | absent => rfl
    | present index =>
      rcases hvisit : visit dialect (levels + 1) (.present index) session with ⟨cause | ⟨⟩, after⟩
      · rw [hvisit] at h
        cases h
      · have hvisits : (nodeScript dialect (.present index)).Visits _ := visits_nodeScript rfl
        have hanswers :=
          Script.answers ih hvisits { session with visited := index :: session.visited }
        have hrun := ok_of_located ((visit_present dialect levels index session).symm.trans hvisit)
        rw [visitHistory, hvisit]
        exact hanswers.ok () (congrArg Prod.fst hrun)

/-- If a visit fails, all visits that fail in it do so with the same error. Each of them lies around
    the next one, and the error comes from the steps of the last one's node. -/
theorem exists_of_visit_error [dialect.Regular] (htagged : dialect.Tagged)
    (hclauses : dialect.vocabulary.queries.withClause ≠ dialect.vocabulary.queries.fromClause)
    {node : Node tree} {session : Session} {error : Error} (henough : Enough levels node)
    (h : (visit dialect levels node session).1 = .error error) :
    ∃ enclosing index before,
      failuresOf (visitHistory dialect levels node session) = enclosing ++
      [⟨.present index, before, error⟩] ∧
      (∀ failure ∈ enclosing, failure.error = error ∧
        Node.present index ∈ failure.node.descendants) ∧
      Raised dialect index before error := by
  induction levels generalizing node session error with
  | zero => cases h
  | succ levels ih =>
    cases node with
    | absent => cases h
    | present index =>
      have hvisits : (nodeScript dialect (.present index)).Visits _ := visits_nodeScript rfl
      have hanswers := Script.answers (failuresOf_visit dialect levels) hvisits
        { session with visited := index :: session.visited }
      have hown : failuresOf (visitHistory dialect (levels + 1) (.present index) session) =
          ⟨.present index, session, error⟩ ::
            failuresOf ((nodeScript dialect (.present index)).history (visit dialect levels)
              (visitHistory dialect levels)
              { session with visited := index :: session.visited }) := by
        rcases hvisit : visit dialect (levels + 1) (.present index) session with ⟨result, after⟩
        obtain rfl : result = .error error := by rw [← h, hvisit]
        rw [visitHistory, hvisit]
        rfl
      rw [visit_present] at h
      obtain ⟨cause, hcause, rfl⟩ := exists_of_located_error h
      rcases hanswers.error cause hcause with
          ⟨hraises, hnone⟩ | ⟨below, hbelow, state, hfails, hsame⟩
      · -- One of the node's own steps raises the error: this visit is the innermost that fails.
        have hwalk : ∀ below, (Node.present index).Beneath below →
            visit dialect levels below = visit dialect tree.size below :=
          fun below hbelow => visit_eq_visit dialect (henough.beneath hbelow) fun _ _ =>
            Nat.le_add_left _ _
        rw [Script.raises_congr hwalk hvisits] at hraises
        exact ⟨[], index, session, by rw [hown, hnone]; rfl,
          fun _ hmem => absurd hmem List.not_mem_nil, cause, hraises, rfl⟩
      · -- The error comes from a visit further down, which has placed it.
        have hplaced : cause.atLocation (Node.present index).location = cause :=
          Error.atLocation_of_placed (placed_visit htagged levels below state cause hfails) _
        obtain ⟨enclosing, inner, before, hfailures, hchain, hraised⟩ :=
          ih (henough.beneath hbelow) hfails
        rw [hplaced] at hown ⊢
        rw [hsame, hfailures] at hown
        refine ⟨⟨.present index, session, cause⟩ :: enclosing, inner, before, hown, ?_, hraised⟩
        have hinner : Node.present inner ∈ (Node.present index).descendants := by
          obtain ⟨after, hevent⟩ :=
            mem_failuresOf.mp (hsame ▸ hfailures ▸
              List.mem_append_right enclosing List.mem_cons_self)
          exact mem_descendants_of_mem_history hclauses henough (mem_nodesOf.mpr ⟨_, _, hevent⟩)
        exact List.forall_mem_cons.mpr ⟨⟨rfl, hinner⟩, hchain⟩

/-- A visit does not succeed if the visit of a node of its subtree fails. -/
theorem error_of_mem_subtree [dialect.Regular]
    (hclauses : dialect.vocabulary.queries.withClause ≠ dialect.vocabulary.queries.fromClause)
    {root node other : Node tree} {session before start after last : Session} {error : Error}
    {result : Except Error Unit}
    (hfailed : .visited node before (.error error, after) ∈
      visitHistory dialect tree.size root session)
    (hvisited : .visited other start (result, last) ∈ visitHistory dialect tree.size root session)
    (haround : node ∈ other.subtree) : ∃ found, result = .error found := by
  cases result with
  | error found => exact ⟨found, rfl⟩
  | ok value =>
    have henough : Enough tree.size root := fun _ _ => Nat.le_add_left _ _
    obtain ⟨_, houtcome⟩ := visited_of_mem_history henough hvisited
    have hnone : failuresOf (visitHistory dialect tree.size other start) = [] :=
      failuresOf_visit dialect tree.size other start (by rw [← houtcome])
    -- The subtree is visited in one stretch, which is the history of the other visit.
    obtain ⟨front, back, hsplit, hothers⟩ :=
      (once_visit hclauses henough session).stretch other start _ hvisited
    have houtside : .visited node before (.error error, after) ∉ front ++ back := fun hmem =>
      hothers node (mem_nodesOf.mpr ⟨_, _, hmem⟩) haround
    have hinside : .visited node before (.error error, after) ∈
        visitHistory dialect tree.size other start := by
      rw [hsplit] at hfailed
      simp only [List.mem_append] at hfailed houtside
      tauto
    have hmem := mem_failuresOf.mpr ⟨after, hinside⟩
    rw [hnone] at hmem
    cases hmem

/-! ### A whole run -/

/-- If the analysis of a document fails, then there is one node whose own steps have raised the
    error, while all visits of nodes below it had succeeded. The visits of this node and of the
    nodes around it fail, all with the same error, and no others do. The error is placed at this
    node; or, if a name was looked up that must have been declared before, at the name. This does
    not depend on the tags of the nodes: nodes without one have no rule, and raise no error. -/
theorem errors_located (document : Document) (grammar : Grammar) (schema : Schema) (error : Error)
    (h : analyze (Tree.ofDocument document) grammar.dialect schema = .error error) :
    let tree := Tree.ofDocument document
    let dialect := grammar.dialect
    let history := visitHistory dialect tree.size tree.root (.ofSchema schema)
    ∃ (index : Fin tree.size) (before after : Session) (cause : Error),
      .visited (.present index) before (.error error, after) ∈ history ∧
      (∀ other start result last, .visited other start (result, last) ∈ history →
        (Node.present index ∈ other.subtree → result = .error error) ∧
        (Node.present index ∉ other.subtree → result = .ok ())) ∧
      (nodeScript dialect (.present index)).Raises (visit dialect tree.size)
        { before with visited := index :: before.visited } cause ∧
      (cause.isUnplaced = true ∧ error = cause.atLocation (Node.present index).location ∧
          error.location? = some (Node.present index).location ∨
        ∃ name ∈ dialect.lookedUp (.present index), name.isPresent = true ∧ error = cause ∧
          error = .unresolved (QualifiedName.parse (dialect.nameOf name)).restricted.display
            name.location) := by
  intro tree dialect history
  have htagged : dialect.Tagged := grammar.tagged
  have hclauses : dialect.vocabulary.queries.withClause ≠
      dialect.vocabulary.queries.fromClause := by
    cases grammar <;> decide
  have henough : Enough tree.size tree.root := fun _ _ => Nat.le_add_left _ _
  have hfails : (visit dialect tree.size tree.root (.ofSchema schema)).1 = .error error := by
    unfold analyze visitTree at h
    split at h
    · cases h
    · next cause after hrun =>
      rw [hrun]
      exact congrArg _ (Except.error.inj h)
  obtain ⟨enclosing, index, before, hfailures, hchain, cause, hraises, hplace⟩ :=
    exists_of_visit_error htagged hclauses henough hfails
  have hinnermost : ⟨.present index, before, error⟩ ∈ failuresOf history :=
    hfailures ▸ List.mem_append_right enclosing List.mem_cons_self
  obtain ⟨after, hevent⟩ := mem_failuresOf.mp hinnermost
  -- Every visit that fails lies around the innermost one, or is this one itself.
  have hall : ∀ other start found last, .visited other start (.error found, last) ∈ history →
      found = error ∧ Node.present index ∈ other.subtree := by
    intro other start found last hvisited
    have hfailure := mem_failuresOf.mpr ⟨last, hvisited⟩
    rw [hfailures] at hfailure
    rcases List.mem_append.mp hfailure with hmem | hmem
    · obtain ⟨hsame, hbelow⟩ := hchain _ hmem
      exact ⟨hsame, Node.mem_subtree_of_mem_descendants hbelow⟩
    · obtain ⟨rfl, rfl, rfl⟩ := Failure.mk.inj (List.mem_singleton.mp hmem)
      exact ⟨rfl, Node.mem_subtree_self index⟩
  refine ⟨index, before, after, cause, hevent,
    fun other start result last hvisited => ⟨fun haround => ?_, fun hapart => ?_⟩, hraises, ?_⟩
  · obtain ⟨found, rfl⟩ := error_of_mem_subtree hclauses hevent hvisited haround
    rw [(hall other start found last hvisited).1]
  · cases result with
    | ok value => rfl
    | error found => exact absurd (hall other start found last hvisited).2 hapart
  · rcases Script.concerns_of_raises hraises with hunplaced | ⟨name, hname, hpresent, rfl⟩
    · exact .inl ⟨hunplaced, hplace, hplace ▸ Error.location?_atLocation hunplaced _⟩
    · -- The name has a tag, so the error stays there.
      have hknown : (Error.unresolved (QualifiedName.parse (dialect.nameOf name)).restricted.display
          name.location).isUnplaced = false :=
            Error.isUnknown_of_tag (tag_of_mem_lookedUp htagged hname hpresent)
      rw [Error.atLocation_of_placed hknown] at hplace
      exact .inr ⟨name, hname, hpresent, hplace, hplace⟩

/-- A call without a name, in a branch of a condition. -/
def unnamedCall : Document :=
  .node ⟨"if_statement", none, some 3, none⟩
    [.node ⟨"condition", none, some 3, none⟩ [], .node ⟨"call_statement", none, some 4, none⟩ []]

/-- The analysis of `unnamedCall` fails at the call, and not at the statement around it. -/
theorem errors_located_unnamedCall :
    let tree := Tree.ofDocument unnamedCall
    let error := Error.shape .unnamedCall ⟨"call_statement", some 4, none⟩
    analyze tree Dialect.plsql .empty = .error error ∧
    ∃ (index : Fin tree.size) (before after : Session),
      .visited (.present index) before (.error error, after) ∈
        visitHistory Dialect.plsql tree.size tree.root (.ofSchema .empty) ∧
      (Node.present index).location = ⟨"call_statement", some 4, none⟩ := by
  intro tree error
  have hvisit : (visitTree Dialect.plsql tree (.ofSchema .empty)).1 = .error error := by
    decide +kernel
  have hfails : analyze tree Dialect.plsql .empty = .error error := by
    unfold analyze
    rcases hrun : visitTree Dialect.plsql tree (.ofSchema .empty) with ⟨result, after⟩
    rw [hrun] at hvisit
    subst hvisit
    rfl
  obtain ⟨index, before, after, cause, hevent, _, _, hplace⟩ :=
    errors_located unnamedCall .plsql .empty error hfails
  refine ⟨hfails, index, before, after, hevent, ?_⟩
  rcases hplace with ⟨_, _, hlocation⟩ | ⟨_, _, _, _, hunresolved⟩
  · exact (Option.some.inj hlocation).symm
  · simp [error] at hunresolved

end Walk

end Lineage
