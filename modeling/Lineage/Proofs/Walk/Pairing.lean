import Lineage.Proofs.Graph.Extension
import Lineage.Proofs.Walk.Operations
import Lineage.Proofs.Walk.Operators

/-!
# Values and their targets

The values of a query with several targets are paired with them in order, and those of each further
arm are paired with the same targets again. A multiple assignment sees only what arrives at it, so
for it an arm is what arrives between two operators. An operator arrives if and only if the level of
its own arm is all that lies between it and the targets: where a query with targets holds just
another query, the operators of the inner one are lost, and its arms count as one.

## Key results

- `exists_armsFrom`: what a multiple assignment has taken, if it could take all that arrived
- `arms_meet_targets`: a query with targets succeeds if and only if each arm has a value for each
  target
- `nestedUnion_rejected`: arms with one value each are rejected where there is one target
-/

namespace Lineage

/-! ### Arms -/

/-- The arms that some arrivals make up, the first of which has begun with the given values. An
    operator that is meant for this level ends an arm. -/
def armsFrom (begun : List BindingId) : List Offer → List (List BindingId)
  | [] => [begun]
  | offer :: rest =>
    match offer.signal with
    | .value id => armsFrom (begun ++ [id]) rest
    | .operator 0 => begun :: armsFrom [] rest
    | .operator (_ + 1) => armsFrom begun rest

/-- The value and the target that meet when a multiple assignment takes the offer. -/
def Offer.pair? (offer : Offer) : Option (BindingId × BindingId) :=
  match offer.levels, offer.signal with
  | .multipleAssignment targets received :: _, .value id => targets[received]?.map (id, ·)
  | _, _ => none

/-- Where a value and a target meet, the value flows into the target. -/
theorem Offer.makes_of_pair? {offer : Offer} {id target : BindingId}
    (h : offer.pair? = some (id, target)) : offer.Makes (offer.graph.addOutput id target) := by
  unfold pair? at h
  split at h
  · next targets received rest value hlevels hsignal =>
    obtain ⟨found, htarget, hpair⟩ := Option.map_eq_some_iff.mp h
    obtain ⟨rfl, rfl⟩ := Prod.mk.inj hpair
    exact ⟨value, _, hsignal,
      by simp only [hlevels, Scope.receiveAmong, Frame.receive, htarget]; rfl⟩
  · cases h

section

variable {offer : Offer} {targets : List BindingId} {received : Nat} {lower : List Frame}
  (hlevels : offer.levels = .multipleAssignment targets received :: lower)

include hlevels

/-- A value that can be taken meets the next target. -/
theorem Offer.pair?_of_value {id : BindingId} (hsignal : offer.signal = .value id)
    (h : offer.fault? = none) :
    ∃ target, targets[received]? = some target ∧ offer.pair? = some (id, target) ∧
      ∀ below, Offer.deliver (.multipleAssignment targets received :: below) offer =
        .multipleAssignment targets (received + 1) :: below := by
  have hroom : received < targets.length := by
    simpa [fault?, hlevels, hsignal, Scope.faultAmong?, Frame.pass?, Frame.forwards,
      Frame.fault?] using h
  refine ⟨targets[received], List.getElem?_eq_getElem hroom, ?_, fun below => ?_⟩
  · simp [pair?, hlevels, hsignal, List.getElem?_eq_getElem hroom]
  · simp [deliver, Scope.deliver, hsignal, Frame.pass?, Frame.forwards, Frame.absorb,
      Frame.taking, hroom]

/-- An operator that can be taken comes when all targets have a value, and lets them wait for
    the next ones. -/
theorem Offer.deliver_of_operator (hsignal : offer.signal = .operator 0) (h : offer.fault? = none) :
    received = targets.length ∧ offer.pair? = none ∧
      ∀ below, Offer.deliver (.multipleAssignment targets received :: below) offer =
        .multipleAssignment targets 0 :: below := by
  have hfull : received = targets.length := by
    simpa [fault?, hlevels, hsignal, Scope.faultAmong?, Frame.pass?, Frame.fault?] using h
  refine ⟨hfull, by simp [pair?, hlevels, hsignal], fun below => ?_⟩
  simp [deliver, Scope.deliver, hsignal, Frame.pass?, Frame.absorb, Frame.restart, hfull]

/-- An operator for a level further down is lost at a multiple assignment. -/
theorem Offer.deliver_of_stray {queries : Nat} (hsignal : offer.signal = .operator (queries + 1)) :
    offer.pair? = none ∧ ∀ below,
    Offer.deliver (.multipleAssignment targets received :: below) offer =
      .multipleAssignment targets received :: below := by
  refine ⟨by simp [pair?, hlevels, hsignal], fun below => ?_⟩
  simp [deliver, Scope.deliver, hsignal, Frame.pass?, Frame.isSelect, Frame.absorb]

end

theorem zip_concat {α β : Type} {values : List α} {value : α} {targets : List β} {target : β}
    (h : targets[values.length]? = some target) :
    (values ++ [value]).zip targets = values.zip targets ++ [(value, target)] := by
  induction values generalizing targets with
  | nil =>
    cases targets with
    | nil => cases h
    | cons first rest =>
      cases h
      rfl
  | cons first others ih =>
    cases targets with
    | nil => cases h
    | cons _ rest => simpa using ih h

/-- A multiple assignment that could take all that arrived: the arms that ended have a value for
    each target, the last one has begun to, and each value has met the target at its place. -/
theorem exists_armsFrom {targets : List BindingId} (begun : List BindingId) {below : List Frame}
    {arriving : List Offer}
    (htimely : Timely (.multipleAssignment targets begun.length :: below) arriving)
    (hfaults : ∀ arrival ∈ arriving, arrival.fault? = none)
    (hbegun : begun.length ≤ targets.length) :
    ∃ ended last, armsFrom begun arriving = ended ++ [last] ∧
      (∀ arm ∈ ended, arm.length = targets.length) ∧
      last.length ≤ targets.length ∧
      arriving.foldl Offer.deliver (.multipleAssignment targets begun.length :: below) =
        .multipleAssignment targets last.length :: below ∧
      begun.zip targets ++ arriving.filterMap Offer.pair? =
        (ended ++ [last]).flatMap (·.zip targets) := by
  induction arriving generalizing begun with
  | nil => exact ⟨[], begun, rfl, by simp, hbegun, rfl, by simp⟩
  | cons arrival rest ih =>
    obtain ⟨hcores, hlater⟩ := htimely.cons
    obtain ⟨lower, hlevels, _⟩ :=
      Frame.exists_cons_of_core hcores (by simp [Frame.role]) (by simp [Frame.role])
    have hfault := hfaults arrival List.mem_cons_self
    have hothers := fun other hother => hfaults other (List.mem_cons_of_mem arrival hother)
    cases hsignal : arrival.signal with
    | value id =>
      -- The value belongs to the arm that has begun.
      obtain ⟨target, htarget, hpair, hdeliver⟩ := Offer.pair?_of_value hlevels hsignal hfault
      have hroom : begun.length < targets.length := (List.getElem?_eq_some_iff.mp htarget).1
      have hlength : begun.length + 1 = (begun ++ [id]).length := by simp
      rw [hdeliver, hlength] at hlater
      obtain ⟨ended, last, harms, hended, hlast, hfold, hpairs⟩ :=
        ih _ hlater hothers (hlength ▸ hroom)
      refine ⟨ended, last, by simpa only [armsFrom, hsignal] using harms, hended, hlast, ?_, ?_⟩
      · rw [List.foldl_cons, hdeliver, hlength, hfold]
      · rw [← hpairs, zip_concat htarget, List.filterMap_cons, hpair, List.append_assoc]
        rfl
    | operator queries =>
      cases queries with
      | zero =>
        -- The arm that has begun is over, and the next one begins without a value.
        obtain ⟨hfull, hpair, hdeliver⟩ := Offer.deliver_of_operator hlevels hsignal hfault
        rw [hdeliver] at hlater
        obtain ⟨ended, last, harms, hended, hlast, hfold, hpairs⟩ :=
          ih [] hlater hothers (Nat.zero_le _)
        refine ⟨begun :: ended, last, by simp only [armsFrom, hsignal, harms, List.cons_append], ?_,
          hlast, ?_, ?_⟩
        · exact List.forall_mem_cons.mpr ⟨hfull, hended⟩
        · rw [List.foldl_cons, hdeliver]
          exact hfold
        · rw [List.filterMap_cons, hpair, List.cons_append, List.flatMap_cons, ← hpairs]
          rfl
      | succ queries =>
        -- Nothing happens, so the arm goes on.
        obtain ⟨hpair, hdeliver⟩ := Offer.deliver_of_stray hlevels hsignal
        rw [hdeliver] at hlater
        obtain ⟨ended, last, harms, hended, hlast, hfold, hpairs⟩ := ih begun hlater hothers hbegun
        refine ⟨ended, last, by simpa only [armsFrom, hsignal] using harms, hended, hlast, ?_, ?_⟩
        · rw [List.foldl_cons, hdeliver, hfold]
        · rw [← hpairs, List.filterMap_cons, hpair]

namespace Walk

variable {tree : Tree} {dialect : Dialect}

/-- A query whose values have several targets: one with targets of its own, or the query
    of an insert. -/
inductive Targeted (tree : Tree) where
  | into (query : Node tree)
  | insert (statement : Node tree)

namespace Targeted

/-- The walk on the level of the targets. -/
def walk (dialect : Dialect) (levels : Nat) : Targeted tree → Walk Unit
  | into query => queryLevel dialect (visit dialect levels) query
  | insert statement => visit dialect levels (dialect.insertParts statement).query

/-- What happens on the level of the targets. -/
def history (dialect : Dialect) (levels : Nat) : Targeted tree → Session → List (Event tree)
  | into query =>
    (Script.query (dialect.queryParts query)).history (visit dialect levels)
      (visitHistory dialect levels)
  | insert statement => visitHistory dialect levels (dialect.insertParts statement).query

theorem run [dialect.Regular]
    (hinsert : dialect.rule? dialect.vocabulary.inserts.query ≠ some .setOperation)
    (levels : Nat) (query : Targeted tree) (session : Session) :
    Run dialect session.scope.frames.length session.scope.frames.length session
      (query.history dialect levels session) (query.walk dialect levels session) := by
  have hdisciplined := disciplined_visit dialect tree levels
  cases query with
  | into query => exact hdisciplined.query (Dialect.pairwise_queryParts query) session
  | insert statement =>
    exact hdisciplined.stays _ (Dialect.closesArm_child statement hinsert) session

theorem told (levels : Nat) (query : Targeted tree) (session : Session) :
    Told dialect (query.history dialect levels session) := by
  cases query with
  | into query =>
    have hsilent : (Script.query (dialect.queryParts query)).Silent := trivial
    exact Told.history (told_visit dialect levels) hsilent session
  | insert statement => exact told_visit dialect levels _ session

end Targeted

/-! ### The level of the targets -/

/-- The state in which the walk on the level of the targets starts. -/
def targeting (targets : List BindingId) (session : Session) : Session :=
  { session with scope := session.scope.push (.multipleAssignment targets 0) }

/-- The arms that some events on the level of the targets make up, if there are `base`
    levels around it. -/
def armsOf (base : Nat) (events : List (Event tree)) : List (List BindingId) :=
  armsFrom [] (arrivals (base + 1) (offersOf events))

/-- The level of the targets closes if all of them have a value. -/
theorem unwind_targets {session : Session} {targets : List BindingId} {received : Nat}
    {below : List Frame}
    (hframes : session.scope.frames = .multipleAssignment targets received :: below) :
    attempt (·.unwind (below.length + 1) true) session =
      (if received = targets.length then .ok () else .error
        (.mispaired (.shortfall received targets.length)),
        { session with scope := { session.scope with frames := below } }) := by
  have hcount : session.scope.height - max (below.length + 1) 1 = 1 := by
    rw [Scope.height, hframes, List.length_cons]
    omega
  simp only [attempt, Scope.unwind, if_true, hcount, popAll_one, Scope.pop, hframes, Frame.finish]
  by_cases hfull : received = targets.length <;> simp [hfull, Scope.receiveAll]

section

variable {walk : Walk Unit} {events : List (Event tree)} {targets : List BindingId}
  {session : Session}

/-- Steps that fail let the level of the targets fail with the same error. -/
theorem within_of_error {error : Error} (h : (walk (targeting targets session)).1 = .error error) :
    (within (.multipleAssignment targets 0) walk session).1 = .error error := by
  simp only [within]
  split
  · next hrun =>
    rw [targeting, hrun] at h
    cases h
  · next hrun =>
    rw [targeting, hrun] at h
    exact h

/-- Steps that succeed let the level of the targets succeed if all targets have a value then. -/
theorem within_of_ok {received : Nat} {below : List Frame}
    (h : (walk (targeting targets session)).1 = .ok ())
    (hframes : (walk (targeting targets session)).2.scope.frames =
      .multipleAssignment targets received :: below)
    (hlength : below.length = session.scope.frames.length) :
    (within (.multipleAssignment targets 0) walk session).1 =
        (if received = targets.length then .ok () else .error
          (.mispaired (.shortfall received targets.length))) ∧
      (within (.multipleAssignment targets 0) walk session).2.scope.graph =
        (walk (targeting targets session)).2.scope.graph := by
  simp only [within]
  split
  · next after hrun =>
    rw [targeting, hrun] at hframes
    have hheight : session.scope.height = below.length + 1 := by rw [Scope.height, hlength]
    rw [hheight, unwind_targets hframes, targeting, hrun]
    exact ⟨rfl, rfl⟩
  · next hrun =>
    rw [targeting, hrun] at h
    cases h

namespace Run

variable (hrun : Run dialect (session.scope.frames.length + 1) (session.scope.frames.length + 1)
  (targeting targets session) events (walk (targeting targets session)))

include hrun

/-- What has arrived at the level of the targets, if the steps did not fail for a mispairing. -/
theorem exists_arms
    (hclean : ∀ fault place, (walk (targeting targets session)).1 ≠ .error (.pairing fault place)) :
    ∃ ended last below, armsOf session.scope.frames.length events = ended ++ [last] ∧
      (∀ arm ∈ ended, arm.length = targets.length) ∧ last.length ≤ targets.length ∧
      (walk (targeting targets session)).2.scope.frames =
        .multipleAssignment targets last.length :: below ∧
      below.length = session.scope.frames.length ∧
      (arrivals (session.scope.frames.length + 1) (offersOf events)).filterMap Offer.pair? =
        (ended ++ [last]).flatMap (·.zip targets) := by
  have hcores : (targeting targets session).scope.cores.rtake (session.scope.frames.length + 1) =
      .multipleAssignment targets 0 :: session.scope.frames.map Frame.core :=
    rtake_eq_self (by simp [targeting, Scope.push])
  have htimely := hrun.above.timely_arrivals (Nat.le_refl _)
  rw [hcores] at htimely
  -- An arrival that could not be taken would have been reported by the step that offered it.
  have hfaults : ∀ arrival ∈ arrivals (session.scope.frames.length + 1) (offersOf events),
      arrival.fault? = none := by
    intro arrival harrival
    obtain ⟨offer, hoffer, hreaching⟩ := List.mem_filterMap.mp harrival
    cases hfault : arrival.fault? with
    | none => rfl
    | some fault =>
      obtain ⟨place, hfailed⟩ :=
        hrun.heeds offer hoffer fault (by rw [Offer.fault?_of_reaching? hreaching, hfault])
      exact absurd hfailed (hclean fault place)
  obtain ⟨ended, last, harms, hended, hlast, hfold, hpairs⟩ :=
    exists_armsFrom [] htimely hfaults (Nat.zero_le _)
  have hafter := hrun.above.cores (session.scope.frames.length + 1) (Nat.le_refl _)
  have hlength := hrun.length (Nat.le_refl _)
  rw [hcores, rtake_eq_self (by rw [Scope.length_cores, hlength])] at hafter
  obtain ⟨below, hbelow, hlower⟩ :=
    Frame.exists_cons_of_core (hafter.trans hfold) (by simp [Frame.role]) (by simp [Frame.role])
  refine ⟨ended, last, below, harms, hended, hlast, hbelow, ?_, hpairs⟩
  simpa using congrArg List.length hlower

/-- If the steps succeed, all depends on the last arm, since the others are complete. -/
theorem exists_last (hok : (walk (targeting targets session)).1 = .ok ()) :
    ∃ ended last below, armsOf session.scope.frames.length events = ended ++ [last] ∧
      (∀ arm ∈ ended, arm.length = targets.length) ∧
      (walk (targeting targets session)).2.scope.frames =
        .multipleAssignment targets last.length :: below ∧
      (Walk.within (.multipleAssignment targets 0) walk session).1 =
        (if last.length = targets.length then .ok ()
          else .error (.mispaired (.shortfall last.length targets.length))) := by
  obtain ⟨ended, last, below, harms, hended, _, hlast, hlength, _⟩ :=
    hrun.exists_arms (by simp [hok])
  exact ⟨ended, last, below, harms, hended, hlast, (within_of_ok hok hlast hlength).1⟩

/-- A query with targets succeeds if and only if its steps do and every arm is complete. -/
theorem within_eq_ok_iff :
    (Walk.within (.multipleAssignment targets 0) walk session).1 = .ok () ↔
      (walk (targeting targets session)).1 = .ok () ∧
        ∀ arm ∈ armsOf session.scope.frames.length events, arm.length = targets.length := by
  cases hsteps : (walk (targeting targets session)).1 with
  | error error => simp [within_of_error hsteps]
  | ok =>
    obtain ⟨ended, last, below, harms, hended, _, hclose⟩ := hrun.exists_last hsteps
    rw [hclose, harms, List.forall_mem_append, List.forall_mem_singleton]
    by_cases hlast : last.length = targets.length
    · simpa [hlast] using hended
    · simp [hlast]

/-- An arm that cannot be paired is a mispairing. -/
theorem within_mispaired
    (h : (∃ arm ∈ armsOf session.scope.frames.length events, targets.length < arm.length) ∨
      (∃ arm ∈ (armsOf session.scope.frames.length events).dropLast, arm.length ≠ targets.length) ∨
      (walk (targeting targets session)).1 = .ok () ∧
        ∃ arm ∈ armsOf session.scope.frames.length events, arm.length ≠ targets.length) :
    ∃ fault place, (Walk.within (.multipleAssignment targets 0) walk session).1 =
      .error (.pairing fault place) := by
  by_cases hclean : ∀ fault place, (walk (targeting targets session)).1 ≠
    .error (.pairing fault place)
  · -- All arms but the last one are complete, and that has not too many values: it may lack some.
    obtain ⟨ended, last, below, harms, hended, hlast, hframes, hlength, _⟩ :=
      hrun.exists_arms hclean
    rw [harms, List.dropLast_concat] at h
    rcases h with ⟨arm, harm, hmore⟩ | ⟨arm, harm, hother⟩ | ⟨hok, arm, harm, hother⟩
    · rcases List.mem_append.mp harm with hmem | hmem
      · have := hended arm hmem
        omega
      · rw [List.mem_singleton.mp hmem] at hmore
        omega
    · exact absurd (hended arm harm) hother
    · have hshort : last.length ≠ targets.length := by
        rcases List.mem_append.mp harm with hmem | hmem
        · exact absurd (hended arm hmem) hother
        · rwa [List.mem_singleton.mp hmem] at hother
      refine ⟨.shortfall last.length targets.length, .unknown, ?_⟩
      rw [(within_of_ok hok hframes hlength).1, if_neg hshort]
      rfl
  · simp only [ne_eq, not_forall, not_not] at hclean
    obtain ⟨fault, place, hfailed⟩ := hclean
    exact ⟨fault, place, within_of_error hfailed⟩

/-- In a query that succeeds, the values of each arm have met the targets in order, and
    flow into them. -/
theorem within_paired (h : (Walk.within (.multipleAssignment targets 0) walk session).1 = .ok ()) :
    (∃ below, (walk (targeting targets session)).2.scope.frames =
      .multipleAssignment targets targets.length :: below) ∧
    (arrivals (session.scope.frames.length + 1) (offersOf events)).filterMap Offer.pair? =
      (armsOf session.scope.frames.length events).flatMap (·.zip targets) ∧
    ∀ arrival ∈ arrivals (session.scope.frames.length + 1) (offersOf events), ∀ value target,
      arrival.pair? = some (value, target) → arrival.Makes (arrival.graph.addOutput value target) ∧
        (arrival.graph.addOutput value target).Grows
          (Walk.within (.multipleAssignment targets 0) walk session).2.scope.graph ∧
        (arrival.graph.contains value = true →
          target ∈ (Walk.within (.multipleAssignment targets 0) walk
            session).2.scope.graph.outputs value) := by
  obtain ⟨hok, hcomplete⟩ := hrun.within_eq_ok_iff.mp h
  obtain ⟨ended, last, below, harms, _, _, hframes, hlength, hpairs⟩ :=
    hrun.exists_arms (by simp [hok])
  rw [harms] at hcomplete ⊢
  rw [hcomplete last (by simp)] at hframes
  refine ⟨⟨below, hframes⟩, hpairs, fun arrival harrival value target hpair => ?_⟩
  have hmakes := Offer.makes_of_pair? hpair
  obtain ⟨offer, hoffer, hreaching⟩ := List.mem_filterMap.mp harrival
  have hgrows := hrun.above.lasting offer hoffer _ (hmakes.of_reaching? hreaching)
  rw [(within_of_ok hok hframes hlength).2]
  exact ⟨hmakes, hgrows, fun hvalue => Graph.mem_outputs_of_addOutput hvalue hgrows⟩

end Run

end

/-- A query that meets its targets. Its values arrive at the level of the targets in arms, and it
    succeeds if and only if its steps do and every arm has one value for each target. An arm with
    too many values, an arm with too few that is not the last one, and a last arm with too few once
    all is visited, are mispairings. If the query succeeds, then all targets have a value when their
    level closes, and the values of each arm have met the targets in order: where a value and a
    target have met, the value flows into the target ever after.

    Arms are separated by the visited operators, but only by those that stand on the query's own
    level: an operator between the arms finds the level of the first arm, or none once this has
    ended, right above the targets, and an operator around its arm finds the level of the query
    there. -/
theorem arms_meet_targets (document : Document) (grammar : Grammar) (levels : Nat)
    (query : Targeted (Tree.ofDocument document)) (targets : List BindingId) (session : Session) :
    let dialect := grammar.dialect
    let steps := query.walk dialect levels (targeting targets session)
    let outcome := within (.multipleAssignment targets 0) (query.walk dialect levels) session
    let history := query.history dialect levels (targeting targets session)
    let height := session.scope.frames.length + 1
    let arriving := arrivals height (offersOf history)
    let arms := armsOf session.scope.frames.length history
    (outcome.1 = .ok () ↔ steps.1 = .ok () ∧ ∀ arm ∈ arms, arm.length = targets.length) ∧
    ((∃ arm ∈ arms, targets.length < arm.length) ∨
      (∃ arm ∈ arms.dropLast, arm.length ≠ targets.length) ∨
        (steps.1 = .ok () ∧ ∃ arm ∈ arms, arm.length ≠ targets.length) →
      ∃ fault place, outcome.1 = .error (.pairing fault place)) ∧
    (outcome.1 = .ok () →
      (∃ below, steps.2.scope.frames = .multipleAssignment targets targets.length :: below) ∧
      arriving.filterMap Offer.pair? = arms.flatMap (·.zip targets) ∧
      ∀ arrival ∈ arriving, ∀ value target, arrival.pair? = some (value, target) →
        arrival.Makes (arrival.graph.addOutput value target) ∧
        (arrival.graph.addOutput value target).Grows outcome.2.scope.graph ∧
        (arrival.graph.contains value = true → target ∈ outcome.2.scope.graph.outputs value)) ∧
    (offersOf history).filter Offer.isOperator = history.filterMap (Event.operator? dialect) ∧
    ∀ node before result, .visited node before result ∈ history →
      dialect.binds node .setOperation = true →
      (((operatorOffer dialect node before).reaching? height).map Offer.signal =
        some (.operator 0) ↔ before.scope.words.rdrop height = dialect.armWords node) := by
  intro dialect steps outcome history height arriving arms
  have hrun : Run dialect height height (targeting targets session) history steps :=
    query.run grammar.insertQuery_ne levels (targeting targets session)
  have hoperators : (offersOf history).filter Offer.isOperator =
      history.filterMap (Event.operator? dialect) :=
    query.told levels (targeting targets session) hrun.fit
  refine ⟨hrun.within_eq_ok_iff, hrun.within_mispaired, hrun.within_paired, hoperators, ?_⟩
  intro node before result hvisited hoperator
  -- The operator's offer is among those of the history, so it is made to all levels from that of
  -- the targets down.
  have hmem : operatorOffer dialect node before ∈ history.filterMap (Event.operator? dialect) :=
    List.mem_filterMap.mpr ⟨_, hvisited, by simp [Event.operator?, hoperator]⟩
  rw [← hoperators] at hmem
  have hlevels :=
    congrArg List.length (hrun.above.levels (List.mem_filter.mp hmem).1 (Nat.le_refl _))
  rw [length_rtake, length_rtake, List.length_map, Scope.length_words] at hlevels
  refine operatorOffer_arrives_iff ?_ (hrun.fit _ hvisited)
  have hfits : height ≤ (targeting targets session).scope.frames.length := hrun.above.fits
  omega

/-- A query of two arms with two elements each, whose operator stands between the arms. -/
def twoByTwo : Document :=
  let elements : Document :=
    .inner "selected_list" [.inner "select_list_elements" [], .inner "select_list_elements" []]
  .inner "query_block" [elements,
    .inner "subquery_operation_part" [.inner "query_block" [elements]]]

/-- Both arms of `twoByTwo` meet the same two targets. -/
theorem arms_meet_targets_twoByTwo :
    let tree := Tree.ofDocument twoByTwo
    let dialect := Grammar.plsql.dialect
    let query : Targeted tree := .into tree.root
    let targets : List BindingId := [⟨1⟩, ⟨2⟩]
    let session := Session.ofSchema (.oneTable "t" ["a", "b"])
    let history := query.history dialect tree.size (targeting targets session)
    (within (.multipleAssignment targets 0) (query.walk dialect tree.size) session).1 = .ok () ∧
    (arrivals (session.scope.frames.length + 1) (offersOf history)).filterMap Offer.pair? =
      [(⟨3⟩, ⟨1⟩), (⟨4⟩, ⟨2⟩), (⟨5⟩, ⟨1⟩), (⟨6⟩, ⟨2⟩)] := by
  intro tree dialect query targets session history
  have hsteps : (query.walk dialect tree.size (targeting targets session)).1 = .ok () := by
    decide +kernel
  have harms : armsOf session.scope.frames.length history = [[⟨3⟩, ⟨4⟩], [⟨5⟩, ⟨6⟩]] := by
    decide +kernel
  obtain ⟨hok, _, hpaired, _⟩ := arms_meet_targets twoByTwo .plsql tree.size query targets session
  have hcomplete : ∀ arm ∈ armsOf session.scope.frames.length history, arm.length =
      targets.length := by
    rw [harms]
    decide
  have houtcome := hok.mpr ⟨hsteps, hcomplete⟩
  have hpairs := (hpaired houtcome).2.1
  rw [harms] at hpairs
  exact ⟨houtcome, hpairs⟩

/-- Two arms with one element each, and the operator between them. -/
def unionParts : List Document :=
  [.inner "SelectList" [.inner "Literal" []], .inner "SubqueryOperation" [],
    .inner "Subquery" [.inner "SelectList" [.inner "Literal" []]]]

/-- A statement that holds its arms itself. -/
def flatUnion : Document :=
  .inner "SelectStatement" unionParts

/-- A statement that holds its arms in a query of its own. -/
def nestedUnion : Document :=
  .inner "SelectStatement" [.inner "QueryBlock" unionParts]

/-- One target is enough for the arms of `flatUnion`, but not for the same arms in `nestedUnion`. -/
theorem nestedUnion_rejected :
    let flat := Tree.ofDocument flatUnion
    let nested := Tree.ofDocument nestedUnion
    Reachable (.oneTable "t" ["a", "b"]) (expecting [⟨1⟩]) ∧
    (visit Dialect.pmd flat.size flat.root (expecting [⟨1⟩])).1 = .ok () ∧
    (visit Dialect.pmd nested.size nested.root (expecting [⟨1⟩])).1 =
      .error (.pairing (.surplus 1) ⟨"SelectList", none, none⟩) := by
  refine ⟨reachable_expecting (by decide +kernel), ?_⟩
  decide +kernel

end Walk

end Lineage
