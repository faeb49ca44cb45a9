import Lineage.Proofs.Dialect.Operators
import Lineage.Proofs.Walk.History

/-!
# Levels opened and closed by a script

A script opens a level only around steps of its own and closes it again, whether these succeed or
not. So a run leaves the levels that it found, and touches them only through what it offers to them.
The one exception is the first operator between the arms of a query, which ends the level of its
first arm.

## Key results

- `Run.within`: steps on a level of their own leave the levels around it
- `run_script`: a script whose visits leave all levels leaves all levels
- `run_parts`: of the parts of a query, one may end the query's own level
-/

namespace Lineage.Walk

variable {tree : Tree} {dialect : Dialect} {α β : Type} {session : Session} {scope : Scope}
  {base : Nat} {frame : Frame} {rest : List Frame} {walk : Node tree → Walk Unit}
  {inner : Node tree → Session → List (Event tree)}

/-- A visited node that ends the level of an arm finds this level innermost. -/
def Event.Fit (dialect : Dialect) : Event tree → Prop
  | .visited node before _ =>
    dialect.closesArm node = true → ∃ query rest, before.scope.frames = .select query :: rest
  | .offered _ => True

/-- A run that touches the lowest `base` levels through its offers alone, and leaves the lowest
    `left` levels open. If it fails, the input is to blame. If one of its offers cannot be taken, it
    fails for that. -/
structure Run (dialect : Dialect) (base left : Nat) (before : Session) (events : List (Event tree))
    (outcome : Except Error α × Session) : Prop where
  above : Scope.Above base before.scope (offersOf events) outcome.2.scope
  words : outcome.2.scope.words = before.scope.words.rtake left
  blames : ∀ error, outcome.1 = .error error → error.blamesInput = true
  fit : ∀ event ∈ events, event.Fit dialect
  heeds : ∀ offer ∈ offersOf events, ∀ fault, offer.fault? = some fault →
    ∃ place, outcome.1 = .error (.pairing fault place)

@[simp] theorem offersOf_append (first last : List (Event tree)) :
    offersOf (first ++ last) = offersOf first ++ offersOf last :=
  List.filterMap_append

@[simp] theorem offersOf_offered (offers : List Offer) :
    offersOf (offers.map .offered : List (Event tree)) = offers := by
  simp [offersOf, List.filterMap_map]

/-- Offers are fit. -/
theorem fit_offered {offers : List Offer} :
    ∀ event ∈ (offers.map .offered : List (Event tree)), event.Fit dialect := by
  intro event hevent
  obtain ⟨offer, _, rfl⟩ := List.mem_map.mp hevent
  trivial

namespace Run

variable {base low left : Nat} {before middle : Session} {events first last : List (Event tree)}
  {outcome : Except Error α × Session}

theorem mono (h : Run dialect base left before events outcome) (hlow : low ≤ base) :
    Run dialect low left before events outcome :=
  ⟨h.above.mono hlow, h.words, h.blames, h.fit, h.heeds⟩

/-- The number of levels that a run leaves open. -/
theorem length (h : Run dialect base left before events outcome)
    (hleft : left ≤ before.scope.frames.length) : outcome.2.scope.frames.length = left := by
  rw [← Scope.length_words, h.words, length_rtake, Scope.length_words]
  omega

/-- A run after a successful one. -/
theorem trans {fewer : Nat} {value : β}
    (hfirst : Run dialect base left before first ((.ok value, middle) : Except Error β × Session))
    (hlast : Run dialect base fewer middle last outcome) (hfewer : fewer ≤ left) :
    Run dialect base fewer before (first ++ last) outcome where
  above := by
    rw [offersOf_append]
    exact hfirst.above.trans hlast.above
  words := by rw [hlast.words, hfirst.words, rtake_rtake _ hfewer]
  blames := hlast.blames
  fit event hevent := by
    rcases List.mem_append.mp hevent with hmem | hmem
    · exact hfirst.fit event hmem
    · exact hlast.fit event hmem
  heeds offer hoffer fault hfault := by
    rw [offersOf_append] at hoffer
    rcases List.mem_append.mp hoffer with hmem | hmem
    · -- The first run has succeeded, so all that it offered could be taken.
      obtain ⟨place, hfailed⟩ := hfirst.heeds offer hmem fault hfault
      cases hfailed
    · exact hlast.heeds offer hmem fault hfault

/-- Two walks in a row. -/
theorem bind {walk : Walk β} {next : β → Walk α} {later : β → Session → List (Event tree)}
    (hfirst : Run dialect base left before first (walk before))
    (hnext : ∀ value after, walk before = (.ok value, after) →
      Run dialect base left after (later value after) (next value after)) :
    Run dialect base left before (first ++ eventsAfter (walk before) later)
      ((walk >>= next) before) := by
  rcases hrun : walk before with ⟨error | value, after⟩
  · rw [hrun] at hfirst
    rw [Stateful.bind_error hrun, eventsAfter, List.append_nil]
    refine ⟨hfirst.above, hfirst.words,
      fun cause hcause => hfirst.blames cause (by rw [← Except.error.inj hcause]), hfirst.fit, ?_⟩
    intro offer hoffer fault hfault
    obtain ⟨place, hfailed⟩ := hfirst.heeds offer hoffer fault hfault
    exact ⟨place, congrArg Except.error (Except.error.inj hfailed)⟩
  · rw [hrun] at hfirst
    rw [Stateful.bind_ok hrun]
    exact hfirst.trans (hnext value after hrun) (Nat.le_refl left)

/-- A step on the scope that keeps all levels. -/
theorem of_keeps {session : Session} (offers : List Offer)
    (hkeeps : Scope.Keeps session.scope offers outcome.2.scope)
    (hblames : ∀ error, outcome.1 = .error error → error.blamesInput = true)
    (hheeds : ∀ offer ∈ offers, ∀ fault, offer.fault? = some fault →
      outcome.1 = .error (.mispaired fault)) :
    Run dialect session.scope.frames.length session.scope.frames.length session
      (offers.map .offered : List (Event tree)) outcome where
  above := by
    rw [offersOf_offered]
    exact hkeeps.above
  words := by rw [hkeeps.words, rtake_eq_self (Scope.length_words _)]
  blames := hblames
  fit := fit_offered
  heeds offer hoffer fault hfault := by
    rw [offersOf_offered] at hoffer
    exact ⟨.unknown, hheeds offer hoffer fault hfault⟩

/-- A step on the scope that keeps all levels and offers nothing. -/
theorem of_learns {session : Session} (hlearns : session.scope.Learns outcome.2.scope)
    (hblames : ∀ error, outcome.1 = .error error → error.blamesInput = true) :
    Run dialect session.scope.frames.length session.scope.frames.length session
      ([] : List (Event tree)) outcome :=
  of_keeps [] (Scope.keeps_of_learns hlearns) hblames (by simp)

end Run

/-! ### Levels around a walk -/

theorem dropTo_height (scope : Scope) : scope.dropTo scope.height = scope := by
  have hsame : scope.height - max scope.height 1 = 0 := by
    simp only [Scope.height]
    omega
  simp [Scope.dropTo, hsame]

/-- Leaving all levels above a number of levels. -/
theorem frames_dropTo : (scope.dropTo (base + 1)).frames = scope.frames.rtake base := by
  have hcount : scope.height - max (base + 1) 1 = scope.frames.length - base := by
    simp only [Scope.height]
    omega
  simp only [Scope.dropTo, hcount]
  rfl

/-- Closing all levels above a number of levels, where at most one is open. -/
theorem popAll_cases (hlow : base ≤ scope.frames.length) (hhigh : scope.frames.length ≤ base + 1) :
    (scope.frames.length = base ∧ scope.height - (base + 1) = 0) ∨
    (∃ frame rest, scope.frames = frame :: rest ∧ rest.length = base ∧
      scope.height - (base + 1) = 1) := by
  rcases hframes : scope.frames with _ | ⟨frame, rest⟩
  · rw [hframes] at hlow
    simp only [List.length_nil, Nat.le_zero] at hlow
    exact .inl ⟨by rw [List.length_nil, hlow], by rw [Scope.height, hframes]; simp [hlow]⟩
  · rw [hframes, List.length_cons] at hlow hhigh
    by_cases hsame : rest.length + 1 = base
    · exact .inl ⟨hsame, by rw [Scope.height, hframes, List.length_cons]; omega⟩
    · exact .inr ⟨frame, rest, rfl, by omega,
        by rw [Scope.height, hframes, List.length_cons]; omega⟩

/-- Closing one level. -/
theorem popAll_one (scope : Scope) : Scope.popAll 1 scope = scope.pop := by
  simp only [Scope.popAll]
  rcases scope.pop with ⟨error | ⟨⟩, after⟩
  · simp [dropTo_height]
  · rfl

theorem popAllOffers_one (scope : Scope) : Scope.popAllOffers 1 scope = scope.popOffers := by
  simp only [Scope.popAllOffers]
  rcases scope.pop with ⟨error | ⟨⟩, after⟩ <;> simp

/-- A mispairing is the input's fault. -/
theorem blames_of_mispaired {error : Error} (h : ∃ fault, error = .mispaired fault) :
    error.blamesInput = true := by
  obtain ⟨fault, rfl⟩ := h
  rfl

/-- Closing the innermost level leaves the others. -/
theorem run_pop (h : session.scope.frames = frame :: rest) :
    Run dialect rest.length rest.length session
      (session.scope.popOffers.map .offered : List (Event tree)) (attempt Scope.pop session) := by
  obtain ⟨habove, hwords⟩ := Scope.above_pop h
  refine ⟨by rw [offersOf_offered]; exact habove, ?_, ?_, fit_offered, ?_⟩
  · have hbefore : session.scope.words = [frame.role] ++ rest.map Frame.role := by
      rw [Scope.words, h]
      rfl
    rw [hbefore, rtake_append _ (List.length_map _)]
    exact hwords
  · exact fun error herror => blames_of_mispaired (Scope.pop_error h herror)
  · intro offer hoffer fault hfault
    rw [offersOf_offered] at hoffer
    exact ⟨.unknown, Scope.pop_of_fault hoffer hfault⟩

/-- Closing what is open above a number of levels, at most one level, leaves these levels. -/
theorem run_unwind (hlow : base ≤ session.scope.frames.length)
    (hhigh : session.scope.frames.length ≤ base + 1) :
    Run dialect base base session
      ((session.scope.popAllOffers (session.scope.height - (base + 1))).map .offered :
        List (Event tree))
      (attempt (·.unwind (base + 1) true) session) := by
  have hmax : max (base + 1) 1 = base + 1 := by omega
  simp only [attempt, Scope.unwind, if_true, hmax]
  rcases popAll_cases hlow hhigh with ⟨hlength, hcount⟩ | ⟨frame, rest, hframes, hlength, hcount⟩
  · -- Nothing is left to close: the walk has ended the level itself.
    rw [hcount]
    subst hlength
    exact Run.of_learns .refl (by simp [Scope.popAll])
  · rw [hcount, popAllOffers_one, popAll_one]
    subst hlength
    exact run_pop hframes

/-- Steps on a level of their own leave the levels around it, even if they have ended their own. -/
theorem Run.within {walk : Walk Unit} {inner : Session → List (Event tree)} {left : Nat}
    (hleft : left ≤ session.scope.frames.length + 1)
    (hbody : Run dialect session.scope.frames.length left
      { session with scope := session.scope.push frame }
      (inner { session with scope := session.scope.push frame })
      (walk { session with scope := session.scope.push frame })) :
    Run dialect session.scope.frames.length session.scope.frames.length session
      (eventsWithin frame walk inner session) (Walk.within frame walk session) := by
  have hpush := Scope.above_push session.scope frame
  have hinside : left ≤ (session.scope.push frame).frames.length := by
    simpa [Scope.push] using hleft
  have hwords : (session.scope.push frame).words.rtake session.scope.frames.length =
      session.scope.words :=
    rtake_append [frame.role] (Scope.length_words _)
  have hself : session.scope.words.rtake session.scope.frames.length = session.scope.words :=
    rtake_eq_self (Scope.length_words _)
  simp only [eventsWithin, Walk.within]
  -- A walk that fails drops its levels; one that succeeds closes them one by one.
  rcases hrun : walk { session with scope := session.scope.push frame } with ⟨error | ⟨⟩, after⟩ <;>
    rw [hrun] at hbody <;>
    have hlength : after.scope.frames.length = left := hbody.length hinside <;>
    have hfits : session.scope.frames.length ≤ after.scope.frames.length := hbody.above.fits_after
  · have hdrop : Scope.Above session.scope.frames.length after.scope []
        (after.scope.dropTo session.scope.height) :=
      Scope.above_of_rtake hfits frames_dropTo .refl
    refine ⟨?_, ?_, hbody.blames, ?_, ?_⟩
    · simpa [eventsAfter] using (hpush.trans hbody.above).trans hdrop
    · show (after.scope.dropTo (session.scope.frames.length + 1)).words = _
      rw [hself, Scope.words, frames_dropTo, map_rtake, ← hwords]
      exact (congrArg (List.rtake · _) hbody.words).trans (rtake_rtake _ (by omega))
    · simpa [eventsAfter] using hbody.fit
    · simpa [eventsAfter] using hbody.heeds
  · have hrest := hbody.trans (run_unwind hfits (by omega)) (by omega)
    refine ⟨?_, ?_, hrest.blames, hrest.fit, hrest.heeds⟩
    · exact hpush.trans hrest.above
    · rw [hself, ← hwords]
      exact hrest.words

/-! ### Scripts -/

/-- The frame gathers the values of an element of a select list. -/
def isSelectList : Frame → Bool
  | .selectList _ => true
  | _ => false

/-- The innermost level is a select list. -/
def listing (scope : Scope) : Prop :=
  scope.words.head? = some "select-list"

theorem listing_push (h : isSelectList frame = true) : listing (scope.push frame) := by
  cases frame with
  | selectList pending => rfl
  | _ => simp [isSelectList] at h

theorem exists_of_listing (h : listing scope) :
    ∃ pending rest, scope.frames = .selectList pending :: rest := by
  unfold listing Scope.words at h
  rcases hframes : scope.frames with _ | ⟨frame, rest⟩
  · simp [hframes] at h
  · rw [hframes, List.map_cons, List.head?_cons, Option.some.injEq] at h
    cases frame with
    | selectList pending => exact ⟨pending, rest, rfl⟩
    | _ => simp [Frame.role] at h

namespace Script

/-- The script visits allowed nodes and the parts of allowed queries only, ends elements only where
    the innermost level is a select list (`listed`), and does not end the level of an arm. -/
def Uses (allowed : Node tree → Prop) (arms : List (Node tree) → Prop) :
    {α : Type} → (listed : Bool) → Script tree α → Prop
  | _, _, quiet _ _ => True
  | _, _, send _ => True
  | _, listed, flush _ => listed = true
  | _, _, closeArm => False
  | _, _, nextArm _ => True
  | _, _, visits nodes => ∀ node ∈ nodes, allowed node
  | _, _, query parts => arms parts
  | _, _, within frame body => body.Uses allowed arms (isSelectList frame)
  | _, listed, andThen first next =>
    first.Uses allowed arms listed ∧ ∀ value, (next value).Uses allowed arms listed

/-- The levels that a script may touch through its offers alone: all, or those around
    a select list. -/
def reach (listed : Bool) (scope : Scope) : Nat :=
  scope.frames.length - listed.toNat

end Script

/-- Nodes whose visits leave all levels, in order. -/
theorem run_forM {nodes : List (Node tree)}
    (hwalk : ∀ node ∈ nodes, ∀ session : Session, session.scope.frames.length = base →
      Run dialect base base session (inner node session) (walk node session))
    (hbase : session.scope.frames.length = base) :
    Run dialect base base session (eventsOfAll walk inner nodes session)
      (nodes.forM walk session) := by
  induction nodes generalizing session with
  | nil =>
    subst hbase
    exact Run.of_learns .refl fun _ h => nomatch h
  | cons node rest ih =>
    have hnode := hwalk node List.mem_cons_self session hbase
    refine Run.bind hnode fun _ after hafter => ?_
    have hlength : after.scope.frames.length = base := by
      have := hnode.length (Nat.le_of_eq hbase.symm)
      rwa [hafter] at this
    exact ih (fun other hother => hwalk other (List.mem_cons_of_mem _ hother)) hlength

theorem run_produce (id : BindingId) (session : Session) :
    Run dialect session.scope.frames.length session.scope.frames.length session
      ((Scope.receiveOffers [id] session.scope).map .offered : List (Event tree))
      (produce id session) := by
  refine Run.of_keeps _ (Scope.keeps_receiveAll [id] session.scope) (fun error herror => ?_) ?_
  · have hfail : (Scope.receiveAll [id] session.scope).1 = .error error := herror
    exact blames_of_mispaired (Scope.receiveAll_error hfail)
  · exact fun offer hoffer fault hfault => Scope.receiveAll_of_fault hoffer hfault

/-- An operator leaves all levels; if it comes too early, the input is to blame. -/
theorem run_nextArm (queries : Nat) (session : Session) :
    Run dialect session.scope.frames.length session.scope.frames.length session
      [(Event.offered ⟨session.scope.graph, session.scope.frames, .operator queries⟩ : Event tree)]
      (nextArm queries session) := by
  rw [nextArm_eq]
  have hfault := Scope.faultAmong?_operator session.scope.graph session.scope queries
  -- An operator is a fault just where a multiple assignment waits for more values.
  cases hpending : session.scope.pendingAssignment? queries with
  | none =>
    rw [hpending] at hfault
    refine Run.of_keeps [_] (Scope.keeps_operator_idle ?_) (fun _ h => by cases h) ?_
    · simp [hpending]
    · simp [Offer.fault?, hfault]
  | some pending =>
    obtain ⟨targets, received⟩ := pending
    rw [hpending, Option.bind_some] at hfault
    simp only
    split
    · next hfull =>
      refine Run.of_keeps [_] (Scope.keeps_operator hpending hfull) (fun _ h => by cases h) ?_
      simp [Offer.fault?, hfault, hfull]
    · next hshort =>
      refine Run.of_keeps [_] (Scope.keeps_operator_idle ?_) (fun _ h => ?_) ?_
      · rw [hpending]
        rintro _ _ ⟨⟩
        exact hshort
      · exact blames_of_mispaired ⟨_, (Except.error.inj h).symm⟩
      · simp [Offer.fault?, hfault, hshort]

/-- Ending an element touches the levels around the list through its offer alone. -/
theorem run_flush (position : Nat) (hlisting : listing session.scope) :
    Run dialect (session.scope.frames.length - 1) session.scope.frames.length session
      ((session.scope.flushOffers position).map .offered : List (Event tree))
      (attempt (·.flushElement position) session) := by
  obtain ⟨pending, rest, hframes⟩ := exists_of_listing hlisting
  obtain ⟨habove, hwords⟩ := Scope.above_flush position hframes
  have hbase : session.scope.frames.length - 1 = rest.length := by simp [hframes]
  refine ⟨?_, ?_, ?_, fit_offered, ?_⟩
  · rw [offersOf_offered, hbase]
    exact habove
  · rw [rtake_eq_self (Scope.length_words _)]
    exact hwords
  · exact fun error herror => blames_of_mispaired (Scope.flushElement_error hframes herror)
  · intro offer hoffer fault hfault
    rw [offersOf_offered] at hoffer
    exact ⟨.unknown, Scope.flushElement_of_fault hoffer hfault⟩

/-- A script whose visits leave all levels leaves all levels. It touches them through its offers
    alone, the select list apart whose elements it ends. -/
theorem run_script {allowed : Node tree → Prop} {arms : List (Node tree) → Prop}
    (hwalk : ∀ node, allowed node → ∀ session : Session,
      Run dialect session.scope.frames.length session.scope.frames.length session
        (inner node session) (walk node session))
    (harms : ∀ parts, arms parts → ∀ session : Session,
      Run dialect session.scope.frames.length session.scope.frames.length session
        ((Script.query parts).history walk inner session) ((Script.query parts).run walk session))
    (script : Script tree α) {listed : Bool} (huses : script.Uses allowed arms listed)
    (session : Session) (hlisted : listed = true → listing session.scope) :
    Run dialect (Script.reach listed session.scope) session.scope.frames.length session
      (script.history walk inner session) (script.run walk session) := by
  have hreach : Script.reach listed session.scope ≤ session.scope.frames.length := Nat.sub_le _ _
  induction script generalizing listed session with
  | quiet walk h => exact (Run.of_learns (h.learns session) (h.blames session)).mono hreach
  | send id => exact (run_produce id session).mono hreach
  | flush position =>
    simp only [Script.Uses] at huses
    subst huses
    exact run_flush position (hlisted rfl)
  | closeArm => exact huses.elim -- `run_closeArm` is about the one script that ends a level
  | nextArm queries => exact (run_nextArm queries session).mono hreach
  | visits nodes =>
    refine Run.mono (run_forM (fun node hnode after hafter => ?_) rfl) hreach
    rw [← hafter]
    exact hwalk node (huses node hnode) after
  | query parts => exact (harms parts huses session).mono hreach
  | within frame body ih =>
    refine Run.mono (Run.within (Nat.le_refl _) ?_) hreach
    -- The steps inside may touch the new level directly if it is a list, but none of those around
    -- it.
    have hinside : session.scope.frames.length ≤
        Script.reach (isSelectList frame) (session.scope.push frame) := by
      cases isSelectList frame <;> simp [Script.reach, Scope.push]
    exact (ih huses { session with scope := session.scope.push frame } listing_push
      (Nat.sub_le _ _)).mono hinside
  | andThen first next ihfirst ihnext =>
    have hfirst := ihfirst huses.1 session hlisted hreach
    refine Run.bind hfirst fun value after hafter => ?_
    -- The first part keeps the words, so the second one starts with as many levels, inside the same
    -- list.
    have hwords := hfirst.words
    rw [hafter, rtake_eq_self (Scope.length_words _)] at hwords
    have hlength : after.scope.frames.length = session.scope.frames.length := by
      rw [← Scope.length_words, hwords, Scope.length_words]
    have hsame : Script.reach listed after.scope = Script.reach listed session.scope := by
      rw [Script.reach, Script.reach, hlength]
    have hlater := ihnext value (huses.2 value) after
      (fun h => by have := hlisted h; rwa [listing, ← hwords] at this) (Nat.sub_le _ _)
    rwa [hsame, hlength] at hlater

/-! ### Queries and their operators -/

theorem exists_select_of_words {words : List String} (h : scope.words = "select" :: words) :
    ∃ query rest, scope.frames = .select query :: rest ∧ rest.map Frame.role = words := by
  unfold Scope.words at h
  rcases hframes : scope.frames with _ | ⟨frame, rest⟩
  · simp [hframes] at h
  · rw [hframes, List.map_cons, List.cons.injEq] at h
    cases frame with
    | select query => exact ⟨query, rest, rfl, h.2⟩
    | _ => simp [Frame.role] at h

/-- The parts of a query, of which one may end the query's level. The others leave all levels. -/
theorem run_parts {parts : List (Node tree)}
    (hplain : ∀ node ∈ parts, dialect.closesArm node = false → ∀ session : Session,
      Run dialect session.scope.frames.length session.scope.frames.length session
        (inner node session) (walk node session))
    (hends : ∀ node ∈ parts, dialect.closesArm node = true → ∀ (session : Session) query rest,
      session.scope.frames = .select query :: rest →
        ∃ left ≤ rest.length + 1, Run dialect rest.length left session (inner node session)
          (walk node session))
    (hpairwise : dialect.AtMostOneCloses parts) (session : Session) {query : QueryScope}
    (hframes : session.scope.frames = .select query :: rest) :
    ∃ left ≤ rest.length + 1,
      Run dialect rest.length left session (eventsOfAll walk inner parts session)
        (parts.forM walk session) := by
  induction parts generalizing session query rest with
  | nil =>
    have hrun : Run dialect session.scope.frames.length session.scope.frames.length session
        (eventsOfAll walk inner [] session) (([] : List (Node tree)).forM walk session) :=
      run_forM (by simp) rfl
    rw [hframes, List.length_cons] at hrun
    exact ⟨rest.length + 1, Nat.le_refl _, hrun.mono (Nat.le_succ _)⟩
  | cons node others ih =>
    obtain ⟨hfirst, hothers⟩ := List.pairwise_cons.mp hpairwise
    cases hcloses : dialect.closesArm node with
    | true =>
      -- The other parts end no level, so they leave whatever this one has left.
      obtain ⟨left, hleft, hnode⟩ :=
        hends node List.mem_cons_self hcloses session query rest hframes
      refine ⟨left, hleft, Run.bind hnode fun _ after hafter => ?_⟩
      have hlength : after.scope.frames.length = left := by
        have := hnode.length (by simpa [hframes] using hleft)
        rwa [hafter] at this
      have hfits : rest.length ≤ left := by
        have := hnode.above.fits_after
        rwa [hafter, hlength] at this
      refine Run.mono (run_forM (fun other hother before hbefore => ?_) hlength) hfits
      rw [← hbefore]
      refine hplain other (List.mem_cons_of_mem _ hother) ?_ before
      exact Bool.eq_false_iff.mpr fun hother' => hfirst other hother ⟨hcloses, hother'⟩
    | false =>
      -- This part leaves the query's level on top, which is what the induction hypothesis asks for.
      have hnode := hplain node List.mem_cons_self hcloses session
      rw [hframes, List.length_cons] at hnode
      rcases hrun : walk node session with ⟨error | ⟨⟩, after⟩
      · refine ⟨rest.length + 1, Nat.le_refl _, Run.mono ?_ (Nat.le_succ _)⟩
        exact Run.bind hnode fun _ _ hok => by simp [hrun] at hok
      · rw [hrun] at hnode
        have hwords : after.scope.words = "select" :: rest.map Frame.role := by
          have hself : session.scope.words.rtake (rest.length + 1) = session.scope.words :=
            rtake_eq_self (by rw [Scope.length_words, hframes, List.length_cons])
          rw [hnode.words, hself, Scope.words, hframes]
          rfl
        obtain ⟨query', rest', hafter, hrest⟩ := exists_select_of_words hwords
        have hlength : rest'.length = rest.length := by simpa using congrArg List.length hrest
        obtain ⟨left, hleft, hothers'⟩ := ih
          (fun other hother => hplain other (List.mem_cons_of_mem _ hother))
          (fun other hother => hends other (List.mem_cons_of_mem _ hother)) hothers after hafter
        rw [hlength] at hleft hothers'
        refine ⟨left, hleft, ?_⟩
        have hall := (hnode.mono (Nat.le_succ _)).trans hothers' hleft
        have hbind : (node :: others).forM walk session = others.forM walk after :=
          Stateful.bind_ok hrun
        rw [hbind]
        simpa only [eventsOfAll, hrun, eventsAfter] using hall

/-- An operator that ends the level of the first arm, and then visits its own arm. -/
theorem run_closeArm {nodes : List (Node tree)} {queries : Nat}
    (hwalk : ∀ node ∈ nodes, ∀ session : Session,
      Run dialect session.scope.frames.length session.scope.frames.length session
        (inner node session) (walk node session))
    {query : QueryScope} (hframes : session.scope.frames = .select query :: rest) :
    let script : Script tree Unit := do
      .closeArm
      .nextArm queries
      .visits nodes
    Run dialect rest.length rest.length session (script.history walk inner session)
    (script.run walk session) := by
  intro script
  have hpop : Run dialect rest.length rest.length session
      (session.scope.popOffers.map .offered : List (Event tree)) (Walk.closeArm session) := by
    rw [closeArm_eq, hframes]
    exact run_pop hframes
  have hevents : script.history walk inner session = session.scope.popOffers.map .offered ++
      eventsAfter (Walk.closeArm session) fun _ after =>
        [.offered ⟨after.scope.graph, after.scope.frames, .operator queries⟩] ++
          eventsAfter (nextArm queries after) fun _ last => eventsOfAll walk inner nodes last := by
    simp only [script, Script.history_bind, Script.history, hframes]
    rfl
  rw [hevents]
  -- From here on the levels are those around the query.
  refine Run.bind hpop fun _ after hafter => ?_
  have hlength : after.scope.frames.length = rest.length := by
    have := hpop.length (by simp [hframes])
    rwa [hafter] at this
  have hnext : Run dialect rest.length rest.length after
      [(.offered ⟨after.scope.graph, after.scope.frames, .operator queries⟩ : Event tree)]
      (nextArm queries after) := by
    rw [← hlength]
    exact run_nextArm queries after
  refine Run.bind hnext fun _ last hlast => ?_
  refine run_forM (fun node hnode before hbefore => ?_) ?_
  · rw [← hbefore]
    exact hwalk node hnode before
  · have := hnext.length (Nat.le_of_eq hlength.symm)
    rwa [hlast] at this

end Lineage.Walk
