import Mathlib.Data.List.DropRight
import Lineage.Proofs.Scope.Faults
import Lineage.Proofs.Scope.Learning

/-!
# What reaches the lower levels

The lower levels of a scope are touched from above in one way only: a signal is offered further up
and passes the levels in between. An `Offer` records a signal, the levels it was offered to and the
graph of that moment, and `arrivals` are the offers as they reach the lowest levels. A step from one
scope to another is `Above` a height if the levels up to this height have changed by those arrivals
and by nothing else. Steps above a height compose, and every operation on a scope is such a step. An
operation whose offer cannot be taken fails.

## Key results

- `Above.trans`, `Above.mono`: steps compose, and a step above a height is one above any lower
  height
- `keeps_of_learns`, `keeps_deliver`: learning, and sending a signal
- `keeps_receiveAll`, `above_pop`, `above_flush`: the operations that report what was gathered
- `receiveAll_of_fault`, `pop_of_fault`, `flushElement_of_fault`: an offer that cannot be taken is
  reported
-/

namespace Lineage

/-! ### Lists from their end -/

section

variable {α β : Type} (items : List α) {count : Nat}

theorem rdrop_append_rtake (count : Nat) : items.rdrop count ++ items.rtake count = items :=
  List.take_append_drop _ items

theorem length_rtake (count : Nat) : (items.rtake count).length = min count items.length := by
  rw [List.rtake, List.length_drop]
  omega

theorem map_rtake (f : α → β) (items : List α) (count : Nat) :
    (items.rtake count).map f = (items.map f).rtake count := by
  simp [List.rtake]

theorem map_rdrop (f : α → β) (items : List α) (count : Nat) :
    (items.rdrop count).map f = (items.map f).rdrop count := by
  simp [List.rdrop, List.map_take]

theorem rdrop_cons (item : α) {items : List α} (h : count ≤ items.length) :
    (item :: items).rdrop count = item :: items.rdrop count := by
  rw [List.rdrop, List.length_cons, Nat.succ_sub h, List.take_succ_cons]
  rfl

theorem rtake_append_of_le (above below : List α) (h : count ≤ below.length) :
    (above ++ below).rtake count = below.rtake count := by
  unfold List.rtake
  rw [List.drop_append, List.length_append, List.drop_eq_nil_of_le (by omega), List.nil_append]
  congr 1
  omega

theorem rtake_eq_self {items : List α} (h : items.length = count) : items.rtake count = items := by
  simp [List.rtake, h]

theorem rtake_append (above : List α) {below : List α} (h : below.length = count) :
    (above ++ below).rtake count = below := by
  rw [rtake_append_of_le above below (Nat.le_of_eq h.symm), rtake_eq_self h]

theorem rtake_rtake {few many : Nat} (h : few ≤ many) :
    (items.rtake many).rtake few = items.rtake few := by
  unfold List.rtake
  rw [List.drop_drop, List.length_drop]
  congr 1
  omega

theorem rdrop_rdrop {few many : Nat} (h : few ≤ many) :
    items.rdrop many ++ (items.rtake many).rdrop few = items.rdrop few := by
  have hsplit : (items.rdrop many ++ (items.rtake many).rdrop few) ++ items.rtake few =
      items.rdrop few ++ items.rtake few := by
    rw [List.append_assoc, ← rtake_rtake items h, rdrop_append_rtake, rdrop_append_rtake,
      rtake_rtake items h, rdrop_append_rtake]
  exact List.append_cancel_right hsplit

end

/-! ### Offers -/

/-- A signal that is offered to the innermost of some levels. -/
structure Offer where
  graph : Graph
  levels : List Frame
  signal : Signal

namespace Offer

/-- The offer as it reaches the lowest levels of the given number, if the levels above
    them pass it on. -/
def reaching? (height : Nat) (offer : Offer) : Option Offer :=
  (Scope.passAll? offer.graph (offer.levels.rdrop height) offer.signal).map fun signal =>
    { offer with levels := offer.levels.rtake height, signal }

/-- The levels after the offer. -/
def deliver (frames : List Frame) (offer : Offer) : List Frame :=
  Scope.deliver offer.graph offer.signal frames

/-- Why the offer cannot be taken. -/
def fault? (offer : Offer) : Option PairingFault :=
  Scope.faultAmong? offer.graph offer.signal offer.levels

/-- The offer brings a binding, and taking it makes the graph this one. -/
def Makes (offer : Offer) (graph : Graph) : Prop :=
  ∃ id frames, offer.signal = .value id ∧
    Scope.receiveAmong id offer.graph offer.levels = .ok (frames, graph)

variable {offer arrival : Offer} {height : Nat}

/-- The offer as it passes the innermost of its levels. -/
theorem reaching?_of_levels {frame : Frame} {rest : List Frame} (h : offer.levels = frame :: rest) :
    offer.reaching? rest.length =
      (frame.pass? offer.graph offer.signal).map fun signal =>
        { offer with levels := rest, signal } := by
  have hdrop : offer.levels.rdrop rest.length = [frame] := by simp [h, List.rdrop]
  have htake : offer.levels.rtake rest.length = rest := by
    rw [h]
    exact rtake_append [frame] rfl
  rw [reaching?, hdrop, htake]
  simp only [Scope.passAll?]
  cases frame.pass? offer.graph offer.signal <;> rfl

/-- The offer as it was made, from the offer as it reaches the lower levels. -/
theorem exists_of_reaching? (h : offer.reaching? height = some arrival) :
    Scope.passAll? offer.graph (offer.levels.rdrop height) offer.signal = some arrival.signal ∧
      arrival.graph = offer.graph ∧ arrival.levels = offer.levels.rtake height ∧
      offer.levels = offer.levels.rdrop height ++ arrival.levels := by
  obtain ⟨signal, hpass, rfl⟩ := Option.map_eq_some_iff.mp h
  exact ⟨hpass, rfl, rfl, (rdrop_append_rtake _ _).symm⟩

/-- An offer fails where it arrives. -/
theorem fault?_of_reaching? (h : offer.reaching? height = some arrival) :
    offer.fault? = arrival.fault? := by
  obtain ⟨hpass, hgraph, _, hlevels⟩ := exists_of_reaching? h
  rw [fault?, fault?, hgraph, hlevels]
  exact Scope.faultAmong?_append hpass arrival.levels

/-- A binding is taken where it arrives. -/
theorem Makes.of_reaching? {graph : Graph} (h : offer.reaching? height = some arrival)
    (hmakes : arrival.Makes graph) : offer.Makes graph := by
  obtain ⟨hpass, hgraph, _, hlevels⟩ := exists_of_reaching? h
  obtain ⟨id, frames, hsignal, hreceive⟩ := hmakes
  rw [hsignal] at hpass
  -- It arrives as a binding, so it was sent as one and the upper levels pass it on unchanged.
  have hsame := Scope.eq_value_of_passAll? hpass
  rw [hsame] at hpass
  refine ⟨id, offer.levels.rdrop height ++ frames, hsame, ?_⟩
  rw [hgraph] at hreceive
  rw [hlevels, Scope.receiveAmong_append hpass, hreceive, ← hlevels]
  rfl

/-- What reaches the lower levels has reached the ones further up before. -/
theorem reaching?_reaching? {low high : Nat} (h : low ≤ high) (offer : Offer) :
    (offer.reaching? high).bind (reaching? low) = offer.reaching? low := by
  simp only [reaching?, ← rdrop_rdrop offer.levels h, Scope.passAll?_append]
  cases Scope.passAll? offer.graph (offer.levels.rdrop high) offer.signal with
  | none => rfl
  | some signal => simp [reaching?, rtake_rtake offer.levels h]

end Offer

/-- The offers that reach the lowest levels of the given number, in the order in which they come. -/
def arrivals (height : Nat) (offers : List Offer) : List Offer :=
  offers.filterMap (Offer.reaching? height)

theorem arrivals_append (height : Nat) (first last : List Offer) :
    arrivals height (first ++ last) = arrivals height first ++ arrivals height last :=
  List.filterMap_append

theorem arrivals_arrivals {low high : Nat} (h : low ≤ high) (offers : List Offer) :
    arrivals low (arrivals high offers) = arrivals low offers := by
  unfold arrivals
  rw [List.filterMap_filterMap]
  congr 1
  funext offer
  exact Offer.reaching?_reaching? h offer

/-- Each arrival finds the levels that those before it have left. -/
def Timely (frames : List Frame) (arriving : List Offer) : Prop :=
  ∀ front arrival back, arriving = front ++ arrival :: back →
    arrival.levels.map Frame.core = front.foldl Offer.deliver frames

theorem Timely.cons {frames : List Frame} {arrival : Offer} {rest : List Offer}
    (h : Timely frames (arrival :: rest)) :
    arrival.levels.map Frame.core = frames ∧ Timely (Offer.deliver frames arrival) rest := by
  refine ⟨h [] arrival rest rfl, ?_⟩
  rintro front next back rfl
  exact h (arrival :: front) next back rfl

namespace Scope

/-- The words of the levels, innermost first. -/
def words (scope : Scope) : List String :=
  scope.frames.map Frame.role

/-- The second scope comes from the first one by steps that touch the lowest levels of the given
    number through the arrivals of the offers alone, and nothing but these levels stands below
    what was offered. -/
structure Above (base : Nat) (before : Scope) (offers : List Offer) (after : Scope) : Prop where
  fits : base ≤ before.frames.length
  cores : ∀ height ≤ base,
    after.cores.rtake height =
      (arrivals height offers).foldl Offer.deliver (before.cores.rtake height)
  /-- An offer finds the lower levels as the offers before it have left them. -/
  timely : ∀ front offer back, offers = front ++ offer :: back → ∀ height ≤ base,
    (offer.levels.map Frame.core).rtake height =
      (arrivals height front).foldl Offer.deliver (before.cores.rtake height)
  grows : before.graph.Grows after.graph
  /-- What an offer adds to the graph stays there. -/
  lasting : ∀ offer ∈ offers, ∀ graph, offer.Makes graph → graph.Grows after.graph

variable {base : Nat} {before middle after : Scope} {offers : List Offer} {scope : Scope}
  {graph : Graph} {error : Error} {offer : Offer} {fault : PairingFault} {frame : Frame}
  {rest : List Frame} {pending : List BindingId}

@[simp] theorem map_role_cores (scope : Scope) : scope.cores.map Frame.role = scope.words := by
  simp [cores, words, Function.comp_def]

@[simp] theorem length_cores (scope : Scope) : scope.cores.length = scope.frames.length := by
  simp [cores]

@[simp] theorem length_words (scope : Scope) : scope.words.length = scope.frames.length := by
  simp [words]

theorem map_foldl_deliver {β : Type} {mark : Frame → β}
    (hmark : ∀ frame signal, mark (Frame.absorb frame signal) = mark frame) (offers : List Offer)
    (frames : List Frame) : (offers.foldl Offer.deliver frames).map mark = frames.map mark := by
  induction offers generalizing frames with
  | nil => rfl
  | cons offer rest ih => rw [List.foldl_cons, ih, Offer.deliver, map_deliver hmark]

namespace Above

/-- The lower levels keep all that a frame keeps when it takes a signal or learns names. -/
theorem marks (h : Above base before offers after) {β : Type} {mark : Frame → β}
    (hmark : ∀ frame signal, mark (Frame.absorb frame signal) = mark frame)
    (hcore : ∀ frame, mark (Frame.core frame) = mark frame) :
    (after.frames.map mark).rtake base = (before.frames.map mark).rtake base := by
  have hcores := congrArg (List.map mark) (h.cores base (Nat.le_refl base))
  rw [map_foldl_deliver hmark, map_rtake, map_rtake, Scope.cores, Scope.cores, List.map_map,
    List.map_map] at hcores
  rwa [show mark ∘ Frame.core = mark from funext hcore] at hcores

/-- The lower levels keep their words. -/
theorem words (h : Above base before offers after) :
    after.words.rtake base = before.words.rtake base :=
  h.marks Frame.role_absorb Frame.role_core

theorem fits_after (h : Above base before offers after) : base ≤ after.frames.length := by
  have hlength := congrArg List.length h.words
  have hfits := h.fits
  rw [length_rtake, length_rtake, length_words, length_words] at hlength
  omega

variable {height : Nat}

/-- What is offered is offered to levels above the lower ones, which have their words. -/
theorem levels (h : Above base before offers after) {offer : Offer} (hoffer : offer ∈ offers)
    (hheight : height ≤ base) :
    (offer.levels.map Frame.role).rtake height = before.words.rtake height := by
  obtain ⟨front, back, hoffers⟩ := List.append_of_mem hoffer
  -- The offers before it may have changed the lower levels, but not their words.
  have hcores := congrArg (List.map Frame.role) (h.timely front offer back hoffers height hheight)
  rw [map_foldl_deliver Frame.role_absorb, map_rtake, map_rtake, map_role_cores,
    List.map_map] at hcores
  rw [← hcores]
  congr 2
  funext frame
  exact (Frame.role_core frame).symm

/-- A step above a height is one above any lower height. -/
theorem mono {low : Nat} (h : Above base before offers after) (hlow : low ≤ base) :
    Above low before offers after where
  fits := Nat.le_trans hlow h.fits
  cores height hheight := h.cores height (Nat.le_trans hheight hlow)
  timely front offer back hoffers height hheight :=
    h.timely front offer back hoffers height (Nat.le_trans hheight hlow)
  grows := h.grows
  lasting := h.lasting

/-- Steps above a height compose. -/
theorem trans {first last : List Offer} (hfirst : Above base before first middle)
    (hlast : Above base middle last after) : Above base before (first ++ last) after where
  fits := hfirst.fits
  cores height hheight := by
    rw [hlast.cores height hheight, hfirst.cores height hheight, arrivals_append, List.foldl_append]
  timely front offer back hoffers height hheight := by
    rcases List.append_eq_append_iff.mp hoffers with ⟨rest, hfront, hlater⟩ | ⟨rest, hfront, hlater⟩
    · -- An offer of the second step finds what the first step and the offers since then have left.
      rw [hlast.timely rest offer back hlater height hheight, hfirst.cores height hheight, hfront,
        arrivals_append, List.foldl_append]
    · -- The offer is the first one of the second step, or one of the first step.
      rcases rest with _ | ⟨other, rest⟩
      · have hnext := hlast.timely [] offer back hlater.symm height hheight
        rw [hnext, hfirst.cores height hheight, hfront, List.append_nil]
        rfl
      · obtain ⟨rfl, rfl⟩ := List.cons.inj hlater
        exact hfirst.timely front offer rest hfront height hheight
  grows := hfirst.grows.trans hlast.grows
  lasting offer hoffer graph hmakes := by
    rcases List.mem_append.mp hoffer with hmem | hmem
    · exact (hfirst.lasting offer hmem graph hmakes).trans hlast.grows
    · exact hlast.lasting offer hmem graph hmakes

/-- What arrives at the lower levels finds levels with the words of those before the step. -/
theorem words_of_mem_arrivals (h : Above base before offers after) (hheight : height ≤ base)
    {arrival : Offer} (harrival : arrival ∈ arrivals height offers) :
    arrival.levels.map Frame.role = before.words.rtake height := by
  obtain ⟨offer, hoffer, hreaching⟩ := List.mem_filterMap.mp harrival
  obtain ⟨signal, _, rfl⟩ := Option.map_eq_some_iff.mp hreaching
  rw [map_rtake]
  exact h.levels hoffer hheight

/-- What arrives at the lower levels finds them as what has arrived before has left them. -/
theorem timely_arrivals (h : Above base before offers after) (hheight : height ≤ base) :
    Timely (before.cores.rtake height) (arrivals height offers) := by
  intro front arrival back harrivals
  -- Between the offers that have arrived before and this one there may be some that were lost on
  -- the way.
  obtain ⟨early, late, rfl, rfl, hlate⟩ := List.filterMap_eq_append_iff.mp harrivals
  obtain ⟨lost, offer, later, rfl, hlost, hreaching, _⟩ := List.filterMap_eq_cons_iff.mp hlate
  have hnone : arrivals height lost = [] := List.filterMap_eq_nil_iff.mpr hlost
  have htimely := h.timely (early ++ lost) offer later (by rw [List.append_assoc]) height hheight
  rw [arrivals_append, hnone, List.append_nil] at htimely
  rw [(Offer.exists_of_reaching? hreaching).2.2.1, map_rtake]
  exact htimely

end Above

/-- A step above all levels, which stay open. -/
structure Keeps (before : Scope) (offers : List Offer) (after : Scope) : Prop where
  above : Above before.frames.length before offers after
  words : after.words = before.words

theorem Keeps.length (h : Keeps before offers after) :
    after.frames.length = before.frames.length := by
  rw [← length_words, h.words, length_words]

theorem Keeps.trans {first last : List Offer} (hfirst : Keeps before first middle)
    (hlast : Keeps middle last after) : Keeps before (first ++ last) after :=
  ⟨hfirst.above.trans (hfirst.length ▸ hlast.above), hlast.words.trans hfirst.words⟩

/-- The innermost level and those below it, after a step above all levels. -/
theorem Keeps.cons {top : Frame} {below : List Frame} (h : Keeps before offers after)
    (hframes : before.frames = top :: below) :
    ∃ top' below', after.frames = top' :: below' ∧ top'.role = top.role ∧
      top'.core :: below'.map Frame.core =
        (arrivals (below.length + 1) offers).foldl Offer.deliver
          (top.core :: below.map Frame.core) ∧
      below'.map Frame.core = (arrivals below.length offers).foldl Offer.deliver
        (below.map Frame.core) := by
  have hwords := h.words
  have hall := h.above.cores before.frames.length (Nat.le_refl _)
  have hbelow := h.above.cores below.length (by simp [hframes])
  rcases hafter : after.frames with _ | ⟨top', below'⟩
  · simp [Scope.words, hafter, hframes] at hwords
  · simp only [Scope.words, hafter, hframes, List.map_cons, List.cons.injEq] at hwords
    have hlength : below'.length = below.length := by simpa using congrArg List.length hwords.2
    refine ⟨top', below', rfl, hwords.1, ?_, ?_⟩
    · simp only [cores, hafter, hframes, List.map_cons, List.length_cons] at hall
      rwa [rtake_eq_self (by simp [hlength]), rtake_eq_self (by simp)] at hall
    · simp only [cores, hafter, hframes, List.map_cons] at hbelow
      rwa [← List.singleton_append, rtake_append _ (by simp [hlength]), ← List.singleton_append,
        rtake_append _ (by simp)] at hbelow

/-! ### Learning and sending -/

theorem keeps_of_learns (h : before.Learns after) : Keeps before [] after where
  above :=
    { fits := Nat.le_refl _
      cores := fun _ _ => by rw [h.cores]; rfl
      timely := fun _ _ _ hoffers => by simp at hoffers
      grows := h.grows
      lasting := fun _ hoffer => by simp at hoffer }
  words := by rw [← map_role_cores, ← map_role_cores, h.cores]

/-- What a signal does to the lower levels, it does by arriving there. -/
theorem rtake_deliver (graph : Graph) (signal : Signal) (frames : List Frame) {height : Nat}
    (h : height ≤ frames.length) :
    ((Scope.deliver graph signal frames).map Frame.core).rtake height =
      (arrivals height [⟨graph, frames, signal⟩]).foldl Offer.deliver
        ((frames.map Frame.core).rtake height) := by
  have hlength : (frames.rtake height).length = height := by rw [length_rtake]; omega
  -- The signal either stops above the lower levels, and then nothing arrives, or is delivered to
  -- them.
  have hsplit := deliver_append graph signal (frames.rdrop height) (frames.rtake height)
  rw [rdrop_append_rtake] at hsplit
  rw [hsplit, ← map_rtake, ← map_rtake]
  simp only [arrivals, Offer.reaching?, List.filterMap_cons, List.filterMap_nil]
  cases passAll? graph (frames.rdrop height) signal with
  | none =>
    simp only [Option.map_none, List.foldl_nil]
    rw [rtake_append _ hlength]
  | some passed =>
    simp only [Option.map_some, List.foldl_cons, List.foldl_nil, Offer.deliver, ← map_core_deliver]
    rw [rtake_append _ (by rw [length_deliver, hlength])]

/-- Sending a signal is a step above all levels that it is offered to. -/
theorem keeps_deliver {signal : Signal}
    (hcores : after.cores = (Scope.deliver graph signal before.frames).map Frame.core)
    (hgrows : before.graph.Grows after.graph) (hlasting : ∀ id frames made, signal = .value id →
      receiveAmong id graph before.frames = .ok (frames, made) → made.Grows after.graph) :
    Keeps before [⟨graph, before.frames, signal⟩] after where
  above :=
    { fits := Nat.le_refl _
      cores := fun height hheight => by
        rw [hcores]; exact rtake_deliver graph signal before.frames hheight
      timely := fun front offer back hoffers height _ => by
        obtain ⟨rfl, rfl, rfl⟩ : front = [] ∧ offer = ⟨graph, before.frames, signal⟩ ∧
            back = [] := by
          rcases front with _ | ⟨other, front⟩ <;> simp_all
        rfl
      grows := hgrows
      lasting := fun offer hoffer made hmakes => by
        rw [List.mem_singleton.mp hoffer] at hmakes
        obtain ⟨id, frames, hsignal, hreceive⟩ := hmakes
        exact hlasting id frames made hsignal hreceive }
  words := by
    rw [← map_role_cores, hcores, List.map_map]
    simpa [Function.comp_def, Scope.words] using
      map_deliver Frame.role_absorb graph signal before.frames

/-- An operator restarts the multiple assignment that waits for it, if all its targets
    have a value. -/
theorem keeps_operator {queries : Nat} {targets : List BindingId} {received : Nat}
    (hpending : scope.pendingAssignment? queries = some (targets, received))
    (hfull : received = targets.length) :
    Keeps scope [⟨scope.graph, scope.frames, .operator queries⟩]
      ((scope.restartAssignment? queries).getD scope) := by
  refine keeps_deliver ?_ ?_ fun _ _ _ hsignal => by cases hsignal
  · rw [deliver_operator, hpending]
    simp [restartAssignment?, hpending, hfull, cores]
  · simp only [restartAssignment?, hpending]
    exact .refl

/-- An operator that no multiple assignment waits for, or that comes too early, changes nothing. -/
theorem keeps_operator_idle {queries : Nat}
    (hidle : ∀ targets received, scope.pendingAssignment? queries = some (targets, received) →
      received ≠ targets.length) :
    Keeps scope [⟨scope.graph, scope.frames, .operator queries⟩] scope := by
  refine keeps_deliver ?_ .refl fun _ _ _ hsignal => by cases hsignal
  rw [deliver_operator]
  cases hpending : scope.pendingAssignment? queries with
  | none => rfl
  | some pending => simp [hidle pending.1 pending.2 hpending, cores]

/-! ### Reporting what was gathered -/

/-- The offers that are made when bindings are sent outward one after the other. -/
def receiveOffers : List BindingId → Scope → List Offer
  | [], _ => []
  | id :: rest, scope =>
    ⟨scope.graph, scope.frames, .value id⟩ ::
      match scope.receive id with
      | .ok scope => receiveOffers rest scope
      | .error _ => []

/-- The offers that are made when the innermost level closes. -/
def popOffers (scope : Scope) : List Offer :=
  match scope.frames with
  | [] => []
  | frame :: rest =>
    match frame.finish scope.graph with
    | .ok reported => receiveOffers reported { scope with frames := rest }
    | .error _ => []

/-- The offers that are made when a number of levels close. -/
def popAllOffers : Nat → Scope → List Offer
  | 0, _ => []
  | levels + 1, scope =>
    scope.popOffers ++
      match scope.pop with
      | (.ok (), scope) => popAllOffers levels scope
      | (.error _, _) => []

/-- Sending a binding is a step above all levels, and if it fails, a target is missing. -/
theorem keeps_receive (scope : Scope) (id : BindingId) :
    (∃ after, scope.receive id = .ok after ∧
      Keeps scope [⟨scope.graph, scope.frames, .value id⟩] after) ∨
    (∃ fault, scope.receive id = .error (.mispaired fault) ∧
      Keeps scope [⟨scope.graph, scope.frames, .value id⟩] scope) := by
  rcases receiveAmong_cases id scope.graph scope.frames with ⟨graph, h⟩ | ⟨hsame, fault, h⟩
  · refine .inl ⟨_, by rw [receive, h]; rfl, keeps_deliver rfl (grows_of_receiveAmong h) ?_⟩
    rintro _ frames made ⟨⟩ hreceive
    cases h.symm.trans hreceive
    exact .refl
  · refine .inr ⟨fault, by rw [receive, h]; rfl, keeps_deliver (by rw [hsame]; rfl) .refl ?_⟩
    rintro _ frames made ⟨⟩ hreceive
    cases h.symm.trans hreceive

theorem keeps_receiveAll (ids : List BindingId) (scope : Scope) :
    Keeps scope (receiveOffers ids scope) (receiveAll ids scope).2 := by
  induction ids generalizing scope with
  | nil => exact keeps_of_learns .refl
  | cons id rest ih =>
    rcases keeps_receive scope id with ⟨after, h, hkeeps⟩ | ⟨fault, h, hkeeps⟩
    · simp only [receiveAll, receiveOffers, h]
      exact hkeeps.trans (ih after)
    · simp only [receiveAll, receiveOffers, h]
      exact hkeeps

/-- Bindings that cannot be sent lack a target. -/
theorem receiveAll_error {ids : List BindingId} (h : (receiveAll ids scope).1 = .error error) :
    ∃ fault, error = .mispaired fault := by
  induction ids generalizing scope with
  | nil => simp [receiveAll] at h
  | cons id rest ih =>
    rcases keeps_receive scope id with ⟨after, hreceive, _⟩ | ⟨fault, hreceive, _⟩
    · simp only [receiveAll, hreceive] at h
      exact ih h
    · simp only [receiveAll, hreceive] at h
      exact ⟨fault, (Except.error.inj h).symm⟩

/-- A binding that cannot be taken is reported when bindings are sent. -/
theorem receiveAll_of_fault {ids : List BindingId} (hoffer : offer ∈ receiveOffers ids scope)
    (h : offer.fault? = some fault) : (receiveAll ids scope).1 = .error (.mispaired fault) := by
  induction ids generalizing scope with
  | nil => simp [receiveOffers] at hoffer
  | cons id rest ih =>
    rcases List.mem_cons.mp hoffer with rfl | hlater
    · have hreceive : scope.receive id = .error (.mispaired fault) := by
        rw [receive, receiveAmong_of_fault h]
        rfl
      simp only [receiveAll, hreceive]
    · -- There are later offers only if the first binding could be sent.
      rcases keeps_receive scope id with ⟨after, hreceive, _⟩ | ⟨other, hreceive, _⟩
      · simp only [hreceive] at hlater
        simp only [receiveAll, hreceive]
        exact ih hlater
      · simp [hreceive] at hlater

/-! ### Opening and leaving levels -/

theorem above_push (scope : Scope) (frame : Frame) :
    Above scope.frames.length scope [] (scope.push frame) where
  fits := Nat.le_refl _
  cores height hheight := by
    exact rtake_append_of_le [frame.core] scope.cores (by rwa [length_cores])
  timely _ _ _ hoffers := by simp at hoffers
  grows := .refl
  lasting _ hoffer := by simp at hoffer

/-- Leaving levels touches none of those that stay. -/
theorem above_of_rtake {left : Nat} (hfits : left ≤ before.frames.length)
    (hframes : after.frames = before.frames.rtake left) (hgrows : before.graph.Grows after.graph) :
    Above left before [] after where
  fits := hfits
  cores height hheight := by
    rw [cores, hframes, map_rtake, rtake_rtake _ hheight]
    rfl
  timely _ _ _ hoffers := by simp at hoffers
  grows := hgrows
  lasting _ hoffer := by simp at hoffer

/-- Leaving the innermost level. -/
theorem above_leave (hbefore : before.frames = frame :: rest) (hafter : after.frames = rest)
    (hgrows : before.graph.Grows after.graph) : Above rest.length before [] after := by
  refine above_of_rtake (by simp [hbefore]) ?_ hgrows
  rw [hbefore, hafter]
  exact (rtake_append [frame] rfl).symm

/-- Closing the innermost level is a step above the others, which stay open. -/
theorem above_pop (h : scope.frames = frame :: rest) :
    Above rest.length scope scope.popOffers scope.pop.2 ∧
    scope.pop.2.words = rest.map Frame.role := by
  have hleave : Above rest.length scope [] { scope with frames := rest } := above_leave h rfl .refl
  simp only [pop, popOffers, h]
  cases frame.finish scope.graph with
  | error error => exact ⟨hleave, rfl⟩
  | ok reported =>
    have hkeeps := keeps_receiveAll reported { scope with frames := rest }
    exact ⟨hleave.trans hkeeps.above, hkeeps.words⟩

/-- A level that cannot close lacks values, or what it reports lacks targets. -/
theorem pop_error (h : scope.frames = frame :: rest) (hpop : scope.pop.1 = .error error) :
    ∃ fault, error = .mispaired fault := by
  simp only [pop, h] at hpop
  cases hfinish : frame.finish scope.graph with
  | error cause =>
    rw [hfinish] at hpop
    rw [← Except.error.inj hpop]
    exact Frame.finish_error hfinish
  | ok reported =>
    rw [hfinish] at hpop
    exact receiveAll_error hpop

/-- A binding that cannot be taken is reported when the level that gathered it closes. -/
theorem pop_of_fault (hoffer : offer ∈ scope.popOffers) (h : offer.fault? = some fault) :
    scope.pop.1 = .error (.mispaired fault) := by
  simp only [popOffers] at hoffer
  split at hoffer
  · simp at hoffer
  · next hframes =>
    split at hoffer
    · next hfinish =>
      simp only [pop, hframes, hfinish]
      exact receiveAll_of_fault hoffer h
    · simp at hoffer

/-! ### Ending an element -/

/-- What an element of a select list gives to the levels around the list: its only value, or else a
    new binding into which all its values flow. -/
def contribution (graph : Graph) (position : Nat) : List BindingId → BindingId × Graph
  | [single] => (single, graph)
  | values =>
    (graph.nextId, values.foldl (fun after value => after.addOutput value graph.nextId)
      (graph.push ((Binding.ofName s!"[{position}]" .aliased).withPosition position)))

/-- What an element gives is there already, or it is a new alias. -/
theorem plain_contribution (graph : Graph) (position : Nat) (pending : List BindingId) :
    graph.GrowsPlain (contribution graph position pending).2 := by
  unfold contribution
  split
  · exact .refl
  · exact (Graph.GrowsBy.refl.push _ (show Binding.Kind.aliased ∈ _ by decide)).trans
      (Graph.growsBy_addOutputs _ _ _)

theorem grows_contribution (graph : Graph) (position : Nat) (pending : List BindingId) :
    graph.Grows (contribution graph position pending).2 :=
  (plain_contribution graph position pending).grows

/-- The offer that is made when an element of a select list ends. -/
def flushOffers (scope : Scope) (position : Nat) : List Offer :=
  match scope.frames with
  | .selectList pending :: rest =>
    let (value, graph) := contribution scope.graph position pending
    [⟨graph, rest, .value value⟩]
  | _ => []

/-- The list is open again and empty, whether or not the value of its element could be sent. -/
def reopenList (around : Scope) : Except Error Scope → Outcome
  | .ok after => (.ok (), after.push (.selectList []))
  | .error error => (.error error, around.push (.selectList []))

theorem reopenList_of_ok {value : BindingId} {graph' : Graph} {frames : List Frame}
    (h : receiveAmong value graph rest = .ok (frames, graph')) :
    reopenList { scope with graph, frames := rest }
      (receive { scope with graph, frames := rest } value) =
      (.ok (), { scope with graph := graph', frames := .selectList [] :: frames }) := by
  simp only [receive, h, Except.map, reopenList, push]

theorem reopenList_of_error {value : BindingId} (h : receiveAmong value graph rest = .error error) :
    reopenList { scope with graph, frames := rest }
      (receive { scope with graph, frames := rest } value) =
      (.error error, { scope with graph, frames := .selectList [] :: rest }) := by
  simp only [receive, h, Except.map, reopenList, push]

theorem reopenList_keeps {motive : Scope → Prop} {around : Scope} {sent : Except Error Scope}
    (hopen : ∀ {scope : Scope}, motive scope → motive (scope.push (.selectList [])))
    (h : motive around) (hsent : ∀ after, sent = .ok after → motive after) :
    motive (reopenList around sent).2 := by
  cases sent with
  | error error => exact hopen h
  | ok after => exact hopen (hsent after rfl)

/-- Ending an element sends what it gives to the levels around the list and empties the list. -/
theorem flushElement_eq (position : Nat) (h : scope.frames = .selectList pending :: rest) :
    scope.flushElement position =
      let around : Scope :=
        { scope with graph := (contribution scope.graph position pending).2, frames := rest }
      reopenList around (around.receive (contribution scope.graph position pending).1) := by
  simp only [flushElement, h]
  rcases pending with _ | ⟨single, _ | ⟨second, more⟩⟩
  all_goals
    split
    · next hsent => exact (reopenList_of_ok hsent).symm
    · next hsent => exact (reopenList_of_error hsent).symm

/-- Ending an element keeps what holds around the list once the element's value is there and after
    it was sent, and what opening the list again keeps. -/
theorem flushElement_keeps {motive : Scope → Prop} (position : Nat)
    (haround : ∀ {pending : List BindingId} {rest : List Frame},
      scope.frames = .selectList pending :: rest →
      let around : Scope :=
        { scope with graph := (contribution scope.graph position pending).2, frames := rest }
      motive around ∧ ∀ after,
        around.receive (contribution scope.graph position pending).1 = .ok after → motive after)
    (hopen : ∀ {scope : Scope}, motive scope → motive (scope.push (.selectList [])))
    (h : motive scope) : motive (scope.flushElement position).2 := by
  cases hframes : scope.frames with
  | nil =>
    rw [flushElement, hframes]
    exact h
  | cons frame rest =>
    cases frame with
    | selectList pending =>
      obtain ⟨hvalue, hsent⟩ := haround hframes
      rw [flushElement_eq position hframes]
      exact reopenList_keeps hopen hvalue hsent
    | _ =>
      rw [flushElement, hframes]
      exact h

/-- Ending an element is a step above the levels around the list. -/
theorem above_flush (position : Nat) (h : scope.frames = .selectList pending :: rest) :
    Above rest.length scope (scope.flushOffers position) (scope.flushElement position).2 ∧
      (scope.flushElement position).2.words = scope.words := by
  have hleave : Above rest.length scope []
      { scope with graph := (contribution scope.graph position pending).2, frames := rest } :=
    above_leave h rfl (grows_contribution _ _ _)
  have hoffers : scope.flushOffers position =
      [⟨(contribution scope.graph position pending).2, rest,
        .value (contribution scope.graph position pending).1⟩] := by
    simp only [flushOffers, h]
  have hwords : scope.words = "select-list" :: rest.map Frame.role := by
    rw [words, h]
    rfl
  rw [flushElement_eq position h, hoffers, hwords]
  -- The list is opened again whether or not the value was taken.
  rcases keeps_receive
      { scope with graph := (contribution scope.graph position pending).2, frames := rest }
      (contribution scope.graph position pending).1 with ⟨after, hreceive, hkeeps⟩ | ⟨fault,
        hreceive, hkeeps⟩
  · simp only [hreceive, reopenList]
    have hpush : Above rest.length after [] (after.push (.selectList [])) :=
      hkeeps.length ▸ above_push after _
    exact ⟨(hleave.trans hkeeps.above).trans hpush, congrArg ("select-list" :: ·) hkeeps.words⟩
  · simp only [hreceive, reopenList]
    have hpush := above_push
      { scope with graph := (contribution scope.graph position pending).2, frames := rest }
      (.selectList [])
    exact ⟨(hleave.trans hkeeps.above).trans hpush, rfl⟩

/-- What an element gives lacks a target if it cannot be sent. -/
theorem flushElement_error {position : Nat} (h : scope.frames = .selectList pending :: rest)
    (hflush : (scope.flushElement position).1 = .error error) :
    ∃ fault, error = .mispaired fault := by
  rw [flushElement_eq position h] at hflush
  rcases keeps_receive
      { scope with graph := (contribution scope.graph position pending).2, frames := rest }
      (contribution scope.graph position pending).1 with ⟨after, hreceive, _⟩ | ⟨fault, hreceive, _⟩
  · simp [hreceive, reopenList] at hflush
  · simp only [hreceive, reopenList] at hflush
    exact ⟨fault, (Except.error.inj hflush).symm⟩

/-- What an element gives is reported if it cannot be taken. -/
theorem flushElement_of_fault {position : Nat} (hoffer : offer ∈ scope.flushOffers position)
    (h : offer.fault? = some fault) :
    (scope.flushElement position).1 = .error (.mispaired fault) := by
  simp only [flushOffers] at hoffer
  split at hoffer
  · next hframes =>
    rw [List.mem_singleton.mp hoffer] at h
    rw [flushElement_eq position hframes, reopenList_of_error (receiveAmong_of_fault h)]
  · simp at hoffer

end Scope

end Lineage
