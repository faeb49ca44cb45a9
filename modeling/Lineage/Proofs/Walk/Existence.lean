import Lineage.Proofs.Walk.Levels
import Lineage.Proofs.Walk.WellFormed

/-!
# What is offered exists

In a run from a well-formed state, every binding that is offered to some levels exists in the graph
of that moment. As with the ids in a state, the reason is that no rule makes up an id.

## Key results

- `Scope.exists_popAllOffers`, `Scope.exists_flushOffers`: what levels report when they close exists
- `Script.Earnest.genuine`: earnest scripts offer what exists
- `exists_of_visitHistory`: a visit offers what exists
-/

namespace Lineage

/-- If the offer brings a binding, this binding exists. -/
def Offer.Exists (offer : Offer) : Prop :=
  ∀ id, offer.signal = .value id → offer.graph.contains id = true

/-! ### What levels report -/

namespace Scope

variable {scope : Scope}

theorem exists_receiveOffers {ids : List BindingId} (h : scope.graph.Holds ids) :
    ∀ offer ∈ receiveOffers ids scope, offer.Exists := by
  induction ids generalizing scope with
  | nil => simp [receiveOffers]
  | cons id rest ih =>
    obtain ⟨hid, hrest⟩ := List.forall_mem_cons.mp h
    refine List.forall_mem_cons.mpr ⟨fun other hother => ?_, ?_⟩
    · cases hother
      exact hid
    · rcases keeps_receive scope id with ⟨after, hsent, hkeeps⟩ | ⟨fault, hsent, _⟩
      · simp only [hsent]
        exact ih (Graph.Holds.grow hrest hkeeps.above.grows)
      · simp [hsent]

theorem exists_popOffers (h : scope.WellFormed) : ∀ offer ∈ scope.popOffers, offer.Exists := by
  unfold popOffers
  split
  · simp
  · next frame rest hframes =>
    split
    · next reported hfinish =>
      have hframe := h.frames frame (by simp [hframes])
      exact exists_receiveOffers (hframe.finish hfinish)
    · simp

theorem exists_popAllOffers (h : scope.WellFormed) (levels : Nat) :
    ∀ offer ∈ popAllOffers levels scope, offer.Exists := by
  induction levels generalizing scope with
  | zero => simp [popAllOffers]
  | succ levels ih =>
    have hpop := h.pop
    refine List.forall_mem_append.mpr ⟨exists_popOffers h, ?_⟩
    rcases hrun : scope.pop with ⟨error | ⟨⟩, after⟩ <;> rw [hrun] at hpop
    · simp
    · exact ih hpop

theorem exists_flushOffers (h : scope.WellFormed) (position : Nat) :
    ∀ offer ∈ scope.flushOffers position, offer.Exists := by
  unfold flushOffers
  split
  · next pending rest hframes =>
    have hpending := (h.frames (.selectList pending) (by simp [hframes])).ids
    intro offer hoffer id hid
    rw [List.mem_singleton.mp hoffer] at hid ⊢
    obtain rfl : (contribution scope.graph position pending).1 = id := Signal.value.inj hid
    -- It is the only value of the element, or a binding that was added for it.
    unfold contribution
    split
    · exact hpending _ (by simp [Frame.ids])
    · exact (Graph.grows_addOutputs _ _ _).contains (Graph.contains_push_nextId _ _)
  · simp

end Scope

namespace Walk

variable {tree : Tree} {dialect : Dialect} {levels : Nat} {α β : Type}

/-- All offers among the events bring what exists. -/
def OffersExist (events : List (Event tree)) : Prop :=
  ∀ offer ∈ offersOf events, offer.Exists

theorem offersExist_nil : OffersExist ([] : List (Event tree)) := by
  simp [OffersExist, offersOf]

theorem offersExist_offered {offers : List Offer} (h : ∀ offer ∈ offers, offer.Exists) :
    OffersExist (offers.map .offered : List (Event tree)) := by
  rw [OffersExist, offersOf_offered]
  exact h

theorem OffersExist.append {first last : List (Event tree)} (hfirst : OffersExist first)
    (hlast : OffersExist last) : OffersExist (first ++ last) := by
  rw [OffersExist, offersOf_append]
  exact List.forall_mem_append.mpr ⟨hfirst, hlast⟩

theorem offersExist_eventsAfter {outcome : Except Error α × Session}
    {next : α → Session → List (Event tree)}
    (h : ∀ value after, outcome = (.ok value, after) → OffersExist (next value after)) :
    OffersExist (eventsAfter outcome next) := by
  rcases outcome with ⟨error | value, after⟩
  · exact offersExist_nil
  · exact h value after rfl

theorem offersExist_eventsOfAll {walk : Node tree → Walk Unit}
    {inner : Node tree → Session → List (Event tree)}
    (hwalk : ∀ node session, session.WellFormed → (walk node session).2.WellFormed)
    (hinner : ∀ node session, session.WellFormed → OffersExist (inner node session))
    (nodes : List (Node tree)) {session : Session} (h : session.WellFormed) :
    OffersExist (eventsOfAll walk inner nodes session) := by
  induction nodes generalizing session with
  | nil => exact offersExist_nil
  | cons node rest ih =>
    have hafter := hwalk node session h
    refine (hinner node session h).append (offersExist_eventsAfter fun _ after hrun => ih ?_)
    rwa [hrun] at hafter

theorem offersExist_eventsWithin {frame : Frame} {walk : Walk Unit}
    {inner : Session → List (Event tree)} {session : Session}
    (hinner : OffersExist (inner { session with scope := session.scope.push frame }))
    (hwalk : (walk { session with scope := session.scope.push frame }).2.WellFormed) :
    OffersExist (eventsWithin frame walk inner session) := by
  refine hinner.append (offersExist_eventsAfter fun _ after hrun => offersExist_offered ?_)
  rw [hrun] at hwalk
  exact Scope.exists_popAllOffers hwalk.scope _

/-! ### Genuine scripts -/

namespace Script

variable (dialect levels) in
/-- Where some ids are known to exist, the script is sound and offers what exists. -/
structure Genuine (known : List BindingId) (script : Script tree α) (given : α → List BindingId) :
    Prop where
  sound : script.Sound dialect levels known given
  offers : ∀ session : Session, session.WellFormed → session.Knows known →
    OffersExist (script.history (visit dialect levels) (visitHistory dialect levels) session)

variable {known : List BindingId} {given : α → List BindingId}

namespace Genuine

theorem bind {first : Script tree α} {next : α → Script tree β} {later : β → List BindingId}
    (hfirst : first.Genuine dialect levels known given)
    (hnext : ∀ value, (next value).Genuine dialect levels (given value ++ known) later) :
    (first >>= next).Genuine dialect levels known later where
  sound := .bind hfirst.sound fun value => (hnext value).sound
  offers session hwell hknown := by
    refine (hfirst.offers session hwell hknown).append
      (offersExist_eventsAfter fun value after hrun => ?_)
    have hafter := hfirst.sound.final hwell hknown
    rw [hrun] at hafter
    exact (hnext value).offers after hafter
      (hfirst.sound.keeping.gives session hwell hknown value after hrun)

theorem quiet {walk : Walk α} {hquiet : Quiet walk} (h : walk.Sound known given) :
    (Script.quiet walk hquiet : Script tree α).Genuine dialect levels known given :=
  ⟨.quiet h, fun _ _ _ => offersExist_nil⟩

theorem send {id : BindingId} (hid : id ∈ known) :
    (Script.send id : Script tree Unit).Genuine dialect levels known fun _ => [] :=
  ⟨.send hid, fun _ _ hknown =>
    offersExist_offered (Scope.exists_receiveOffers (Graph.holds_singleton (hknown id hid)))⟩

theorem flush (position : Nat) :
    (Script.flush position : Script tree Unit).Genuine dialect levels known fun _ => [] :=
  ⟨.flush position, fun _ hwell _ =>
    offersExist_offered (Scope.exists_flushOffers hwell.scope position)⟩

theorem closeArm :
    (Script.closeArm : Script tree Unit).Genuine dialect levels known fun _ => [] := by
  refine ⟨.closeArm, fun session hwell _ => ?_⟩
  simp only [history]
  split
  · exact offersExist_offered (Scope.exists_popOffers hwell.scope)
  · exact offersExist_nil

/-- An operator brings no binding. -/
theorem nextArm (queries : Nat) :
    (Script.nextArm queries : Script tree Unit).Genuine dialect levels known fun _ => [] := by
  refine ⟨.nextArm queries, fun session _ _ offer hoffer id hid => ?_⟩
  rw [List.mem_singleton.mp hoffer] at hid
  cases hid

theorem within {frame : Frame} {body : Script tree Unit} (hids : frame.ids ⊆ known)
    (hcatalogs : ∀ catalog ∈ frame.catalogs, catalog = .empty)
    (hbody : body.Genuine dialect levels known fun _ => []) :
    (Script.within frame body).Genuine dialect levels known fun _ => [] := by
  refine ⟨.within hids hcatalogs hbody.sound, fun session hwell hknown => ?_⟩
  have hframe : frame.WellFormed session.scope.graph :=
    Frame.wellFormed_of_ids (Graph.Holds.subset hknown hids) hcatalogs
  have hinside : { session with scope := session.scope.push frame }.WellFormed :=
    hwell.withScope (hwell.scope.push hframe) .refl
  exact offersExist_eventsWithin (hbody.offers _ hinside hknown) (hbody.sound.final hinside hknown)

end Genuine

section

variable (hbelow : ∀ (node : Node tree) (session : Session), session.WellFormed →
  OffersExist (visitHistory dialect levels node session))

include hbelow

theorem genuine_visits (nodes : List (Node tree)) :
    (Script.visits nodes).Genuine dialect levels known fun _ => [] :=
  ⟨sound_visits (fun node _ hwell => wellFormed_visitMoments dialect levels node hwell) nodes,
    fun _ hwell _ =>
    offersExist_eventsOfAll (fun node _ hwell => wellFormed_visit dialect levels node hwell)
      hbelow nodes hwell⟩

/-- The level of a query starts without names and sources. -/
theorem genuine_query (parts : List (Node tree)) :
    (Script.query parts).Genuine dialect levels known fun _ => [] := by
  have hwithin : (Script.within .query (.visits parts)).Genuine dialect levels known fun _ => [] :=
    .within (by simp [Frame.query, Frame.ids, QueryScope.empty])
      (by simp [Frame.query, Frame.catalogs, QueryScope.empty]) (genuine_visits hbelow parts)
  exact ⟨upholds_query hwithin.sound, hwithin.offers⟩

/-- Earnest scripts offer what exists. -/
theorem Earnest.genuine {script : Script tree α} (h : script.Earnest known given) :
    script.Genuine dialect levels known given := by
  induction h with
  | quiet hwalk => exact .quiet hwalk
  | send hid => exact .send hid
  | flush position => exact .flush position
  | closeArm => exact .closeArm
  | nextArm queries => exact .nextArm queries
  | visits nodes => exact genuine_visits hbelow nodes
  | query parts => exact genuine_query hbelow parts
  | within hids hcatalogs _ ih => exact .within hids hcatalogs ih
  | bind _ _ ihfirst ihnext => exact .bind ihfirst ihnext

end

end Script

/-- A visit that starts in a well-formed state offers only what exists. -/
theorem exists_of_visitHistory (dialect : Dialect) (levels : Nat) (node : Node tree)
    {session : Session} (h : session.WellFormed) :
    OffersExist (visitHistory dialect levels node session) := by
  induction levels generalizing node session with
  | zero => exact offersExist_nil
  | succ levels ih =>
    cases node with
    | absent => exact offersExist_nil
    | present index =>
      have hnode : (nodeScript dialect (.present index)).Genuine dialect levels [] fun _ => [] :=
        (Script.earnest_nodeScript (.present index)).genuine fun node _ hwell => ih node hwell
      -- The visit itself is an event, but no offer.
      exact hnode.offers { session with visited := index :: session.visited } ⟨h.scope, h.hoisted⟩
        (Graph.holds_nil _)

end Walk

end Lineage
