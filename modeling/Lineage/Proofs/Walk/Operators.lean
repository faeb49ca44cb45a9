import Lineage.Proofs.Walk.Discipline
import Lineage.Proofs.Walk.Steps

/-!
# The operators in a history

Operators are sent outward by the nodes that stand for them and by nothing else, so the operators
that are offered in a run can be read off the nodes that it visits. Where an operator arrives
depends on the levels that its node finds.

## Key results

- `Script.silent_ofRule`: no other rule sends operators
- `told_visit`: the operators that are offered are those of the visited nodes, in order
- `operatorOffer_arrives_iff`: which operators arrive at a level
-/

namespace Lineage

/-- The offer is that of an operator. -/
def Offer.isOperator (offer : Offer) : Bool :=
  match offer.signal with
  | .operator _ => true
  | .value _ => false

namespace Scope

/-! ### Bindings are no operators -/

theorem operators_receiveOffers (ids : List BindingId) (scope : Scope) :
    (receiveOffers ids scope).filter Offer.isOperator = [] := by
  induction ids generalizing scope with
  | nil => rfl
  | cons id rest ih =>
    simp only [receiveOffers, List.filter_cons, Offer.isOperator, Bool.false_eq_true, if_false]
    split
    · exact ih _
    · rfl

theorem operators_popOffers (scope : Scope) : scope.popOffers.filter Offer.isOperator = [] := by
  simp only [popOffers]
  split
  · rfl
  · split
    · exact operators_receiveOffers _ _
    · rfl

theorem operators_popAllOffers (levels : Nat) (scope : Scope) :
    (popAllOffers levels scope).filter Offer.isOperator = [] := by
  induction levels generalizing scope with
  | zero => rfl
  | succ levels ih =>
    rw [popAllOffers, List.filter_append, operators_popOffers, List.nil_append]
    split
    · exact ih _
    · rfl

theorem operators_flushOffers (scope : Scope) (position : Nat) :
    (scope.flushOffers position).filter Offer.isOperator = [] := by
  simp only [flushOffers]
  split <;> rfl

end Scope

namespace Walk

variable {tree : Tree} {dialect : Dialect} {α β ι : Type}

/-! ### Rules that send no operators -/

namespace Script

/-- The script itself sends no operator. -/
def Silent : {α : Type} → Script tree α → Prop
  | _, nextArm _ => False
  | _, within _ body => body.Silent
  | _, andThen first next => first.Silent ∧ ∀ value, (next value).Silent
  | _, _ => True

theorem StepsOf.silent {node : Node tree} {rule : Rule} {script : Script tree α}
    (h : script.StepsOf dialect node rule) (hrule : rule ≠ .setOperation) : script.Silent := by
  induction script with
  | nextArm => exact hrule h
  | within frame body ih => exact ih h.2
  | andThen first next ihfirst ihnext => exact ⟨ihfirst h.1, fun value => ihnext value (h.2 value)⟩
  | _ => trivial

/-- No rule but that of operators sends them. -/
theorem silent_ofRule (node : Node tree) {rule : Rule} (h : rule ≠ .setOperation) :
    (ofRule dialect node rule).Silent :=
  (stepsOf_ofRule dialect node rule).silent h

end Script

/-! ### The operators of the visited nodes -/

/-- What an operator offers, and to which levels. -/
def operatorOffer (dialect : Dialect) (operator : Node tree) (session : Session) : Offer :=
  ⟨session.scope.graph,
    if dialect.closesArm operator then session.scope.frames.tail else session.scope.frames,
    .operator (if dialect.standsBetweenArms operator then 0 else 1)⟩

/-- The offer of a visited operator. -/
def Event.operator? (dialect : Dialect) : Event tree → Option Offer
  | .visited node before _ =>
    if dialect.binds node .setOperation then some (operatorOffer dialect node before) else none
  | .offered _ => none

/-- The operators that are offered among the events are those of the visited nodes, in order, if
    each finds the level that it ends. -/
def Told (dialect : Dialect) (events : List (Event tree)) : Prop :=
  (∀ event ∈ events, event.Fit dialect) →
    (offersOf events).filter Offer.isOperator = events.filterMap (Event.operator? dialect)

namespace Told

variable {first last : List (Event tree)}

theorem append (hfirst : Told dialect first) (hlast : Told dialect last) :
    Told dialect (first ++ last) := by
  intro hfit
  obtain ⟨hfront, hback⟩ := List.forall_mem_append.mp hfit
  rw [offersOf_append, List.filter_append, List.filterMap_append, hfirst hfront, hlast hback]

theorem nil : Told dialect ([] : List (Event tree)) := fun _ => rfl

/-- Offers that are no operators. -/
theorem offered {offers : List Offer} (h : offers.filter Offer.isOperator = []) :
    Told dialect (offers.map .offered : List (Event tree)) := by
  intro _
  rw [offersOf_offered, h, List.filterMap_map]
  exact (List.filterMap_eq_nil_iff.mpr fun _ _ => rfl).symm

theorem eventsAfter {outcome : Except Error α × Session} {next : α → Session → List (Event tree)}
    (h : ∀ value session, outcome = (.ok value, session) → Told dialect (next value session)) :
    Told dialect (eventsAfter outcome next) := by
  rcases outcome with ⟨error | value, session⟩
  · exact nil
  · exact h value session rfl

theorem eventsWithin {frame : Frame} {walk : Walk Unit} {inner : Session → List (Event tree)}
    (h : ∀ session, Told dialect (inner session)) (session : Session) :
    Told dialect (eventsWithin frame walk inner session) :=
  (h _).append (eventsAfter fun _ _ _ => offered (Scope.operators_popAllOffers _ _))

theorem eventsOfAll {walk : Node tree → Walk Unit} {inner : Node tree → Session → List (Event tree)}
    (h : ∀ node session, Told dialect (inner node session)) (nodes : List (Node tree))
    (session : Session) : Told dialect (eventsOfAll walk inner nodes session) := by
  induction nodes generalizing session with
  | nil => exact nil
  | cons node rest ih => exact (h node session).append (eventsAfter fun _ after _ => ih after)

/-- A script that sends no operators itself. -/
theorem history {walk : Node tree → Walk Unit} {inner : Node tree → Session → List (Event tree)}
    (h : ∀ node session, Told dialect (inner node session)) {script : Script tree α}
    (hsilent : script.Silent) (session : Session) :
    Told dialect (script.history walk inner session) := by
  induction script generalizing session with
  | quiet walk _ => exact nil
  | send id => exact offered (Scope.operators_receiveOffers _ _)
  | flush position => exact offered (Scope.operators_flushOffers _ _)
  | closeArm =>
    simp only [Script.history]
    split
    · exact offered (Scope.operators_popOffers _)
    · exact nil
  | nextArm queries => exact hsilent.elim
  | visits nodes => exact eventsOfAll h nodes session
  | query parts => exact eventsWithin (eventsOfAll h parts) session
  | within frame body ih => exact eventsWithin (ih hsilent) session
  | andThen first next ihfirst ihnext =>
    exact (ihfirst hsilent.1 session).append (eventsAfter fun value after _ =>
      ihnext value (hsilent.2 value) after)

end Told

/-- The history of an operator's steps begins with its offer. -/
theorem exists_history_of_operator (walk : Node tree → Walk Unit)
    (inner : Node tree → Session → List (Event tree)) {node : Node tree}
    (hoperator : dialect.binds node .setOperation = true) (session : Session)
    (hfit : dialect.closesArm node = true →
      ∃ query rest, session.scope.frames = .select query :: rest) :
    ∃ outcome : Except Error Unit × Session, (nodeScript dialect node).history walk inner session =
      .offered (operatorOffer dialect node session) ::
        eventsAfter outcome fun _ last => eventsOfAll walk inner node.children last := by
  cases hcloses : dialect.closesArm node with
  | true =>
    -- The level of the first arm reports nothing when it ends, and the offer is made to those
    -- around it.
    obtain ⟨query, rest, hframes⟩ := hfit hcloses
    have hbetween := Dialect.standsBetweenArms_of_closesArm hcloses
    have hclose : Walk.closeArm session =
        (.ok (), { session with scope := { session.scope with frames := rest } }) := by
      rw [closeArm_eq]
      simp [hframes, attempt, Scope.pop, Frame.finish, Scope.receiveAll]
    refine ⟨nextArm 0 { session with scope := { session.scope with frames := rest } }, ?_⟩
    rw [nodeScript_of_closesArm hcloses, Script.history_bind, Script.run_closeArm, hclose]
    simp [eventsAfter, Script.history_bind, Script.history, hframes, Scope.popOffers, Frame.finish,
      Scope.receiveOffers, operatorOffer, hcloses, hbetween]
  | false =>
    refine ⟨nextArm (if dialect.standsBetweenArms node then 0 else 1) session, ?_⟩
    rw [nodeScript_of_operator hoperator hcloses, Script.history_bind]
    simp [Script.history, operatorOffer, hcloses]

/-- The steps of a node that is no operator send none. -/
theorem silent_nodeScript {index : Fin tree.size}
    (h : dialect.binds (Node.present index) .setOperation = false) :
    (nodeScript dialect (.present index)).Silent := by
  unfold nodeScript
  split
  · next rule hrule =>
    refine Script.silent_ofRule _ ?_
    rintro rfl
    simp [Dialect.binds, Node.isPresent, hrule] at h
  · trivial

/-- The operators that are offered when a node is visited are those of the visited
    nodes, in order. -/
theorem told_visit (dialect : Dialect) (levels : Nat) (node : Node tree) (session : Session) :
    Told dialect (visitHistory dialect levels node session) := by
  induction levels generalizing node session with
  | zero => exact .nil
  | succ levels ih =>
    cases node with
    | absent => exact .nil
    | present index =>
      intro hfit
      obtain ⟨hself, hsteps⟩ := List.forall_mem_cons.mp hfit
      rw [visitHistory, List.filterMap_cons]
      cases hoperator : dialect.binds (Node.present index) .setOperation with
      | true =>
        -- The operator's own offer comes before those of the nodes below it.
        obtain ⟨outcome, hhistory⟩ := exists_history_of_operator (visit dialect levels)
          (visitHistory dialect levels) hoperator
          { session with visited := index :: session.visited } hself
        have hlater : Told dialect (eventsAfter outcome fun _ last =>
            eventsOfAll (visit dialect levels) (visitHistory dialect levels)
              (Node.present index).children last) :=
          .eventsAfter fun _ last _ => .eventsOfAll ih _ last
        rw [hhistory] at hsteps ⊢
        simp only [Event.operator?, hoperator, if_true, List.filterMap_cons]
        exact congrArg (operatorOffer dialect (.present index) session :: ·)
          (hlater (List.forall_mem_cons.mp hsteps).2)
      | false =>
        simp only [Event.operator?, hoperator, Bool.false_eq_true, if_false]
        exact Told.history ih (silent_nodeScript hoperator) _ hsteps

end Walk

/-! ### Where operators arrive -/

theorem Frame.isSelect_iff {frame : Frame} : frame.isSelect = true ↔ frame.role = "select" := by
  cases frame <;> simp [isSelect, role]

/-- An operator arrives at the level that it is meant for if the queries that it counts are all
    that lies above. -/
theorem Offer.operator_arrives_iff {offer : Offer} {queries : Nat}
    (h : offer.signal = .operator queries) (height : Nat) :
    (offer.reaching? height).map Offer.signal = some (.operator 0) ↔
      (offer.levels.rdrop height).map Frame.role = List.replicate queries "select" := by
  have hall : (offer.levels.rdrop height).all Frame.isSelect = true ↔
      ∀ word ∈ (offer.levels.rdrop height).map Frame.role, word = "select" := by
    simp [List.all_eq_true, Frame.isSelect_iff]
  rw [List.eq_replicate_iff, ← hall, List.length_map, reaching?, h, Scope.passAll?_operator]
  split
  · next hpass =>
    simp only [Option.map_some, Option.some.injEq, Signal.operator.injEq, hpass.2, and_true]
    omega
  · next hlost =>
    simp only [Option.map_none, reduceCtorEq, false_iff]
    rintro ⟨hlength, hselect⟩
    exact hlost ⟨Nat.le_of_eq hlength, hselect⟩

/-- The words of the levels between an operator and those around its query: the level of the first
    arm, as long as it is open, or that of the whole query. -/
def Dialect.armWords {tree : Tree} (dialect : Dialect) (operator : Node tree) : List String :=
  if dialect.closesArm operator || !dialect.standsBetweenArms operator then ["select"] else []

namespace Walk

variable {tree : Tree} {dialect : Dialect}

/-- An operator separates arms for the targets if the levels that are its own are all that
    lies between. -/
theorem operatorOffer_arrives_iff {operator : Node tree} {session : Session} {height : Nat}
    (hfits : height ≤ (operatorOffer dialect operator session).levels.length)
    (hfit : dialect.closesArm operator = true →
      ∃ query rest, session.scope.frames = .select query :: rest) :
    ((operatorOffer dialect operator session).reaching? height).map Offer.signal =
      some (.operator 0) ↔ session.scope.words.rdrop height = dialect.armWords operator := by
  rw [Offer.operator_arrives_iff rfl]
  cases hcloses : dialect.closesArm operator with
  | true =>
    obtain ⟨query, rest, hframes⟩ := hfit hcloses
    have hbetween := Dialect.standsBetweenArms_of_closesArm hcloses
    have hlevels : (operatorOffer dialect operator session).levels = rest := by
      simp [operatorOffer, hcloses, hframes]
    have hwords : session.scope.words = "select" :: rest.map Frame.role := by
      rw [Scope.words, hframes]
      rfl
    rw [hlevels] at hfits
    rw [hlevels, hwords, rdrop_cons _ (by simpa using hfits), ← map_rdrop]
    simp [Dialect.armWords, hcloses, hbetween]
  | false =>
    have hlevels : (operatorOffer dialect operator session).levels = session.scope.frames := by
      simp [operatorOffer, hcloses]
    rw [hlevels, Scope.words, map_rdrop]
    cases hbetween : dialect.standsBetweenArms operator <;>
      simp [Dialect.armWords, hcloses, hbetween]

end Walk

end Lineage
