import Lineage.Analyze
import Lineage.Proofs.Walk.Barriers

/-!
# What the sources of a query pass on

A query takes the tables that its clause of sources names. Everything else that reaches the query
from there passes it: the values of a select list further down, and operators meant for a level
around the query. A multiple assignment around the query takes them for values of the query's own
select list.

## Key results

- `arrivals_past_query`: what passes a query
- `foldl_deliver_values`: values that arrive at a multiple assignment
- `sources_pass_query`: what the clause of sources passes on to the levels around its query
- `viewSource_rejected`: a query is rejected for what a query among its sources selects
-/

namespace Lineage

/-- The offer as a query passes it on. Tables stop here, and so do operators that are meant
    for this level. -/
def Offer.pastQuery? (offer : Offer) : Option Offer :=
  match offer.signal with
  | .value id =>
    if (offer.graph.kind id).isSource then none else some { offer with levels := offer.levels.tail }
  | .operator 0 => none
  | .operator (queries + 1) =>
    some { offer with levels := offer.levels.tail, signal := .operator queries }

theorem Offer.pastQuery?_of_levels {offer : Offer} {frame : Frame} {rest : List Frame}
    (hlevels : offer.levels = frame :: rest) (hrole : frame.role = "select") :
    offer.reaching? rest.length = offer.pastQuery? := by
  rw [Offer.reaching?_of_levels hlevels, pastQuery?, hlevels, List.tail_cons]
  cases frame with
  | select query =>
    cases hsignal : offer.signal with
    | value id =>
      by_cases hsource : (offer.graph.kind id).isSource = true <;>
        simp [Frame.pass?, Frame.forwards, hsource, ← hsignal]
    | operator queries => cases queries <;> simp [Frame.pass?, Frame.isSelect]
  | _ => simp [Frame.role] at hrole

/-- Nothing passes a query if it takes a table, or is an operator for the query's level. -/
theorem Offer.pastQuery?_eq_none {offer : Offer} :
    offer.pastQuery? = none ↔ offer.Table ∨ offer.signal = .operator 0 := by
  unfold pastQuery? Offer.Table
  cases hsignal : offer.signal with
  | value id => by_cases hsource : (offer.graph.kind id).isSource = true <;> simp [hsource]
  | operator queries => cases queries <;> simp

/-- What passes a query is what reaches it, tables apart. -/
theorem Scope.Above.arrivals_past_query {before after : Scope} {offers : List Offer}
    {words : List String} (h : Above (words.length + 1) before offers after)
    (hwords : before.words.rtake (words.length + 1) = "select" :: words) :
    arrivals words.length offers =
      (arrivals (words.length + 1) offers).filterMap Offer.pastQuery? := by
  rw [← arrivals_arrivals (Nat.le_succ words.length)]
  refine List.filterMap_congr fun arrival harrival => ?_
  obtain ⟨frame, rest, hlevels, hrole, hlength⟩ := h.exists_of_mem_arrivals hwords harrival
  rw [← hlength]
  exact Offer.pastQuery?_of_levels hlevels hrole

/-- A multiple assignment counts the values that arrive, as long as it has targets for them. -/
theorem foldl_deliver_values {offers : List Offer}
    (h : ∀ offer ∈ offers, ∃ id, offer.signal = .value id) (targets : List BindingId)
    {received : Nat} (hroom : received ≤ targets.length) (below : List Frame) :
    offers.foldl Offer.deliver (.multipleAssignment targets received :: below) =
      .multipleAssignment targets (min (received + offers.length) targets.length) :: below := by
  induction offers generalizing received with
  | nil => simp [Nat.min_eq_left hroom]
  | cons offer rest ih =>
    obtain ⟨id, hsignal⟩ := h offer List.mem_cons_self
    have hrest := fun other hother => h other (List.mem_cons_of_mem offer hother)
    have hdeliver : Offer.deliver (.multipleAssignment targets received :: below) offer =
        .multipleAssignment targets
          (if received < targets.length then received + 1 else received) :: below := by
      simp [Offer.deliver, Scope.deliver, hsignal, Frame.pass?, Frame.forwards, Frame.absorb,
        Frame.taking]
    rw [List.foldl_cons, hdeliver]
    split
    · next hlt =>
      rw [ih hrest hlt, List.length_cons]
      congr 3
      omega
    · next hfull =>
      rw [ih hrest hroom, List.length_cons]
      congr 2
      omega

namespace Walk

/-- What the clause of sources of a query passes on to the levels around the query: all that reaches
    the query except for tables and operators meant for the query itself. The levels around it
    change by these arrivals alone. So they stay untouched if and only if nothing but tables and
    such operators reaches the query, and a multiple assignment around it counts one more value for
    each value that passes. -/
theorem sources_pass_query (document : Document) (grammar : Grammar) (levels : Nat)
    (block : Node (Tree.ofDocument document)) (session : Session) (query : QueryScope)
    (below : List Frame) (hframes : session.scope.frames = .select query :: below) :
    let dialect := grammar.dialect
    let clause := block.child dialect.vocabulary.queries.fromClause
    let offers := offersOf (visitHistory dialect levels clause session)
    let reaching := arrivals (below.length + 1) offers
    let passing := arrivals below.length offers
    ∃ query' below',
      (visit dialect levels clause session).2.scope.frames = .select query' :: below' ∧
      passing = reaching.filterMap Offer.pastQuery? ∧
      (passing = [] ↔ ∀ offer ∈ reaching, offer.Table ∨ offer.signal = .operator 0) ∧
      below'.map Frame.core = passing.foldl Offer.deliver (below.map Frame.core) ∧
      (∀ targets received rest, below = .multipleAssignment targets received :: rest →
        received < targets.length → (∀ offer ∈ passing, ∃ id, offer.signal = .value id) →
        ∃ received' rest', below' = .multipleAssignment targets received' :: rest' ∧
          received' = min (received + passing.length) targets.length ∧
          (received' = received ↔ passing = [])) := by
  intro dialect clause offers reaching passing
  have hrun := (disciplined_visit dialect _ levels).stays clause
    (Dialect.closesArm_child block Dialect.Regular.fromClause) session
  have hkeeps : Scope.Keeps session.scope offers (visit dialect levels clause session).2.scope :=
    ⟨hrun.above, by rw [hrun.words, rtake_eq_self (Scope.length_words _)]⟩
  obtain ⟨habove, hwords⟩ := hkeeps.above_words hframes
  obtain ⟨top, below', hafter, hrole, _, hcores⟩ := hkeeps.cons hframes
  have hpassing : passing = reaching.filterMap Offer.pastQuery? := by
    have hpast := habove.arrivals_past_query hwords
    rwa [List.length_map] at hpast
  cases top with
  | select query' =>
    refine ⟨query', below', hafter, hpassing, ?_, hcores, ?_⟩
    · rw [hpassing, List.filterMap_eq_nil_iff]
      simp only [Offer.pastQuery?_eq_none]
    · intro targets received rest hbelow hroom hvalues
      -- There is room for at least one value, so the number stays the same only if none passes.
      subst hbelow
      rw [List.map_cons] at hcores
      have hfold := foldl_deliver_values hvalues targets (Nat.le_of_lt hroom) (rest.map Frame.core)
      obtain ⟨rest', hbelow', _⟩ :=
        Frame.exists_cons_of_core (hcores.trans hfold) (by simp [Frame.role]) (by simp [Frame.role])
      refine ⟨_, rest', hbelow', rfl, ?_⟩
      rw [← List.length_eq_zero_iff]
      omega
  | _ => simp [Frame.role] at hrole

/-- A query block without targets of its own, whose only source is a query that
    selects one value. -/
def viewSource : Document :=
  .inner "query_block"
    [.inner "selected_list" [.inner "select_list_elements" []],
     .inner "from_clause"
       [.inner "query_block" [.inner "selected_list" [.inner "select_list_elements" []]]]]

/-- A multiple assignment around `viewSource` counts the value of the query among its sources. -/
theorem sources_pass_query_viewSource :
    let tree := Tree.ofDocument viewSource
    let session := ((Operation.push (.select .empty)).run (expecting [⟨1⟩])).2
    Reachable (.oneTable "t" ["a", "b"]) session ∧
    ∃ query' rest',
      (visit Dialect.plsql tree.size (tree.root.child "from_clause") session).2.scope.frames =
        .select query' :: .multipleAssignment [⟨1⟩] 1 :: rest' := by
  intro tree session
  refine ⟨(reachable_expecting (by decide +kernel)).query, ?_⟩
  obtain ⟨query', below', hframes, _, _, _, hcount⟩ :=
    sources_pass_query viewSource .plsql tree.size tree.root session .empty _ rfl
  have hpassing :
      (arrivals 1 (offersOf (visitHistory Dialect.plsql tree.size (tree.root.child "from_clause")
      session))).map Offer.signal = [.value ⟨3⟩] := by decide +kernel
  obtain ⟨received', rest', hbelow, hreceived, _⟩ :=
    hcount [⟨1⟩] 0 [] rfl (by decide) fun offer hoffer => by
      have hmem := List.mem_map_of_mem (f := Offer.signal) hoffer
      exact ⟨⟨3⟩, List.mem_singleton.mp (hpassing ▸ hmem)⟩
  have hlength := congrArg List.length hpassing
  rw [List.length_map] at hlength
  have hone : received' = 1 := hreceived.trans (congrArg (fun count => min (0 + count) 1) hlength)
  exact ⟨query', rest', hframes.trans (by rw [hbelow, hone])⟩

/-- An insert of what `viewSource` selects into one column. -/
def insertedView : Document :=
  .inner "single_table_insert"
    [.inner "insert_into_clause"
      [.inner "tableview_name" [.segment "t"], .inner "column_name" [.segment "a"]],
     .inner "select_statement" [viewSource]]

/-- So the insert is rejected, though there is one column for the one element of the query. -/
theorem viewSource_rejected :
    (visitTree Dialect.plsql (Tree.ofDocument insertedView) (.ofSchema (.oneTable "t" ["a"]))).1 =
      .error (.pairing (.surplus 1) ⟨"selected_list", none, none⟩) := by
  decide +kernel

end Walk

end Lineage
