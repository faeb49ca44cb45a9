import Lineage.Proofs.Walk.Discipline
import Lineage.Proofs.Walk.Operations

/-!
# Barriers

Some frames take everything that is offered to them. Below such a frame nothing changes, whatever is
visited above it: no target, no count of received values, no owner, no list of pending values and no
list of sources. A clause directly inside a query lets tables pass, which the query takes, so that
below the query nothing changes either.

## Key results

- `Scope.Above.arrivals_below`: nothing passes a frame that takes everything
- `Scope.Above.tables_below_clause`: what passes a clause is a table
- `visit_keeps_below`: nothing changes below a barrier
-/

namespace Lineage

/-- The words of the frames that take everything. -/
def Frame.barriers : List String :=
  ["assignment", "multiple-assignment", "wrapper", "children", "ignore-return", "select-list"]

/-- A frame that takes everything passes nothing on. -/
theorem Frame.pass?_of_barrier {frame : Frame} (h : frame.role ∈ Frame.barriers) (graph : Graph)
    (signal : Signal) : frame.pass? graph signal = none := by
  cases signal with
  | value id => cases frame <;> simp_all [Frame.role, Frame.barriers, Frame.pass?, Frame.forwards]
  | operator queries =>
    cases queries with
    | zero => rfl
    | succ queries =>
      cases frame <;> simp_all [Frame.role, Frame.barriers, Frame.pass?, Frame.isSelect]

/-- What a clause passes on is a table. -/
theorem Frame.pass?_of_clause {frame : Frame} (h : frame.role = "effect-clause") {graph : Graph}
    {signal passed : Signal} (hpass : frame.pass? graph signal = some passed) :
    ∃ id, passed = .value id ∧ (graph.kind id).isSource = true := by
  cases frame with
  | effectClause =>
    cases signal with
    | value id =>
      by_cases hsource : (graph.kind id).isSource = true
      · simp only [Frame.pass?, Frame.forwards, hsource, if_true, Option.some.injEq] at hpass
        exact ⟨id, hpass.symm, hsource⟩
      · simp [Frame.pass?, Frame.forwards, hsource] at hpass
    | operator queries => cases queries <;> simp [Frame.pass?, Frame.isSelect] at hpass
  | _ => simp [Frame.role] at h

/-- The offer brings a table. -/
def Offer.Table (offer : Offer) : Prop :=
  ∃ id, offer.signal = .value id ∧ (offer.graph.kind id).isSource = true

theorem QueryScope.prefix_addSource (query : QueryScope) (relation : BindingId) :
    query.sources <+: (query.addSource relation).sources := by
  unfold addSource
  split
  · exact List.prefix_rfl
  · exact List.prefix_append _ _

/-- A query that tables arrive at may gain sources. Nothing changes below it. -/
theorem foldl_deliver_tables {offers : List Offer} (h : ∀ offer ∈ offers, offer.Table)
    (query : QueryScope) (below : List Frame) :
    ∃ query', offers.foldl Offer.deliver (.select query :: below) = .select query' :: below ∧
      query.sources <+: query'.sources := by
  induction offers generalizing query with
  | nil => exact ⟨query, rfl, List.prefix_rfl⟩
  | cons offer rest ih =>
    obtain ⟨id, hsignal, hsource⟩ := h offer List.mem_cons_self
    have hdeliver : Offer.deliver (.select query :: below) offer =
        .select (query.addSource id) :: below := by
      simp [Offer.deliver, Scope.deliver, hsignal, Frame.pass?, Frame.forwards, hsource,
        Frame.absorb, Frame.taking]
    obtain ⟨query', hfold, hprefix⟩ := ih
      (fun other hother => h other (List.mem_cons_of_mem _ hother)) (query.addSource id)
    exact ⟨query', by rw [List.foldl_cons, hdeliver, hfold],
      (query.prefix_addSource id).trans hprefix⟩

namespace Scope.Above

variable {before after : Scope} {offers : List Offer} {words : List String}

/-- What arrives at a level with a given word, and at those below it. -/
theorem exists_of_mem_arrivals {word : String} (h : Above (words.length + 1) before offers after)
    (hwords : before.words.rtake (words.length + 1) = word :: words) {arrival : Offer}
    (harrival : arrival ∈ arrivals (words.length + 1) offers) :
    ∃ frame rest, arrival.levels = frame :: rest ∧ frame.role = word ∧
      rest.length = words.length := by
  have hlevels := h.words_of_mem_arrivals (Nat.le_refl _) harrival
  rw [hwords] at hlevels
  rcases hframes : arrival.levels with _ | ⟨frame, rest⟩
  · simp [hframes] at hlevels
  · rw [hframes, List.map_cons, List.cons.injEq] at hlevels
    refine ⟨frame, rest, rfl, hlevels.1, ?_⟩
    rw [← hlevels.2, List.length_map]

/-- Nothing passes a frame that takes everything. -/
theorem arrivals_below {word : String} (h : Above (words.length + 1) before offers after)
    (hwords : before.words.rtake (words.length + 1) = word :: words)
    (hbarrier : word ∈ Frame.barriers) : arrivals words.length offers = [] := by
  -- What arrives below has arrived at the frame before, and that passes nothing on.
  rw [← arrivals_arrivals (Nat.le_succ words.length), arrivals, List.filterMap_eq_nil_iff]
  intro arrival harrival
  obtain ⟨frame, rest, hlevels, hrole, hlength⟩ := h.exists_of_mem_arrivals hwords harrival
  rw [← hlength, Offer.reaching?_of_levels hlevels, Frame.pass?_of_barrier (hrole ▸ hbarrier)]
  rfl

/-- What passes a clause is a table. -/
theorem tables_below_clause (h : Above (words.length + 1) before offers after)
    (hwords : before.words.rtake (words.length + 1) = "effect-clause" :: words) :
    ∀ arrival ∈ arrivals words.length offers, arrival.Table := by
  intro arrival harrival
  rw [← arrivals_arrivals (Nat.le_succ words.length), arrivals, List.mem_filterMap] at harrival
  obtain ⟨upper, hupper, hreaching⟩ := harrival
  obtain ⟨frame, rest, hlevels, hrole, hlength⟩ := h.exists_of_mem_arrivals hwords hupper
  rw [← hlength, Offer.reaching?_of_levels hlevels] at hreaching
  obtain ⟨signal, hpass, rfl⟩ := Option.map_eq_some_iff.mp hreaching
  exact Frame.pass?_of_clause hrole hpass

end Scope.Above

namespace Scope.Keeps

variable {before after : Scope} {offers : List Offer} {top : Frame} {below : List Frame}

/-- The words of all levels, as a step above all levels finds them. -/
theorem above_words (h : Keeps before offers after) (hframes : before.frames = top :: below) :
    Above ((below.map Frame.role).length + 1) before offers after ∧
      before.words.rtake ((below.map Frame.role).length + 1) =
        top.role :: below.map Frame.role := by
  have hlength : before.frames.length = (below.map Frame.role).length + 1 := by simp [hframes]
  refine ⟨hlength ▸ h.above, ?_⟩
  rw [rtake_eq_self (by rw [length_words, hlength]), Scope.words, hframes]
  rfl

/-- Below a frame that takes everything nothing changes. -/
theorem below_barrier (h : Keeps before offers after) (hframes : before.frames = top :: below)
    (hbarrier : top.role ∈ Frame.barriers) :
    ∃ top' below', after.frames = top' :: below' ∧ top'.role = top.role ∧
      below'.map Frame.core = below.map Frame.core := by
  obtain ⟨habove, hwords⟩ := h.above_words hframes
  have hnone := habove.arrivals_below hwords hbarrier
  rw [List.length_map] at hnone
  obtain ⟨top', below', hafter, hrole, _, hcores⟩ := h.cons hframes
  rw [hnone] at hcores
  exact ⟨top', below', hafter, hrole, hcores⟩

/-- Inside a clause of a query nothing changes below the query, which may gain sources. -/
theorem below_clause {query : QueryScope} (h : Keeps before offers after)
    (hframes : before.frames = .effectClause :: .select query :: below) :
    ∃ query' below', after.frames = .effectClause :: .select query' :: below' ∧
      query.sources.map Source.relation <+: query'.sources.map Source.relation ∧
      below'.map Frame.core = below.map Frame.core := by
  obtain ⟨habove, hwords⟩ := h.above_words hframes
  have htables := habove.tables_below_clause hwords
  rw [List.length_map, List.length_cons] at htables
  obtain ⟨clause, rest, hafter, hrole, _, hrest⟩ := h.cons hframes
  obtain ⟨gained, hfold, hprefix⟩ := foldl_deliver_tables htables query.core (below.map Frame.core)
  have hcores : rest.map Frame.core = .select gained :: below.map Frame.core := hrest.trans hfold
  obtain ⟨query', below', rfl, hcore, hbelow⟩ := Frame.exists_select_of_core hcores
  have hrelations := hprefix.map Source.relation
  cases clause with
  | effectClause =>
    refine ⟨query', below', hafter, ?_, hbelow⟩
    simpa [← hcore, QueryScope.core, Function.comp_def] using hrelations
  | _ => simp [Frame.role] at hrole

end Scope.Keeps

namespace Walk

variable {tree : Tree} {dialect : Dialect} {levels : Nat} {node : Node tree} {session : Session}

/-- An operator that finds no query innermost fails and changes no level. -/
theorem scope_visit_misplaced (hcloses : dialect.closesArm node = true)
    (hframes : ∀ query rest, session.scope.frames ≠ .select query :: rest) :
    (visit dialect levels node session).2.scope = session.scope := by
  cases levels with
  | zero => rfl
  | succ levels =>
    cases node with
    | absent => rfl
    | present index =>
      have hclose : closeArm { session with visited := index :: session.visited } =
          (.error (.misshapen .operatorOutsideQuery),
            { session with visited := index :: session.visited }) := by
        rw [closeArm_eq]
        split
        · next query rest heq => exact absurd heq (hframes query rest)
        · rfl
      rw [visit_present, state_located, nodeScript_of_closesArm hcloses, Script.run_bind]
      show ((closeArm >>= _) _).2.scope = _
      rw [Stateful.bind_error hclose]

/-- Where the innermost level is no query, every visit leaves all levels and touches them through
    its offers alone. -/
theorem keeps_visit (dialect : Dialect) [dialect.Regular] (levels : Nat) (node : Node tree)
    (hframes : ∀ query rest, session.scope.frames ≠ .select query :: rest) :
    ∃ offers, Scope.Keeps session.scope offers (visit dialect levels node session).2.scope := by
  cases hcloses : dialect.closesArm node with
  | true =>
    -- An operator that should end a query finds none here and fails at once.
    rw [scope_visit_misplaced hcloses hframes]
    exact ⟨[], Scope.keeps_of_learns .refl⟩
  | false =>
    have hrun := (disciplined_visit dialect tree levels).stays node hcloses session
    refine ⟨_, hrun.above, ?_⟩
    rw [hrun.words, rtake_eq_self (Scope.length_words _)]

/-- In particular this holds above a frame that takes everything. -/
theorem keeps_visit_of_barrier (dialect : Dialect) [dialect.Regular] {top : Frame}
    {below : List Frame} (levels : Nat) (node : Node tree)
    (hframes : session.scope.frames = top :: below) (hbarrier : top.role ∈ Frame.barriers) :
    ∃ offers, Scope.Keeps session.scope offers (visit dialect levels node session).2.scope := by
  refine keeps_visit dialect levels node fun query rest hselect => ?_
  obtain ⟨rfl, _⟩ := List.cons.inj (hframes.symm.trans hselect)
  simp [Frame.role, Frame.barriers] at hbarrier

/-- Below a frame that takes everything, whatever is visited above it leaves what the levels have
    gathered as it is: their targets and the number of values received, their owners, their pending
    values and their sources. The same holds below a query for what is visited inside one of its
    clauses; the query itself may gain sources. -/
theorem visit_keeps_below (document : Document) (grammar : Grammar) (levels : Nat)
    (node : Node (Tree.ofDocument document)) (session : Session) (top : Frame) (below : List Frame)
    (hframes : session.scope.frames = top :: below) :
    let after := (visit grammar.dialect levels node session).2.scope
    (top.role ∈ Frame.barriers →
      ∃ top' below', after.frames = top' :: below' ∧ top'.role = top.role ∧
        below'.map Frame.core = below.map Frame.core) ∧
    (∀ query under, top = .effectClause → below = .select query :: under →
      ∃ query' under', after.frames = .effectClause :: .select query' :: under' ∧
        query.sources.map Source.relation <+: query'.sources.map Source.relation ∧
        under'.map Frame.core = under.map Frame.core) := by
  intro after
  refine ⟨fun hbarrier => ?_, fun query under htop hbelow => ?_⟩
  · obtain ⟨offers, hkeeps⟩ := keeps_visit_of_barrier grammar.dialect levels node hframes hbarrier
    exact hkeeps.below_barrier hframes hbarrier
  · subst htop hbelow
    have hquery : ∀ query rest, session.scope.frames ≠ .select query :: rest := by simp [hframes]
    obtain ⟨offers, hkeeps⟩ := keeps_visit grammar.dialect levels node hquery
    exact hkeeps.below_clause hframes

/-- A table that is visited under an assignment or inside a clause does not reach the multiple
    assignment below. -/
theorem visit_keeps_below_tableSource :
    let schema : Schema := .oneTable "t" ["a", "b"]
    let inside (frame : Frame) (session : Session) : Session :=
      ((Operation.push frame).run session).2
    let assigning := inside (.assignment none) (expecting [⟨1⟩])
    let clause := inside .effectClause (inside (.select .empty) (expecting [⟨1⟩]))
    let after (session : Session) : List Frame :=
      (visit Dialect.plsql 3 (Tree.ofDocument (.source "t")).root session).2.scope.frames
    Reachable schema assigning ∧ Reachable schema clause ∧
    (∃ top' below', after assigning = top' :: below' ∧
      top'.role = "assignment" ∧ below'.map Frame.core = [.multipleAssignment [⟨1⟩] 0]) ∧
    (∃ query' under', after clause = .effectClause :: .select query' :: under' ∧
      [] <+: query'.sources.map Source.relation ∧
      under'.map Frame.core = [.multipleAssignment [⟨1⟩] 0]) := by
  intro schema inside assigning clause after
  have hexpecting : Reachable schema (expecting [⟨1⟩]) :=
    reachable_expecting (by decide +kernel)
  refine ⟨hexpecting.push (Graph.holds_nil _) rfl,
    hexpecting.query.push (Graph.holds_nil _) rfl, ?_, ?_⟩
  · exact (visit_keeps_below (.source "t") .plsql 3 _ assigning _ _ rfl).1 (by decide)
  · exact (visit_keeps_below (.source "t") .plsql 3 _ clause _ _ rfl).2 _ _ rfl rfl

end Walk

end Lineage
