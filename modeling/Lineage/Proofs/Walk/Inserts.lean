import Lineage.Proofs.Scope.External
import Lineage.Proofs.Scope.Inserts
import Lineage.Proofs.Walk.Existence
import Lineage.Proofs.Walk.SelectList

/-!
# Inserts with a list of values

Each value of an insert is visited on the level of its column. Whatever reaches this level flows
into the column, and the level closes without a word, so that an insert fails only if there are not
as many columns as values or if a value fails. With a list of columns, each name stands for the
latest member of that name. Without a list, the columns are those that the table is known to have.

## Key results

- `within_column`: the level of a column always closes, and adds nothing then
- `flowsInto_column`: what arrives at the level of a column flows into it
- `fillColumns_spec`, `exists_of_fillColumns_error`: one value after the other
- `visit_listing`: the steps of an insert, once its columns are found
- `listed_values_fill_named_columns`: an insert with a list of columns
- `unlisted_values_fill_known_columns`: an insert without one
-/

namespace Lineage

variable {tree : Tree}

/-- The node is an insert into a table, with a list of values. -/
structure Dialect.ListsValues (dialect : Dialect) (node : Node tree) (values : List (Node tree)) :
    Prop where
  isInsert : dialect.binds node .insert = true
  target : (dialect.insertParts node).table.isPresent = true
  values : (dialect.insertParts node).values = some values

theorem Dialect.ListsValues.rule {dialect : Dialect} {node : Node tree} {values : List (Node tree)}
    (h : dialect.ListsValues node values) : dialect.rule? node.tag = some .insert := by
  have hbinds := h.isInsert
  simp only [Dialect.binds, Bool.and_eq_true, beq_iff_eq] at hbinds
  exact hbinds.2

/-- The table that an insert fills is looked up by the last segment of its name. -/
def Dialect.targetName (dialect : Dialect) (node : Node tree) : String :=
  Text.lastSegment (dialect.nameOf (dialect.insertParts node).table)

/-- So are the columns in its list. -/
def Dialect.columnNames (dialect : Dialect) (node : Node tree) : List String :=
  (dialect.insertParts node).columns.map fun column => Text.lastSegment (dialect.nameOf column)

/-- The columns that an insert of so many values fills if it does not list them. -/
def Scope.unlistedColumns (table : BindingId) (count : Nat) (scope : Scope) :
    List BindingId × Scope :=
  let known := scope.knownColumns table
  if known.isEmpty then scope.columnsNamed table (positionalNames count) else (known, scope)

theorem Scope.unlistedColumns_of_unknown {table : BindingId} {scope : Scope}
    (h : scope.knownColumns table = []) (count : Nat) :
    scope.unlistedColumns table count = scope.columnsNamed table (positionalNames count) := by
  rw [unlistedColumns, if_pos (List.isEmpty_iff.mpr h)]

theorem Scope.unlistedColumns_of_known {table : BindingId} {scope : Scope}
    (h : scope.knownColumns table ≠ []) (count : Nat) :
    scope.unlistedColumns table count = (scope.knownColumns table, scope) := by
  rw [unlistedColumns, if_neg (by simpa using h)]

/-- What arrives at the level of a column is taken there, and flows into this column and into
    no other one. -/
structure Offer.FlowsInto (column : BindingId) (final : Graph) (arrival : Offer) : Prop where
  level : ∃ outer, arrival.levels = .assignment (some column) :: outer
  makes : ∀ id, arrival.signal = .value id → ∀ graph,
    arrival.Makes graph ↔
      graph = if column = id then arrival.graph else arrival.graph.addOutput id column
  lasting : ∀ id, arrival.signal = .value id → id ≠ column → column ∈ final.outputs id

theorem Offer.makes_of_column {arrival : Offer} {column id : BindingId} {outer : List Frame}
    {graph : Graph} (hlevels : arrival.levels = .assignment (some column) :: outer)
    (hsignal : arrival.signal = .value id) :
    arrival.Makes graph ↔
      graph = if column = id then arrival.graph else arrival.graph.addOutput id column := by
  constructor
  · rintro ⟨other, frames, hother, hreceive⟩
    cases hsignal.symm.trans hother
    simp only [hlevels, Scope.receiveAmong, Frame.receive, Except.ok.injEq,
      Prod.mk.injEq] at hreceive
    exact hreceive.2.symm
  · rintro rfl
    exact ⟨id, _, hsignal, by simp only [hlevels, Scope.receiveAmong, Frame.receive]; rfl⟩

/-- The level of a column stays what it is, and what lies below it as well. -/
theorem foldl_deliver_column (column : BindingId) (below : List Frame) (offers : List Offer) :
    offers.foldl Offer.deliver (.assignment (some column) :: below) =
      .assignment (some column) :: below := by
  induction offers with
  | nil => rfl
  | cons offer rest ih =>
    have hdeliver : Offer.deliver (.assignment (some column) :: below) offer =
        .assignment (some column) :: below := by
      rw [Offer.deliver, Scope.deliver,
        Frame.pass?_of_barrier (by simp [Frame.role, Frame.barriers])]
      cases offer.signal with
      | value id => rfl
      | operator queries => cases queries <;> rfl
    rw [List.foldl_cons, hdeliver, ih]

namespace Walk

variable {dialect : Dialect} {levels : Nat} {session : Session} {column : BindingId}

/-! ### One value -/

/-- The state in which a value of the column is visited. -/
def insideColumn (column : BindingId) (session : Session) : Session :=
  { session with scope := session.scope.push (.assignment (some column)) }

/-- The level of a column always closes, and adds nothing then. -/
theorem within_column (dialect : Dialect) [dialect.Regular] (levels : Nat) (node : Node tree)
    (column : BindingId) (session : Session) :
    within (.assignment (some column)) (visit dialect levels node) session =
      ((visit dialect levels node (insideColumn column session)).1,
        { (visit dialect levels node (insideColumn column session)).2 with
          scope := { (visit dialect levels node (insideColumn column session)).2.scope with
            frames := (visit dialect levels node
              (insideColumn column session)).2.scope.frames.tail } }) := by
  have hstands : (insideColumn column session).scope.Stands "assignment"
      (session.scope.frames.map Frame.core) :=
    ⟨_, _, rfl, rfl, rfl⟩
  obtain ⟨⟨top, below, hframes, hrole, hcores⟩, _⟩ :=
    stands_visit dialect levels node (by simp [Frame.barriers]) hstands
  have hbelow : below.length = session.scope.frames.length := by
    rw [← List.length_map (f := Frame.core), hcores, List.length_map]
  -- The visit leaves the level of the column on top, so exactly this level is closed or left.
  have hcount : (visit dialect levels node (insideColumn column session)).2.scope.height -
      max session.scope.height 1 = 1 := by
    simp only [Scope.height, hframes, List.length_cons, hbelow]
    omega
  simp only [within]
  rw [show ({ session with scope := session.scope.push (.assignment (some column)) } : Session) =
    insideColumn column session from rfl]
  rcases hrun : visit dialect levels node (insideColumn column session) with ⟨error | ⟨⟩, after⟩ <;>
    rw [hrun] at hframes hcount
  · simp only [Scope.dropTo, hcount, List.drop_one]
  · replace hframes : after.scope.frames = top :: below := hframes
    cases top with
    | assignment target =>
      simp only [attempt, Scope.unwind, if_true, hcount, popAll_one, Scope.pop, hframes,
        Frame.finish, Scope.receiveAll, List.tail_cons]
    | _ => simp [Frame.role] at hrole

/-- The graph grows while a value is visited. -/
theorem grows_column (dialect : Dialect) [dialect.Regular] (levels : Nat) (node : Node tree)
    (column : BindingId) (session : Session) :
    session.scope.graph.Grows
      (within (.assignment (some column)) (visit dialect levels node) session).2.scope.graph := by
  rw [within_column dialect]
  exact (trail_visit dialect levels node (insideColumn column session)).grows

theorem wellFormed_insideColumn (hwell : session.WellFormed)
    (hcolumn : session.scope.graph.contains column = true) :
    (insideColumn column session).WellFormed := by
  have hframe : (Frame.assignment (some column)).WellFormed session.scope.graph :=
    Frame.wellFormed_of_ids (Graph.holds_singleton hcolumn) (by simp [Frame.catalogs])
  exact hwell.withScope (hwell.scope.push hframe) .refl

theorem wellFormed_column (dialect : Dialect) (levels : Nat) (node : Node tree)
    (hwell : session.WellFormed) (hcolumn : session.scope.graph.contains column = true) :
    (within (.assignment (some column)) (visit dialect levels node) session).2.WellFormed := by
  have hscript : (Script.within (.assignment (some column)) (.visits [node])).Sound dialect levels
      [column] fun _ => [] :=
    .within (by simp [Frame.ids]) (by simp [Frame.catalogs])
      (Script.sound_visits (fun node _ hwell => wellFormed_visitMoments dialect levels node hwell)
        [node])
  have hfinal := hscript.final hwell (Graph.holds_singleton hcolumn)
  rwa [Script.run_within, Script.run_visits, Script.forM_singleton] at hfinal

/-- What arrives at the level of a column while its value is visited flows into it, and does
    so ever after. -/
theorem flowsInto_column [dialect.Regular] {node : Node tree}
    (hstays : dialect.closesArm node = false) (hwell : session.WellFormed)
    (hcolumn : session.scope.graph.contains column = true) {final : Graph}
    (hfinal : (visit dialect levels node (insideColumn column session)).2.scope.graph.Grows final) :
    ∀ arrival ∈ arrivals (insideColumn column session).scope.frames.length
        (offersOf (visitHistory dialect levels node (insideColumn column session))),
      arrival.FlowsInto column final := by
  intro arrival harrival
  have hrun :=
    (disciplined_visit dialect tree levels).stays node hstays (insideColumn column session)
  -- What has arrived before has left the level as it was.
  obtain ⟨front, back, hsplit⟩ := List.append_of_mem harrival
  have hcores : (insideColumn column session).scope.cores.rtake
      (insideColumn column session).scope.frames.length =
      .assignment (some column) :: session.scope.frames.map Frame.core :=
    rtake_eq_self (Scope.length_cores _)
  have htimely := hrun.above.timely_arrivals (Nat.le_refl _) front arrival back hsplit
  rw [hcores, foldl_deliver_column] at htimely
  obtain ⟨outer, hlevels, _⟩ :=
    Frame.exists_cons_of_core htimely (by simp [Frame.role]) (by simp [Frame.role])
  refine ⟨⟨outer, hlevels⟩, fun id hsignal graph => Offer.makes_of_column hlevels hsignal,
    fun id hsignal hother => ?_⟩
  obtain ⟨offer, hoffer, hreaching⟩ := List.mem_filterMap.mp harrival
  obtain ⟨hpass, hgraph, _, _⟩ := Offer.exists_of_reaching? hreaching
  rw [hsignal] at hpass
  have hexists : arrival.graph.contains id = true := by
    rw [hgraph]
    exact exists_of_visitHistory dialect levels node (wellFormed_insideColumn hwell hcolumn)
      offer hoffer id (Scope.eq_value_of_passAll? hpass)
  have hmakes : arrival.Makes (arrival.graph.addOutput id column) := by
    rw [Offer.makes_of_column hlevels hsignal, if_neg (Ne.symm hother)]
  have hgrows := hrun.above.lasting offer hoffer _ (hmakes.of_reaching? hreaching)
  exact Graph.mem_outputs_of_addOutput hexists (hgrows.trans hfinal)

/-! ### One value after the other -/

/-- Each value is visited on the level of its column, up to the first that fails. -/
def fillColumns (dialect : Dialect) (levels : Nat) (pairs : List (Node tree × BindingId)) :
    Walk Unit :=
  pairs.forM fun pair => within (.assignment (some pair.2)) (visit dialect levels pair.1)

/-- The state in which the value at the position is visited, after the values before it. -/
def atValue (dialect : Dialect) (levels : Nat) (pairs : List (Node tree × BindingId))
    (position : Nat) (column : BindingId) (session : Session) : Session :=
  insideColumn column (fillColumns dialect levels (pairs.take position) session).2

theorem fillColumns_cons (pair : Node tree × BindingId) (rest : List (Node tree × BindingId)) :
    fillColumns dialect levels (pair :: rest) =
      (within (.assignment (some pair.2)) (visit dialect levels pair.1) >>= fun _ =>
        fillColumns dialect levels rest) :=
  rfl

theorem fillColumns_append (front back : List (Node tree × BindingId)) :
    fillColumns dialect levels (front ++ back) =
      (fillColumns dialect levels front >>= fun _ => fillColumns dialect levels back) := by
  simp [fillColumns]

section

variable [dialect.Regular] {pairs : List (Node tree × BindingId)}

/-- While values are visited the graph grows, and the state stays well-formed. -/
theorem fillColumns_spec (dialect : Dialect) [dialect.Regular] (levels : Nat)
    (hwell : session.WellFormed)
    (hcolumns : ∀ pair ∈ pairs, session.scope.graph.contains pair.2 = true) :
    session.scope.graph.Grows (fillColumns dialect levels pairs session).2.scope.graph ∧
      (fillColumns dialect levels pairs session).2.WellFormed := by
  induction pairs generalizing session with
  | nil => exact ⟨.refl, hwell⟩
  | cons pair rest ih =>
    have hgrows := grows_column dialect levels pair.1 pair.2 session
    have hafter := wellFormed_column dialect levels pair.1 hwell (hcolumns pair List.mem_cons_self)
    rw [fillColumns_cons]
    refine Stateful.state_bind (fun after : Session => session.scope.graph.Grows after.scope.graph ∧
      after.WellFormed) ⟨hgrows, hafter⟩ (fun _ h => h) fun _ after hmiddle => ?_
    obtain ⟨hrest, hlast⟩ := ih hmiddle.2 fun other hother =>
      hmiddle.1.contains (hcolumns other (List.mem_cons_of_mem _ hother))
    exact ⟨hmiddle.1.trans hrest, hlast⟩

/-- If this fails, the values before some position succeed, and the value there fails in the state
    that they have left. -/
theorem exists_of_fillColumns_error {error : Error}
    (h : (fillColumns dialect levels pairs session).1 = .error error) :
    ∃ position value column, pairs[position]? = some (value, column) ∧
      (fillColumns dialect levels (pairs.take position) session).1 = .ok () ∧
      (visit dialect levels value (atValue dialect levels pairs position column session)).1 =
        .error error := by
  induction pairs generalizing session with
  | nil => cases h
  | cons pair rest ih =>
    have hcolumn := within_column dialect levels pair.1 pair.2 session
    rw [fillColumns_cons] at h
    rcases hrun : within (.assignment (some pair.2)) (visit dialect levels pair.1) session with
        ⟨failure | ⟨⟩, after⟩
    · rw [Stateful.bind_error hrun] at h
      rw [hrun] at hcolumn
      exact ⟨0, pair.1, pair.2, rfl, rfl, (congrArg Prod.fst hcolumn).symm.trans h⟩
    · rw [Stateful.bind_ok hrun] at h
      obtain ⟨position, value, column, hpair, hfront, hfailed⟩ := ih h
      refine ⟨position + 1, value, column, hpair, ?_, ?_⟩
      · rwa [List.take_succ_cons, fillColumns_cons, Stateful.bind_ok hrun]
      · rwa [atValue, List.take_succ_cons, fillColumns_cons, Stateful.bind_ok hrun]

/-- If this succeeds, each value succeeds, and nothing is added between the end of its visit and
    the next value. -/
theorem fillColumns_at {after : Session} {position : Nat} {value : Node tree} {column : BindingId}
    (h : fillColumns dialect levels pairs session = (.ok (), after))
    (hpair : pairs[position]? = some (value, column)) :
    (visit dialect levels value (atValue dialect levels pairs position column session)).1 = .ok () ∧
      (fillColumns dialect levels (pairs.take (position + 1)) session).2.scope.graph =
        (visit dialect levels value
          (atValue dialect levels pairs position column session)).2.scope.graph ∧
      fillColumns dialect levels (pairs.drop (position + 1))
        (fillColumns dialect levels (pairs.take (position + 1)) session).2 = (.ok (), after) := by
  have hnext : pairs.take (position + 1) = pairs.take position ++ [(value, column)] := by
    rw [List.take_add_one, hpair]
    rfl
  -- The pairs are cut twice, after the value and before it.
  rw [← List.take_append_drop (position + 1) pairs, fillColumns_append] at h
  obtain ⟨_, middle, hfront, hback⟩ := Stateful.exists_of_bind h
  rw [hfront]
  rw [hnext, fillColumns_append] at hfront
  obtain ⟨_, before, hbefore, hvalue⟩ := Stateful.exists_of_bind hfront
  have hstart : atValue dialect levels pairs position column session =
      insideColumn column before := by
    rw [atValue, hbefore]
  have hstep : within (.assignment (some column)) (visit dialect levels value) before =
      (.ok (), middle) := by
    rw [fillColumns_cons] at hvalue
    obtain ⟨_, last, hlast, hdone⟩ := Stateful.exists_of_bind hvalue
    cases hdone
    exact hlast
  rw [within_column dialect, Prod.mk.injEq] at hstep
  have hgraph : middle.scope.graph =
      (visit dialect levels value (insideColumn column before)).2.scope.graph := by
    rw [← hstep.2]
  rw [hstart]
  exact ⟨hstep.1, hgraph, hback⟩

end

/-- Values meet their columns. The steps succeed if and only if each value is visited with
    success, and fail with the error of the first value that fails, placed. If they succeed, then
    whatever reaches the level of a column flows into this column and into no other one, also when
    the level closes. -/
structure PairsValues (dialect : Dialect) (levels : Nat) (place : Location)
    (pairs : List (Node tree × BindingId)) (prepared : Session)
    (outcome : Except Error Unit × Session) : Prop where
  succeeds : outcome.1 = .ok () ↔ ∀ position value column, pairs[position]? = some (value, column) →
    (visit dialect levels value (atValue dialect levels pairs position column prepared)).1 = .ok ()
  fails : ∀ error, outcome.1 = .error error → ∃ position value column cause,
    pairs[position]? = some (value, column) ∧
    (fillColumns dialect levels (pairs.take position) prepared).1 = .ok () ∧
    (visit dialect levels value (atValue dialect levels pairs position column prepared)).1 =
      .error cause ∧
    error = cause.atLocation place
  flows : outcome.1 = .ok () → ∀ position value column, pairs[position]? = some (value, column) →
    let inside := atValue dialect levels pairs position column prepared
    ∀ arrival ∈ arrivals inside.scope.frames.length
    (offersOf (visitHistory dialect levels value inside)),
      arrival.FlowsInto column outcome.2.scope.graph
  closes : outcome.1 = .ok () → ∀ position value column, pairs[position]? = some (value, column) →
    (fillColumns dialect levels (pairs.take (position + 1)) prepared).2.scope.graph =
      (visit dialect levels value
        (atValue dialect levels pairs position column prepared)).2.scope.graph

theorem pairsValues [dialect.Regular] (place : Location) {pairs : List (Node tree × BindingId)}
    (hwell : session.WellFormed)
    (hcolumns : ∀ pair ∈ pairs, session.scope.graph.contains pair.2 = true)
    (hstays : ∀ pair ∈ pairs, dialect.closesArm pair.1 = false) :
    PairsValues dialect levels place pairs session
      (located place (fillColumns dialect levels pairs) session) := by
  rcases hrun : fillColumns dialect levels pairs session with ⟨error | ⟨⟩, after⟩
  · obtain ⟨position, value, column, hpair, hfront, hfailed⟩ :=
      exists_of_fillColumns_error (congrArg Prod.fst hrun)
    simp only [located, hrun]
    refine ⟨⟨fun h => (by cases h), fun h => ?_⟩, fun failure hfailure => ?_, fun h => (by cases h),
      fun h => (by cases h)⟩
    · rw [h position value column hpair] at hfailed
      cases hfailed
    · cases hfailure
      exact ⟨position, value, column, error, hpair, hfront, hfailed, rfl⟩
  · simp only [located, hrun]
    refine ⟨⟨fun _ position value column hpair => (fillColumns_at hrun hpair).1, fun _ => rfl⟩,
      fun failure hfailure => (by cases hfailure), fun _ position value column hpair => ?_,
      fun _ position value column hpair => (fillColumns_at hrun hpair).2.1⟩
    have hmem := List.mem_of_getElem? hpair
    obtain ⟨_, hgraph, hback⟩ := fillColumns_at hrun hpair
    have hfront : ∀ count,
        session.scope.graph.Grows
          (fillColumns dialect levels (pairs.take count) session).2.scope.graph ∧
          (fillColumns dialect levels (pairs.take count) session).2.WellFormed := fun count =>
      fillColumns_spec dialect levels hwell fun pair hfirst =>
        hcolumns pair (List.mem_of_mem_take hfirst)
    -- The values after this one let the graph grow further.
    have hrest : ∀ pair ∈ pairs.drop (position + 1),
        (fillColumns dialect levels (pairs.take (position + 1)) session).2.scope.graph.contains
          pair.2 = true :=
      fun pair hlast =>
        (hfront (position + 1)).1.contains (hcolumns pair (List.mem_of_mem_drop hlast))
    have hlater := (fillColumns_spec dialect levels (hfront (position + 1)).2 hrest).1
    rw [hback, hgraph] at hlater
    exact flowsInto_column (hstays _ hmem) (hfront position).2
      ((hfront position).1.contains (hcolumns _ hmem)) hlater

/-! ### The columns of an insert -/

/-- The columns that an insert fills, and the scope when they are found. -/
def chosenColumns (dialect : Dialect) (node : Node tree) (count : Nat) (table : BindingId)
    (scope : Scope) : List BindingId × Scope :=
  if (dialect.insertParts node).columns.isEmpty then scope.unlistedColumns table count
  else scope.columnsNamed table (dialect.columnNames node)

theorem insertColumns_eq {node : Node tree} {values : List (Node tree)}
    (hvalues : (dialect.insertParts node).values = some values) (table : BindingId)
    (session : Session) :
    insertColumns dialect (dialect.insertParts node) table session =
      (.ok (chosenColumns dialect node values.length table session.scope).1,
        { session with
          scope := (chosenColumns dialect node values.length table session.scope).2 }) := by
  unfold insertColumns chosenColumns Scope.unlistedColumns
  by_cases hlisted : (dialect.insertParts node).columns.isEmpty = true
  · simp only [hlisted, if_true, hvalues]
    by_cases hknown : (session.scope.knownColumns table).isEmpty = true
    · simp only [bind, read, Stateful.read, hknown, if_true]
      rfl
    · simp only [bind, read, Stateful.read, hknown]
      rfl
  · simp only [hlisted]
    rfl

theorem outputs_chosenColumns (dialect : Dialect) (node : Node tree) (count : Nat)
    (table : BindingId) (scope : Scope) (id : BindingId) :
    (chosenColumns dialect node count table scope).2.graph.outputs id = scope.graph.outputs id := by
  unfold chosenColumns Scope.unlistedColumns
  split
  · dsimp only
    split
    · exact Scope.outputs_columnsNamed table _ scope id
    · rfl
  · exact Scope.outputs_columnsNamed table _ scope id

theorem derives_chosenColumns (dialect : Dialect) (node : Node tree) (count : Nat)
    {table : BindingId} {known : List BindingId} {scope : Scope} (h : table ∈ known) :
    scope.Derives known ((chosenColumns dialect node count table scope).1 ++ known)
      (chosenColumns dialect node count table scope).2 := by
  unfold chosenColumns Scope.unlistedColumns
  split
  · dsimp only
    split
    · exact Scope.derives_columnsNamed _ h
    · exact Scope.derives_knownColumns h
  · exact Scope.derives_columnsNamed _ h

/-- When its columns are found, an insert is in a well-formed state, in which they exist, and no
    value flows yet. -/
theorem chosenColumns_spec (dialect : Dialect) (node : Node tree) (count : Nat)
    (hwell : session.WellFormed) (name : String) :
    let target := session.scope.insertTarget name
    let chosen := chosenColumns dialect node count target.1 target.2
    { session with scope := chosen.2 }.WellFormed ∧
    (∀ column ∈ chosen.1, chosen.2.graph.contains column = true) ∧
      ∀ id, chosen.2.graph.outputs id = session.scope.graph.outputs id := by
  intro target chosen
  have htarget : session.scope.Derives [] [target.1] target.2 := Scope.derives_insertTarget name
  have hchosen := htarget.trans (derives_chosenColumns dialect node count List.mem_cons_self)
  obtain ⟨hscope, hholds⟩ := hchosen.wellFormed hwell.scope (Graph.holds_nil _)
  refine ⟨hwell.withScope hscope hchosen.learns.grows, fun column hcolumn => ?_, fun id => ?_⟩
  · exact hholds column (List.mem_append_left _ hcolumn)
  · rw [outputs_chosenColumns, Scope.outputs_insertTarget]

section

variable [dialect.Regular] {index : Fin tree.size} {values : List (Node tree)}
  (h : dialect.ListsValues (.present index) values)

include h

/-- The steps of an insert, once its columns are found. -/
theorem visit_listing (session : Session) :
    let target := session.scope.insertTarget (dialect.targetName (.present index))
    let chosen := chosenColumns dialect (.present index) values.length target.1 target.2
    visit dialect tree.size (.present index) session =
      located (Node.present index).location
        (insertValues (visit dialect tree.size) values chosen.1
          (dialect.nameOf (dialect.insertParts (.present index)).table))
        { session with scope := chosen.2, visited := index :: session.visited } := by
  intro target chosen
  have hsteps : (nodeScript dialect (.present index)).run (visit dialect tree.size) =
      insert dialect (visit dialect tree.size) (.present index) := by
    rw [nodeScript, h.rule]
    exact Script.run_ofRule (visit dialect tree.size) dialect (.present index) .insert
  have htable : onScope (·.insertTarget (dialect.targetName (.present index)))
      { session with visited := index :: session.visited } =
        (.ok target.1, { session with scope := target.2, visited := index :: session.visited }) :=
          rfl
  have hcolumns := insertColumns_eq h.values target.1
    { session with scope := target.2, visited := index :: session.visited }
  have hinsert : insert dialect (visit dialect tree.size) (.present index)
      { session with visited := index :: session.visited } =
      insertValues (visit dialect tree.size) values chosen.1
        (dialect.nameOf (dialect.insertParts (.present index)).table)
        { session with scope := chosen.2, visited := index :: session.visited } := by
    simp only [insert, h.target, if_true, h.values]
    exact (Stateful.bind_ok htable).trans (Stateful.bind_ok hcolumns)
  rw [visit_size, hsteps, located, located, hinsert]

/-- An insert fails for a mispairing without any flow if it has not as many columns as values, and
    otherwise its values meet its columns. -/
theorem insert_meets_columns (hwell : session.WellFormed) {chosen : List BindingId × Scope}
    (hchosen : chosenColumns dialect (.present index) values.length
      (session.scope.insertTarget (dialect.targetName (.present index))).1
      (session.scope.insertTarget (dialect.targetName (.present index))).2 = chosen) :
    let node := Node.present index
    let prepared : Session :=
      { session with scope := chosen.2, visited := index :: session.visited }
    let outcome := visit dialect tree.size node session
    (values.length ≠ chosen.1.length →
      outcome.1 = .error (.pairing (.columns values.length chosen.1.length
        (dialect.nameOf (dialect.insertParts node).table)) node.location) ∧
      ∀ id, outcome.2.scope.graph.outputs id = session.scope.graph.outputs id) ∧
    (values.length = chosen.1.length →
      PairsValues dialect tree.size node.location (values.zip chosen.1) prepared outcome) := by
  subst hchosen
  intro node prepared outcome
  have hvisit := visit_listing h session
  obtain ⟨hprepared, hexist, houtputs⟩ :=
    chosenColumns_spec dialect node values.length hwell (dialect.targetName node)
  -- The lengths are compared before any value is visited.
  refine ⟨fun hdiffer => ?_, fun hsame => ?_⟩
  · simp only [outcome, node, hvisit, insertValues, if_neg hdiffer]
    exact ⟨rfl, houtputs⟩
  · have hself : Holds dialect node node := by
      refine holds_self ?_
      rw [h.rule]
      simp
    have hplain := Script.plain_values hself h.values
    simp only [outcome, node, hvisit, insertValues, if_pos hsame]
    refine pairsValues node.location ⟨hprepared.scope, hprepared.hoisted⟩ ?_ ?_
    · exact fun pair hpair => hexist pair.2 (List.of_mem_zip hpair).2
    · exact fun pair hpair => (hplain pair.1 (List.of_mem_zip hpair).1).stays

end

/-- The target of an insert exists. -/
theorem contains_insertTarget (hwell : session.WellFormed) (name : String) :
    (session.scope.insertTarget name).2.WellFormed ∧
      (session.scope.insertTarget name).2.graph.contains (session.scope.insertTarget name).1 =
        true := by
  have htarget : session.scope.Derives [] [(session.scope.insertTarget name).1]
      (session.scope.insertTarget name).2 :=
    Scope.derives_insertTarget name
  obtain ⟨hscope, hholds⟩ := htarget.wellFormed hwell.scope (Graph.holds_nil _)
  exact ⟨hscope, hholds _ List.mem_cons_self⟩

/-- In any state of a run, an insert with lists of columns and values fails for a mispairing, and
    lets no value flow, if the lists differ in length. Otherwise each name in the list of columns
    stands for the latest member that the target has by this name when the names before it are read,
    or else for a new column, and the values meet these columns in order: what a value brings to the
    level of its column flows into this column and into no other one. -/
theorem listed_values_fill_named_columns (document : Document) (grammar : Grammar)
    (schema : Schema) :
    let tree := Tree.ofDocument document
    let dialect := grammar.dialect
    let start := Session.ofSchema schema
    ∀ state ∈ start :: visitMoments dialect tree.size tree.root start,
    ∀ (index : Fin tree.size) (values : List (Node tree)),
      dialect.ListsValues (.present index) values →
      (dialect.insertParts (.present index)).columns ≠ [] →
      let node := Node.present index
      let names := dialect.columnNames node
      let target := state.scope.insertTarget (dialect.targetName node)
      let listed := Scope.columnsNamed target.1 names target.2
      let prepared : Session := { state with scope := listed.2, visited := index :: state.visited }
      let outcome := visit dialect tree.size node state
      (values.length ≠ names.length →
        outcome.1 = .error (.pairing (.columns values.length names.length
          (dialect.nameOf (dialect.insertParts node).table)) node.location) ∧
        ∀ id, outcome.2.scope.graph.outputs id = state.scope.graph.outputs id) ∧
      (values.length = names.length →
        (∀ position name, names[position]? = some name → ∃ column,
          listed.1[position]? = some column ∧
          Graph.NamesColumn target.1
            (Scope.columnsNamed target.1 (names.take position) target.2).2.graph listed.2.graph
            (fold name) column) ∧
        PairsValues dialect tree.size node.location (values.zip listed.1) prepared outcome) := by
  intro tree dialect start state hstate index values h hlisted node names target listed
    prepared outcome
  obtain ⟨hwell, _⟩ := wellFormed_later tree.root hstate
  have hchosen : chosenColumns dialect node values.length target.1 target.2 = listed := by
    rw [chosenColumns, if_neg (by simpa using hlisted)]
  have hmeets := insert_meets_columns h hwell hchosen
  have hlength : listed.1.length = names.length := Scope.length_columnsNamed _ _ _
  simp only [hlength] at hmeets
  obtain ⟨hscope, htarget⟩ := contains_insertTarget hwell (dialect.targetName node)
  exact ⟨hmeets.1, fun hsame =>
    ⟨fun position name hname => Scope.columnsNamed_names hscope htarget hname, hmeets.2 hsame⟩⟩

/-- An insert into a table, with a list of columns or without one. Each value refers to
    the given names. -/
def insertingValues (table : String) (columns : List String) (values : List (List String)) :
    Document :=
  .inner "single_table_insert"
    [.inner "insert_into_clause"
      (.inner "tableview_name" [.segment table] :: columns.map fun column => .inner "column_name"
        [.segment column]),
     .inner "values_clause"
       [.inner "expressions" (values.map fun names => .inner "expression" (names.map .segment))]]

/-- The list of columns may have an order of its own, and its names may be qualified. -/
theorem listed_values_fill_named_columns_reordered :
    let tree := Tree.ofDocument (insertingValues "t" ["b", "t.a"] [["x"], ["y"]])
    let node : Node tree := .present ⟨0, by decide⟩
    let values : List (Node tree) := [.present ⟨10, by decide⟩, .present ⟨12, by decide⟩]
    let start := Session.ofSchema (.oneTable "t" ["a", "b"])
    let target := start.scope.insertTarget (Dialect.plsql.targetName node)
    let listed := Scope.columnsNamed target.1 (Dialect.plsql.columnNames node) target.2
    Dialect.plsql.ListsValues node values ∧ (Dialect.plsql.insertParts node).columns ≠ [] ∧
    listed.1 = [⟨2⟩, ⟨1⟩] ∧
      PairsValues Dialect.plsql tree.size node.location (values.zip listed.1)
        { start with scope := listed.2, visited := [0] }
        (visit Dialect.plsql tree.size node start) := by
  intro tree node values start target listed
  have hlists : Dialect.plsql.ListsValues node values :=
    ⟨by decide +kernel, by decide +kernel, by decide +kernel⟩
  have hsome : (Dialect.plsql.insertParts node).columns ≠ [] := by decide +kernel
  have hcolumns : listed.1 = [⟨2⟩, ⟨1⟩] := by decide +kernel
  have hlength : values.length = (Dialect.plsql.columnNames node).length := by decide +kernel
  exact ⟨hlists, hsome, hcolumns,
    ((listed_values_fill_named_columns _ .plsql _ start List.mem_cons_self _ values hlists hsome).2
      hlength).2⟩

/-! ### Inserts without a list of columns -/

/-- The columns that a table is known to have are different members of it. -/
theorem nodup_knownColumns {scope : Scope} {table : BindingId} (h : scope.WellFormed)
    (htable : scope.graph.contains table = true) : (scope.knownColumns table).Nodup :=
  (h.graph table htable).nodup_children.filter _

/-- A new table has no columns. -/
theorem knownColumns_declareNewGlobal (scope : Scope) (name : String) (kind : Binding.Kind) :
    (scope.declareNewGlobal (.ofName name kind)).2.knownColumns
      (scope.declareNewGlobal (.ofName name kind)).1 = [] := by
  have hchildren : (scope.graph.push (.ofName name kind)).children scope.graph.nextId = [] := by
    rw [Graph.children, Graph.get_push_nextId]
    rfl
  have hgraph : (scope.declareNewGlobal (.ofName name kind)).2.graph =
      scope.graph.push (.ofName name kind) := rfl
  rw [Scope.knownColumns, hgraph, show (scope.declareNewGlobal (.ofName name kind)).1 =
    scope.graph.nextId from rfl, hchildren]
  rfl

/-- In any state of a run, an insert of values that does not list columns fills those that its
    target is known to have by then. If there are none, it makes up a different one for each value;
    if there are as many as values, it takes them in order; and then the values meet these columns
    as they meet listed ones. But if there are some, and not as many as values, the insert fails for
    a mispairing, also where the schema does not know the target. A target that neither the schema
    nor the levels know has no columns yet. -/
theorem unlisted_values_fill_known_columns (document : Document) (grammar : Grammar)
    (schema : Schema) :
    let tree := Tree.ofDocument document
    let dialect := grammar.dialect
    let start := Session.ofSchema schema
    ∀ state ∈ start :: visitMoments dialect tree.size tree.root start,
    ∀ (index : Fin tree.size) (values : List (Node tree)),
      dialect.ListsValues (.present index) values →
      (dialect.insertParts (.present index)).columns = [] →
      let node := Node.present index
      let name := dialect.targetName node
      let target := state.scope.insertTarget name
      let known := target.2.knownColumns target.1
      let filled := Scope.unlistedColumns target.1 values.length target.2
      let prepared : Session := { state with scope := filled.2, visited := index :: state.visited }
      let outcome := visit dialect tree.size node state
      (known = [] ∨ known.length = values.length →
        filled.1.length = values.length ∧ filled.1.Nodup ∧
        (∀ column ∈ filled.1, column ∈ filled.2.graph.children target.1) ∧
        PairsValues dialect tree.size node.location (values.zip filled.1) prepared outcome) ∧
      (known ≠ [] → known.length ≠ values.length →
        outcome.1 = .error (.pairing (.columns values.length known.length
          (dialect.nameOf (dialect.insertParts node).table)) node.location) ∧
        ∀ id, outcome.2.scope.graph.outputs id = state.scope.graph.outputs id) ∧
      (schema.resolve? name = none → state.scope.declaredOfKind? name .relation = none →
        state.scope.declaredOfKind? name .record = none → known = []) := by
  intro tree dialect start state hstate index values h hunlisted node name target known filled
    prepared outcome
  obtain ⟨hwell, hlater⟩ := wellFormed_later tree.root hstate
  have hchosen : chosenColumns dialect node values.length target.1 target.2 = filled := by
    rw [chosenColumns, if_pos (by simpa using hunlisted)]
  have hmeets := insert_meets_columns h hwell hchosen
  obtain ⟨hscope, htarget⟩ := contains_insertTarget hwell name
  refine ⟨fun hfits => ?_, fun hsome hdiffer => ?_, fun hresolve hrelation hrecord => ?_⟩
  · by_cases hnone : known = []
    · -- Nothing is known, so each position gets a column.
      have hfilled : filled = Scope.columnsNamed target.1
          (Scope.positionalNames values.length) target.2 :=
        Scope.unlistedColumns_of_unknown hnone values.length
      have hlength : filled.1.length = values.length := by
        rw [hfilled, Scope.length_columnsNamed, Scope.positionalNames, List.length_map,
          List.length_range]
      refine ⟨hlength, ?_, ?_, hmeets.2 hlength.symm⟩
      · rw [hfilled]
        exact Scope.nodup_positionalColumns hscope htarget values.length
      · rw [hfilled]
        exact Scope.members_columnsNamed hscope htarget _
    · have hfilled : filled = (known, target.2) :=
        Scope.unlistedColumns_of_known hnone values.length
      have hlength : filled.1.length = values.length := by
        rw [hfilled]
        exact hfits.resolve_left hnone
      refine ⟨hlength, ?_, ?_, hmeets.2 hlength.symm⟩
      · rw [hfilled]
        exact nodup_knownColumns hscope htarget
      · rw [hfilled]
        exact fun column hcolumn => (List.mem_filter.mp hcolumn).1
  · have hfilled : filled = (known, target.2) := Scope.unlistedColumns_of_known hsome values.length
    rw [hfilled] at hmeets
    exact hmeets.1 (Ne.symm hdiffer)
  · have hnew : target = state.scope.declareNewGlobal (.ofName name .relation) := by
      simp only [target, Scope.insertTarget, Scope.external?_eq_none hlater hresolve,
        hrelation, hrecord]
      rfl
    simp only [known]
    rw [hnew]
    exact knownColumns_declareNewGlobal state.scope name .relation

/-- Nothing is known about the target here. -/
theorem unlisted_values_fill_known_columns_new :
    let tree := Tree.ofDocument (insertingValues "u" [] [["x"], ["y"]])
    let node : Node tree := .present ⟨0, by decide⟩
    let values : List (Node tree) := [.present ⟨6, by decide⟩, .present ⟨8, by decide⟩]
    let start := Session.ofSchema .empty
    let target := start.scope.insertTarget (Dialect.plsql.targetName node)
    let filled := Scope.unlistedColumns target.1 2 target.2
    Dialect.plsql.ListsValues node values ∧ (Dialect.plsql.insertParts node).columns = [] ∧
    filled.1 = [⟨1⟩, ⟨2⟩] ∧
      PairsValues Dialect.plsql tree.size node.location (values.zip filled.1)
        { start with scope := filled.2, visited := [0] }
        (visit Dialect.plsql tree.size node start) := by
  intro tree node values start target filled
  have hlists : Dialect.plsql.ListsValues node values :=
    ⟨by decide +kernel, by decide +kernel, by decide +kernel⟩
  have hnone : (Dialect.plsql.insertParts node).columns = [] := by decide +kernel
  have hknown : target.2.knownColumns target.1 = [] := by decide +kernel
  have hfilled : filled.1 = [⟨1⟩, ⟨2⟩] := by decide +kernel
  obtain ⟨_, _, _, hpairs⟩ :=
    (unlisted_values_fill_known_columns _ .plsql .empty start List.mem_cons_self _ values hlists
    hnone).1 (.inl hknown)
  exact ⟨hlists, hnone, hfilled, hpairs⟩

/-- Two inserts into one table, of one value and of two. -/
def longerInsert : Document :=
  .inner "sql_script" [insertingValues "u" [] [[]], insertingValues "u" [] [[], []]]

/-- The first insert lets the table have one column, and for this the second one is rejected. -/
theorem longer_insert_rejected :
    (visitTree Dialect.plsql (Tree.ofDocument longerInsert) (.ofSchema .empty)).1 =
      .error (.pairing (.columns 2 1 "u") ⟨"single_table_insert", none, none⟩) := by
  decide +kernel

end Walk

end Lineage
