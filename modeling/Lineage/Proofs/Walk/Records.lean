import Lineage.Proofs.Scope.External
import Lineage.Proofs.Walk.Tables
import Lineage.Proofs.Walk.WellFormed

/-!
# Tables of the schema and records of their names

A table that a query reads from is looked for among the records in scope first, and in the schema
only if there is none. Named subqueries are records, and are meant to come first. But the records of
loops and the placeholders of unknown tables are records as well, so that a table of the schema is
out of reach wherever a level sees one of its name.

## Key results

- `Frame.seesRecord_of_resolve?`, `Frame.not_seesRecord`: a level finds a record if and only if it
  sees one
- `Scope.table_of_unseen`, `Scope.table_of_seen`: what a table name in a query stands for
- `schema_table_unless_record`: when a name stands for the table of the schema
-/

namespace Lineage

/-! ### Records that a level sees -/

/-- A level sees a record by an exact name: a body or a query has declared it, it is the first
    source of that name in a query, or it is a member of a source. -/
inductive Frame.SeesRecord (graph : Graph) (name : String) : Frame → BindingId → Prop where
  | body {catalog : Catalog} {owner : Option BindingId} {id : BindingId} :
      id ∈ catalog.order → graph.name id = name → graph.kind id = .record →
        SeesRecord graph name (.lexical catalog owner) id
  | query {query : QueryScope} {id : BindingId} :
      id ∈ query.catalog.order → graph.name id = name → graph.kind id = .record →
        SeesRecord graph name (.select query) id
  | source {query : QueryScope} {source : Source} :
      query.sources.find? (fun source => source.name graph == name) = some source →
        graph.kind source.relation = .record → SeesRecord graph name (.select query) source.relation
  | member {query : QueryScope} {source : Source} {id : BindingId} :
      source ∈ query.sources → id ∈ graph.children source.relation → graph.name id = name →
        graph.kind id = .record → SeesRecord graph name (.select query) id

/-- A record is seen by an exact name on some level, or is declared globally. -/
def Scope.SeesRecord (scope : Scope) (name : String) (id : BindingId) : Prop :=
  (∃ frame ∈ scope.frames, frame.SeesRecord scope.graph name id) ∨
    (id ∈ scope.globals ∧ scope.graph.name id = name ∧ scope.graph.kind id = .record)

/-- A catalog has a record if and only if the lookup finds one. -/
theorem Catalog.lookup?_record {catalog : Catalog} {graph : Graph} (h : catalog.WellFormed graph)
    (name : String) :
    (∀ id, catalog.lookup? graph name (.record == ·) = some id →
      id ∈ catalog.order ∧ graph.name id = name ∧ graph.kind id = .record) ∧
    (catalog.lookup? graph name (.record == ·) = none →
      ∀ id ∈ catalog.order, graph.name id = name → graph.kind id ≠ .record) := by
  refine ⟨fun id hfound => ?_, fun hnone id hid hname hkind => ?_⟩
  · obtain ⟨hid, hname, hkind⟩ := h.of_lookup? hfound
    exact ⟨hid, hname, (eq_of_beq hkind).symm⟩
  · rw [← hname] at hnone
    have hrejected := h.not_accepts_of_lookup? hid hnone
    simp [hkind] at hrejected

namespace Frame

variable {graph : Graph} {frame : Frame} {name : String} {id : BindingId}

/-- What a level finds as a record, it sees. -/
theorem seesRecord_of_resolve? (h : frame.WellFormed graph)
    (hfound : frame.resolve? graph name (.record == ·) = some id) :
    frame.SeesRecord graph name id := by
  cases frame with
  | lexical catalog owner =>
    obtain ⟨hid, hname, hkind⟩ :=
      (Catalog.lookup?_record (h.catalogs catalog (by simp [catalogs])) name).1 id hfound
    exact .body hid hname hkind
  | select query =>
    -- A query looks among its own declarations, then among its sources, and then among their
    -- members.
    rcases Option.or_eq_some_iff.mp hfound with hdeclared | ⟨_, hrest⟩
    · obtain ⟨hid, hname, hkind⟩ :=
        (Catalog.lookup?_record (h.catalogs query.catalog (by simp [catalogs])) name).1 id hdeclared
      exact .query hid hname hkind
    · rcases Option.or_eq_some_iff.mp hrest with hsource | ⟨_, hmember⟩
      · simp only [QueryScope.source?] at hsource
        split at hsource
        · next source hfirst =>
          obtain ⟨hkind, hrelation⟩ := Option.ite_none_right_eq_some.mp hsource
          cases hrelation
          exact .source hfirst (eq_of_beq hkind).symm
        · cases hsource
      · obtain ⟨source, hsource, hcolumn⟩ := List.exists_of_findSome?_eq_some hmember
        have hmem := List.mem_of_find?_eq_some hcolumn
        have haccepts := List.find?_some hcolumn
        simp only [Bool.and_eq_true, beq_iff_eq] at haccepts
        exact .member hsource hmem haccepts.1 haccepts.2.symm
  | _ => cases hfound

/-- Where a level finds no record, it sees none. -/
theorem not_seesRecord (h : frame.WellFormed graph)
    (hnone : frame.resolve? graph name (.record == ·) = none) :
    ¬ frame.SeesRecord graph name id := by
  intro hsees
  cases hsees with
  | body hid hname hkind =>
    exact (Catalog.lookup?_record (h.catalogs _ (by simp [catalogs])) name).2 hnone id
      hid hname hkind
  | query hid hname hkind =>
    have hdeclared := (Option.or_eq_none_iff.mp hnone).1
    exact (Catalog.lookup?_record (h.catalogs _ (by simp [catalogs])) name).2 hdeclared id
      hid hname hkind
  | source hfirst hkind =>
    have hsource := (Option.or_eq_none_iff.mp (Option.or_eq_none_iff.mp hnone).2).1
    simp [QueryScope.source?, hfirst, hkind] at hsource
  | member hsource hid hname hkind =>
    have hmember := (Option.or_eq_none_iff.mp (Option.or_eq_none_iff.mp hnone).2).2
    have hcolumn := List.findSome?_eq_none_iff.mp hmember _ hsource
    have hrejected := List.find?_eq_none.mp hcolumn id hid
    simp [hname, hkind] at hrejected

end Frame

namespace Scope

variable {scope : Scope} {name : String} {id : BindingId}

/-- What is found as a record in scope is seen there. -/
theorem seesRecord_of_declaredOfKind? (h : scope.WellFormed)
    (hfound : scope.declaredOfKind? name .record = some id) : scope.SeesRecord (fold name) id := by
  rw [declaredOfKind?_eq] at hfound
  simp only [resolvePlain?] at hfound
  split at hfound
  · next declared hdeclared =>
    cases hfound
    rcases Option.or_eq_some_iff.mp hdeclared with hlevel | ⟨_, hglobal⟩
    · obtain ⟨frame, hframe, hresolve⟩ := List.exists_of_findSome?_eq_some hlevel
      exact .inl ⟨frame, hframe, Frame.seesRecord_of_resolve? (h.frames frame hframe) hresolve⟩
    · exact .inr ((Catalog.lookup?_record h.globals (fold name)).1 id hglobal)
  · simp at hfound

/-- Where no record is found, none is seen. -/
theorem not_seesRecord (h : scope.WellFormed) (hnone : scope.declaredOfKind? name .record = none) :
    ¬ scope.SeesRecord (fold name) id := by
  rw [declaredOfKind?_eq] at hnone
  simp only [resolvePlain?] at hnone
  split at hnone
  · cases hnone
  · next hdeclared =>
    obtain ⟨hlevels, hglobal⟩ := Option.or_eq_none_iff.mp hdeclared
    rintro (⟨frame, hframe, hsees⟩ | ⟨hid, hname, hkind⟩)
    · exact Frame.not_seesRecord (h.frames frame hframe)
        (List.findSome?_eq_none_iff.mp hlevels frame hframe) hsees
    · exact (Catalog.lookup?_record h.globals (fold name)).2 hglobal id hid hname hkind

/-- Where no record of the name is seen, a table of the schema is what the name stands for, and
    becomes global. -/
theorem table_of_unseen (h : scope.WellFormed) {table : BindingId}
    (hexternal : scope.external? name = some table)
    (hunseen : ∀ record, ¬ scope.SeesRecord (fold name) record) :
    scope.table name = (table, scope.declareGlobal table) ∧
    table ∈ (scope.table name).2.globals := by
  have hnone : scope.declaredOfKind? name .record = none := by
    rw [Option.eq_none_iff_forall_ne_some]
    exact fun id hfound => hunseen id (seesRecord_of_declaredOfKind? h hfound)
  have htable : scope.table name = (table, scope.declareGlobal table) := by
    simp only [Scope.table, hnone, hexternal]
  refine ⟨htable, ?_⟩
  rw [htable]
  exact Catalog.mem_order_add.mpr (.inr rfl)

/-- Where a record of the name is seen, such a record is what the name stands for, and
    nothing changes. -/
theorem table_of_seen (h : scope.WellFormed) (hseen : scope.SeesRecord (fold name) id) :
    ∃ record, scope.SeesRecord (fold name) record ∧ scope.table name = (record, scope) := by
  cases hfound : scope.declaredOfKind? name .record with
  | none => exact absurd hseen (not_seesRecord h hfound)
  | some record =>
    exact ⟨record, seesRecord_of_declaredOfKind? h hfound, by simp only [Scope.table, hfound]⟩

/-- A record that is seen is a record. -/
theorem SeesRecord.kind (h : scope.SeesRecord name id) : scope.graph.kind id = .record := by
  rcases h with ⟨frame, _, hsees⟩ | ⟨_, _, hkind⟩
  · cases hsees <;> assumption
  · exact hkind

end Scope

namespace Walk

/-- Where clauses with named subqueries stand in queries only, all tables of one name are the same
    in every state. -/
theorem tables_of_mem_run {document : Document} {grammar : Grammar} {schema : Schema}
    {state : Session} (hwith : grammar.dialect.WithInQueries (Tree.ofDocument document))
    (hstate : state ∈ Session.ofSchema schema :: visitMoments grammar.dialect
      (Tree.ofDocument document).size (Tree.ofDocument document).root (.ofSchema schema)) :
        state.scope.Tables := by
  have hstart : (Session.ofSchema schema).Tables := Scope.tables_ofSchema schema
  rcases List.mem_cons.mp hstate with rfl | hmoment
  · exact hstart
  · -- The root is no part of a query, so it is no clause with named subqueries.
    refine tables_visitMoments grammar.namesSubqueries hwith _ _ _ hstart (fun hclause => ?_)
      state hmoment
    have hparent := hwith _ hclause
    rw [Node.parent_root] at hparent
    cases hparent

/-- In any state of a run, a name that the schema resolves stands for the schema's table in a
    query, which becomes global by this, if and only if no record of that name is seen; and
    otherwise it stands for such a record, be it a named subquery, the record of a loop or a
    placeholder under an alias, and the schema's table stays as it is. Names that stand for
    anything but records make no difference. Where clauses with named subqueries stand in queries
    only, no such record is global. -/
theorem schema_table_unless_record (document : Document) (grammar : Grammar) (schema : Schema) :
    let tree := Tree.ofDocument document
    let start := Session.ofSchema schema
    ∀ state ∈ start :: visitMoments grammar.dialect tree.size tree.root start,
    ∀ name relation, schema.resolve? name = some relation →
      ∃ table, start.scope.external? name = some table ∧ relation.IsAt state.scope.graph table ∧
        ((∀ record, ¬ state.scope.SeesRecord (fold name) record) →
          state.scope.table name = (table, state.scope.declareGlobal table) ∧
          table ∈ (state.scope.table name).2.globals) ∧
        (∀ seen, state.scope.SeesRecord (fold name) seen →
          ∃ record, state.scope.SeesRecord (fold name) record ∧ record ≠ table ∧
            state.scope.table name = (record, state.scope)) ∧
        (grammar.dialect.WithInQueries tree → ∀ record ∈ state.scope.globals,
          state.scope.graph.name record = fold name → state.scope.graph.kind record ≠ .record) := by
  intro tree start state hstate name relation hresolve
  obtain ⟨hwell, hlater⟩ := wellFormed_later tree.root hstate
  obtain ⟨table, hexternal, hat⟩ := Scope.external?_of_resolve? hlater hresolve
  have hstart : start.scope.external? name = some table := by
    rwa [Scope.external?, hlater.external] at hexternal
  refine ⟨table, hstart, hat, Scope.table_of_unseen hwell.scope hexternal, fun seen hseen => ?_,
    fun hwith => ?_⟩
  · obtain ⟨record, hrecord, htable⟩ := Scope.table_of_seen hwell.scope hseen
    refine ⟨record, hrecord, ?_, htable⟩
    rintro rfl
    have hkind := hrecord.kind
    rw [hat.kind] at hkind
    cases hkind
  · intro record hglobal hname hkind
    -- At the outermost level the record would be the schema's table, which is a relation.
    have htables := tables_of_mem_run hwith hstate
    have hknown := (htables.of_external? hexternal).2.2.2
    have hnamed : record ∈ state.scope.tablesKnown (fold name) :=
      Scope.mem_tablesKnown.mpr
        (.inr (Scope.mem_tablesNamed.mpr ⟨hglobal, by rw [hkind]; rfl, hname⟩))
    rw [htables.agree _ record hnamed table hknown, hat.kind] at hkind
    cases hkind

/-- A variable of the given name. -/
def declaringVariable (name : String) : Document :=
  .inner "variable_declaration" [.identifier name]

/-- The schema with one table, `emp`. -/
def employees : Schema := .oneTable "emp" ["a"]

/-- A variable that is called like the table makes no difference. -/
theorem schema_table_unless_record_variable :
    let tree := Tree.ofDocument (declaringVariable "emp")
    let final := (visit Dialect.plsql tree.size tree.root (.ofSchema employees)).2
    final.scope.globals = [⟨2⟩] ∧ final.scope.graph.name ⟨2⟩ = "emp" ∧
    (final.scope.table "Emp").1 = ⟨0⟩ ∧
      ⟨0⟩ ∈ (final.scope.table "Emp").2.globals := by
  intro tree final
  have hglobals : final.scope.globals = [⟨2⟩] := by decide +kernel
  have hname : final.scope.graph.name ⟨2⟩ = "emp" := by decide +kernel
  have hkind : final.scope.graph.kind ⟨2⟩ = .var := by decide +kernel
  have hlevels : final.scope.frames.length = 0 := by decide +kernel
  have hresolve : employees.resolve? "Emp" = some ⟨"emp", .table, none, [⟨"a", none⟩]⟩ := by
    decide +kernel
  have hunseen : ∀ record, ¬ final.scope.SeesRecord (fold "Emp") record := by
    rintro record (⟨frame, hframe, _⟩ | ⟨hglobal, _, hrecord⟩)
    · rw [List.length_eq_zero_iff.mp hlevels] at hframe
      cases hframe
    · rw [hglobals, List.mem_singleton] at hglobal
      rw [hglobal, hkind] at hrecord
      cases hrecord
  have hfinal := (trail_visit Dialect.plsql tree.size tree.root (.ofSchema employees)).last_mem
  obtain ⟨table, hexternal, _, htable, _⟩ :=
    schema_table_unless_record (declaringVariable "emp") .plsql employees final hfinal
      "Emp" _ hresolve
  have hfirst : (Session.ofSchema employees).scope.external? "Emp" = some ⟨0⟩ := by decide +kernel
  cases hexternal.symm.trans hfirst
  obtain ⟨heq, hmem⟩ := htable hunseen
  exact ⟨hglobals, hname, congrArg Prod.fst heq, hmem⟩

/-- A loop over rows goes through the state in which its record has just been declared. -/
theorem declared_mem_moments {tree : Tree} {dialect : Dialect} {node record : Node tree}
    {sources body : List (Node tree)}
    (hparts : dialect.loopParts node = .overRows record sources body)
    (hrecord : record.isPresent = true) (walk : Node tree → Walk Unit)
    (inner : Node tree → Session → List Session) (session : Session) :
    (declare (.ofName (dialect.nameOf record) .record)
      { session with scope := session.scope.push (.body none) }).2 ∈
        (Script.loop dialect node).moments walk inner session := by
  simp only [Script.loop, hparts, hrecord, if_true]
  exact List.mem_cons_of_mem _
    (List.mem_append_left _ (List.mem_append_left _ (List.mem_singleton_self _)))

/-- A loop over the rows of a table. -/
def loopOverRows (record table : String) : Document :=
  .inner "loop_statement"
    [.inner "cursor_loop_param"
      [.segment record,
       .inner "select_statement"
        [.inner "query_block"
          [.inner "from_clause"
            [.inner "table_ref_aux" [.source table]]]]]]

/-- The state in which a loop over the rows of `emp` has declared its record, which is
    called `emp` too. -/
def recordDeclared : Session :=
  let noted : Session := { Session.ofSchema employees with visited := [0] }
  (declare (.ofName "emp" .record) { noted with scope := noted.scope.push (.body none) }).2

/-- Without any named subquery, the record of a loop keeps the table of the schema out of reach of
    the query that the loop goes over. -/
theorem loopRecord_hides_table :
    let tree := Tree.ofDocument (loopOverRows "emp" "emp")
    let start := Session.ofSchema employees
    (∀ node : Node tree, Dialect.plsql.binds node .withClause = false) ∧
      recordDeclared ∈ start :: visitMoments Dialect.plsql tree.size tree.root start ∧
      (recordDeclared.scope.table "emp").1 = ⟨2⟩ ∧
      recordDeclared.scope.external? "emp" = some ⟨0⟩ := by
  intro tree start
  refine ⟨by decide +kernel, ?_, by decide +kernel, by decide +kernel⟩
  let root : Node tree := .present ⟨0, by decide⟩
  let record : Node tree := .present ⟨2, by decide⟩
  have hrule : Dialect.plsql.rule? root.tag = some .loop := by decide +kernel
  have hparts : Dialect.plsql.loopParts root =
      .overRows record record.later (.present ⟨1, by decide⟩ : Node tree).later :=
    rfl
  have hname : Dialect.plsql.nameOf record = "emp" := by decide +kernel
  have hsize : tree.size = 10 := by decide +kernel
  have hmem := declared_mem_moments hparts rfl (visit Dialect.plsql 9)
    (visitMoments Dialect.plsql 9) { start with visited := [0] }
  rw [hname] at hmem
  refine List.mem_cons_of_mem _ ?_
  rw [hsize]
  show recordDeclared ∈ _ :: (nodeScript Dialect.plsql root).moments _ _ _
  rw [nodeScript, hrule]
  exact List.mem_cons_of_mem _ hmem

end Walk

end Lineage
