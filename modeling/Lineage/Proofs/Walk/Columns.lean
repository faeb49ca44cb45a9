import Lineage.Proofs.Scope.Columns
import Lineage.Proofs.Walk.Operations
import Lineage.Proofs.Walk.Steps

/-!
# Plain and qualified columns in every state

No rule opens the level of a query but that for queries, and this level starts without sources. So
in every state, whatever was done before, queries read from tables only. Where the innermost query
reads from one table, the plain and the qualified name of a column can then be compared.

## Key results

- `Script.opensNoQuery_ofRule`: rules leave it to queries to open the levels of queries
- `readsTables_visitMoments`: queries read from tables at all moments of a visit
- `plain_and_qualified_column`: the plain name of a column gives the first member of that name, the
  qualified one the latest, and these are one binding just where no other member has the name
-/

namespace Lineage.Walk

variable {tree : Tree} {dialect : Dialect} {levels : Nat} {α β ι : Type}

/-! ### Levels that scripts open -/

namespace Script

/-- The script itself opens no level of a query. -/
def OpensNoQuery : {α : Type} → Script tree α → Prop
  | _, within frame body => frame.isSelect = false ∧ body.OpensNoQuery
  | _, andThen first next => first.OpensNoQuery ∧ ∀ value, (next value).OpensNoQuery
  | _, _ => True

theorem StepsOf.opensNoQuery {node : Node tree} {rule : Rule} {script : Script tree α}
    (h : script.StepsOf dialect node rule) : script.OpensNoQuery := by
  induction script with
  | within frame body ih => exact ⟨h.1, ih h.2⟩
  | andThen first next ihfirst ihnext => exact ⟨ihfirst h.1, fun value => ihnext value (h.2 value)⟩
  | _ => trivial

/-- Rules leave it to queries to open the levels of queries. -/
theorem opensNoQuery_ofRule (node : Node tree) (rule : Rule) :
    (ofRule dialect node rule).OpensNoQuery :=
  (stepsOf_ofRule dialect node rule).opensNoQuery

/-- What queries read from stays tables throughout a script that opens no level of a
    query itself. -/
theorem OpensNoQuery.upholds
    (hbelow : ∀ (node : Node tree) (session : Session), session.scope.ReadsTables →
      ∀ moment ∈ visitMoments dialect levels node session, moment.scope.ReadsTables)
    {script : Script tree α} (h : script.OpensNoQuery) :
    script.Upholds dialect levels (·.scope.ReadsTables) (fun _ => True) fun _ _ => True := by
  have hclose : ∀ height finish (session : Session), session.scope.ReadsTables →
      (session.scope.unwind height finish).2.ReadsTables :=
    fun height finish _ hreads => hreads.unwind height finish
  have hvisits : ∀ nodes : List (Node tree),
      (Script.visits nodes).Upholds dialect levels (·.scope.ReadsTables) (fun _ => True) fun _ _ =>
        True := fun nodes =>
    .visits (fun node _ session hreads _ => hbelow node session hreads) fun _ _ _ _ _ _ _ => trivial
  induction script with
  | quiet walk hquiet =>
    exact .of_step (fun _ => rfl) (fun session hreads _ => hreads.learn (hquiet.learns session))
      fun _ _ _ _ _ _ => trivial
  | send id =>
    exact .of_step (fun _ => rfl) (fun session hreads _ => hreads.receiveAll [id])
      fun _ _ _ _ _ _ => trivial
  | flush position =>
    exact .of_step (fun _ => rfl) (fun session hreads _ => hreads.flushElement position)
      fun _ _ _ _ _ _ => trivial
  | closeArm =>
    refine .of_step (fun _ => rfl) (fun session hreads _ => ?_) fun _ _ _ _ _ _ => trivial
    rw [run_closeArm, closeArm_eq]
    split
    · exact hreads.pop
    · exact hreads
  | nextArm queries =>
    refine .of_step (fun _ => rfl) (fun session hreads _ => ?_) fun _ _ _ _ _ _ => trivial
    rw [run_nextArm, nextArm_eq]
    split
    · exact hreads
    · split
      · exact hreads.restartAssignment? queries
      · exact hreads
  | visits nodes => exact hvisits nodes
  | query parts =>
    -- The level of a query starts without sources.
    refine upholds_query
      (.within (fun _ => True) hclose (fun session hreads _ => ⟨hreads.push ?_, trivial⟩)
        (hvisits parts) fun _ _ _ _ _ _ => trivial)
    simp [Frame.query, Frame.ReadsTables, QueryScope.empty]
  | within frame body ih =>
    refine .within (fun _ => True) hclose
      (fun session hreads _ => ⟨hreads.push ?_, trivial⟩) (ih h.2) fun _ _ _ _ _ _ => trivial
    cases frame with
    | select query => cases h.1
    | _ => trivial
  | andThen first next ihfirst ihnext =>
    exact Upholds.bind (ihfirst h.1) fun value => ihnext value (h.2 value)

end Script

/-- At all moments of a visit queries read from tables only, if they do so before. -/
theorem readsTables_visitMoments (dialect : Dialect) (levels : Nat) (node : Node tree)
    {session : Session} (h : session.scope.ReadsTables) :
    ∀ moment ∈ visitMoments dialect levels node session, moment.scope.ReadsTables := by
  induction levels generalizing node session with
  | zero => simp [visitMoments]
  | succ levels ih =>
    cases node with
    | absent => simp [visitMoments]
    | present index =>
      have hnode : (nodeScript dialect (.present index : Node tree)).OpensNoQuery := by
        unfold nodeScript
        split
        · exact Script.opensNoQuery_ofRule _ _
        · trivial
      exact upholds_visit (hnode.upholds fun node session hreads => ih node hreads) h trivial

/-! ### States that can be built -/

/-- A level that the operation opens is no query, or is one that reads from tables. -/
def Operation.ReadsTables (graph : Graph) : Operation → Prop
  | push frame => frame.ReadsTables graph
  | _ => True

/-- An operation leaves queries that read from tables only, and goes through such states only. -/
theorem Operation.readsTables_moments {operation : Operation} {session : Session}
    (h : session.scope.ReadsTables) (hreads : operation.ReadsTables session.scope.graph) :
    (operation.run session).2.scope.ReadsTables ∧
      ∀ moment ∈ operation.moments session, moment.scope.ReadsTables := by
  -- All operations but rules and visits have one moment, the state after them.
  have hlearns : ∀ {after : Session}, session.scope.Learns after.scope →
      after.scope.ReadsTables ∧ ∀ moment ∈ [after], moment.scope.ReadsTables := fun hlearns =>
    ⟨h.learn hlearns, by simpa using h.learn hlearns⟩
  have hscope : ∀ {after : Session}, after.scope.ReadsTables →
      after.scope.ReadsTables ∧ ∀ moment ∈ [after], moment.scope.ReadsTables := fun hafter =>
    ⟨hafter, by simpa using hafter⟩
  cases operation with
  | add name kind comment position types => exact hlearns (Scope.learns_add _ _)
  | addChild parent child => exact hlearns (Scope.learns_addChild _ parent child)
  | addOutput source target => exact hlearns (Scope.learns_addOutput _ source target)
  | setComment id comment =>
    exact hscope fun frame hframe => (h frame hframe).extend (Graph.extends_setComment _ id comment)
  | childOrInsert parent name kind => exact hlearns (Scope.learns_childOrInsert _ parent name kind)
  | push frame => exact hscope (h.push hreads)
  | pop => exact hscope h.pop
  | unwind height finish => exact hscope (h.unwind height finish)
  | declare id => exact hlearns (Scope.Learns.refl.declare id)
  | declareGlobal id => exact hlearns (Scope.Learns.refl.declareGlobal id)
  | declareInnermost id => exact hscope (h.declareInnermost? id)
  | send id => exact hscope (h.receiveAll [id])
  | sendInnermost id =>
    have hafter : (offerInnermost id session).2.scope.ReadsTables := by
      unfold offerInnermost
      split
      · next hsent => exact h.receiveInnermost hsent
      · exact h
      · exact h
    exact hscope hafter
  | flushElement position => exact hscope (h.flushElement position)
  | restartAssignment queries => exact hscope (h.restartAssignment? queries)
  | renameSource relation aliasName =>
    exact hlearns (Scope.Learns.refl.renameSource relation aliasName)
  | apply dialect levels node rule =>
    have hopens : (Script.ofRule dialect node rule).OpensNoQuery :=
      Script.opensNoQuery_ofRule node rule
    have hscript := hopens.upholds fun node _ hreads =>
      readsTables_visitMoments dialect levels node hreads
    have hfinal := hscript.final h trivial
    rw [Script.run_ofRule] at hfinal
    exact ⟨hfinal, hscript.moments session h trivial⟩
  | visit dialect levels node =>
    have hmoments := readsTables_visitMoments dialect levels node h
    refine ⟨?_, hmoments⟩
    rcases List.mem_cons.mp (trail_visit dialect levels node session).last_mem with hsame | hmem
    · rw [Operation.run, hsame]
      exact h
    · exact hmoments _ hmem

/-- The states that can be built over a schema: by operations on ids that exist, those in the middle
    of an operation included, where the queries that are opened read from tables. -/
inductive Built (schema : Schema) : Session → Prop where
  | start : Built schema (.ofSchema schema)
  | after {session : Session} (operation : Operation) : Built schema session →
      operation.Allowed session.scope.graph → operation.ReadsTables session.scope.graph →
        Built schema (operation.run session).2
  | during {session moment : Session} (operation : Operation) : Built schema session →
      operation.Allowed session.scope.graph → operation.ReadsTables session.scope.graph →
        moment ∈ operation.moments session → Built schema moment

namespace Built

variable {schema : Schema} {session : Session}

theorem wellFormed (h : Built schema session) : session.WellFormed := by
  induction h with
  | start => exact Session.wellFormed_ofSchema schema
  | after operation _ hallowed _ ih => exact (Operation.wellFormed_moments ih hallowed).1
  | during operation _ hallowed _ hmoment ih =>
    exact (Operation.wellFormed_moments ih hallowed).2 _ hmoment

theorem readsTables (h : Built schema session) : session.scope.ReadsTables := by
  induction h with
  | start => exact fun frame hframe => by cases hframe
  | after operation _ _ hreads ih => exact (Operation.readsTables_moments ih hreads).1
  | during operation _ _ hreads hmoment ih =>
    exact (Operation.readsTables_moments ih hreads).2 _ hmoment

end Built

/-- In any state, let the innermost level that knows names be a query that reads from one table, and
    let a column of this table be meant by a plain name there. The plain name gives the first member
    of the table with that name. The name under a qualifier, a search among the members and one that
    would add the member all give the latest. So they agree just where the table has no other member
    of that name. -/
theorem plain_and_qualified_column {schema : Schema} {session : Session} (h : Built schema session)
    {query : QueryScope} {source : Source} (qualifier name : String) {id : BindingId}
    (hquery : session.scope.frames.find? Frame.knowsNames = some (.select query))
    (hsources : query.sources = [source])
    (hqualifier : fold qualifier = source.name session.scope.graph)
    (hother : fold name ≠ fold qualifier) (hdots : '.' ∉ qualifier.toList ∧ '.' ∉ name.toList)
    (hundeclared : query.catalog.named (fold qualifier) = [] ∧ query.catalog.named (fold name) = [])
    (hfound : query.resolve? session.scope.graph (fold name) (fun _ => true) = some id) :
    let scope := session.scope
    let members := scope.graph.membersNamed source.relation (fold name)
    ∃ last, members.head? = some id ∧ members.getLast? = some last ∧
      scope.resolve? (.ofName name) = some id ∧
      scope.resolve? (.parse (qualifier ++ "." ++ name)) =
        some (if fold qualifier = "" then id else last) ∧
      scope.graph.childNamed? source.relation name none = some last ∧
      (∀ kind, scope.childOrInsert source.relation name kind = (last, scope)) ∧
      (last = id ↔ members = [id]) := by
  intro scope members
  have hname : fold name ≠ source.name scope.graph := hqualifier ▸ hother
  have hfirst : members.head? = some id := by
    rw [← Source.column?_eq, ← QueryScope.resolve?_column hsources hundeclared.2 hname]
    exact hfound
  have hplain : scope.resolve? (.ofName name) = some id :=
    Scope.resolvePlain?_column hquery hsources hundeclared.2 hname hfirst false
  obtain ⟨last, hlast⟩ : ∃ last, members.getLast? = some last := by
    obtain ⟨rest, hmembers⟩ := List.head?_eq_some_iff.mp hfirst
    exact ⟨_, List.getLast?_eq_some_getLast (by simp [hmembers])⟩
  have hqualified : scope.resolve? (.parse (qualifier ++ "." ++ name)) =
      some (if fold qualifier = "" then id else last) := by
    rw [QualifiedName.parse_dot hdots.1 hdots.2]
    split
    · exact hplain
    · have hunder :=
        Scope.resolveUnder?_column hquery hsources h.readsTables (hqualifier ▸ hundeclared.1)
          false (fold name)
      rw [hqualifier, ← hlast]
      exact hunder
  have hnodup : members.Nodup := h.wellFormed.scope.graph.nodup_membersNamed _ _
  refine ⟨last, hfirst, hlast, hplain, hqualified, (scope.graph.childNamed?_eq _ _).trans hlast,
    fun kind => ?_, last_eq_first_iff hnodup hfirst hlast⟩
  rw [Scope.childOrInsert, Graph.childOrInsert_of_getLast? hlast]

/-- The state inside a query that reads from the first table of the schema, under the name `s`. -/
def insideQuery (schema : Schema) : Session :=
  let opened := ((Operation.push .query).run (.ofSchema schema)).2
  let reading := ((Operation.send ⟨0⟩).run opened).2
  ((Operation.renameSource ⟨0⟩ (some "s")).run reading).2

theorem plain_and_qualified_column_second :
    let schema : Schema := .oneTable "t" ["a", "b"]
    let scope := (insideQuery schema).scope
    scope.graph.membersNamed ⟨0⟩ "b" = [⟨2⟩] ∧ scope.resolve? (.ofName "B") = some ⟨2⟩ ∧
      scope.resolve? (.parse ("S" ++ "." ++ "B")) = some ⟨2⟩ ∧
      scope.graph.childNamed? ⟨0⟩ "B" none = some ⟨2⟩ := by
  intro schema scope
  have hopened : Built schema ((Operation.push .query).run (.ofSchema schema)).2 :=
    .after _ .start ⟨Graph.holds_nil _, fun catalog hcatalog =>
      ⟨[], Graph.holds_nil _, List.mem_singleton.mp hcatalog⟩⟩
      fun source hsource => by cases hsource
  have hreading := Built.after (.send ⟨0⟩) hopened
    ⟨by decide +kernel, by simp [Operation.catalogs]⟩ trivial
  have hbuilt : Built schema (insideQuery schema) := .after (.renameSource ⟨0⟩ (some "s")) hreading
    ⟨by decide +kernel, by simp [Operation.catalogs]⟩ trivial
  have hfolded : fold "B" = "b" := by decide +kernel
  have hone : scope.graph.membersNamed ⟨0⟩ (fold "B") = [⟨2⟩] := by decide +kernel
  let query : QueryScope := ⟨.empty, [⟨⟨0⟩, some "s"⟩]⟩
  have hquery : scope.frames.find? Frame.knowsNames = some (.select query) := rfl
  have hfound : query.resolve? scope.graph (fold "B") (fun _ => true) = some ⟨2⟩ := by
    decide +kernel
  obtain ⟨last, _, _, hplain, hqualified, hmember, _, hagree⟩ :=
    plain_and_qualified_column hbuilt "S" "B" hquery rfl (by decide +kernel)
      (by decide +kernel) (by decide) ⟨by decide +kernel, by decide +kernel⟩ hfound
  obtain rfl : last = ⟨2⟩ := hagree.mpr hone
  rw [if_neg (by decide +kernel)] at hqualified
  exact ⟨hfolded ▸ hone, hplain, hqualified, hmember⟩

/-- Where the schema lists a column twice, its plain name and its qualified name are two
    different bindings. -/
theorem repeated_column_splits :
    let schema : Schema := .oneTable "t" ["a", "a"]
    let scope := (insideQuery schema).scope
    scope.resolve? (.ofName "a") = some ⟨1⟩ ∧ scope.resolve? (.parse "s.a") = some ⟨2⟩ ∧
      scope.graph.childNamed? ⟨0⟩ "a" none = some ⟨2⟩ := by
  decide +kernel

end Lineage.Walk
