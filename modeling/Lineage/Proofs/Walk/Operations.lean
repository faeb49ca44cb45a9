import Lineage.Analyze
import Lineage.Proofs.Tree.Links
import Lineage.Proofs.Walk.WellFormed

/-!
# Everything that can be done to a state

An `Operation` is one thing that can be done to the state of an analysis: to its graph, to its
levels, or by a rule of the analysis, which goes through many states. Operations that fail leave a
state too, and others may follow. This file shows what holds of all states that are reached in this
way.

## Key results

- `operations_extend`: the graph at any moment extends the graph at any earlier moment
- `reachable_wellFormed`: all states that can be reached are well-formed
-/

namespace Lineage.Walk

/-- Something that can be done to the state of an analysis. -/
inductive Operation where
  | add (name : String) (kind : Binding.Kind) (comment : Option String) (position : Option Nat)
      (types : List String)
  | addChild (parent child : BindingId)
  | addOutput (source target : BindingId)
  | setComment (id : BindingId) (comment : String)
  | childOrInsert (parent : BindingId) (name : String) (kind : Binding.Kind)
  | push (frame : Frame)
  | pop
  | unwind (height : Nat) (finish : Bool)
  | declare (id : BindingId)
  | declareGlobal (id : BindingId)
  | declareInnermost (id : BindingId)
  | send (id : BindingId)
  | sendInnermost (id : BindingId)
  | flushElement (position : Nat)
  | restartAssignment (queries : Nat)
  | renameSource (relation : BindingId) (aliasName : Option String)
  /-- A rule is applied to a node, whatever the rule of its tag is. -/
  | apply {tree : Tree} (dialect : Dialect) (levels : Nat) (node : Node tree) (rule : Rule)
  | visit {tree : Tree} (dialect : Dialect) (levels : Nat) (node : Node tree)

namespace Operation

/-- Offers a binding to the innermost level alone. -/
def offerInnermost (id : BindingId) : Walk Unit := fun session =>
  match session.scope.receiveInnermost id with
  | .ok (some scope) => (.ok (), { session with scope })
  | .ok none => (.ok (), session)
  | .error error => (.error error, session)

/-- The operation as a walk. -/
def run : Operation → Walk Unit
  | add name kind comment position types =>
    changeScope fun scope =>
      (scope.add { Binding.ofName name kind with comment, position, types }).2
  | addChild parent child => changeScope (·.addChild parent child)
  | addOutput source target => changeScope (·.addOutput source target)
  | setComment id comment =>
    changeScope fun scope => { scope with graph := scope.graph.setComment id comment }
  | childOrInsert parent name kind =>
    changeScope fun scope => (scope.childOrInsert parent name kind).2
  | push frame => changeScope (·.push frame)
  | pop => attempt Scope.pop
  | unwind height finish => attempt (·.unwind height finish)
  | declare id => changeScope (·.declare id)
  | declareGlobal id => changeScope (·.declareGlobal id)
  | declareInnermost id => changeScope fun scope => (scope.declareInnermost? id).getD scope
  | send id => produce id
  | sendInnermost id => offerInnermost id
  | flushElement position => attempt (·.flushElement position)
  | restartAssignment queries =>
    changeScope fun scope => (scope.restartAssignment? queries).getD scope
  | renameSource relation aliasName =>
    changeScope fun scope => (scope.renameSource? relation aliasName).getD scope
  | apply dialect levels node rule => Walk.apply dialect (Walk.visit dialect levels) node rule
  | visit dialect levels node => Walk.visit dialect levels node

/-- The states that the operation goes through, in order. -/
def moments : Operation → Session → List Session
  | apply dialect levels node rule, session =>
    (Script.ofRule dialect node rule).moments (Walk.visit dialect levels)
      (visitMoments dialect levels) session
  | visit dialect levels node, session => visitMoments dialect levels node session
  | operation, session => [(operation.run session).2]

/-- The states that operations go through, one operation after the other, whether
    they fail or not. -/
def momentsOfAll : List Operation → Session → List Session
  | [], _ => []
  | operation :: rest, session =>
    operation.moments session ++ momentsOfAll rest (operation.run session).2

/-- The binding whose comment the operation sets. -/
def commented? : Operation → Option BindingId
  | setComment id _ => some id
  | _ => none

/-! ### The graph only grows -/

theorem grows_sendInnermost (id : BindingId) (session : Session) :
    session.scope.graph.Grows (offerInnermost id session).2.scope.graph := by
  unfold offerInnermost
  split
  · next scope hsent =>
    rcases Scope.exists_of_receiveInnermost hsent with rfl | ⟨_, _, _, _, _, hreceive, rfl⟩
    · exact .refl
    · exact Frame.grows_of_receive hreceive
  · exact .refl
  · exact .refl

theorem grows_declareInnermost (id : BindingId) (scope : Scope) :
    scope.graph.Grows ((scope.declareInnermost? id).getD scope).graph := by
  unfold Scope.declareInnermost?
  cases scope.frames with
  | nil => exact .refl
  | cons frame rest =>
    cases hdeclare : frame.declare? scope.graph id with
    | none =>
      simp only [hdeclare]
      exact .refl
    | some declared =>
      simp only [hdeclare]
      exact Frame.grows_of_declare? hdeclare

theorem graph_restartAssignment (queries : Nat) (scope : Scope) :
    ((scope.restartAssignment? queries).getD scope).graph = scope.graph := by
  unfold Scope.restartAssignment?
  cases scope.pendingAssignment? queries <;> rfl

theorem root_sendInnermost (id : BindingId) (session : Session) :
    (offerInnermost id session).2.scope.root = session.scope.root := by
  unfold offerInnermost
  split
  · next scope hsent =>
    rcases Scope.exists_of_receiveInnermost hsent with rfl | ⟨_, _, _, _, _, _, rfl⟩ <;> rfl
  · rfl
  · rfl

theorem later_declareInnermost (id : BindingId) (scope : Scope) :
    scope.Later ((scope.declareInnermost? id).getD scope) := by
  have hgrows := grows_declareInnermost id scope
  cases hframes : scope.frames with
  | nil =>
    simp only [Scope.declareInnermost?, hframes]
    exact scope.later_declareGlobal id
  | cons frame rest =>
    refine .of_root hgrows ?_
    unfold Scope.declareInnermost?
    rw [hframes]
    cases hdeclare : frame.declare? scope.graph id <;> simp [hdeclare]

/-- An operation ends in the last of its moments. Unless it sets a comment, each moment comes later
    than the ones before. -/
theorem trail {operation : Operation} (h : operation.commented? = none) (session : Session) :
    Trail session (operation.moments session) (operation.run session).2 := by
  cases operation with
  | add name kind comment position types => exact .single (.of_root (.push _ .refl) rfl)
  | addChild parent child => exact .single (.of_root (.addChild parent child .refl) rfl)
  | addOutput source target => exact .single (.of_root (.addOutput source target .refl) rfl)
  | setComment id comment => simp [commented?] at h
  | childOrInsert parent name kind =>
    exact .single (.of_root (Graph.grows_childOrInsert _ parent name kind) rfl)
  | push frame => exact .single (.of_root .refl rfl)
  | pop => exact .single (.of_root session.scope.grows_pop session.scope.root_pop)
  | unwind height finish =>
    exact .single
      (.of_root (session.scope.grows_unwind height finish)
        (session.scope.root_unwind height finish))
  | declare id => exact .single (session.scope.later_declare id)
  | declareGlobal id => exact .single (session.scope.later_declareGlobal id)
  | declareInnermost id => exact .single (later_declareInnermost id session.scope)
  | send id =>
    exact .single
      (.of_root (Scope.grows_receiveAll [id] session.scope)
        (Scope.root_receiveAll [id] session.scope))
  | sendInnermost id =>
    exact .single (.of_root (grows_sendInnermost id session) (root_sendInnermost id session))
  | flushElement position =>
    exact .single
      (.of_root (session.scope.grows_flushElement position)
        (session.scope.root_flushElement position))
  | restartAssignment queries =>
    have hsame := graph_restartAssignment queries session.scope
    exact .single (.of_root (hsame ▸ .refl) (session.scope.root_restartAssignment? queries))
  | renameSource relation aliasName =>
    have hsame := session.scope.graph_renameSource? relation aliasName
    exact .single (.of_root (hsame ▸ .refl) (session.scope.root_renameSource? relation aliasName))
  | apply dialect levels node rule =>
    have htrail := (Script.ofRule dialect node rule).trail (trail_visit dialect levels) session
    rwa [Script.run_ofRule] at htrail
  | visit dialect levels node => exact trail_visit dialect levels node session

/-- From any moment of an operation to any later one the graph is extended, and so it
    is to the end. -/
theorem extends_moments (operation : Operation) (session : Session) :
    ((session :: operation.moments session).Pairwise fun earlier later =>
      earlier.scope.graph.Extends operation.commented?.toList later.scope.graph) ∧
    ∀ moment ∈ session :: operation.moments session,
      moment.scope.graph.Extends operation.commented?.toList
        (operation.run session).2.scope.graph := by
  cases hcommented : operation.commented? with
  | none =>
    have htrail := trail hcommented session
    exact ⟨htrail.pairwise.imp fun hlater => Graph.extends_of_grows hlater.grows,
        fun moment hmoment =>
      Graph.extends_of_grows (htrail.later_last moment hmoment).grows⟩
  | some id =>
    cases operation with
    | setComment other comment =>
      obtain rfl : other = id := Option.some.inj hcommented
      have hextends := session.scope.graph.extends_setComment other comment
      exact ⟨List.pairwise_pair.mpr hextends,
          List.forall_mem_cons.mpr ⟨hextends, fun moment hmoment => by
        rw [List.mem_singleton.mp hmoment]
        exact .refl _ _⟩⟩
    | _ => simp [commented?] at hcommented

end Operation

/-- Nothing in the graph is ever lost, whatever is done and whether or not it fails. The graph at
    any moment extends the graph at any earlier moment: each binding keeps its id, name, kind,
    position and types, and the members and outputs that it had come first, in their order. Comments
    change only where they are set. -/
theorem operations_extend (operations : List Operation) (session : Session) :
    (session :: Operation.momentsOfAll operations session).Pairwise fun earlier later =>
      earlier.scope.graph.Extends (operations.filterMap Operation.commented?)
        later.scope.graph := by
  induction operations generalizing session with
  | nil => simp [Operation.momentsOfAll]
  | cons operation rest ih =>
    obtain ⟨hmoments, hlast⟩ := operation.extends_moments session
    obtain ⟨hfirst, hrest⟩ := List.pairwise_cons.mp (ih (operation.run session).2)
    have hown : operation.commented?.toList ⊆ (operation :: rest).filterMap
        Operation.commented? := by
      cases hcommented : operation.commented? <;> simp [hcommented]
    have hlater : rest.filterMap Operation.commented? ⊆ (operation :: rest).filterMap
        Operation.commented? := by
      rw [List.filterMap_cons]
      split
      · exact List.Subset.refl _
      · exact List.subset_cons_self _ _
    rw [Operation.momentsOfAll, ← List.cons_append, List.pairwise_append]
    refine ⟨hmoments.imp fun h => h.mono hown, hrest.imp fun h => h.mono hlater, ?_⟩
    -- Between a moment of this operation and one of a later operation lies the state in between.
    intro earlier hearlier later hmem
    exact ((hlast earlier hearlier).mono hown).trans ((hfirst later hmem).mono hlater)

/-! ### States that can be reached -/

namespace Operation

/-- The ids that the operation is given. -/
def ids : Operation → List BindingId
  | addChild parent child => [parent, child]
  | addOutput source target => [source, target]
  | setComment id _ | declare id | declareGlobal id | declareInnermost id | send
      id | sendInnermost id => [id]
  | childOrInsert parent _ _ => [parent]
  | push frame => frame.ids
  | renameSource relation _ => [relation]
  | _ => []

/-- The catalogs that the operation is given. -/
def catalogs : Operation → List Catalog
  | push frame => frame.catalogs
  | _ => []

/-- The operation is given ids that exist, and catalogs in which such ids were declared. -/
structure Allowed (graph : Graph) (operation : Operation) : Prop where
  ids : graph.Holds operation.ids
  catalogs : ∀ catalog ∈ operation.catalogs,
    ∃ declared, graph.Holds declared ∧ catalog = declared.foldl (·.add graph) .empty

theorem wellFormed_sendInnermost {session : Session} (h : session.WellFormed) {id : BindingId}
    (hid : session.scope.graph.contains id = true) : (offerInnermost id session).2.WellFormed := by
  have hgrows := grows_sendInnermost id session
  unfold offerInnermost at hgrows ⊢
  split
  · next hsent =>
    rw [hsent] at hgrows
    exact h.withScope (h.scope.receiveInnermost hid hsent) hgrows
  · exact h
  · exact h

/-- An operation on ids that exist leaves a well-formed state, and goes through
    well-formed states only. -/
theorem wellFormed_moments {operation : Operation} {session : Session} (h : session.WellFormed)
    (hallowed : operation.Allowed session.scope.graph) :
    (operation.run session).2.WellFormed ∧ ∀ moment ∈ operation.moments session,
    moment.WellFormed := by
  have hids := hallowed.ids
  -- Most operations are one step on the scope, and the state after it is their only moment.
  have hscope : ∀ {scope : Scope}, scope.WellFormed → session.scope.graph.Grows scope.graph →
      { session with scope }.WellFormed ∧ ∀ moment ∈ [{ session with scope }],
      moment.WellFormed := by
    intro scope hwell hgrows
    have hafter := h.withScope hwell hgrows
    exact ⟨hafter, by simpa using hafter⟩
  cases operation with
  | add name kind comment position types =>
    have hbinding : { Binding.ofName name kind with comment, position, types }.WellFormed
        session.scope.graph :=
      { Binding.wellFormed_ofName _ name kind with }
    exact hscope (h.scope.add hbinding).1 (.push _ .refl)
  | addChild parent child =>
    exact hscope (h.scope.addChild parent (hids child (by simp [Operation.ids])))
      (.addChild parent child .refl)
  | addOutput source target =>
    exact hscope (h.scope.addOutput source (hids target (by simp [Operation.ids])))
      (.addOutput source target .refl)
  | setComment id comment =>
    have hafter : ((setComment id comment).run session).2.WellFormed :=
      ⟨h.scope.setComment id comment, h.hoisted.extend (Graph.extends_setComment _ id comment)⟩
    exact ⟨hafter, by simpa [moments] using hafter⟩
  | childOrInsert parent name kind =>
    exact hscope (h.scope.childOrInsert parent name kind).1
      (Graph.grows_childOrInsert _ parent name kind)
  | push frame =>
    refine hscope (h.scope.push ⟨hids, fun catalog hcatalog => ?_⟩) .refl
    obtain ⟨declared, hdeclared, rfl⟩ := hallowed.catalogs catalog hcatalog
    exact (Catalog.wellFormed_empty _).addAll hdeclared
  | pop => exact hscope h.scope.pop session.scope.grows_pop
  | unwind height finish =>
    exact hscope (h.scope.unwind height finish) (session.scope.grows_unwind height finish)
  | declare id =>
    exact hscope (h.scope.declare (hids id (by simp [Operation.ids])))
      (session.scope.grows_declare id)
  | declareGlobal id =>
    exact hscope (h.scope.declareGlobal (hids id (by simp [Operation.ids]))) .refl
  | declareInnermost id =>
    have hafter : ((session.scope.declareInnermost? id).getD session.scope).WellFormed := by
      cases hdeclared : session.scope.declareInnermost? id with
      | none => exact h.scope
      | some after => exact h.scope.declareInnermost? (hids id (by simp [Operation.ids])) hdeclared
    exact hscope hafter (grows_declareInnermost id session.scope)
  | send id =>
    exact hscope (h.scope.receiveAll (Graph.holds_singleton (hids id (by simp [Operation.ids]))))
      (Scope.grows_receiveAll [id] session.scope)
  | sendInnermost id =>
    have hafter : ((sendInnermost id).run session).2.WellFormed :=
      wellFormed_sendInnermost h (hids id (by simp [Operation.ids]))
    exact ⟨hafter, by simpa [moments] using hafter⟩
  | flushElement position =>
    exact hscope (h.scope.flushElement position) (session.scope.grows_flushElement position)
  | restartAssignment queries =>
    have hsame := graph_restartAssignment queries session.scope
    exact hscope (h.scope.restartAssignment? queries) (hsame ▸ .refl)
  | renameSource relation aliasName =>
    have hsame := session.scope.graph_renameSource? relation aliasName
    exact hscope (h.scope.renameSource? relation aliasName) (hsame ▸ .refl)
  | apply dialect levels node rule =>
    have hscript : (Script.ofRule dialect node rule).Sound dialect levels [] fun _ => [] :=
      Script.sound_ofRule (fun node _ hwell => wellFormed_visitMoments dialect levels node hwell)
        node rule
    have hfinal := hscript.final h (Graph.holds_nil _)
    rw [Script.run_ofRule] at hfinal
    exact ⟨hfinal, hscript.moments session h (Graph.holds_nil _)⟩
  | visit dialect levels node =>
    have hmoments := wellFormed_visitMoments dialect levels node h
    have hlast := (trail_visit dialect levels node session).last_mem
    exact ⟨List.forall_mem_cons.mpr ⟨h, hmoments⟩ _ hlast, hmoments⟩

end Operation

/-- The states that can be reached over a schema by operations on ids that exist, those in the
    middle of an operation included. -/
inductive Reachable (schema : Schema) : Session → Prop where
  | start : Reachable schema (.ofSchema schema)
  | after {session : Session} (operation : Operation) : Reachable schema session →
      operation.Allowed session.scope.graph → Reachable schema (operation.run session).2
  | during {session moment : Session} (operation : Operation) : Reachable schema session →
      operation.Allowed session.scope.graph → moment ∈ operation.moments session →
      Reachable schema moment

theorem Reachable.push {schema : Schema} {session : Session} (h : Reachable schema session)
    {frame : Frame} (hids : session.scope.graph.Holds frame.ids)
    (hcatalogs : frame.catalogs = []) : Reachable schema ((Operation.push frame).run session).2 :=
  .after _ h ⟨hids, by simp [Operation.catalogs, hcatalogs]⟩

theorem Reachable.query {schema : Schema} {session : Session} (h : Reachable schema session) :
    Reachable schema ((Operation.push (.select .empty)).run session).2 :=
  .after _ h ⟨Graph.holds_nil _, fun _ hcatalog =>
    ⟨[], Graph.holds_nil _, List.mem_singleton.mp hcatalog⟩⟩

/-- The state in which values are expected for the given columns of the only table. -/
def expecting (columns : List BindingId) : Session :=
  ((Operation.push (.multipleAssignment columns 0)).run (.ofSchema (.oneTable "t" ["a", "b"]))).2

theorem reachable_expecting {columns : List BindingId}
    (h : (Scope.ofSchema (.oneTable "t" ["a", "b"])).graph.Holds columns) :
    Reachable (.oneTable "t" ["a", "b"]) (expecting columns) :=
  Reachable.start.push h rfl

/-- All states that can be reached are well-formed: every id in the members and outputs of bindings,
    in the catalogs and frames, among the tables of the schema and among the routines declared ahead
    is that of a binding, no binding has a member or an output twice, all names are folded, and
    every catalog is indexed by the names of its bindings. The root is the outermost level and no
    other level is a root. -/
theorem reachable_wellFormed {schema : Schema} {session : Session} (h : Reachable schema session) :
    session.WellFormed ∧ ∃ inner, session.scope.roles = "root" :: inner ∧ "root" ∉ inner := by
  have hwell : session.WellFormed := by
    induction h with
    | start => exact Session.wellFormed_ofSchema schema
    | after operation _ hallowed ih => exact (Operation.wellFormed_moments ih hallowed).1
    | during operation _ hallowed hmoment ih =>
      exact (Operation.wellFormed_moments ih hallowed).2 _ hmoment
  refine ⟨hwell, _, rfl, ?_⟩
  simp only [List.mem_reverse, List.mem_map, not_exists, not_and]
  intro frame _
  cases frame <;> simp [Frame.role]

/-- A query block whose select list has two elements. -/
def twoValues : Document :=
  .inner "query_block"
    [.inner "selected_list" [.inner "select_list_elements" [], .inner "select_list_elements" []]]

/-- The state after `twoValues` was visited with one target for its two values is well-formed,
    though the visit fails. -/
theorem reachable_wellFormed_twoValues :
    let tree := Tree.ofDocument twoValues
    let schema : Schema := .oneTable "t" ["a"]
    let declared := ((Operation.add "x" .var none none []).run (.ofSchema schema)).2
    let waiting := ((Operation.push (.multipleAssignment [⟨2⟩] 0)).run declared).2
    let outcome := visit Dialect.plsql tree.size tree.root waiting
    outcome.1 = .error (.pairing (.surplus 1) ⟨"selected_list", none, none⟩) ∧
      outcome.2.WellFormed ∧ ∃ inner, outcome.2.scope.roles = "root" :: inner ∧ "root" ∉ inner := by
  intro tree schema declared waiting outcome
  have hdeclared : Reachable schema declared :=
    .after _ .start ⟨Graph.holds_nil _, by simp [Operation.catalogs]⟩
  have hwaiting : Reachable schema waiting :=
    hdeclared.push (by decide +kernel) rfl
  exact ⟨by decide +kernel,
    reachable_wellFormed (.after (.visit Dialect.plsql tree.size tree.root) hwaiting
      ⟨Graph.holds_nil _, by simp [Operation.catalogs]⟩)⟩

end Lineage.Walk
