import Lineage.Proofs.Scope.Names
import Lineage.Proofs.Walk.Modest
import Lineage.Proofs.Walk.WellFormed

/-!
# The declarations of routines and cursors

Routines and cursors bring their parameters with them. A `Declaration` says for which node a routine
or cursor was declared and which parameters were added for it, and a list of declarations is kept as
`Books` of a state if it accounts for all routines and all parameters of the graph, with one entry
for a node at most.

## Key results

- `get_declareNew`: a new declaration starts without members
- `Books.idle`: steps that add neither routines nor parameters leave the books as they are
- `exists_adds`: parameters are added in the order of the formal parameters
- `parameters_of_books`: the parameters of a routine that is in the books are not added again
- `books_declare`, `books_parameters`: a new routine or cursor is entered with its parameters
- `exists_hoists_forM`: the routines of a package are entered in order
-/

namespace Lineage

/-! ### New declarations -/

namespace Scope

/-- A new declaration is the binding that was declared, with no members yet. -/
theorem get_declareNew {scope : Scope} (hwell : scope.WellFormed) (binding : Binding) :
    (scope.declareNew binding).2.graph.get scope.graph.nextId = binding := by
  show ((scope.add binding).2.declare scope.graph.nextId).graph.get scope.graph.nextId = binding
  rcases (scope.add binding).2.graph_declare scope.graph.nextId with
      hsame | ⟨owner, ⟨frame, hframe, howner⟩, hadded⟩
  · rw [hsame]
    exact Graph.get_push_nextId _ _
  · -- The owner of a body is an older binding than the one that is declared in it.
    have hold : scope.graph.contains owner = true := (hwell.frames frame hframe).ids owner howner
    have hne : scope.graph.nextId ≠ owner := by
      rintro rfl
      exact Nat.lt_irrefl _ (Graph.contains_iff.mp hold)
    rw [hadded, Graph.get_addChild_of_ne _ hne]
    exact Graph.get_push_nextId _ _

theorem ofKind_declareNew (scope : Scope) (binding : Binding) (kind : Binding.Kind) :
    (scope.declareNew binding).2.graph.ofKind kind =
      scope.graph.ofKind kind ++ if binding.kind = kind then [scope.graph.nextId] else [] := by
  have hpush : (scope.graph.push binding).ofKind kind = _ := scope.graph.ofKind_push binding
  show ((scope.add binding).2.declare scope.graph.nextId).graph.ofKind kind = _
  rcases (scope.add binding).2.graph_declare scope.graph.nextId with hsame | ⟨owner, _, hadded⟩
  · rw [hsame]
    exact hpush
  · rw [hadded, Graph.ofKind_addChild]
    exact hpush

end Scope

/-! ### Declarations -/

/-- The routine that was declared ahead for a node. -/
def Session.ahead? {tree : Tree} (session : Session) (node : Node tree) : Option BindingId :=
  node.index?.bind fun index => session.hoisted.lookup index

/-- The formal parameters of a routine or cursor. -/
def Dialect.formalsOf {tree : Tree} (dialect : Dialect) (node : Node tree) : List (Node tree) :=
  let tags := dialect.vocabulary.declarations
  dialect.parametersOf node
  (if dialect.binds node .cursor then tags.cursorParameter else tags.parameter)

/-- A routine or cursor was declared for a node, and parameters were added for it. -/
structure Declaration (tree : Tree) where
  node : Node tree
  id : BindingId
  parameters : List BindingId

namespace Declaration

variable {tree : Tree} {dialect : Dialect} {before after graph : Graph}

/-- The node and the binding of a declaration. -/
def label (declaration : Declaration tree) : Node tree × BindingId :=
  (declaration.node, declaration.id)

/-- The binding is a parameter at the position, and goes by the name of the formal parameter. -/
structure Stands.Parameter (dialect : Dialect) (graph : Graph) (formal : Node tree) (position : Nat)
    (id : BindingId) : Prop where
  known : graph.contains id = true
  kind : graph.kind id = .parameter
  position : (graph.get id).position = some position
  name : ∃ name, dialect.declaredName? formal = some name ∧ graph.name id = fold name

/-- The declaration stands in the graph: a binding of its kind goes by the name that the node
    declares, its first members are the parameters, and each of these is the parameter at its place
    among the formal ones. -/
structure Stands (dialect : Dialect) (graph : Graph) (declaration : Declaration tree) : Prop where
  known : graph.contains declaration.id = true
  kind : (dialect.binds declaration.node .routine = true ∧ graph.kind declaration.id = .routine) ∨
    (dialect.binds declaration.node .cursor = true ∧ graph.kind declaration.id = .cursor)
  name : ∃ name, dialect.declaredName? declaration.node = some name ∧
    graph.name declaration.id = fold name
  attached : declaration.parameters <+: graph.children declaration.id
  parameter : ∀ place id, declaration.parameters[place]? = some id →
    ∃ formal, (dialect.formalsOf declaration.node)[place]? = some formal ∧
      Stands.Parameter dialect graph formal place id

/-- All formal parameters were added. -/
def Complete (dialect : Dialect) (declaration : Declaration tree) : Prop :=
  declaration.parameters.length = (dialect.formalsOf declaration.node).length

theorem Stands.Parameter.grow {formal : Node tree} {position : Nat} {id : BindingId}
    (h : Stands.Parameter dialect before formal position id) (hgrows : before.Grows after) :
    Stands.Parameter dialect after formal position id where
  known := hgrows.contains h.known
  kind := (hgrows.kind h.known).trans h.kind
  position := ((Graph.extends_of_grows hgrows).binding id h.known).position.trans h.position
  name := by rw [hgrows.name h.known]; exact h.name

/-- A declaration that once stands in a graph does ever after. -/
theorem Stands.grow {declaration : Declaration tree} (h : declaration.Stands dialect before)
    (hgrows : before.Grows after) : declaration.Stands dialect after where
  known := hgrows.contains h.known
  kind := by rw [hgrows.kind h.known]; exact h.kind
  name := by rw [hgrows.name h.known]; exact h.name
  attached :=
    h.attached.trans ((Graph.extends_of_grows hgrows).binding declaration.id h.known).children
  parameter place id hid := by
    obtain ⟨formal, hformal, hstands⟩ := h.parameter place id hid
    exact ⟨formal, hformal, hstands.grow hgrows⟩

end Declaration

/-- The declarations account for all routines and all parameters of the state, in the order in which
    they were added. There is one for a node at most, each of them stands, and what was declared
    ahead is among them and complete. -/
structure Books {tree : Tree} (dialect : Dialect) (ledger : List (Declaration tree))
    (session : Session) : Prop where
  routines : session.scope.graph.ofKind .routine =
    (ledger.filter fun entry => dialect.binds entry.node .routine).map (·.id)
  parameters : session.scope.graph.ofKind .parameter = ledger.flatMap (·.parameters)
  distinct : (ledger.map (·.node)).Nodup
  stands : ∀ entry ∈ ledger, entry.Stands dialect session.scope.graph
  hoisted : ∀ node id, session.ahead? node = some id →
    ∃ entry ∈ ledger, entry.node = node ∧ entry.id = id ∧ entry.Complete dialect

namespace Books

variable {tree : Tree} {dialect : Dialect} {ledger : List (Declaration tree)}
  {before after session : Session} {entry : Declaration tree}

/-- Steps that add neither routines nor parameters leave the books as they are. -/
theorem idle (h : Books dialect ledger before) (hidle : Walk.Idle before after) :
    Books dialect ledger after where
  routines := (hidle.grows.ofKind (by decide)).trans h.routines
  parameters := (hidle.grows.ofKind (by decide)).trans h.parameters
  distinct := h.distinct
  stands entry hentry := (h.stands entry hentry).grow hidle.grows.grows
  hoisted node id hahead := h.hoisted node id (by rwa [Session.ahead?, hidle.hoisted] at hahead)

/-- A declaration for a node that has none yet is entered. -/
theorem enter (h : Books dialect ledger before) (hnew : entry.node ∉ ledger.map (·.node))
    (hstands : entry.Stands dialect after.scope.graph)
    (hgrows : before.scope.graph.Grows after.scope.graph)
    (hroutines : after.scope.graph.ofKind .routine = before.scope.graph.ofKind .routine ++
      if dialect.binds entry.node .routine then [entry.id] else [])
    (hparameters : after.scope.graph.ofKind .parameter = before.scope.graph.ofKind .parameter ++
      entry.parameters)
    (hhoisted : after.hoisted = before.hoisted) : Books dialect (ledger ++ [entry]) after where
  routines := by
    rw [hroutines, h.routines, List.filter_append, List.map_append]
    congr 1
    by_cases hrule : dialect.binds entry.node .routine = true <;> simp [hrule]
  parameters := by
    rw [hparameters, h.parameters, List.flatMap_append]
    simp
  distinct := by
    rw [List.map_append]
    exact List.concat_eq_append ▸ h.distinct.concat hnew
  stands other hother := by
    rcases List.mem_append.mp hother with hold | hlast
    · exact (h.stands other hold).grow hgrows
    · rw [List.mem_singleton.mp hlast]
      exact hstands
  hoisted node id hahead := by
    rw [Session.ahead?, hhoisted] at hahead
    obtain ⟨other, hother, hsame⟩ := h.hoisted node id hahead
    exact ⟨other, List.mem_append_left _ hother, hsame⟩

/-- Different states with the same graph, of which the second has no more routines
    declared ahead. -/
theorem forget (h : Books dialect ledger before) (hgraph : after.scope.graph = before.scope.graph)
    (hahead : ∀ (node : Node tree) id, after.ahead? node = some id → before.ahead? node = some id) :
    Books dialect ledger after where
  routines := by rw [hgraph]; exact h.routines
  parameters := by rw [hgraph]; exact h.parameters
  distinct := h.distinct
  stands := by rw [hgraph]; exact h.stands
  hoisted node id hid := h.hoisted node id (hahead node id hid)

end Books

namespace Walk

variable {tree : Tree} {dialect : Dialect} {ledger : List (Declaration tree)} {node : Node tree}
  {session : Session} {name : String} {formal : Node tree} {owner : BindingId} {kind : Binding.Kind}

/-- The graph of a schema holds neither routines nor parameters. -/
theorem idle_ofSchema (schema : Schema) :
    Graph.empty.GrowsBy Binding.Kind.modest (Session.ofSchema schema).scope.graph := by
  refine schema.instantiate_induction .empty
    (P := fun _ graph => Graph.empty.GrowsBy Binding.Kind.modest graph) .refl
    fun _ graph relation hgraph => ?_
  have hcolumns : ∀ (columns : List Column) (graph : Graph) (owner : BindingId),
      graph.GrowsBy Binding.Kind.modest (columns.foldl (Relation.addColumn owner) graph) := by
    intro columns
    induction columns with
    | nil => exact fun _ _ => .refl
    | cons column rest ih =>
      intro graph owner
      exact (Graph.GrowsBy.refl.push _ (show Binding.Kind.column ∈ _ by decide)).addChild owner _
        |>.trans (ih _ owner)
  exact hgraph.trans ((Graph.GrowsBy.refl.push _ (show Binding.Kind.relation ∈ _ by decide)).trans
    (hcolumns _ _ _))

/-- The books are empty before anything was read. -/
theorem books_ofSchema (dialect : Dialect) (tree : Tree) (schema : Schema) :
    Books dialect ([] : List (Declaration tree)) (.ofSchema schema) where
  routines := (idle_ofSchema schema).ofKind (by decide)
  parameters := (idle_ofSchema schema).ofKind (by decide)
  distinct := .nil
  stands := by simp
  hoisted node id hahead := by
    cases node with
    | absent => cases hahead
    | present index => cases hahead

/-! ### Routines declared ahead -/

theorem declaredName_of_some (session : Session) (h : dialect.declaredName? node = some name) :
    declaredName dialect node session = (.ok name, session) := by
  rw [declaredName, h]
  rfl

theorem declaredName_of_none (session : Session) (h : dialect.declaredName? node = none) :
    declaredName dialect node session =
      (.error (.misshapen (.unnamedDeclaration node.tag)), session) := by
  rw [declaredName, h]
  rfl

/-- Nothing is found under a key whose entries were taken out, and under the other keys the
    same as before. -/
private theorem lookup_filter {α : Type} (entries : List (Nat × α)) (index other : Nat) :
    (entries.filter fun entry => entry.1 ≠ index).lookup other =
      if other = index then none else entries.lookup other := by
  induction entries with
  | nil => simp
  | cons entry rest ih =>
    obtain ⟨key, value⟩ := entry
    by_cases hkey : key = index <;> by_cases hother : other = key <;> grind

theorem fst_takeHoisted (node : Node tree) (session : Session) :
    (takeHoisted node session).1 = .ok (session.ahead? node) := by
  cases node <;> rfl

theorem scope_takeHoisted (node : Node tree) (session : Session) :
    (takeHoisted node session).2.scope = session.scope := by
  cases node <;> rfl

/-- What was declared ahead for other nodes is still kept. -/
theorem ahead?_takeHoisted (node other : Node tree) (session : Session) :
    (takeHoisted node session).2.ahead? other =
      if other = node then none else session.ahead? other := by
  cases node with
  | absent =>
    split
    · next h => rw [h]; rfl
    · rfl
  | present place =>
    cases other with
    | absent => rfl
    | present place' =>
      show (session.hoisted.filter fun entry => entry.1 ≠ place.val).lookup place'.val = _
      rw [lookup_filter]
      simp only [Node.present.injEq, Fin.ext_iff]
      rfl

/-- What was declared ahead is given back, and otherwise the routine is declared now. -/
theorem routineId_of_ahead {id : BindingId} (dialect : Dialect)
    (h : session.ahead? node = some id) :
    routineId dialect node session = (.ok id, (takeHoisted node session).2) := by
  have htaken : takeHoisted node session = (.ok (some id), (takeHoisted node session).2) :=
    Prod.ext (h ▸ fst_takeHoisted node session) rfl
  unfold routineId
  rw [Stateful.bind_ok htaken]
  rfl

theorem routineId_of_none (dialect : Dialect) (h : session.ahead? node = none) :
    routineId dialect node session =
      (declaredName dialect node >>= fun name => declare (.ofName name .routine))
        (takeHoisted node session).2 := by
  have htaken : takeHoisted node session = (.ok none, (takeHoisted node session).2) :=
    Prod.ext (h ▸ fst_takeHoisted node session) rfl
  unfold routineId
  rw [Stateful.bind_ok htaken]

/-- A routine without a name is neither declared ahead nor declared now. -/
theorem routineId_of_error {error : Error} {after : Session}
    (h : routineId dialect node session = (.error error, after)) :
    after = (takeHoisted node session).2 := by
  cases hahead : session.ahead? node with
  | some id =>
    rw [routineId_of_ahead dialect hahead] at h
    cases h
  | none =>
    rw [routineId_of_none dialect hahead] at h
    cases hname : dialect.declaredName? node with
    | none =>
      rw [Stateful.bind_error (declaredName_of_none _ hname)] at h
      exact (congrArg Prod.snd h).symm
    | some name =>
      rw [Stateful.bind_ok (declaredName_of_some _ hname)] at h
      cases congrArg Prod.fst h

/-- Taking a routine that was declared ahead leaves the books as they are. -/
theorem books_takeHoisted (h : Books dialect ledger session) (node : Node tree) :
    Books dialect ledger (takeHoisted node session).2 := by
  refine h.forget (by rw [scope_takeHoisted]) fun other id hid => ?_
  rw [ahead?_takeHoisted] at hid
  split at hid
  · cases hid
  · exact hid

/-- The state in which a routine is kept for its node. -/
theorem ahead?_keep (index : Fin tree.size) (id : BindingId) (other : Node tree)
    (session : Session) :
    ({ session with hoisted := (index.val, id) :: session.hoisted } : Session).ahead? other =
      if other = .present index then some id else session.ahead? other := by
  cases other with
  | absent => rfl
  | present place =>
    simp only [Session.ahead?, Node.index?, Option.bind_some, Node.present.injEq, Fin.ext_iff,
      List.lookup_cons]
    by_cases hsame : place.val = index.val
    · simp [hsame]
    · simp [hsame, beq_false_of_ne hsame]

/-- A complete routine of the books may be kept for its node. -/
theorem books_keep (h : Books dialect ledger session) {entry : Declaration tree}
    {index : Fin tree.size} (hentry : entry ∈ ledger) (hnode : entry.node = .present index)
    (hcomplete : entry.Complete dialect) :
    Books dialect ledger { session with hoisted := (index.val, entry.id) :: session.hoisted } where
  routines := h.routines
  parameters := h.parameters
  distinct := h.distinct
  stands := h.stands
  hoisted node id hahead := by
    rw [ahead?_keep] at hahead
    split at hahead
    · next hsame => exact ⟨entry, hentry, hnode.trans hsame.symm, Option.some.inj hahead, hcomplete⟩
    · exact h.hoisted node id hahead

/-! ### Parameters -/

/-- New parameters were added to the owner, for the formal parameters in order. -/
structure Adds (dialect : Dialect) (owner : BindingId) (formals : List (Node tree)) (start : Nat)
    (before after : Graph) (added : List BindingId) : Prop where
  grows : before.GrowsBy [.parameter] after
  parameters : after.ofKind .parameter = before.ofKind .parameter ++ added
  children : after.children owner = before.children owner ++ added
  each : ∀ place id, added[place]? = some id → ∃ formal, formals[place]? = some formal ∧
    Declaration.Stands.Parameter dialect after formal (start + place) id

/-- The state with one more parameter of the owner. -/
def withParameter (owner : BindingId) (name : String) (position : Nat) (session : Session) :
    Session :=
  let scope := (session.scope.add ((Binding.ofName name .parameter).withPosition position)).2
  { session with scope := scope.addChild owner session.scope.graph.nextId }

theorem addParameter_of_name (owner : BindingId) (position : Nat) (session : Session)
    (h : dialect.declaredName? formal = some name) :
    addParameter dialect owner formal position session =
      (.ok session.scope.graph.nextId, withParameter owner name position session) := by
  unfold addParameter
  rw [Stateful.bind_ok (declaredName_of_some session h)]
  rfl

theorem addParameter_of_none (owner : BindingId) (position : Nat) (session : Session)
    (h : dialect.declaredName? formal = none) :
    ∃ error, addParameter dialect owner formal position session = (.error error, session) :=
  ⟨_, Stateful.bind_error (declaredName_of_none session h)⟩

/-- One more parameter. -/
theorem adds_parameter {graph : Graph} (start : Nat)
    (hname : dialect.declaredName? formal = some name) (howner : graph.contains owner = true)
    (hold : graph.Holds (graph.children owner)) :
    Adds dialect owner [formal] start graph
      ((graph.push ((Binding.ofName name .parameter).withPosition start)).addChild owner
        graph.nextId)
      [graph.nextId] := by
  have hpush : graph.Grows (graph.push ((Binding.ofName name .parameter).withPosition start)) :=
    Graph.Grows.refl.push _
  have hchildren : (graph.push ((Binding.ofName name .parameter).withPosition start)).children
      owner = graph.children owner := by
    rw [Graph.children, Graph.get_push_of_contains _ howner]
    rfl
  -- The new id is neither the owner nor one of its members, since all of those exist already.
  have hfresh : graph.nextId ∉ graph.children owner := by
    intro hmem
    exact Nat.lt_irrefl _ (Graph.contains_iff.mp (hold _ hmem))
  have hne : graph.nextId ≠ owner := by
    rintro rfl
    exact Nat.lt_irrefl _ (Graph.contains_iff.mp howner)
  refine ⟨.addChild owner _ (.push _ List.mem_cons_self .refl), ?_, ?_, fun place id hid => ?_⟩
  · rw [Graph.ofKind_addChild]
    exact Graph.ofKind_push _ _
  · rw [Graph.children_addChild (hpush.contains howner) (hchildren ▸ hfresh), hchildren]
  · obtain ⟨rfl, rfl⟩ : place = 0 ∧ id = graph.nextId := by
      cases place <;> simp_all
    have hnew : ((graph.push ((Binding.ofName name .parameter).withPosition start)).addChild owner
        graph.nextId).get graph.nextId = (Binding.ofName name .parameter).withPosition start := by
      rw [Graph.get_addChild_of_ne _ hne, Graph.get_push_nextId]
    refine ⟨formal, rfl, ?_, ?_, ?_, name, hname, ?_⟩
    · exact (Graph.Grows.refl.addChild owner _).contains (Graph.contains_push_nextId _ _)
    · rw [Graph.kind, hnew]
      rfl
    · rw [hnew]
      rfl
    · rw [Graph.name, hnew]
      rfl

/-- Parameters for the first formal parameter, and then for the others. -/
theorem Adds.cons {first : BindingId} {formals : List (Node tree)} {start : Nat}
    {before middle after : Graph} {rest : List BindingId}
    (hfirst : Adds dialect owner [formal] start before middle [first])
    (hrest : Adds dialect owner formals (start + 1) middle after rest) :
    Adds dialect owner (formal :: formals) start before after (first :: rest) where
  grows := hfirst.grows.trans hrest.grows
  parameters := by rw [hrest.parameters, hfirst.parameters]; simp
  children := by rw [hrest.children, hfirst.children]; simp
  each place id hid := by
    cases place with
    | zero =>
      obtain ⟨found, hfound, hstands⟩ := hfirst.each 0 id hid
      obtain rfl : formal = found := by simpa using hfound
      exact ⟨formal, rfl, hstands.grow hrest.grows.grows⟩
    | succ place =>
      obtain ⟨found, hfound, hstands⟩ := hrest.each place id (by simpa using hid)
      rw [show start + 1 + place = start + (place + 1) by omega] at hstands
      exact ⟨found, by simpa using hfound, hstands⟩

/-- Adds formal parameters one after the other. -/
def addParameters (dialect : Dialect) (owner : BindingId) (formals : List (Node tree))
    (start : Nat) : Walk (List BindingId) :=
  (formals.zipIdx start).mapM fun item => addParameter dialect owner item.1 item.2

/-- The formal parameters are added in order, up to the first without a name. -/
theorem exists_adds (dialect : Dialect) (formals : List (Node tree)) (start : Nat)
    (howner : session.scope.graph.contains owner = true)
    (hold : session.scope.graph.Holds (session.scope.graph.children owner)) :
    ∃ added, Adds dialect owner formals start session.scope.graph
        (addParameters dialect owner formals start session).2.scope.graph added ∧
      (addParameters dialect owner formals start session).2.hoisted = session.hoisted ∧
      ∀ ids, (addParameters dialect owner formals start session).1 = .ok ids →
        ids = added ∧ added.length = formals.length := by
  induction formals generalizing start session with
  | nil =>
    refine ⟨[], ⟨.refl, by simp; rfl, by simp; rfl, by simp⟩, rfl, fun ids hids => ?_⟩
    exact ⟨(Except.ok.inj hids).symm, rfl⟩
  | cons formal rest ih =>
    unfold addParameters
    rw [List.zipIdx_cons, List.mapM_cons]
    cases hname : dialect.declaredName? formal with
    | none =>
      -- A parameter without a name ends the row, and nothing is added for it.
      obtain ⟨error, herror⟩ := addParameter_of_none owner start session hname
      rw [Stateful.bind_error herror]
      exact ⟨[], ⟨.refl, by simp, by simp, by simp⟩, rfl, fun ids hids => by cases hids⟩
    | some name =>
      have hfirst : Adds dialect owner [formal] start session.scope.graph
          (withParameter owner name start session).scope.graph [session.scope.graph.nextId] :=
        adds_parameter start hname howner hold
      have hgrows := hfirst.grows.grows
      have hnew : (withParameter owner name start session).scope.graph.contains
          session.scope.graph.nextId = true :=
        (Graph.Grows.refl.addChild owner _).contains (Graph.contains_push_nextId _ _)
      obtain ⟨added, hadds, hhoisted, hok⟩ := @ih (withParameter owner name start session)
        (start + 1) (hgrows.contains howner)
        (by rw [hfirst.children]; exact (hold.grow hgrows).append (Graph.holds_singleton hnew))
      rw [Stateful.bind_ok (addParameter_of_name owner start session hname)]
      -- Those added first stay in front, whether or not the rest succeeds.
      refine ⟨session.scope.graph.nextId :: added, ?_⟩
      unfold addParameters at hadds hhoisted hok
      rcases hrun : (rest.zipIdx (start + 1)).mapM
          (fun item => addParameter dialect owner item.1 item.2)
        (withParameter owner name start session) with ⟨error | ids, after⟩ <;>
          rw [hrun] at hadds hhoisted hok
      · rw [Stateful.bind_error hrun]
        exact ⟨hfirst.cons hadds, hhoisted, fun ids hids => by cases hids⟩
      · rw [Stateful.bind_ok hrun]
        obtain ⟨rfl, hlength⟩ := hok ids rfl
        refine ⟨hfirst.cons hadds, hhoisted, fun all hall => ⟨(Except.ok.inj hall).symm, ?_⟩⟩
        rw [List.length_cons, List.length_cons, hlength]

/-- The members of a binding that are parameters. -/
def knownParameters (graph : Graph) (owner : BindingId) : List BindingId :=
  (graph.children owner).filter fun child => graph.kind child == .parameter

/-- Parameters are added where none are known. -/
theorem parameters_eq (dialect : Dialect) (owner : BindingId) (node : Node tree) (tag : String)
    (session : Session) :
    parameters dialect owner node tag session =
      if (knownParameters session.scope.graph owner).isEmpty then
        addParameters dialect owner (dialect.parametersOf node tag) 0 session
      else (.ok (knownParameters session.scope.graph owner), session) := by
  show (if (knownParameters session.scope.graph owner).isEmpty then
      addParameters dialect owner (dialect.parametersOf node tag) 0
    else pure (knownParameters session.scope.graph owner) : Walk (List BindingId)) session = _
  split <;> rfl

theorem formalsOf_of_routine (h : dialect.binds node .routine = true) :
    dialect.formalsOf node =
      dialect.parametersOf node dialect.vocabulary.declarations.parameter := by
  have hcursor : dialect.binds node .cursor = false := by
    simp only [Dialect.binds, Bool.and_eq_true, beq_iff_eq] at h ⊢
    simp [h.2]
  simp [Dialect.formalsOf, hcursor]

theorem formalsOf_of_cursor (h : dialect.binds node .cursor = true) :
    dialect.formalsOf node =
      dialect.parametersOf node dialect.vocabulary.declarations.cursorParameter := by
  simp [Dialect.formalsOf, h]

/-- The parameters of a routine that is in the books and complete are not added again. -/
theorem parameters_of_books (h : Books dialect ledger session) {entry : Declaration tree}
    (hentry : entry ∈ ledger) (hcomplete : entry.Complete dialect)
    (hrule : dialect.binds entry.node .routine = true) :
    ∃ known,
      parameters dialect entry.id entry.node dialect.vocabulary.declarations.parameter session =
      (.ok known, session) ∧ entry.parameters <+: known := by
  have hstands := h.stands entry hentry
  have hkinds : entry.parameters.filter
      (fun child => session.scope.graph.kind child == .parameter) = entry.parameters := by
    refine List.filter_eq_self.mpr fun id hid => ?_
    obtain ⟨place, hplace⟩ := List.mem_iff_getElem?.mp hid
    obtain ⟨_, _, hparameter⟩ := hstands.parameter place id hplace
    simpa using hparameter.kind
  -- The members that are parameters start with those that were added for the routine.
  have hknown : entry.parameters <+: knownParameters session.scope.graph entry.id := by
    obtain ⟨others, hothers⟩ := hstands.attached
    rw [knownParameters, ← hothers, List.filter_append, hkinds]
    exact List.prefix_append _ _
  refine ⟨_, ?_, hknown⟩
  rw [parameters_eq]
  split
  · next hempty =>
    rw [List.isEmpty_iff] at hempty
    rw [hempty, List.prefix_nil] at hknown
    rw [Declaration.Complete, hknown, formalsOf_of_routine hrule] at hcomplete
    rw [List.eq_nil_of_length_eq_zero hcomplete.symm, hempty]
    rfl
  · rfl

/-! ### Entries -/

/-- The kind of binding that a node declares. -/
def Declares (dialect : Dialect) (node : Node tree) (kind : Binding.Kind) : Prop :=
  (dialect.binds node .routine = true ∧ kind = .routine) ∨
  (dialect.binds node .cursor = true ∧ kind = .cursor)

theorem Declares.routine_iff (h : Declares dialect node kind) :
    kind = .routine ↔ dialect.binds node .routine = true := by
  rcases h with ⟨hrule, rfl⟩ | ⟨hrule, rfl⟩
  · simp [hrule]
  · simp only [Dialect.binds, Bool.and_eq_true, beq_iff_eq] at hrule ⊢
    simp [hrule.2]

theorem Declares.ne_parameter (h : Declares dialect node kind) : kind ≠ .parameter := by
  rcases h with ⟨_, rfl⟩ | ⟨_, rfl⟩ <;> decide

/-- A new declaration has no members yet. -/
theorem children_declare (hwell : session.WellFormed) (name : String) (kind : Binding.Kind) :
    (declare (.ofName name kind) session).2.scope.graph.children session.scope.graph.nextId =
      [] := by
  have hget := Scope.get_declareNew hwell.scope (.ofName name kind)
  show ((session.scope.declareNew (.ofName name kind)).2.graph.get
      session.scope.graph.nextId).children = []
  rw [hget]
  rfl

/-- A new routine or cursor is entered, without parameters. -/
theorem books_declare (h : Books dialect ledger session) (hwell : session.WellFormed)
    (hnew : node ∉ ledger.map (·.node)) (hname : dialect.declaredName? node = some name)
    (hkind : Declares dialect node kind) :
    Books dialect (ledger ++ [⟨node, session.scope.graph.nextId, []⟩])
      (declare (.ofName name kind) session).2 := by
  -- Declaring may make the binding a member of an owner, but leaves its own name and kind.
  have hget := Scope.get_declareNew hwell.scope (.ofName name kind)
  have hcontains : (session.scope.declareNew (.ofName name kind)).2.graph.contains
      session.scope.graph.nextId = true :=
    ((session.scope.add (.ofName name kind)).2.grows_declare _).contains
      (session.scope.graph.contains_push_nextId _)
  have hstands : (⟨node, session.scope.graph.nextId, []⟩ : Declaration tree).Stands dialect
      (session.scope.declareNew (.ofName name kind)).2.graph := by
    refine ⟨hcontains, ?_, ⟨name, hname, ?_⟩, List.nil_prefix, by simp⟩
    · rw [Graph.kind, hget]
      exact hkind
    · rw [Graph.name, hget]
      rfl
  refine h.enter hnew hstands (session.scope.learns_declareNew _).grows ?_ ?_ rfl
  · rw [show (declare (.ofName name kind) session).2.scope.graph.ofKind .routine = _ from
      session.scope.ofKind_declareNew (.ofName name kind) .routine]
    congr 1
    exact if_congr hkind.routine_iff rfl rfl
  · rw [show (declare (.ofName name kind) session).2.scope.graph.ofKind .parameter = _ from
      session.scope.ofKind_declareNew (.ofName name kind) .parameter]
    congr 1
    exact if_neg hkind.ne_parameter

/-- The parameters of a new routine or cursor are entered with it. -/
theorem books_parameters {id : BindingId} {tag : String}
    (h : Books dialect (ledger ++ [⟨node, id, []⟩]) session)
    (hnone : session.scope.graph.children id = [])
    (htag : dialect.formalsOf node = dialect.parametersOf node tag) :
    ∃ added, Books dialect (ledger ++ [⟨node, id, added⟩])
      (parameters dialect id node tag session).2 ∧
      (parameters dialect id node tag session).2.hoisted = session.hoisted ∧
      ∀ ids, (parameters dialect id node tag session).1 = .ok ids →
        ids = added ∧ (⟨node, id, added⟩ : Declaration tree).Complete dialect := by
  have hlast := h.stands ⟨node, id, []⟩ (by simp)
  have hrun : parameters dialect id node tag session =
      addParameters dialect id (dialect.formalsOf node) 0 session := by
    rw [parameters_eq, knownParameters, hnone, htag]
    rfl
  have hmembers : session.scope.graph.Holds (session.scope.graph.children id) := by
    rw [hnone]
    exact Graph.holds_nil _
  obtain ⟨added, hadds, hhoisted, hok⟩ :=
    exists_adds dialect (dialect.formalsOf node) 0 hlast.known hmembers
  have hgrows := hadds.grows.grows
  have hstands : (⟨node, id, added⟩ : Declaration tree).Stands dialect
      (addParameters dialect id (dialect.formalsOf node) 0 session).2.scope.graph := by
    have hold := hlast.grow hgrows
    refine ⟨hold.known, hold.kind, hold.name, ?_, fun place parameter hparameter => ?_⟩
    · rw [hadds.children, hnone]
      exact List.prefix_rfl
    · obtain ⟨formal, hformal, hstands⟩ := hadds.each place parameter hparameter
      rw [Nat.zero_add] at hstands
      exact ⟨formal, hformal, hstands⟩
  rw [hrun]
  refine ⟨added, ?_, hhoisted, fun ids hids => hok ids hids⟩
  constructor
  · rw [hadds.grows.ofKind (by decide), h.routines, List.filter_append, List.filter_append]
    by_cases hrule : dialect.binds node .routine = true <;> simp [hrule]
  · rw [hadds.parameters, h.parameters, List.flatMap_append, List.flatMap_append]
    simp
  · have hdistinct := h.distinct
    rw [List.map_append] at hdistinct ⊢
    exact hdistinct
  · intro entry hentry
    rcases List.mem_append.mp hentry with hold | hnew
    · exact (h.stands entry (List.mem_append_left _ hold)).grow hgrows
    · rw [List.mem_singleton.mp hnew]
      exact hstands
  · intro other found hahead
    rw [Session.ahead?, hhoisted] at hahead
    obtain ⟨entry, hentry, hnode, hid, hcomplete⟩ := h.hoisted other found hahead
    rcases List.mem_append.mp hentry with hold | hnew
    · exact ⟨entry, List.mem_append_left _ hold, hnode, hid, hcomplete⟩
    · -- What was complete without parameters gets none.
      rw [List.mem_singleton.mp hnew] at hnode hid hcomplete
      have hempty : dialect.formalsOf node = [] := List.eq_nil_of_length_eq_zero hcomplete.symm
      have hadded : added = [] := by
        cases hadded : added with
        | nil => rfl
        | cons first rest =>
          obtain ⟨formal, hformal, _⟩ := hadds.each 0 first (by rw [hadded]; rfl)
          rw [hempty] at hformal
          cases hformal
      exact ⟨⟨node, id, added⟩, List.mem_append_right _ List.mem_cons_self, hnode, hid,
        hadded ▸ hcomplete⟩

/-- The declarations that were entered when the routines of a package were declared ahead. -/
structure Hoists (dialect : Dialect) (routines : List (Node tree))
    (ledger more : List (Declaration tree)) (before : Session)
    (outcome : Except Error Unit × Session) : Prop where
  books : Books dialect (ledger ++ more) outcome.2
  nodes : more.map (·.node) <+: routines
  others : ∀ node : Node tree, node ∉ routines → outcome.2.ahead? node = before.ahead? node
  complete : outcome.1 = .ok () → ∀ entry ∈ more, entry.Complete dialect ∧
    outcome.2.ahead? entry.node = some entry.id
  all : outcome.1 = .ok () → more.map (·.node) = routines

/-- One routine is declared ahead. -/
theorem exists_hoists (h : Books dialect ledger session) (hwell : session.WellFormed)
    (index : Fin tree.size) (hnew : Node.present index ∉ ledger.map (·.node))
    (hrule : dialect.binds (Node.present index) .routine = true) :
    ∃ more, Hoists dialect [.present index] ledger more session
      (hoist dialect (.present index) session) := by
  cases hname : dialect.declaredName? (Node.present index) with
  | none =>
    unfold hoist
    rw [Stateful.bind_error (declaredName_of_none session hname)]
    exact ⟨[], by rw [List.append_nil]; exact h, List.nil_prefix, fun _ _ => rfl, nofun, nofun⟩
  | some name =>
    have hdeclare : declare (.ofName name .routine) session =
        (.ok session.scope.graph.nextId, (declare (.ofName name .routine) session).2) := rfl
    have hbooks := books_declare h hwell hnew hname (.inl ⟨hrule, rfl⟩)
    have hchildless := children_declare hwell name .routine
    obtain ⟨added, hadded, hhoisted, hok⟩ :=
      books_parameters hbooks hchildless (formalsOf_of_routine hrule)
    unfold hoist
    rw [Stateful.bind_ok (declaredName_of_some session hname), Stateful.bind_ok hdeclare]
    refine ⟨[⟨.present index, session.scope.graph.nextId, added⟩], ?_⟩
    rcases hparameters : parameters dialect session.scope.graph.nextId (Node.present index)
      dialect.vocabulary.declarations.parameter (declare (.ofName name .routine) session).2 with
      ⟨error | ids, after⟩ <;> rw [hparameters] at hadded hhoisted hok
    · rw [Stateful.bind_error hparameters]
      refine ⟨hadded, List.prefix_rfl, fun node _ => ?_, nofun, nofun⟩
      show Session.ahead? after node = _
      rw [Session.ahead?, hhoisted]
      rfl
    · rw [Stateful.bind_ok hparameters]
      obtain ⟨rfl, hcomplete⟩ := hok ids rfl
      -- The routine is kept for its node.
      have hkept := books_keep hadded (List.mem_append_right _ List.mem_cons_self) rfl hcomplete
      have hahead := fun node : Node tree => ahead?_keep index session.scope.graph.nextId node after
      refine ⟨hkept, List.prefix_rfl, fun node hnode => ?_, fun _ entry hentry => ?_, fun _ => rfl⟩
      · refine (hahead node).trans ?_
        rw [if_neg (by simpa using hnode), Session.ahead?, hhoisted]
        rfl
      · rw [List.mem_singleton.mp hentry]
        exact ⟨hcomplete, (hahead _).trans (if_pos rfl)⟩

/-- The routines of a package are declared ahead in order. -/
theorem exists_hoists_forM (routines : List (Node tree)) (h : Books dialect ledger session)
    (hwell : session.WellFormed) (hnew : ∀ routine ∈ routines, routine ∉ ledger.map (·.node))
    (hdistinct : routines.Nodup)
    (hrules : ∀ routine ∈ routines, dialect.binds routine .routine = true) :
    ∃ more, Hoists dialect routines ledger more session
      (routines.forM (hoist dialect) session) := by
  induction routines generalizing ledger session with
  | nil =>
    exact ⟨[], by rw [List.append_nil]; exact h, List.nil_prefix, fun _ _ => rfl,
      fun _ _ h => by simp at h, fun _ => rfl⟩
  | cons routine rest ih =>
    cases routine with
    | absent =>
      exact absurd (hrules .absent List.mem_cons_self) (by simp [Dialect.binds, Node.isPresent])
    | present index =>
      obtain ⟨first, hfirst⟩ :=
        exists_hoists h hwell index (hnew _ List.mem_cons_self) (hrules _ List.mem_cons_self)
      have hafter := (honest_hoist dialect (.present index)).sound.wellFormed session hwell
        (Graph.holds_nil _)
      show ∃ more, Hoists dialect _ ledger more session
        ((hoist dialect (.present index) >>= fun _ => rest.forM (hoist dialect)) session)
      rcases hrun : hoist dialect (.present index) session with ⟨error | ⟨⟩, after⟩ <;>
          rw [hrun] at hfirst hafter
      · rw [Stateful.bind_error hrun]
        refine ⟨first, hfirst.books, hfirst.nodes.trans (by simp), fun node hnode => ?_,
          fun hok _ _ => (by cases hok), fun hok => (by cases hok)⟩
        exact hfirst.others node fun hmem =>
          hnode (by simpa using .inl (List.mem_singleton.mp hmem))
      · rw [Stateful.bind_ok hrun]
        have hnodes : first.map (·.node) = [.present index] := hfirst.all rfl
        obtain ⟨hne, hrestDistinct⟩ := List.nodup_cons.mp hdistinct
        obtain ⟨more, hmore⟩ := ih hfirst.books hafter
          (fun other hother => by
            rw [List.map_append, hnodes, List.mem_append, List.mem_singleton, not_or]
            exact ⟨hnew other (List.mem_cons_of_mem _ hother), fun hsame => hne (hsame ▸ hother)⟩)
          hrestDistinct fun other hother => hrules other (List.mem_cons_of_mem _ hother)
        refine ⟨first ++ more, by rw [← List.append_assoc]; exact hmore.books, ?_,
          fun node hnode => ?_, fun hok entry hentry => ?_, fun hok => ?_⟩
        · rw [List.map_append, hnodes]
          exact List.prefix_append_right_inj _ |>.mpr hmore.nodes
        · rw [List.mem_cons, not_or] at hnode
          rw [hmore.others node hnode.2, hfirst.others node (by simpa using hnode.1)]
        · rcases List.mem_append.mp hentry with hin | hin
          · -- The first routine is still kept when the others have been declared.
            have hnode : entry.node = .present index := by
              have hmem : entry.node ∈ first.map (·.node) := List.mem_map_of_mem hin
              rw [hnodes] at hmem
              exact List.mem_singleton.mp hmem
            obtain ⟨hcomplete, hahead⟩ := hfirst.complete rfl entry hin
            exact ⟨hcomplete, by rw [hmore.others entry.node (hnode ▸ hne)]; exact hahead⟩
          · exact hmore.complete hok entry hin
        · rw [List.map_append, hnodes, hmore.all hok]
          rfl

end Walk

end Lineage
