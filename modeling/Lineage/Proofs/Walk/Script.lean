import Lineage.Proofs.Walk.Quiet
import Lineage.Walk.Dispatch

/-!
# Rules as scripts

A rule is a function of how the nodes below are visited, so nothing can be said about it by looking
at its steps. A `Script` is a rule with its steps laid open: quiet walks, bindings sent outward,
operators, levels opened around other steps, and nodes that are visited. `run` plays a script, and
every rule is the run of its script.

## Key results

- `run_ofRule`: every rule is the run of its script
- `visit_present`: visiting a node plays the script of its tag
- `Script.run_congr`: a script depends on how the nodes that it may visit are visited, and on no
  others
-/

namespace Lineage.Walk

variable {tree : Tree}

/-- A rule with its steps laid open. -/
inductive Script (tree : Tree) : Type → Type 1 where
  | quiet {α : Type} (walk : Walk α) (h : Quiet walk) : Script tree α
  /-- A binding is sent outward. -/
  | send (id : BindingId) : Script tree Unit
  /-- An element of a select list ends. -/
  | flush (position : Nat) : Script tree Unit
  /-- The level of a first arm ends. -/
  | closeArm : Script tree Unit
  /-- An operator is sent outward. -/
  | nextArm (queries : Nat) : Script tree Unit
  /-- Nodes are visited in order. -/
  | visits (nodes : List (Node tree)) : Script tree Unit
  /-- The parts of a query are visited in order, on a level of their own. -/
  | query (parts : List (Node tree)) : Script tree Unit
  /-- Steps are taken on a level of their own. -/
  | within (frame : Frame) (body : Script tree Unit) : Script tree Unit
  | andThen {α β : Type} (first : Script tree α) (next : α → Script tree β) : Script tree β

namespace Script

instance : Monad (Script tree) where
  pure value := quiet (Pure.pure value) (.pure value)
  bind := andThen

/-- The same steps for one item after the other. -/
def forEach {ι : Type} (items : List ι) (steps : ι → Script tree Unit) : Script tree Unit :=
  match items with
  | [] => pure ()
  | item :: rest => do
    steps item
    forEach rest steps

/-- Plays a script, given how nodes are visited. -/
def run (walk : Node tree → Walk Unit) : {α : Type} → Script tree α → Walk α
  | _, quiet walk _ => walk
  | _, send id => produce id
  | _, flush position => attempt (·.flushElement position)
  | _, closeArm => Walk.closeArm
  | _, nextArm queries => Walk.nextArm queries
  | _, visits nodes => nodes.forM walk
  | _, query parts => Walk.within .query (parts.forM walk)
  | _, within frame body => Walk.within frame (body.run walk)
  | _, andThen first next => first.run walk >>= fun value => (next value).run walk

variable {α β ι : Type} (walk : Node tree → Walk Unit)

@[simp] theorem run_pure (value : α) : (pure value : Script tree α).run walk = pure value := rfl

@[simp] theorem run_quiet (quietWalk : Walk α) (h : Quiet quietWalk) :
    (quiet quietWalk h : Script tree α).run walk = quietWalk := rfl

@[simp] theorem run_send (id : BindingId) : (send id : Script tree Unit).run walk = produce id :=
  rfl

@[simp] theorem run_flush (position : Nat) :
    (flush position : Script tree Unit).run walk = attempt (·.flushElement position) := rfl

@[simp] theorem run_closeArm : (closeArm : Script tree Unit).run walk = Walk.closeArm := rfl

@[simp] theorem run_nextArm (queries : Nat) :
    (nextArm queries : Script tree Unit).run walk = Walk.nextArm queries := rfl

@[simp] theorem run_visits (nodes : List (Node tree)) : (visits nodes).run walk = nodes.forM walk :=
  rfl

@[simp] theorem run_query (parts : List (Node tree)) :
    (query parts).run walk = Walk.within .query (parts.forM walk) := rfl

@[simp] theorem run_within (frame : Frame) (body : Script tree Unit) :
    (within frame body).run walk = Walk.within frame (body.run walk) := rfl

@[simp] theorem run_bind (first : Script tree α) (next : α → Script tree β) :
    (first >>= next).run walk = first.run walk >>= fun value => (next value).run walk := rfl

@[simp] theorem run_map (f : α → β) (script : Script tree α) :
    (f <$> script).run walk = f <$> script.run walk := by
  -- The map of a script is its bind with a `pure`, and so is that of a walk.
  show (script.run walk >>= fun value => pure (f value)) = _
  rw [bind_pure_comp]

theorem run_forEach (items : List ι) (steps : ι → Script tree Unit) :
    (forEach items steps).run walk = items.forM fun item => (steps item).run walk := by
  induction items with
  | nil => rfl
  | cons item rest ih =>
    show ((steps item).run walk >>= fun _ => (forEach rest steps).run walk) = _
    rw [ih]
    rfl

theorem forM_singleton (item : ι) (step : ι → Walk Unit) : [item].forM step = step item := by
  simp

/-! ### The scripts of the rules -/

variable (dialect : Dialect) (node : Node tree)

def package (node : Node tree) : Script tree Unit := do
  let name ← quiet _ (quiet_declaredName dialect node)
  let id ← quiet _ (quiet_declare (.ofName name .package))
  within (.body (some id)) do
    quiet _ (quiet_hoistAll dialect node)
    visits (dialect.packageBody node)

def routine (node : Node tree) : Script tree Unit := do
  let id ← quiet _ (quiet_routineId dialect node)
  let parameters ← quiet _
      (quiet_parameters dialect id node dialect.vocabulary.declarations.parameter)
  within (.body (some id)) do
    quiet _ (quiet_declareAll parameters)
    visits (dialect.routineBody node)

def varDeclaration (node : Node tree) : Script tree Unit := do
  let name ← quiet _ (quiet_declaredName dialect node)
  let id ← quiet _ (quiet_declare (.ofName name .var))
  let value := dialect.defaultValue node
  if value.isPresent then within (.assignment (some id)) (visits value.children)

def cursor (node : Node tree) : Script tree Unit := do
  let name ← quiet _ (quiet_declaredName dialect node)
  let id ← quiet _ (quiet_declare (.ofName name .cursor))
  let parameters ← quiet _
      (quiet_parameters dialect id node dialect.vocabulary.declarations.cursorParameter)
  within (.body (some id)) do
    quiet _ (quiet_declareAll parameters)
    within (.wrapper id false) (visits [dialect.cursorQuery node])

def reference (node : Node tree) : Script tree Unit := do
  send (← quiet _ (quiet_existing dialect node))

theorem quiet_memberOf (call : Option BindingId) (id : BindingId) :
    Quiet (match call with
      | some call => changeScope (·.addChild call id)
      | none => pure ()) := by
  cases call with
  | none => exact .pure ()
  | some call => exact .changeScope fun scope => scope.learns_addChild call id

def argument (call : Option BindingId) (node : Node tree) (position : Nat) : Script tree Unit := do
  let id ← quiet _ (quiet_add (argumentBinding dialect node position))
  quiet _ (quiet_memberOf call id)
  within (.wrapper id true) (visits (dialect.argumentValue node))

def callOf (routine : BindingId) (name : QualifiedName) (statement : Bool) (node : Node tree) :
    Script tree Unit :=
  within (.routineCall (some routine)) do
    let call ← if statement then some <$> quiet _ (quiet_add
        (.ofName name.display .call)) else pure none
    send (call.getD routine)
    forEach (dialect.argumentsOf node).zipIdx fun (node, position) =>
      argument dialect call node position

/-- The steps of a call of a known routine, on the level of the call. -/
def callSteps (routine : BindingId) (name : QualifiedName) (statement : Bool) (node : Node tree) :
    Script tree Unit := do
  let call ← if statement then some <$> quiet _ (quiet_add
      (.ofName name.display .call)) else pure none
  send (call.getD routine)
  forEach (dialect.argumentsOf node).zipIdx fun item => argument dialect call item.1 item.2

theorem callOf_eq (routine : BindingId) (name : QualifiedName) (statement : Bool)
    (node : Node tree) :
    callOf dialect routine name statement node =
      within (.routineCall (some routine)) (callSteps dialect routine name statement node) := rfl

def call (statement : Bool) (node : Node tree) : Script tree Unit := do
  let name ← quiet _ (.require (dialect.calledName? node) (.misshapen .unnamedCall) rfl)
  match ← quiet _ (.read (·.scope.resolve? name)) with
  | some routine => callOf dialect routine name statement node
  | none =>
    if statement then quiet _ (.fail (.unresolved name.display .unknown) rfl)
    else visits (dialect.argumentsOf node)

/-- The steps of a call whose name has been looked up. -/
def callFound (name : QualifiedName) (statement : Bool) (node : Node tree) :
    Option BindingId → Script tree Unit
  | some routine => callOf dialect routine name statement node
  | none =>
    if statement then quiet _ (.fail (.unresolved name.display .unknown) rfl)
    else visits (dialect.argumentsOf node)

theorem call_eq (statement : Bool) (node : Node tree) :
    call dialect statement node =
      (quiet _ (.require (dialect.calledName? node) (.misshapen .unnamedCall) rfl) >>= fun name =>
        quiet _ (.read (·.scope.resolve? name)) >>= callFound dialect name statement node) := rfl

def identifier (node : Node tree) : Script tree Unit :=
  if dialect.qualifies node.next then pure ()
  else do
    let qualifiers := (dialect.qualifiersOf node).map dialect.nameOf
    send (← quiet _ (.onScope fun scope => scope.learns_dottedReference qualifiers node.text))

theorem learns_memberAccess (scope : Scope) (name : String) :
    scope.Learns (match chainHead? scope with
      | some head => scope.childOrInsert head name .field
      | none => scope.add (.ofName name .field)).2 := by
  cases chainHead? scope with
  | none => exact scope.learns_add _
  | some head => exact scope.learns_childOrInsert head name .field

def fieldSuffix (node : Node tree) : Script tree Unit :=
  let member := node.child dialect.vocabulary.names.member
  if member.isPresent then do
    send (← quiet _ (.onScope fun scope => learns_memberAccess scope (dialect.nameOf member)))
  else visits node.children

def returnStatement (node : Node tree) : Script tree Unit := do
  let id ← quiet _ (quiet_add (.ofName "[return]" .result))
  within (.wrapper id false) (visits node.children)

def conditional (node : Node tree) : Script tree Unit := do
  let condition := node.childAt 0
  within .ignoreReturn (visits [condition])
  visits condition.later

def loop (node : Node tree) : Script tree Unit :=
  within (.body none) <|
    match dialect.loopParts node with
    | .plain body => visits body
    | .overRows record sources body =>
      if record.isPresent then do
        let id ← quiet _ (quiet_declare (.ofName (dialect.nameOf record) .record))
        within (.assignment (some id)) (visits sources)
        visits body
      else quiet _ (.fail (.misshapen .loopWithoutRecord) rfl)

def select (node : Node tree) : Script tree Unit := do
  match ← quiet _ (quiet_claimInto dialect node) with
  | none => query (dialect.queryParts node)
  | some clause =>
    let targets ← quiet _ (.mapM (dialect.intoTargets clause) fun target =>
        quiet_existing dialect target)
    within (.multipleAssignment targets 0) (query (dialect.queryParts node))

def namedQuery (query : Dialect.NamedQuery tree) : Script tree Unit :=
  if query.name.isPresent then do
    let id ← quiet _ (quiet_add (.ofName (dialect.nameOf query.name) .record))
    within (.members id false) (visits query.body)
    quiet _ (.changeScope fun _ => Scope.Learns.refl.declare id)
  else quiet _ (.fail (.misshapen .unnamedQuery) rfl)

/-- What an element of a select list gathers, before it ends. -/
def gather (element : Dialect.Element tree) : Script tree Unit :=
  if element.aliasNode.isPresent then do
    let id ← quiet _ (quiet_declare (.ofName (dialect.nameOf element.aliasNode) .aliased))
    send id
    within (.assignment (some id)) (visits element.expression)
  else visits element.expression

def element (element : Dialect.Element tree) (position : Nat) : Script tree Unit := do
  gather dialect element
  flush position

def selectList (node : Node tree) : Script tree Unit :=
  within (.selectList []) <|
    forEach (dialect.elements node).zipIdx fun (item, position) => element dialect item position

def tableName (node : Node tree) : Script tree Unit :=
  if dialect.isSourceName node then do
    let relation ← quiet _ (.onScope fun scope =>
        scope.learns_table (Text.lastSegment (dialect.nameOf node)))
    send relation
    let aliasNode := dialect.tableAlias node
    if aliasNode.isPresent then
      quiet _ (.changeScope fun _ =>
        Scope.Learns.refl.renameSource relation (some (dialect.nameOf aliasNode)))
  else pure ()

def setOperation (node : Node tree) : Script tree Unit := do
  if dialect.standsBetweenArms node then
    if (node.earlierTagged node.tag).isEmpty then closeArm
    nextArm 0
  else nextArm 1
  visits node.children

def insertValues (values : List (Node tree)) (columns : List BindingId) (table : String) :
    Script tree Unit :=
  if values.length = columns.length then
    forEach (values.zip columns) fun (value, column) =>
      within (.assignment (some column)) (visits [value])
  else quiet _ (.fail (.mispaired (.columns values.length columns.length table)) rfl)

def insert (node : Node tree) : Script tree Unit :=
  let parts := dialect.insertParts node
  if parts.table.isPresent then do
    let name := dialect.nameOf parts.table
    let table ← quiet _ (.onScope fun scope => scope.learns_insertTarget (Text.lastSegment name))
    let columns ← quiet _ (quiet_insertColumns dialect parts table)
    match parts.values with
    | some values => insertValues values columns name
    | none =>
      if parts.query.isPresent then within (.multipleAssignment columns 0) (visits [parts.query])
      else quiet _ (.fail (.misshapen .insertWithoutSource) rfl)
  else quiet _ (.fail (.misshapen .insertWithoutTable) rfl)

/-- The steps of a rule. -/
def ofRule (node : Node tree) : Rule → Script tree Unit
  | .skip => pure ()
  | .package => package dialect node
  | .routine => routine dialect node
  | .varDeclaration => varDeclaration dialect node
  | .cursor => cursor dialect node
  | .callStatement => call dialect true node
  | .functionCall => call dialect false node
  | .identifier => identifier dialect node
  | .reference => reference dialect node
  | .fieldChain => within (.chain none) (visits node.children)
  | .fieldSuffix => fieldSuffix dialect node
  | .returnStatement => returnStatement node
  | .assignment => within (.assignment none) (visits node.children)
  | .fetch => quiet _ (quiet_fetch dialect node)
  | .conditional => conditional node
  | .loop => loop dialect node
  | .select => select dialect node
  | .withClause => forEach (dialect.namedQueries node) (namedQuery dialect)
  | .selectList => selectList dialect node
  | .insert => insert dialect node
  | .tableName => tableName dialect node
  | .effect => within .effectClause (visits node.children)
  | .setOperation => setOperation dialect node

/-! ### Every rule is the run of its script -/

theorem run_argument (call : Option BindingId) (node : Node tree) (position : Nat) :
    (argument dialect call node position).run walk =
      Walk.argument dialect walk call node position := by
  cases call <;> rfl

theorem run_callOf (routine : BindingId) (name : QualifiedName) (statement : Bool)
    (node : Node tree) :
    (callOf dialect routine name statement node).run walk =
      Walk.callOf dialect walk routine name statement node := by
  -- The two sides test for a statement in the same place, so the test is settled first.
  cases statement <;>
    simp [callOf, Walk.callOf, Walk.arguments, run_forEach, run_argument]

theorem run_call (statement : Bool) (node : Node tree) :
    (call dialect statement node).run walk = Walk.call dialect walk statement node := by
  -- Both sides look for the name and then for the routine; they are compared for each result.
  simp only [call, Walk.call, run_bind, run_quiet]
  congr 1
  funext name
  congr 1
  funext found
  cases found with
  | some routine => exact run_callOf walk dialect routine name statement node
  | none => cases statement <;> rfl

theorem run_cursor : (cursor dialect node).run walk = Walk.cursor dialect walk node := by
  simp only [cursor, Walk.cursor, run_bind, run_quiet, run_within, run_visits, forM_singleton]

theorem run_varDeclaration :
    (varDeclaration dialect node).run walk = Walk.varDeclaration dialect walk node := by
  -- The test for a default value stands below two binds, where `rfl` does not reach it.
  simp only [varDeclaration, Walk.varDeclaration, run_bind, run_quiet]
  congr 1
  funext name
  congr 1
  funext id
  cases (dialect.defaultValue node).isPresent <;> rfl

theorem run_identifier : (identifier dialect node).run walk = Walk.identifier dialect node := by
  unfold identifier Walk.identifier
  split <;> rfl

theorem run_fieldSuffix :
    (fieldSuffix dialect node).run walk = Walk.fieldSuffix dialect walk node := by
  simp only [fieldSuffix, Walk.fieldSuffix]
  split <;> rfl

theorem run_conditional : (conditional node).run walk = Walk.conditional walk node := by
  simp only [conditional, Walk.conditional, run_bind, run_within, run_visits, forM_singleton]

theorem run_loop : (loop dialect node).run walk = Walk.loop dialect walk node := by
  simp only [loop, Walk.loop, run_within]
  congr 1
  -- Only the loop over rows has a test: without a record it fails, and visits nothing.
  cases dialect.loopParts node with
  | plain body => rfl
  | overRows record sources body =>
    simp only
    split <;> rfl

theorem run_select : (select dialect node).run walk = Walk.select dialect walk node := by
  simp only [select, Walk.select, run_bind, run_quiet]
  congr 1
  funext claimed
  cases claimed <;> rfl

theorem run_namedQuery (query : Dialect.NamedQuery tree) :
    (namedQuery dialect query).run walk = Walk.namedQuery dialect walk query := by
  unfold namedQuery Walk.namedQuery
  split <;> rfl

theorem run_element (item : Dialect.Element tree) (position : Nat) :
    (element dialect item position).run walk = Walk.element dialect walk item position := by
  simp only [element, gather, Walk.element, run_bind]
  split <;> simp

theorem run_selectList :
    (selectList dialect node).run walk = Walk.selectList dialect walk node := by
  simp only [selectList, Walk.selectList, run_within, run_forEach, run_element]

theorem run_tableName : (tableName dialect node).run walk = Walk.tableName dialect node := by
  simp only [tableName, Walk.tableName]
  cases dialect.isSourceName node with
  | false => rfl
  | true => cases (dialect.tableAlias node).isPresent <;> rfl

theorem run_setOperation :
    (setOperation dialect node).run walk = Walk.setOperation dialect walk node := by
  simp only [setOperation, Walk.setOperation]
  -- Only an operator between arms may end the level of the first one.
  cases dialect.standsBetweenArms node with
  | false => rfl
  | true => cases (node.earlierTagged node.tag).isEmpty <;> simp

theorem run_insertValues (values : List (Node tree)) (columns : List BindingId) (table : String) :
    (insertValues values columns table).run walk = Walk.insertValues walk values columns table := by
  unfold insertValues Walk.insertValues
  split
  · simp only [run_forEach, run_within, run_visits, forM_singleton]
  · rfl

theorem run_insert : (insert dialect node).run walk = Walk.insert dialect walk node := by
  simp only [insert, Walk.insert]
  cases (dialect.insertParts node).table.isPresent with
  | false => rfl
  | true =>
    -- The target and its columns are found in the same way; what follows depends on the source.
    simp only [if_true, run_bind, run_quiet]
    congr 1
    funext table
    congr 1
    funext columns
    cases (dialect.insertParts node).values with
    | some values => exact run_insertValues walk values columns _
    | none =>
      cases (dialect.insertParts node).query.isPresent with
      | false => rfl
      | true => simp only [if_true, run_within, run_visits, forM_singleton]

/-- Every rule is the run of its script. -/
theorem run_ofRule (rule : Rule) :
    (ofRule dialect node rule).run walk = apply dialect walk node rule := by
  -- Where a rule has no test of its own, the script runs to the rule by definition.
  cases rule with
  | varDeclaration => exact run_varDeclaration walk dialect node
  | cursor => exact run_cursor walk dialect node
  | callStatement => exact run_call walk dialect true node
  | functionCall => exact run_call walk dialect false node
  | identifier => exact run_identifier walk dialect node
  | fieldSuffix => exact run_fieldSuffix walk dialect node
  | conditional => exact run_conditional walk node
  | loop => exact run_loop walk dialect node
  | select => exact run_select walk dialect node
  | withClause => simp only [ofRule, run_forEach, run_namedQuery]; rfl
  | selectList => exact run_selectList walk dialect node
  | insert => exact run_insert walk dialect node
  | tableName => exact run_tableName walk dialect node
  | setOperation => exact run_setOperation walk dialect node
  | _ => rfl

end Script

/-! ### The nodes that a script may visit -/

/-- All nodes that the script may visit are allowed. -/
def Script.Visits (allowed : Node tree → Prop) : {α : Type} → Script tree α → Prop
  | _, quiet _ _ => True
  | _, send _ => True
  | _, flush _ => True
  | _, closeArm => True
  | _, nextArm _ => True
  | _, visits nodes => ∀ node ∈ nodes, allowed node
  | _, query parts => ∀ part ∈ parts, allowed part
  | _, within _ body => body.Visits allowed
  | _, andThen first next => first.Visits allowed ∧ ∀ value, (next value).Visits allowed

theorem forM_congr {walk walk' : Node tree → Walk Unit} {nodes : List (Node tree)}
    (h : ∀ node ∈ nodes, walk node = walk' node) : nodes.forM walk = nodes.forM walk' := by
  induction nodes with
  | nil => rfl
  | cons node rest ih =>
    -- The loop is unfolded by one step on both sides.
    show (walk node >>= fun _ => rest.forM walk) = (walk' node >>= fun _ => rest.forM walk')
    rw [h node List.mem_cons_self, ih fun other hother => h other (List.mem_cons_of_mem _ hother)]

/-- A script depends on how the nodes that it may visit are visited, and on no others. -/
theorem Script.run_congr {α : Type} {walk walk' : Node tree → Walk Unit}
    {allowed : Node tree → Prop} (hwalk : ∀ node, allowed node → walk node = walk' node)
    {script : Script tree α} (hvisits : script.Visits allowed) :
    script.run walk = script.run walk' := by
  -- By induction on the script: nodes are visited by its leaves, and only by two of them.
  induction script with
  | visits nodes => exact forM_congr fun node hnode => hwalk node (hvisits node hnode)
  | query parts =>
    have hparts := forM_congr fun part hpart => hwalk part (hvisits part hpart)
    simp only [run_query, hparts]
  | within frame body ih => simp only [run_within, ih hvisits]
  | andThen first next ihfirst ihnext =>
    show (first.run walk >>= fun value => (next value).run walk) =
      first.run walk' >>= fun value => (next value).run walk'
    rw [ihfirst hvisits.1]
    congr 1
    -- The second part is a different script for each value that the first one gives.
    funext value
    exact ihnext value (hvisits.2 value)
  | _ => rfl

/-! ### The script of a node -/

/-- Placing the errors of a walk does not change the state it leaves. -/
theorem state_located (place : Location) (walk : Walk Unit) (session : Session) :
    (located place walk session).2 = (walk session).2 := by
  unfold located
  rcases walk session with ⟨error | ⟨⟩, after⟩ <;> rfl

/-- A placed walk succeeds as the walk itself does. -/
theorem ok_of_located {place : Location} {walk : Walk Unit} {session after : Session}
    (h : located place walk session = (.ok (), after)) : walk session = (.ok (), after) := by
  simp only [located] at h
  rcases hrun : walk session with ⟨error | ⟨⟩, last⟩
  · rw [hrun] at h
    cases h
  · rw [hrun] at h
    exact h

/-- The steps that a node is understood by: those of its rule, or its children in order. -/
def nodeScript (dialect : Dialect) (node : Node tree) : Script tree Unit :=
  match dialect.rule? node.tag with
  | some rule => .ofRule dialect node rule
  | none => .visits node.children

/-- Visiting a node marks it as visited, plays its script and places the errors of this run. -/
theorem visit_present (dialect : Dialect) (levels : Nat) (index : Fin tree.size)
    (session : Session) :
    visit dialect (levels + 1) (.present index) session =
      located (Node.present index).location
        ((nodeScript dialect (.present index)).run (visit dialect levels))
        { session with visited := index :: session.visited } := by
  simp only [visit, nodeScript]
  -- A visit looks for the rule just as `nodeScript` does.
  cases dialect.rule? (Node.present index).tag with
  | none => rfl
  | some rule =>
    simp only [Script.run_ofRule]
    rfl

end Lineage.Walk
