import Lineage.View.Queries
import Lineage.Walk.Statements

/-! # Queries and inserts

How the parts of a query meet: sources come before the select list, each element of the list gives
one value, and the values go to the targets of the query or to the columns of an insert. -/

namespace Lineage.Walk

variable {tree : Tree} (dialect : Dialect) (walk : Node tree → Walk Unit)

/-- The target clause of a query, unless another query took it before. -/
def claimInto (node : Node tree) : Walk (Option (Node tree)) := fun session =>
  let clause := dialect.intoClause node
  match clause.index? with
  | none => (.ok none, session)
  | some index =>
    if session.claimed.contains index then (.ok none, session)
    else (.ok (some clause), { session with claimed := index :: session.claimed })

/-- The parts of a query, on a level of its own. -/
def queryLevel (node : Node tree) : Walk Unit :=
  within .query ((dialect.queryParts node).forM walk)

def select (node : Node tree) : Walk Unit := do
  match ← claimInto dialect node with
  | none => queryLevel dialect walk node
  | some clause =>
    let targets ← (dialect.intoTargets clause).mapM (existing dialect)
    within (.multipleAssignment targets 0) (queryLevel dialect walk node)

/-- A named subquery, declared after its own body. -/
def namedQuery (query : Dialect.NamedQuery tree) : Walk Unit := do
  if query.name.isPresent then
    let id ← add (.ofName (dialect.nameOf query.name) .record)
    within (.members id false) (query.body.forM walk)
    changeScope (·.declare id)
  else fail (.misshapen .unnamedQuery)

def withClause (node : Node tree) : Walk Unit :=
  (dialect.namedQueries node).forM (namedQuery dialect walk)

/-- An element of a select list. -/
def element (element : Dialect.Element tree) (position : Nat) : Walk Unit := do
  if element.aliasNode.isPresent then
    let id ← declare (.ofName (dialect.nameOf element.aliasNode) .aliased)
    produce id
    within (.assignment (some id)) (element.expression.forM walk)
  else element.expression.forM walk
  attempt (·.flushElement position)

def selectList (node : Node tree) : Walk Unit :=
  within (.selectList []) <|
    (dialect.elements node).zipIdx.forM fun (item, position) => element dialect walk item position

/-- A table that a query reads from, and the name it gives to it. -/
def tableName (node : Node tree) : Walk Unit := do
  if dialect.isSourceName node then
    let relation ← onScope (·.table (Text.lastSegment (dialect.nameOf node)))
    produce relation
    let aliasNode := dialect.tableAlias node
    if aliasNode.isPresent then
      changeScope fun scope =>
        (scope.renameSource? relation (some (dialect.nameOf aliasNode))).getD scope

/-- Leaves the level of the first arm. -/
def closeArm : Walk Unit := do
  match ← read (·.scope.frames) with
  | .select _ :: _ => attempt Scope.pop
  | _ => fail (.misshapen .operatorOutsideQuery)

/-- The targets of the query around the given number of levels must all have received a value, and
    wait for the values of the next arm. -/
def nextArm (queries : Nat) : Walk Unit := do
  match ← read (·.scope.pendingAssignment? queries) with
  | none => pure ()
  | some (targets, received) =>
    if received = targets.length then
      changeScope fun scope => (scope.restartAssignment? queries).getD scope
    else fail (.mispaired (.shortfall received targets.length))

/-- An operator between two arms. The first operator between the arms of one query leaves the level
    of the first arm; an operator around its arm stands on the level of the whole query. -/
def setOperation (node : Node tree) : Walk Unit := do
  if dialect.standsBetweenArms node then
    if (node.earlierTagged node.tag).isEmpty then closeArm
    nextArm 0
  else nextArm 1
  node.children.forM walk

/-! ## Inserts -/

/-- The columns that an insert fills. Without a list they are those the table is known to have or,
    if it has none, one column for each value. -/
def insertColumns (parts : Dialect.InsertParts tree) (table : BindingId) :
    Walk (List BindingId) := do
  if parts.columns.isEmpty then
    let known ← read (·.scope.knownColumns table)
    if known.isEmpty then
      let arity := match parts.values with
        | some values => values.length
        | none => dialect.arity parts.query
      onScope (Scope.columnsNamed table ((List.range arity).map fun position => s!"[{position}]"))
    else return known
  else
    onScope (Scope.columnsNamed table
      (parts.columns.map fun column => Text.lastSegment (dialect.nameOf column)))

/-- Each value flows into its column. -/
def insertValues (values : List (Node tree)) (columns : List BindingId) (table : String) :
    Walk Unit :=
  if values.length = columns.length then
    (values.zip columns).forM fun (value, column) => within (.assignment (some column)) (walk value)
  else fail (.mispaired (.columns values.length columns.length table))

def insert (node : Node tree) : Walk Unit := do
  let parts := dialect.insertParts node
  if parts.table.isPresent then
    let name := dialect.nameOf parts.table
    let table ← onScope (·.insertTarget (Text.lastSegment name))
    let columns ← insertColumns dialect parts table
    match parts.values with
    | some values => insertValues walk values columns name
    | none =>
      if parts.query.isPresent then within (.multipleAssignment columns 0) (walk parts.query)
      else fail (.misshapen .insertWithoutSource)
  else fail (.misshapen .insertWithoutTable)

end Lineage.Walk
