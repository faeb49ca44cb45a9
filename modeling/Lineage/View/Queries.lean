import Lineage.View.Names

/-! # Queries and inserts in a tree

The clauses of a query, the elements of a select list, and the parts of an insert. -/

namespace Lineage.Dialect

variable {tree : Tree}

/-- The target clause of a query: its own, or else the first one anywhere below it. -/
def intoClause (dialect : Dialect) (query : Node tree) : Node tree :=
  let tag := dialect.vocabulary.queries.intoClause
  let direct := query.child tag
  if direct.isPresent then direct else query.findFirst tag

/-- The targets named by a target clause. -/
def intoTargets (dialect : Dialect) (clause : Node tree) : List (Node tree) :=
  clause.childrenTagged dialect.vocabulary.queries.intoTarget

/-- The children of a query that come after its named subqueries and its sources. -/
def queryBody (dialect : Dialect) (query : Node tree) : List (Node tree) :=
  let tags := dialect.vocabulary.queries
  query.children.filter fun child =>
    !(child.has tags.withClause || child.has tags.fromClause || child.has tags.intoClause)

/-- All parts of a query in the order in which they are understood: named subqueries,
    sources, the rest. -/
def queryParts (dialect : Dialect) (query : Node tree) : List (Node tree) :=
  let tags := dialect.vocabulary.queries
  query.child tags.withClause :: query.child tags.fromClause :: dialect.queryBody query

/-- A named subquery. -/
structure NamedQuery (tree : Tree) where
  name : Node tree
  body : List (Node tree)

/-- The subqueries named by a clause. -/
def namedQueries (dialect : Dialect) (clause : Node tree) : List (NamedQuery tree) :=
  let tags := dialect.vocabulary.queries
  match tags.withEntry with
  | some tag =>
    (clause.childrenTagged tag).map fun entry =>
      let name := entry.child tags.withName
      ⟨name, entry.children.filter (· ≠ name)⟩
  | none => (clause.childrenTagged tags.withName).map fun name => ⟨name, [name.next]⟩

/-- An element of a select list: the nodes of its expression, and its alias or nothing. -/
structure Element (tree : Tree) where
  expression : List (Node tree)
  aliasNode : Node tree

/-- The elements of a select list. -/
def elements (dialect : Dialect) (selectList : Node tree) : List (Element tree) :=
  let tags := dialect.vocabulary.queries
  match tags.element with
  | some tag =>
    (selectList.childrenTagged tag).map fun element =>
      ⟨element.children.filter fun child => !child.has tags.columnAlias,
        element.child tags.columnAlias⟩
  | none =>
    (selectList.children.filter fun child => !child.has tags.columnAlias).map fun expression =>
      ⟨[expression], expression.nextTagged tags.columnAlias⟩

/-- The number of elements of the first select list below a node. -/
def arity (dialect : Dialect) (query : Node tree) : Nat :=
  let list := Node.first (query.descendants.filter fun node => dialect.binds node .selectList)
  if list.isPresent then (dialect.elements list).length else 0

/-- The alias of a table name. -/
def tableAlias (dialect : Dialect) (table : Node tree) : Node tree :=
  let tags := dialect.vocabulary.queries
  (table.ancestor tags.aliasHolder).child tags.tableAlias

/-- The table name names a source of a query. -/
def isSourceName (dialect : Dialect) (table : Node tree) : Bool :=
  table.parent.has dialect.vocabulary.queries.tableReference

/-- The node is an arm's operator among the children of the query itself. -/
def standsBetweenArms (dialect : Dialect) (operator : Node tree) : Bool :=
  dialect.binds operator.parent .select

/-- The parts of an insert. -/
structure InsertParts (tree : Tree) where
  table : Node tree
  columns : List (Node tree)
  /-- The listed values, if the insert has a values clause. -/
  values : Option (List (Node tree))
  query : Node tree

def insertParts (dialect : Dialect) (insert : Node tree) : InsertParts tree :=
  let tags := dialect.vocabulary.inserts
  let into := insert.child tags.into
  let values := insert.child tags.values
  { table := into.findFirst tags.table
    columns := into.find tags.column
    values :=
      if values.isPresent then some
        ((values.path tags.valuesPath).childrenTagged tags.value) else none
    query := insert.child tags.query }

end Lineage.Dialect
