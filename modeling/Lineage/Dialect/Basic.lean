import Lineage.Dialect.Rule

/-! # Dialects

Two grammars describe the same language with different tags. A dialect tells the rule of a tag, and
its vocabulary the tags by which a rule finds the parts of its node. -/

namespace Lineage

/-- The tags around names. -/
structure NameTags where
  /-- The node that holds a declared name, if it has one of its own. -/
  holder : Option String
  /-- One segment of a name. -/
  part : String
  /-- Siblings that qualify a name. -/
  qualifiers : List String
  /-- The name inside a member access. -/
  member : String

/-- The tags of declarations. -/
structure DeclarationTags where
  packageName : String
  /-- The children of a routine that are not part of its body. -/
  routineHeader : List String
  /-- The node that holds the parameters, if they have one of their own. -/
  parameterList : Option String
  parameter : String
  cursorParameter : String
  defaultValue : String
  cursorQuery : String

/-- The tags of calls. -/
structure CallTags where
  name : String
  /-- The way from a call to the node that holds its arguments. -/
  arguments : List String
  argument : String
  /-- The name of an argument that is passed by name. -/
  argumentName : String

/-- The tags of fetches and loops. -/
structure StatementTags where
  fetchCursor : String
  fetchTarget : String
  /-- The node that holds the record and the source of a loop, if they have one of their own. -/
  loopHeader : Option String

/-- The tags of queries. -/
structure QueryTags where
  withClause : String
  /-- The node around a named subquery, if it has one. -/
  withEntry : Option String
  withName : String
  fromClause : String
  intoClause : String
  intoTarget : String
  /-- The node around an element of a select list, if it has one; otherwise the alias follows
      its expression. -/
  element : Option String
  columnAlias : String
  /-- The parent of a table name that is a source. -/
  tableReference : String
  tableAlias : String
  /-- The node above a table name that holds its alias. -/
  aliasHolder : String

/-- The tags of inserts. -/
structure InsertTags where
  into : String
  table : String
  column : String
  values : String
  /-- The way from the values clause to the node that holds the values. -/
  valuesPath : List String
  value : String
  query : String

structure Vocabulary where
  names : NameTags
  declarations : DeclarationTags
  calls : CallTags
  statements : StatementTags
  queries : QueryTags
  inserts : InsertTags

/-- Each tag has one rule. -/
structure Dialect where
  rules : List (String × Rule)
  vocabulary : Vocabulary
  nodup : (rules.map Prod.fst).Nodup

namespace Dialect

/-- The rule of a tag, if it has one. -/
def rule? (dialect : Dialect) (tag : String) : Option Rule :=
  dialect.rules.lookup tag

/-- The tags bound to a rule, in ascending order. -/
def tagsOf (dialect : Dialect) (rule : Rule) : List String :=
  ((dialect.rules.filter (·.2 == rule)).map (·.1)).mergeSort (· ≤ ·)

/-- The number of tags that have a rule. -/
def size (dialect : Dialect) : Nat :=
  dialect.rules.length

end Dialect

end Lineage
