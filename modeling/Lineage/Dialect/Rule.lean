/-! # Rules

What a node of a syntax tree means. Each grammar binds some of its tags to rules; a node with any
other tag means what its children mean. -/

namespace Lineage

inductive Rule where
  /-- Nothing below the node counts: package specifications, forward declarations. -/
  | skip
  | package
  | routine
  | varDeclaration
  | cursor
  /-- The call of a procedure. -/
  | callStatement
  /-- The call of a function inside an expression. -/
  | functionCall
  /-- A name in an expression, perhaps one segment of a dotted name. -/
  | identifier
  /-- A name that must have been declared before. -/
  | reference
  /-- An expression followed by member accesses. -/
  | fieldChain
  /-- One member access. -/
  | fieldSuffix
  | returnStatement
  /-- A statement whose first value is the target of the others. -/
  | assignment
  | fetch
  /-- A condition followed by what it guards. -/
  | conditional
  | loop
  | select
  | withClause
  | selectList
  | insert
  | tableName
  /-- A clause that filters or orders rows and whose values are not selected. -/
  | effect
  /-- An operator between two arms of a query, or around the arm it introduces. -/
  | setOperation
deriving DecidableEq, Repr

namespace Rule

def all : List Rule :=
  [skip, package, routine, varDeclaration, cursor, callStatement, functionCall,
    identifier, reference,
   fieldChain, fieldSuffix, returnStatement, assignment, fetch, conditional, loop,
   select, withClause, selectList, insert, tableName, effect, setOperation]

def name : Rule → String
  | skip => "Skip"
  | package => "Package"
  | routine => "Routine"
  | varDeclaration => "Variable"
  | cursor => "Cursor"
  | callStatement => "CallStatement"
  | functionCall => "FunctionCall"
  | identifier => "Identifier"
  | reference => "Reference"
  | fieldChain => "FieldChain"
  | fieldSuffix => "FieldSuffix"
  | returnStatement => "Return"
  | assignment => "Assignment"
  | fetch => "Fetch"
  | conditional => "Conditional"
  | loop => "Loop"
  | select => "Select"
  | withClause => "With"
  | selectList => "SelectList"
  | insert => "Insert"
  | tableName => "TableName"
  | effect => "Effect"
  | setOperation => "SetOperation"

def ofName? (name : String) : Option Rule :=
  all.find? (·.name == name)

end Rule

end Lineage
