import Lineage.View.Names

/-! # Declarations in a tree

The parts of packages, routines, variables and cursors. -/

namespace Lineage.Dialect

variable {tree : Tree}

/-- What follows the name of a package, or all of it if it states no name. -/
def packageBody (dialect : Dialect) (package : Node tree) : List (Node tree) :=
  let tag := dialect.vocabulary.declarations.packageName
  let header := package.child tag
  (if header.isPresent then header.later else package.children).filter fun child => !child.has tag

/-- Between the node and the package stands a routine. -/
def insideRoutine (dialect : Dialect) (package node : Node tree) : Bool :=
  (node.ancestors.takeWhile (· ≠ package)).any fun above => dialect.binds above .routine

/-- The routines of a package that are not part of another one, in the order of the text. -/
def routinesOf (dialect : Dialect) (package : Node tree) : List (Node tree) :=
  package.descendants.filter fun node =>
    dialect.binds node .routine && !dialect.insideRoutine package node

/-- The children of a routine that make up its body. -/
def routineBody (dialect : Dialect) (routine : Node tree) : List (Node tree) :=
  routine.children.filter fun child => !dialect.vocabulary.declarations.routineHeader.any child.has

/-- The node that holds the parameters: the list of parameters among the children, or the first one
    among the children of a child, or the declaration itself where a dialect has no such lists. -/
def parameterHolder (dialect : Dialect) (declaration : Node tree) : Node tree :=
  match dialect.vocabulary.declarations.parameterList with
  | none => declaration
  | some tag =>
    let direct := declaration.child tag
    if direct.isPresent then direct
    else Node.first ((declaration.children.map (·.child tag)).filter Node.isPresent)

/-- The formal parameters of a declaration, which carry the given tag. -/
def parametersOf (dialect : Dialect) (declaration : Node tree) (tag : String) : List (Node tree) :=
  (dialect.parameterHolder declaration).childrenTagged tag

/-- The initial value of a variable. -/
def defaultValue (dialect : Dialect) (declaration : Node tree) : Node tree :=
  declaration.child dialect.vocabulary.declarations.defaultValue

/-- The query of a cursor. -/
def cursorQuery (dialect : Dialect) (declaration : Node tree) : Node tree :=
  declaration.child dialect.vocabulary.declarations.cursorQuery

end Lineage.Dialect
