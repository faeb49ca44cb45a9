import Lineage.QualifiedName
import Lineage.View.Names

/-! # Calls and loops in a tree

The name and the arguments of a call, and the parts of a loop. -/

namespace Lineage.Dialect

variable {tree : Tree}

/-- The name of a called routine. Of several segments the last two count. -/
def calledName? (dialect : Dialect) (call : Node tree) : Option QualifiedName :=
  let parts := (call.child dialect.vocabulary.calls.name).find dialect.vocabulary.names.part
  match (parts.map Node.text).reverse with
  | [] => none
  | [name] => some ((QualifiedName.ofName name).ofKind .routine)
  | name :: qualifier :: _ =>
    some (((QualifiedName.ofName name).qualifiedBy qualifier).ofKind .routine)

/-- The arguments of a call. -/
def argumentsOf (dialect : Dialect) (call : Node tree) : List (Node tree) :=
  (call.path dialect.vocabulary.calls.arguments).childrenTagged dialect.vocabulary.calls.argument

/-- The name of an argument that is passed by name. -/
def argumentName (dialect : Dialect) (argument : Node tree) : Node tree :=
  argument.child dialect.vocabulary.calls.argumentName

/-- What an argument is made of, its name apart. -/
def argumentValue (dialect : Dialect) (argument : Node tree) : List (Node tree) :=
  argument.children.filter (· ≠ dialect.argumentName argument)

/-- The parts of a loop. -/
inductive LoopParts (tree : Tree) where
  /-- A loop without a record. -/
  | plain (body : List (Node tree))
  /-- A loop whose record takes the rows of a source. -/
  | overRows (record : Node tree) (sources body : List (Node tree))

/-- The parts of a loop. Where a dialect has loop headers, a loop without one has no record. -/
def loopParts (dialect : Dialect) (loop : Node tree) : LoopParts tree :=
  match dialect.vocabulary.statements.loopHeader with
  | some tag =>
    let header := loop.child tag
    if header.isPresent then .overRows (header.childAt 0) (header.childAt 0).later header.later
    else .plain loop.children
  | none => .overRows (loop.childAt 0) [loop.childAt 1] (loop.childAt 1).later

end Lineage.Dialect
