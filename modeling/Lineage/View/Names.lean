import Lineage.Dialect.Basic
import Lineage.Tree.Node

/-! # Names in a tree

Where a dialect keeps the names of declarations and references. -/

namespace Lineage.Dialect

variable {tree : Tree}

/-- The node's tag is bound to the rule. -/
def binds (dialect : Dialect) (node : Node tree) (rule : Rule) : Bool :=
  node.isPresent && dialect.rule? node.tag == some rule

/-- The node that spells the name declared by a node. -/
def declaredPart (dialect : Dialect) (node : Node tree) : Node tree :=
  let names := dialect.vocabulary.names
  match names.holder with
  | some holder => (node.findFirst holder).findLast names.part
  | none => node.findFirst names.part

/-- The name declared by a node. -/
def declaredName? (dialect : Dialect) (node : Node tree) : Option String :=
  let part := dialect.declaredPart node
  if part.isPresent then some part.text else none

/-- The name that a node refers to: its segments joined by dots, or its text if it has none. -/
def nameOf (dialect : Dialect) (node : Node tree) : String :=
  let part := dialect.vocabulary.names.part
  if node.has part then node.text
  else match node.find part with
    | [] => node.text
    | parts => ".".intercalate (parts.map Node.text)

/-- The node qualifies the sibling that follows it. -/
def qualifies (dialect : Dialect) (node : Node tree) : Bool :=
  dialect.vocabulary.names.qualifiers.any node.has

/-- The siblings right before the node that qualify it, first to last. -/
def qualifiersOf (dialect : Dialect) (node : Node tree) : List (Node tree) :=
  (node.earlier.reverse.takeWhile dialect.qualifies).reverse

end Lineage.Dialect
