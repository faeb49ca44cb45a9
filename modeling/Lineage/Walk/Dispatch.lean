import Lineage.Walk.Declarations
import Lineage.Walk.Queries

/-! # Visiting a tree

Every node is understood by the rule of its tag, which visits nodes further down; a node without a
rule has its children visited in order. -/

namespace Lineage.Walk

variable {tree : Tree}

/-- What a rule does with a node, given how nodes below it are visited. -/
def apply (dialect : Dialect) (walk : Node tree → Walk Unit) (node : Node tree) : Rule → Walk Unit
  | .skip => pure ()
  | .package => package dialect walk node
  | .routine => routine dialect walk node
  | .varDeclaration => varDeclaration dialect walk node
  | .cursor => cursor dialect walk node
  | .callStatement => call dialect walk true node
  | .functionCall => call dialect walk false node
  | .identifier => identifier dialect node
  | .reference => reference dialect node
  | .fieldChain => within (.chain none) (node.children.forM walk)
  | .fieldSuffix => fieldSuffix dialect walk node
  | .returnStatement => returnStatement walk node
  | .assignment => within (.assignment none) (node.children.forM walk)
  | .fetch => fetch dialect node
  | .conditional => conditional walk node
  | .loop => loop dialect walk node
  | .select => select dialect walk node
  | .withClause => withClause dialect walk node
  | .selectList => selectList dialect walk node
  | .insert => insert dialect walk node
  | .tableName => tableName dialect node
  | .effect => within .effectClause (node.children.forM walk)
  | .setOperation => setOperation dialect walk node

/-- Visits a node and what lies below it, down to the given number of levels. Visiting nothing
    does nothing. -/
def visit (dialect : Dialect) : Nat → Node tree → Walk Unit
  | 0, _ => pure ()
  | _ + 1, .absent => pure ()
  | levels + 1, .present index =>
    located (Node.present index).location do
      change fun session => { session with visited := index :: session.visited }
      match dialect.rule? (Node.present index).tag with
      | some rule => apply dialect (visit dialect levels) (.present index) rule
      | none => (Node.present index).children.forM (visit dialect levels)

/-- Visits a whole tree. A tree has no more levels than nodes. -/
def visitTree (dialect : Dialect) (tree : Tree) : Walk Unit :=
  visit dialect tree.size tree.root

end Lineage.Walk
