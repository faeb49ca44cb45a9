import Lineage.Analysis.Basic
import Lineage.Dialect.Grammar
import Lineage.Walk.Dispatch

/-! # Analyzing a tree -/

namespace Lineage

/-- The analysis of a syntax tree: what visiting it from the root adds to the tables
    of the schema. -/
def analyze (tree : Tree) (dialect : Dialect) (schema : Schema) : Except Error Analysis :=
  match Walk.visitTree dialect tree (.ofSchema schema) with
  | (.ok (), session) => .ok (.ofGraph session.scope.graph session.scope.globals)
  | (.error error, _) => .error error

end Lineage
