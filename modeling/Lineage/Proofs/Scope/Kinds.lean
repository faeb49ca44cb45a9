import Lineage.Proofs.Graph.Kinds
import Lineage.Proofs.Scope.Progress

/-!
# The kinds of bindings that a scope adds

Routines, parameters, arguments and calls are added by the rules for routines, cursors and calls
alone. All other steps on a scope add bindings of other kinds at most: resolving a name may add a
field or a table.

## Key results

- `plain_declareAll`, `plain_declareNew`: declarations
- `plain_dottedReference`, `plain_table`, `plain_insertTarget`, `plain_columnsNamed`: references
-/

namespace Lineage

namespace Scope

/-! ### Declarations -/

theorem plain_declareAll (ids : List BindingId) (scope : Scope) :
    scope.graph.GrowsPlain (ids.foldl Scope.declare scope).graph := by
  induction ids generalizing scope with
  | nil => exact .refl
  | cons id rest ih => exact (scope.plain_declare id).trans (ih _)

variable (scope : Scope) {kind : Binding.Kind}

theorem plain_add (name : String) (h : kind ∈ Binding.Kind.plain) :
    scope.graph.GrowsPlain (scope.add (.ofName name kind)).2.graph :=
  Graph.GrowsBy.refl.push _ h

theorem plain_declareNew (name : String) (h : kind ∈ Binding.Kind.plain) :
    scope.graph.GrowsPlain (scope.declareNew (.ofName name kind)).2.graph :=
  (scope.plain_add name h).trans (plain_declare _ _)

/-! ### References -/

theorem plain_childOrInsert (parent : BindingId) (name : String) (h : kind ∈ Binding.Kind.plain) :
    scope.graph.GrowsPlain (scope.childOrInsert parent name kind).2.graph :=
  Graph.growsBy_childOrInsert _ parent name kind h

theorem plain_reference (name : String) :
    scope.graph.GrowsPlain (scope.reference name).2.graph := by
  unfold reference
  split
  · exact .refl
  · split
    · exact plain_childOrInsert scope _ _ (by decide)
    · exact plain_declareNew scope _ (by decide)

theorem plain_referenceHead (name : String) :
    scope.graph.GrowsPlain (scope.referenceHead name).2.graph := by
  unfold referenceHead
  split
  · exact .refl
  · exact plain_add scope _ (by decide)

theorem plain_memberChain (names : List String) (current : BindingId) (scope : Scope) :
    scope.graph.GrowsPlain (memberChain names current scope).2.graph := by
  induction names generalizing current scope with
  | nil => exact .refl
  | cons name rest ih => exact (plain_childOrInsert scope current name (by decide)).trans (ih _ _)

theorem plain_dottedReference (qualifiers : List String) (name : String) :
    scope.graph.GrowsPlain (scope.dottedReference qualifiers name).2.graph := by
  cases qualifiers with
  | nil => exact plain_reference scope name
  | cons head rest => exact (plain_referenceHead scope head).trans (plain_memberChain _ _ _)

theorem plain_table (name : String) : scope.graph.GrowsPlain (scope.table name).2.graph := by
  -- Only a name without any meaning gets a new binding, of a kind that is plain.
  unfold table
  split
  · exact .refl
  · split
    · exact .refl
    · split
      · exact .refl
      · exact plain_add scope _ (by decide)

theorem plain_insertTarget (name : String) :
    scope.graph.GrowsPlain (scope.insertTarget name).2.graph := by
  unfold insertTarget
  split
  · exact .refl
  · split
    · exact .refl
    · exact plain_add scope _ (by decide)

theorem plain_columnsNamed (table : BindingId) (names : List String) (scope : Scope) :
    scope.graph.GrowsPlain (columnsNamed table names scope).2.graph := by
  induction names generalizing scope with
  | nil => exact .refl
  | cons name rest ih => exact (plain_childOrInsert scope table name (by decide)).trans (ih _)

end Scope

end Lineage
