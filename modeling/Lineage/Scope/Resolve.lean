import Lineage.QualifiedName
import Lineage.Scope.Basic

/-! # Resolving names

A plain name is looked for level by level from the innermost to the root, and then among the tables
of the schema. A qualified name is looked for among the members of what its qualifier means. -/

namespace Lineage.Scope

/-- What an exact plain name means. -/
def resolvePlain? (scope : Scope) (localOnly : Bool) (name : String)
    (accepts : Binding.Kind → Bool) : Option BindingId :=
  let declared := (scope.frames.findSome? fun frame => frame.resolve? scope.graph name accepts).or
    (scope.root.catalog.lookup? scope.graph name accepts)
  match declared with
  | some id => some id
  | none =>
    if localOnly then none
    else (scope.external? name).filter fun id => accepts (scope.graph.kind id)

/-- What an exact name means under a qualifier, whose segments come innermost first. -/
def resolveUnder? (scope : Scope) (localOnly : Bool) :
    List String → String → (Binding.Kind → Bool) → Option BindingId
  | [], name, accepts => scope.resolvePlain? localOnly name accepts
  | segment :: outer, name, accepts =>
    match scope.resolveUnder? localOnly outer segment Binding.Kind.isContainer with
    | some owner => scope.graph.latestChild? owner name accepts
    | none => none

/-- What a name means. -/
def resolve? (scope : Scope) (name : QualifiedName) : Option BindingId :=
  scope.resolveUnder? name.localOnly name.qualifier.reverse name.name name.accepts

/-- What an exact plain name means at the innermost level alone. -/
def resolveInnermost? (scope : Scope) (name : String) (accepts : Binding.Kind → Bool) :
    Option BindingId :=
  match scope.frames with
  | [] => scope.root.catalog.lookup? scope.graph name accepts
  | frame :: _ => frame.resolve? scope.graph name accepts

end Lineage.Scope
