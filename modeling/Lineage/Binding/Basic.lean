import Lineage.Binding.Kind
import Lineage.Text.Fold

/-! # Bindings

A binding is one declared or referenced name. It knows the bindings that are part of it (`children`,
the columns of a table, the parameters of a routine) and those that its value flows into
(`outputs`). Bindings refer to each other by number. -/

namespace Lineage

/-- The number of a binding in its graph, counted in order of creation. -/
structure BindingId where
  index : Nat
deriving DecidableEq, Hashable, Repr

structure Binding where
  name : String
  kind : Binding.Kind
  comment : Option String
  position : Option Nat
  types : List String
  children : List BindingId
  outputs : List BindingId
deriving DecidableEq, Repr

namespace Binding

/-- A new binding: the name is folded and nothing else is known. -/
def ofName (name : String) (kind : Kind) : Binding :=
  { name := fold name, kind, comment := none, position := none, types := [], children := [],
    outputs := [] }

/-- The binding at a place in a list of parameters, arguments or columns. -/
def withPosition (binding : Binding) (position : Nat) : Binding :=
  { binding with position := some position }

/-- What stands in for a binding that does not exist. -/
def blank : Binding :=
  { name := "", kind := .field, comment := none, position := none, types := [], children := [],
    outputs := [] }

instance : Inhabited Binding := ⟨blank⟩

/-- The binding goes by this name, in whatever spelling. -/
def isNamed (binding : Binding) (name : String) : Bool :=
  binding.name == fold name

end Binding

end Lineage
