import Lineage.Binding.Basic
import Lineage.Text.Segments

/-! # Qualified names

A name to be looked up: the segments that qualify it, outermost first, the name itself, the kind it
must have, and whether the tables of the schema count. -/

namespace Lineage

structure QualifiedName where
  /-- The qualifying segments. None for a plain name. -/
  qualifier : List String
  name : String
  kind : Option Binding.Kind
  /-- Look in the frames only, not among the tables of the schema. -/
  localOnly : Bool
deriving DecidableEq, Repr

namespace QualifiedName

/-- A plain name. -/
def ofName (name : String) : QualifiedName :=
  { qualifier := [], name := fold name, kind := none, localOnly := false }

/-- The name looked up in the frames only. -/
def restricted (name : QualifiedName) : QualifiedName :=
  { name with localOnly := true }

def ofKind (name : QualifiedName) (kind : Binding.Kind) : QualifiedName :=
  { name with kind := some kind }

/-- The name qualified by a dotted text, which is folded as a whole. A blank text
    does not qualify. -/
def qualifiedBy (name : QualifiedName) (text : String) : QualifiedName :=
  let folded := fold text
  { name with qualifier := if folded.isEmpty then [] else Text.segments folded }

/-- A dotted text as a name: what precedes the last dot qualifies what follows it. -/
def parse (text : String) : QualifiedName :=
  match Text.splitLastDot text with
  | (some qualifier, name) => (ofName name).qualifiedBy qualifier
  | (none, name) => ofName name

/-- The qualifying segments as one text, if there are any. -/
def qualifierText (name : QualifiedName) : Option String :=
  if name.qualifier.isEmpty then none else some (Text.joinDots name.qualifier)

/-- The name in dotted form. -/
def display (name : QualifiedName) : String :=
  Text.joinDots (name.qualifier ++ [name.name])

/-- A binding of this kind can be meant. -/
def accepts (name : QualifiedName) (kind : Binding.Kind) : Bool :=
  name.kind.all (· == kind)

end QualifiedName

end Lineage
