/-! # Locations

Where in a syntax tree something was found: the tag of a node and, if known, its line and column. -/

namespace Lineage

structure Location where
  tag : String
  line : Option Nat
  column : Option Nat
deriving DecidableEq, Repr

namespace Location

/-- The location of nothing in particular. -/
def unknown : Location :=
  ⟨"", none, none⟩

/-- Neither a tag nor a line is given. A column alone says nothing. -/
def isUnknown (location : Location) : Bool :=
  location.tag.isEmpty && location.line.isNone

/-- The location as shown to the user. -/
def display (location : Location) : String :=
  if location.isUnknown then "<unknown>"
  else s!"<{location.tag}>" ++
    match location.line, location.column with
    | some line, some column => s!" at {line}:{column}"
    | some line, none => s!" at line {line}"
    | none, _ => ""

end Location

end Lineage
