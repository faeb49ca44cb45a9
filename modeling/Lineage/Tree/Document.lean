import Lineage.Json.Fields
import Lineage.Json.Parser

/-! # Tree documents

A syntax tree as it comes from a parser: each node has a tag, may have a text, a line and a column,
and has children. `Document.parse?` reads one from a JSON text and `Document.ofJson?` from a JSON
value. -/

namespace Lineage

/-- What a node says of itself. -/
structure Label where
  tag : String
  text : Option String
  line : Option Nat
  column : Option Nat
deriving DecidableEq, Repr

inductive Document where
  | node (label : Label) (children : List Document)

namespace Document

/-- The largest line or column number. -/
def numberLimit : Nat := 4294967295

/-- A line or column number. -/
def number? (value : Json) : Option Nat :=
  value.natural?.filter (· ≤ numberLimit)

/-- The fields of a node, in their order. -/
def fieldNames : List String :=
  ["tag", "text", "line", "column", "children"]

/-- Reads a node from a value, as long as its arrays and objects nest no deeper than the given
    number of levels. A node takes one level and the array of its children another. -/
def read? : Nat → Json → Option Document
  | 0, _ => none
  | levels + 1, value =>
    match value.fields? fieldNames with
    | some [tag, text, line, column, children] => do
      let label : Label := {
        tag := ← Json.requiredText? tag
        text := ← Json.optional? Json.text? text
        line := ← Json.optional? number? line
        column := ← Json.optional? number? column }
      match ← Json.elements? children, levels, children with
      | _, _, none => return node label []
      | _, 0, some _ => none
      | elements, levels + 1, some _ => return node label (← elements.mapM (read? levels))
    | _ => none

/-- The document that a JSON value holds, however deep it nests. -/
def ofJson? (value : Json) : Option Document :=
  read? value.depth value

/-- The document that a JSON text holds. -/
def parse? (text : String) : Option Document :=
  (Json.parse? text).bind (read? Json.nestingLimit)

mutual
/-- The number of nodes. -/
def size : Document → Nat
  | node _ children => sizeOfAll children + 1

def sizeOfAll : List Document → Nat
  | [] => 0
  | document :: rest => document.size + sizeOfAll rest
end

end Document

end Lineage
