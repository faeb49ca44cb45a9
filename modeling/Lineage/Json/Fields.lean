import Lineage.Json.Literal

/-! # Records in JSON

A record with named fields is written as an object or, its fields in their fixed order, as an array.
`Json.fields?` finds the value of each field. -/

namespace Lineage.Json

/-- The object's keys as texts, or nothing if one of them stands for no text. -/
def keyed? (members : List (String × Json)) : Option (List (String × Json)) :=
  members.mapM fun (key, value) => (decode key).map fun name => (name, value)

/-- The value of one field: nothing inside if the field is missing, nothing at all if it
    is given twice. -/
def field? (members : List (String × Json)) (name : String) : Option (Option Json) :=
  match members.filter fun member => member.1 == name with
  | [] => some none
  | [(_, value)] => some (some value)
  | _ => none

/-- The values of the named fields of a record, in the order of the names. Members with other
    names are passed over, whatever they hold; an array may be shorter than the list of names
    but not longer. -/
def fields? (names : List String) : Json → Option (List (Option Json))
  | object members => do
    let members ← keyed? members
    names.mapM (field? members)
  | array elements =>
    if elements.length ≤ names.length then
      some (elements.map some ++ List.replicate (names.length - elements.length) none)
    else none
  | _ => none

/-- A field that must be there and hold a text. -/
def requiredText? (value : Option Json) : Option String :=
  value.bind text?

/-- A field that may be missing or null, or else satisfies the reader. -/
def optional? {α : Type} (read : Json → Option α) : Option Json → Option (Option α)
  | none => some none
  | some null => some none
  | some value => (read value).map some

/-- The elements of a field that holds an array; none if the field is missing. -/
def elements? : Option Json → Option (List Json)
  | none => some []
  | some (array elements) => some elements
  | some _ => none

/-- How deep a document text may nest. -/
def nestingLimit : Nat := 127

end Lineage.Json
