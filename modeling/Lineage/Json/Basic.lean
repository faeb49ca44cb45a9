/-! # JSON values

A JSON value keeps its number and string literals as they are written, so that reading a value and
writing it again loses nothing. What a literal stands for is told by `Json.text?` and
`Json.natural?`. -/

namespace Lineage

inductive Json where
  | null
  | bool (value : Bool)
  /-- A number, as written. -/
  | number (literal : String)
  /-- A string: what is written between the quotes. -/
  | string (literal : String)
  | array (elements : List Json)
  /-- An object, its members in the order written, each key as written between the quotes. -/
  | object (members : List (String × Json))

namespace Json

instance : Inhabited Json := ⟨null⟩

mutual
/-- How deep arrays and objects are nested in the value. -/
def depth : Json → Nat
  | array elements => depthOfElements elements + 1
  | object members => depthOfMembers members + 1
  | _ => 0

def depthOfElements : List Json → Nat
  | [] => 0
  | element :: rest => max element.depth (depthOfElements rest)

def depthOfMembers : List (String × Json) → Nat
  | [] => 0
  | (_, value) :: rest => max value.depth (depthOfMembers rest)
end

end Json

end Lineage
