import Lineage.Json.Literal

/-! # Writing JSON

`Json.compact` writes a value on one line; `Json.pretty` gives each element and member a line of its
own, indented by two blanks for each level. -/

namespace Lineage.Json

/-- A literal between quotes. -/
def quoted (literal : String) : String :=
  "\"" ++ literal ++ "\""

mutual
/-- The value without blanks. -/
def compact : Json → String
  | null => "null"
  | bool value => if value then "true" else "false"
  | number literal => literal
  | string literal => quoted literal
  | array elements => "[" ++ ",".intercalate (compactElements elements) ++ "]"
  | object members => "\x7b" ++ ",".intercalate (compactMembers members) ++ "\x7d"

def compactElements : List Json → List String
  | [] => []
  | element :: rest => element.compact :: compactElements rest

def compactMembers : List (String × Json) → List String
  | [] => []
  | (key, value) :: rest => (quoted key ++ ":" ++ value.compact) :: compactMembers rest
end

/-- Two blanks for each level. -/
def indent (level : Nat) : String :=
  String.ofList (List.replicate (2 * level) ' ')

/-- Lines between an opening and a closing mark, indented one level deeper than the marks. -/
def block (level : Nat) (opening closing : String) (lines : List String) : String :=
  if lines.isEmpty then opening ++ closing
  else
    let inner := "\n" ++ indent (level + 1)
    opening ++ inner ++ ("," ++ inner).intercalate lines ++ "\n" ++ indent level ++ closing

mutual
/-- The value on several lines, the first of which stands at the given level. -/
def prettyAt (level : Nat) : Json → String
  | array elements => block level "[" "]" (prettyElements (level + 1) elements)
  | object members => block level "\x7b" "\x7d" (prettyMembers (level + 1) members)
  | null => "null"
  | bool value => if value then "true" else "false"
  | number literal => literal
  | string literal => quoted literal

def prettyElements (level : Nat) : List Json → List String
  | [] => []
  | element :: rest => element.prettyAt level :: prettyElements level rest

def prettyMembers (level : Nat) : List (String × Json) → List String
  | [] => []
  | (key, value) :: rest => (quoted key ++ ": " ++ value.prettyAt level) :: prettyMembers level rest
end

/-- The value on several lines. -/
def pretty (value : Json) : String :=
  value.prettyAt 0

mutual
/-- The value with the members of every object in ascending order of their keys. -/
def sorted : Json → Json
  | array elements => array (sortedElements elements)
  | object members => object ((sortedMembers members).mergeSort fun a b => a.1 ≤ b.1)
  | other => other

def sortedElements : List Json → List Json
  | [] => []
  | element :: rest => element.sorted :: sortedElements rest

def sortedMembers : List (String × Json) → List (String × Json)
  | [] => []
  | (key, value) :: rest => (key, value.sorted) :: sortedMembers rest
end

end Lineage.Json
