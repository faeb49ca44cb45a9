/-! # Dotted texts

A dotted text is cut at each dot into its segments; `joinDots` puts segments together again. -/

namespace Lineage.Text

/-- The pieces between the dots. A text without a dot is one piece. -/
def cutAtDots : List Char → List (List Char)
  | [] => [[]]
  | c :: rest =>
    if c = '.' then [] :: cutAtDots rest
    else match cutAtDots rest with
      | [] => [[c]]
      | piece :: pieces => (c :: piece) :: pieces

/-- The segments of a dotted text, at least one. -/
def segments (text : String) : List String :=
  (cutAtDots text.toList).map String.ofList

/-- The text made of the given segments. -/
def joinDots (parts : List String) : String :=
  ".".intercalate parts

/-- The text before the last dot, if there is a dot, and the text after it. -/
def splitLastDot (text : String) : Option String × String :=
  match (segments text).reverse with
  | [] => (none, text)
  | [only] => (none, only)
  | last :: before => (some (joinDots before.reverse), last)

/-- The text after the last dot, or all of it. -/
def lastSegment (text : String) : String :=
  (splitLastDot text).2

end Lineage.Text
