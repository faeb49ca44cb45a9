import Lineage.Text.Blank
import Lineage.Text.CaseTable

/-! # Full lower-casing

`lower` is the Unicode mapping of a text to lower case. A character's image depends on the character
alone but for the capital sigma, which becomes the final form where a word ends. -/

namespace Lineage.Text

/-- The single lower-case partner of a character, or the character itself. -/
def lowerChar (c : Char) : Char :=
  if c.toNat < 0x80 then c.toLower
  else match lowerRuns.find? (·.contains c.toNat) with
    | some run => Char.ofNat (run.apply c.toNat)
    | none => c

/-- The character has case. -/
def isCased (c : Char) : Bool :=
  inRanges casedRanges c.toNat

/-- The character is passed over when looking for cased letters. -/
def isIgnorable (c : Char) : Bool :=
  inRanges ignorableRanges c.toNat

/-- Past ignorable characters, the text starts with a cased letter. -/
def startsCased (cs : List Char) : Bool :=
  (cs.dropWhile isIgnorable).head?.any isCased

/-- The lower-case form of `c` between a text that ends in a cased letter, if `afterCased`, and
    `rest`. A capital sigma takes its final form after a cased letter and before none; the dotted
    capital I becomes two characters. -/
def lowerImage (afterCased : Bool) (c : Char) (rest : List Char) : List Char :=
  if c = 'Σ' then [if afterCased && !startsCased rest then 'ς' else 'σ']
  else if c = 'İ' then ['i', '\u0307']
  else [lowerChar c]

/-- Lower-casing of what follows a text that ends in a cased letter, if `afterCased`. -/
def lowerFrom (afterCased : Bool) : List Char → List Char
  | [] => []
  | c :: rest =>
    lowerImage afterCased c rest ++
      lowerFrom (if isIgnorable c then afterCased else isCased c) rest

/-- The text in lower case. -/
def lower (cs : List Char) : List Char :=
  lowerFrom false cs

end Lineage.Text
