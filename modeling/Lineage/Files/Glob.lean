import Lineage.Files.Basic

/-! # Patterns for file names

In a pattern `?` stands for one character, `*` for any number of them, `[ab]` and `[a-z]` for one of
several, `[!ab]` for one of all others, and a segment `**` for any number of directories. -/

namespace Lineage.Files

/-- Why a text is no pattern, and near which character. -/
structure PatternFault where
  position : Nat
  reason : String
deriving DecidableEq, Repr

def PatternFault.message (fault : PatternFault) : String :=
  s!"Pattern syntax error near position {fault.position}: {fault.reason}"

/-- A part of a pattern. -/
inductive Token where
  | char (c : Char)
  | anyChar
  | anySequence
  | anyDirectories
  /-- One character in one of the ranges or, if `negated`, in none of them. -/
  | oneOf (negated : Bool) (ranges : List (Char × Char))
deriving DecidableEq, Repr

/-- The ranges between brackets. -/
def charRanges : List Char → List (Char × Char)
  | first :: '-' :: last :: rest => (first, last) :: charRanges rest
  | c :: rest => (c, c) :: charRanges rest
  | [] => []

/-- The text up to a closing bracket, and what follows it. The first character never closes. -/
def splitBracket? : List Char → Option (List Char × List Char)
  | [] => none
  | first :: rest =>
    if rest.contains ']' then
      some (first :: rest.takeWhile (· ≠ ']'), (rest.dropWhile (· ≠ ']')).tail)
    else none

/-- Reads a pattern; `before` is the character before it, and `position` its place in the
    whole. Each step takes one unit of the first argument, and no pattern needs more units than
    it has characters. -/
def scanTokens : Nat → Option Char → Nat → List Char → Except PatternFault (List Token)
  | 0, _, _, _ => .ok []
  | _ + 1, _, _, [] => .ok []
  | steps + 1, before, position, '*' :: rest =>
    match rest with
    | '*' :: '*' :: _ => .error ⟨position + 2, "wildcards are either regular `*` or recursive `**`"⟩
    | '*' :: rest =>
      if position == 0 || before == some '/' then
        match rest with
        | [] => .ok [.anyDirectories]
        | '/' :: rest =>
          (scanTokens steps (some '/') (position + 3) rest).map (.anyDirectories :: ·)
        | _ => .error ⟨position + 2, "recursive wildcards must form a single path component"⟩
      else .error ⟨position - 1, "recursive wildcards must form a single path component"⟩
    | rest => (scanTokens steps (some '*') (position + 1) rest).map (.anySequence :: ·)
  | steps + 1, _, position, '?' :: rest =>
    (scanTokens steps (some '?') (position + 1) rest).map (.anyChar :: ·)
  | steps + 1, _, position, '[' :: '!' :: rest =>
    match splitBracket? rest with
    | some (inside, after) =>
      (scanTokens steps (some ']') (position + inside.length + 3) after).map
        (.oneOf true (charRanges inside) :: ·)
    | none => .error ⟨position, "invalid range pattern"⟩
  | steps + 1, _, position, '[' :: rest =>
    match splitBracket? rest with
    | some (inside, after) =>
      (scanTokens steps (some ']') (position + inside.length + 2) after).map
        (.oneOf false (charRanges inside) :: ·)
    | none => .error ⟨position, "invalid range pattern"⟩
  | steps + 1, _, position, c :: rest =>
    (scanTokens steps (some c) (position + 1) rest).map (.char c :: ·)

/-- The parts of a pattern. -/
def tokens (pattern : String) : Except PatternFault (List Token) :=
  let cs := pattern.toList
  scanTokens (cs.length + 1) none 0 cs

/-- A text and all its ends. -/
def suffixes {α : Type} : List α → List (List α)
  | [] => [[]]
  | first :: rest => (first :: rest) :: suffixes rest

/-- The character is one that the token stands for. -/
def Token.accepts (token : Token) (c : Char) : Bool :=
  match token with
  | char expected => c == expected
  | anyChar => true
  | oneOf negated ranges => negated != ranges.any fun range => range.1 ≤ c && c ≤ range.2
  | anySequence | anyDirectories => false

/-- What may be left of a name after a token, given what may be left of it before, longest first. -/
def Token.advance (left : List (List Char)) (token : Token) : List (List Char) :=
  match token with
  | anySequence => (left.head?.map suffixes).getD []
  | token => left.filterMap fun name =>
    match name with
    | [] => none
    | c :: rest => if token.accepts c then some rest else none

/-- The name has the shape of the pattern. -/
def matchesName (pattern : List Token) (name : String) : Bool :=
  (pattern.foldl Token.advance [name.toList]).contains []

/-- The character that a token without choice stands for. -/
def Token.char? : Token → Option Char
  | char c => some c
  | _ => none

/-- The name that a pattern without wildcards stands for. -/
def literal? (pattern : List Token) : Option String :=
  (pattern.mapM Token.char?).map String.ofList

/-- A segment of a pattern. -/
structure Segment where
  /-- Any number of directories may come before it. -/
  deep : Bool
  pattern : List Token
deriving DecidableEq, Repr

/-- The segments of a pattern; `deep` belongs to the first of them. None if the pattern ends with
    directories, so that it matches no file. -/
def arrange? (deep : Bool) : List (List Token) → Option (List Segment)
  | [] => if deep then none else some []
  | [.anyDirectories] :: rest => arrange? true rest
  | pattern :: rest => (arrange? false rest).map (⟨deep, pattern⟩ :: ·)

/-- The ways from a directory to all that lies below it: a directory before its contents, and names
    in ascending order. -/
def below (files : Files) (directory : List String) : List (List String) :=
  let ways := files.entries.flatMap fun (path, _) =>
    if directory.isPrefixOf path then
      (List.range (path.length - directory.length)).map fun length =>
        (path.drop directory.length).take (length + 1)
    else []
  ways.eraseDups.mergeSort fun a b => !decide (b < a)

/-- The path leads to the working directory without a step. -/
def isHere (path : String) : Bool :=
  !path.isEmpty && (steps path).isEmpty

/-- A path with one more segment, where the working directory is not mentioned. -/
def extend (path name : String) : String :=
  if isHere path then name else join path name

/-- The paths from `path` on that a segment of a pattern matches. The names of the directory itself
    and of the one above it only match a pattern that starts with a dot. -/
def Segment.expand (files : Files) (segment : Segment) (path : String) : List String :=
  match segment.deep, literal? segment.pattern, files.locate path with
  | false, some name, place =>
    let next := extend path name
    let found := match place with
      | .ok (.directory _) => name == "." || name == ".." || files.holds next
      | _ => false
    if found then [next] else []
  | deep, _, .ok (.directory directory) =>
    let matched := (files.below directory).filter fun way =>
      (deep || way.length == 1) && matchesName segment.pattern (way.getLast?.getD "")
    let dotted := if !deep && segment.pattern.head? == some (.char '.') then
        ["..", "."].filter (matchesName segment.pattern)
      else []
    dotted.map (join path) ++ matched.map fun way => extend path ("/".intercalate way)
  | _, _, _ => []

/-- The path leads to a file. -/
def isFile (files : Files) (path : String) : Bool :=
  match files.locate path with
  | .ok (.file _) => true
  | _ => false

/-- The segments of a pattern as written. A slash at its end starts no further one. -/
def patternSegments (pattern : String) : List String :=
  let parts := segments pattern
  if parts.getLast? == some "" then parts.dropLast else parts

/-- The paths of the files that match a pattern. No pattern that starts or ends with a
    slash matches one. -/
def glob (files : Files) (pattern : String) : Except PatternFault (List String) := do
  let _ ← tokens pattern
  let patterns ← (patternSegments pattern).mapM tokens
  if pattern.startsWith "/" || pattern.endsWith "/" then return []
  match arrange? false patterns with
  | none => return []
  | some segments =>
    let paths := segments.foldl (fun paths segment => paths.flatMap (segment.expand files)) ["."]
    return paths.filter files.isFile

end Lineage.Files
