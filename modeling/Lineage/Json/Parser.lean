import Lineage.Json.Literal

/-! # Reading JSON

`Json.parse?` accepts exactly the texts that hold one value, with blanks around it and between its
parts. Nesting is not limited here: a reader of documents limits it as it decodes the value. -/

namespace Lineage.Json

/-- The text after leading blanks. -/
def skipBlanks (cs : List Char) : List Char :=
  cs.dropWhile fun c => c == ' ' || c == '\t' || c == '\n' || c == '\r'

/-- The inside of a string literal up to its closing quote, and what follows the quote; `done` holds
    what was read so far, last character first. Control characters must be escaped. -/
def scanString (done : List Char) : List Char → Option (String × List Char)
  | [] => none
  | '"' :: rest => some (String.ofList done.reverse, rest)
  | '\\' :: 'u' :: a :: b :: c :: d :: rest =>
    if (Text.hexQuad? a b c d).isSome then
      scanString (d :: c :: b :: a :: 'u' :: '\\' :: done) rest
    else none
  | '\\' :: c :: rest =>
    if (shortEscape? c).isSome then scanString (c :: '\\' :: done) rest else none
  | c :: rest => if c.toNat < 0x20 then none else scanString (c :: done) rest

/-- One or more digits and what follows them. -/
def scanDigits (cs : List Char) : Option (List Char × List Char) :=
  match cs.span Char.isDigit with
  | ([], _) => none
  | parts => some parts

/-- The whole part of a number: a zero, or digits that do not start with one. -/
def scanWhole : List Char → Option (List Char × List Char)
  | '0' :: rest => some (['0'], rest)
  | cs => scanDigits cs

/-- The fraction of a number, if there is one. -/
def scanFraction : List Char → Option (List Char × List Char)
  | '.' :: rest => (scanDigits rest).map fun (digits, rest) => ('.' :: digits, rest)
  | cs => some ([], cs)

/-- The exponent of a number, if there is one. -/
def scanExponent : List Char → Option (List Char × List Char)
  | c :: rest =>
    if c == 'e' || c == 'E' then
      match rest with
      | s :: digits =>
        if s == '+' || s == '-' then
          (scanDigits digits).map fun (digits, rest) => (c :: s :: digits, rest)
        else (scanDigits rest).map fun (digits, rest) => (c :: digits, rest)
      | [] => none
    else some ([], c :: rest)
  | [] => some ([], [])

/-- The sign of a number, if there is one. -/
def scanSign : List Char → List Char × List Char
  | '-' :: rest => (['-'], rest)
  | cs => ([], cs)

/-- A number literal and what follows it. -/
def scanNumber (cs : List Char) : Option (Json × List Char) := do
  let (sign, cs) := scanSign cs
  let (whole, cs) ← scanWhole cs
  let (fraction, cs) ← scanFraction cs
  let (exponent, cs) ← scanExponent cs
  return (number (String.ofList (sign ++ whole ++ fraction ++ exponent)), cs)

mutual
/-- A value and what follows it. Each step takes one unit of the first argument, and no text needs
    more units than it has characters. -/
def scanValue : Nat → List Char → Option (Json × List Char)
  | 0, _ => none
  | steps + 1, cs =>
    match skipBlanks cs with
    | 'n' :: 'u' :: 'l' :: 'l' :: rest => some (null, rest)
    | 't' :: 'r' :: 'u' :: 'e' :: rest => some (bool true, rest)
    | 'f' :: 'a' :: 'l' :: 's' :: 'e' :: rest => some (bool false, rest)
    | '"' :: rest => (scanString [] rest).map fun (literal, rest) => (string literal, rest)
    | '[' :: rest =>
      match skipBlanks rest with
      | ']' :: rest => some (array [], rest)
      | rest => scanElements steps [] rest
    | '\x7b' :: rest =>
      match skipBlanks rest with
      | '\x7d' :: rest => some (object [], rest)
      | rest => scanMembers steps [] rest
    | cs => scanNumber cs

/-- The elements of an array up to its closing bracket; `done` holds those read so
    far, last first. -/
def scanElements : Nat → List Json → List Char → Option (Json × List Char)
  | 0, _, _ => none
  | steps + 1, done, cs =>
    match scanValue steps cs with
    | none => none
    | some (value, rest) =>
      match skipBlanks rest with
      | ',' :: rest => scanElements steps (value :: done) rest
      | ']' :: rest => some (array (value :: done).reverse, rest)
      | _ => none

/-- The members of an object up to its closing brace; `done` holds those read so far, last first. -/
def scanMembers : Nat → List (String × Json) → List Char → Option (Json × List Char)
  | 0, _, _ => none
  | steps + 1, done, cs =>
    match skipBlanks cs with
    | '"' :: rest =>
      match scanString [] rest with
      | none => none
      | some (key, rest) =>
        match skipBlanks rest with
        | ':' :: rest =>
          match scanValue steps rest with
          | none => none
          | some (value, rest) =>
            match skipBlanks rest with
            | ',' :: rest => scanMembers steps ((key, value) :: done) rest
            | '\x7d' :: rest => some (object ((key, value) :: done).reverse, rest)
            | _ => none
        | _ => none
    | _ => none
end

/-- The value that a text holds, if it holds exactly one. -/
def parse? (text : String) : Option Json :=
  let cs := text.toList
  match scanValue (cs.length + 1) cs with
  | some (value, rest) => if (skipBlanks rest).isEmpty then some value else none
  | none => none

end Lineage.Json
