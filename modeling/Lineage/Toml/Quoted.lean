import Lineage.Toml.Basic

/-! # Quoted texts

A text is written in the simplest of five forms that can hold it: between double quotes, between
single quotes, the same two with three quotes each, and between double quotes with escapes. -/

namespace Lineage.Toml

/-- The length of the longest run of a character. -/
def longestRun (c : Char) (cs : List Char) : Nat :=
  (cs.foldl (fun (current, longest) d =>
    if d == c then (current + 1, max longest (current + 1)) else (0, longest)) (0, 0)).2

/-- The upper-case hexadecimal digits of a number below 256, as an escape. -/
def controlEscape (code : Nat) : List Char :=
  let digit (n : Nat) : Char := Char.ofNat (if n < 10 then n + '0'.toNat else n - 10 + 'A'.toNat)
  ['\\', 'u', '0', '0', digit (code / 16), digit (code % 16)]

/-- A text between double quotes with what must be escaped escaped. In the form on several `lines`
    line breaks stand as they are, and so do the first two of double quotes in a row; `run` counts
    those before. -/
def escape (lines : Bool) (run : Nat) : List Char → List Char
  | [] => []
  | '"' :: rest =>
    if lines && run < 2 then '"' :: escape lines (run + 1) rest else '\\' :: '"' ::
      escape lines 0 rest
  | '\\' :: rest => '\\' :: '\\' :: escape lines 0 rest
  | '\x08' :: rest => '\\' :: 'b' :: escape lines 0 rest
  | '\t' :: rest => '\\' :: 't' :: escape lines 0 rest
  | '\n' :: rest =>
    if lines then '\n' :: escape lines 0 rest else '\\' :: 'n' :: escape lines 0 rest
  | '\x0c' :: rest => '\\' :: 'f' :: escape lines 0 rest
  | '\r' :: rest => '\\' :: 'r' :: escape lines 0 rest
  | c :: rest =>
    if isControl c then controlEscape c.toNat ++ escape lines 0 rest else c :: escape lines 0 rest

/-- The text as a quoted value. -/
def quote (text : String) : String :=
  let cs := text.toList
  let broken := cs.contains '\n'
  let controlled := cs.any fun c => c != '\n' && isControl c
  let escaped := cs.contains '\\'
  let start := if broken then "\n" else ""
  if !controlled && !escaped && !broken && !cs.contains '"' then
    "\"" ++ String.ofList (escape false 0 cs) ++ "\""
  else if !controlled && !broken && !cs.contains '\'' then
    "'" ++ text ++ "'"
  else if !controlled && !escaped && longestRun '"' cs ≤ 2 then
    "\"\"\"" ++ start ++ String.ofList (escape true 0 cs) ++ "\"\"\""
  else if !controlled && longestRun '\'' cs ≤ 2 then
    "'''" ++ start ++ text ++ "'''"
  else if broken then
    "\"\"\"" ++ start ++ String.ofList (escape true 0 cs) ++ "\"\"\""
  else
    "\"" ++ String.ofList (escape false 0 cs) ++ "\""

end Lineage.Toml
