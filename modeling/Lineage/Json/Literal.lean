import Lineage.Json.Basic
import Lineage.Text.Hex

/-! # Literals

`encode` writes a text as the inside of a string literal and `decode` reads it back. Two escapes in
a row may name the halves of one character; half a character alone stands for no text. -/

namespace Lineage.Json

/-- The character that a letter after a backslash stands for. -/
def shortEscape? : Char → Option Char
  | '"' => some '"'
  | '\\' => some '\\'
  | '/' => some '/'
  | 'b' => some '\x08'
  | 'f' => some '\x0c'
  | 'n' => some '\n'
  | 'r' => some '\r'
  | 't' => some '\t'
  | _ => none

/-- The code names the first half of a character. -/
def isLeadingHalf (code : Nat) : Bool :=
  0xD800 ≤ code && code ≤ 0xDBFF

/-- The code names the second half of a character. -/
def isTrailingHalf (code : Nat) : Bool :=
  0xDC00 ≤ code && code ≤ 0xDFFF

/-- The character with the two given halves. -/
def joinHalves (leading trailing : Nat) : Char :=
  Char.ofNat (0x10000 + (leading - 0xD800) * 0x400 + (trailing - 0xDC00))

/-- Reads the inside of a string literal; `done` holds what was read so far, last character first.
    There is no text if an escape is malformed or names half a character. -/
def decodeFrom (done : List Char) : List Char → Option (List Char)
  | [] => some done.reverse
  | '\\' :: 'u' :: a :: b :: c :: d :: '\\' :: 'u' :: e :: f :: g :: h :: rest =>
    match Text.hexQuad? a b c d with
    | none => none
    | some code =>
      if isLeadingHalf code then
        match Text.hexQuad? e f g h with
        | none => none
        | some next =>
          if isTrailingHalf next then decodeFrom (joinHalves code next :: done) rest else none
      else if isTrailingHalf code then none
      else decodeFrom (Char.ofNat code :: done) ('\\' :: 'u' :: e :: f :: g :: h :: rest)
  | '\\' :: 'u' :: a :: b :: c :: d :: rest =>
    match Text.hexQuad? a b c d with
    | none => none
    | some code =>
      if isLeadingHalf code || isTrailingHalf code then none
      else decodeFrom (Char.ofNat code :: done) rest
  | '\\' :: c :: rest =>
    match shortEscape? c with
    | none => none
    | some escaped => decodeFrom (escaped :: done) rest
  | c :: rest => decodeFrom (c :: done) rest

/-- The text that the inside of a string literal stands for. -/
def decode (literal : String) : Option String :=
  (decodeFrom [] literal.toList).map String.ofList

/-- One of the sixteen hexadecimal digits, in lower case. -/
def hexDigit (value : Nat) : Char :=
  if value < 10 then Char.ofNat ('0'.toNat + value) else Char.ofNat ('a'.toNat + (value - 10))

/-- A character inside a string literal. Only the quote, the backslash and the control characters
    below the blank are escaped. -/
def encodeChar (c : Char) : List Char :=
  match c with
  | '"' => ['\\', '"']
  | '\\' => ['\\', '\\']
  | '\x08' => ['\\', 'b']
  | '\x0c' => ['\\', 'f']
  | '\n' => ['\\', 'n']
  | '\r' => ['\\', 'r']
  | '\t' => ['\\', 't']
  | c =>
    if c.toNat < 0x20 then ['\\', 'u', '0', '0', hexDigit (c.toNat / 16), hexDigit (c.toNat % 16)]
    else [c]

/-- A text as the inside of a string literal. -/
def encode (text : String) : String :=
  String.ofList (text.toList.flatMap encodeChar)

/-- The JSON string that stands for a text. -/
def ofText (text : String) : Json :=
  string (encode text)

/-- The JSON number that stands for a natural number. -/
def ofNat (value : Nat) : Json :=
  number (toString value)

/-- The text that a JSON string stands for. -/
def text? : Json → Option String
  | string literal => decode literal
  | _ => none

/-- The natural number that a literal made of digits alone stands for. -/
def natural? : Json → Option Nat
  | number literal => if literal.toList.all Char.isDigit then literal.toNat? else none
  | _ => none

end Lineage.Json
