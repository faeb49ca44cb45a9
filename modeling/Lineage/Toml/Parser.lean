import Lineage.Text.Hex
import Lineage.Toml.Scalar
import Lineage.Toml.Table

/-! # Reading settings documents

`parse?` gives the statements of a document. It reads every form of key, text and value, in the
order in which they are written; whether the statements fit together is not decided here, but for
the members of a table in braces. -/

namespace Lineage.Toml

def isBlank (c : Char) : Bool :=
  c == ' ' || c == '\t'

def skipBlanks (cs : List Char) : List Char :=
  cs.dropWhile isBlank

/-- The text after blanks, line breaks and comments. A comment holds no control characters. -/
def skipTrivia (inComment : Bool) : List Char → Option (List Char)
  | [] => some []
  | '\n' :: rest => skipTrivia false rest
  | '\r' :: '\n' :: rest => skipTrivia false rest
  | c :: rest =>
    if inComment then if isControl c then none else skipTrivia true rest
    else if isBlank c then skipTrivia false rest
    else if c == '#' then skipTrivia true rest
    else some (c :: rest)

/-- The text after the end of a statement's line and all trivia below it. -/
def scanLineEnd (cs : List Char) : Option (List Char) :=
  match skipBlanks cs with
  | [] => some []
  | '\n' :: rest => skipTrivia false rest
  | '\r' :: '\n' :: rest => skipTrivia false rest
  | '#' :: rest => skipTrivia true rest
  | _ => none

/-- The character that a letter after a backslash stands for. -/
def shortEscape? : Char → Option Char
  | '"' => some '"'
  | '\\' => some '\\'
  | 'b' => some '\x08'
  | 'f' => some '\x0c'
  | 'n' => some '\n'
  | 'r' => some '\r'
  | 't' => some '\t'
  | _ => none

/-- The character with a code. -/
def charOf? (code : Nat) : Option Char :=
  if code.isValidChar then some (Char.ofNat code) else none

/-- A text between double quotes, from after the first one; `done` holds what was read so far, last
    character first. -/
def scanBasic (done : List Char) : List Char → Option (String × List Char)
  | [] => none
  | '"' :: rest => some (String.ofList done.reverse, rest)
  | '\\' :: 'u' :: a :: b :: c :: d :: rest =>
    match (Text.hexQuad? a b c d).bind charOf? with
    | some c => scanBasic (c :: done) rest
    | none => none
  | '\\' :: 'U' :: a :: b :: c :: d :: e :: f :: g :: h :: rest =>
    match Text.hexQuad? a b c d, Text.hexQuad? e f g h with
    | some upper, some lower =>
      match charOf? (upper * 0x10000 + lower) with
      | some c => scanBasic (c :: done) rest
      | none => none
    | _, _ => none
  | '\\' :: c :: rest =>
    match shortEscape? c with
    | some c => scanBasic (c :: done) rest
    | none => none
  | c :: rest => if isControl c then none else scanBasic (c :: done) rest

/-- A text between single quotes, from after the first one. -/
def scanLiteral (cs : List Char) : Option (String × List Char) :=
  match cs.span (· != '\'') with
  | (inside, '\'' :: rest) =>
    if inside.any isControl then none else some (String.ofList inside, rest)
  | _ => none

/-- The text goes on with a line break after blanks. -/
def startsWithBreak (cs : List Char) : Bool :=
  match skipBlanks cs with
  | '\n' :: _ => true
  | '\r' :: '\n' :: _ => true
  | _ => false

/-- A text between three double quotes, from after the first ones; while `joining`, blanks and line
    breaks are left out. -/
def scanLongBasic (joining : Bool) (done : List Char) : List Char → Option (String × List Char)
  | [] => none
  | '"' :: '"' :: '"' :: '"' :: '"' :: rest =>
    some (String.ofList ('"' :: '"' :: done).reverse, rest)
  | '"' :: '"' :: '"' :: '"' :: rest => some (String.ofList ('"' :: done).reverse, rest)
  | '"' :: '"' :: '"' :: rest => some (String.ofList done.reverse, rest)
  | '\r' :: '\n' :: rest => scanLongBasic joining (if joining then done else '\n' :: done) rest
  | '\n' :: rest => scanLongBasic joining (if joining then done else '\n' :: done) rest
  | '\\' :: 'u' :: a :: b :: c :: d :: rest =>
    match (Text.hexQuad? a b c d).bind charOf? with
    | some c => scanLongBasic false (c :: done) rest
    | none => none
  | '\\' :: 'U' :: a :: b :: c :: d :: e :: f :: g :: h :: rest =>
    match Text.hexQuad? a b c d, Text.hexQuad? e f g h with
    | some upper, some lower =>
      match charOf? (upper * 0x10000 + lower) with
      | some c => scanLongBasic false (c :: done) rest
      | none => none
    | _, _ => none
  | '\\' :: c :: rest =>
    if startsWithBreak (c :: rest) then scanLongBasic true done (c :: rest)
    else
      match shortEscape? c with
      | some c => scanLongBasic false (c :: done) rest
      | none => none
  | c :: rest =>
    if isControl c then none
    else if joining && isBlank c then scanLongBasic true done rest
    else scanLongBasic false (c :: done) rest

/-- A text between three single quotes, from after the first ones. -/
def scanLongLiteral (done : List Char) : List Char → Option (String × List Char)
  | [] => none
  | '\'' :: '\'' :: '\'' :: '\'' :: '\'' :: rest =>
    some (String.ofList ('\'' :: '\'' :: done).reverse, rest)
  | '\'' :: '\'' :: '\'' :: '\'' :: rest => some (String.ofList ('\'' :: done).reverse, rest)
  | '\'' :: '\'' :: '\'' :: rest => some (String.ofList done.reverse, rest)
  | '\r' :: '\n' :: rest => scanLongLiteral ('\n' :: done) rest
  | c :: rest => if c != '\n' && isControl c then none else scanLongLiteral (c :: done) rest

/-- The text after one line break at its start. -/
def skipBreak : List Char → List Char
  | '\n' :: rest => rest
  | '\r' :: '\n' :: rest => rest
  | cs => cs

def isBareChar (c : Char) : Bool :=
  c.isAlphanum || c == '_' || c == '-'

/-- One name of a key. -/
def scanName : List Char → Option (String × List Char)
  | '"' :: rest => scanBasic [] rest
  | '\'' :: rest => scanLiteral rest
  | cs =>
    match cs.span isBareChar with
    | ([], _) => none
    | (name, rest) => some (String.ofList name, rest)

/-- Names with dots and blanks between them, at most as many as the first argument. -/
def scanNames : Nat → List Char → Option (List String × List Char)
  | 0, _ => none
  | count + 1, cs =>
    match scanName (skipBlanks cs) with
    | none => none
    | some (name, rest) =>
      match skipBlanks rest with
      | '.' :: rest => (scanNames count rest).map fun (names, rest) => (name :: names, rest)
      | rest => some ([name], rest)

/-- A key. -/
def scanKey (cs : List Char) : Option (List String × List Char) :=
  scanNames (nestingLimit - 1) cs

/-- A word without quotes. A date and a time may stand in one word with a blank between them. -/
def scanScalar (cs : List Char) : Option (Item × List Char) :=
  let isWordChar (c : Char) :=
    c.isAlphanum || c == '+' || c == '-' || c == '_' || c == '.' || c == ':'
  let (word, rest) := cs.span isWordChar
  let (word, rest) := match rest with
    | ' ' :: c :: more =>
      if isDate word && c.isDigit then
        let (time, rest) := (c :: more).span isWordChar
        (word ++ ' ' :: time, rest)
      else (word, rest)
    | _ => (word, rest)
  if isScalar word then some (.scalar (String.ofList word), rest) else none

mutual
/-- A value inside `depth` others and what follows it. Each step takes one unit of the first
    argument, and no text needs more units than it has characters. -/
def scanValue : Nat → (depth : Nat) → List Char → Option (Item × List Char)
  | 0, _, _ => none
  | _ + 1, _, '"' :: '"' :: '"' :: rest =>
    (scanLongBasic false [] (skipBreak rest)).map fun (text, rest) => (.text text, rest)
  | _ + 1, _, '"' :: rest => (scanBasic [] rest).map fun (text, rest) => (.text text, rest)
  | _ + 1, _, '\'' :: '\'' :: '\'' :: rest =>
    (scanLongLiteral [] (skipBreak rest)).map fun (text, rest) => (.text text, rest)
  | _ + 1, _, '\'' :: rest => (scanLiteral rest).map fun (text, rest) => (.text text, rest)
  | steps + 1, depth, '[' :: rest =>
    if depth + 1 < nestingLimit then scanItems steps (depth + 1) [] rest else none
  | steps + 1, depth, '\x7b' :: rest =>
    if depth + 1 < nestingLimit then
      match skipBlanks rest with
      | '\x7d' :: rest => some (.table .braces [], rest)
      | rest => scanMembers steps (depth + 1) [] rest
    else none
  | _ + 1, _, cs => scanScalar cs

/-- The items of an array up to its closing bracket; `done` holds those read so far, last first. -/
def scanItems : Nat → (depth : Nat) → (done : List Item) → List Char → Option (Item × List Char)
  | 0, _, _, _ => none
  | steps + 1, depth, done, cs =>
    match skipTrivia false cs with
    | none => none
    | some (']' :: rest) => some (.array done.reverse, rest)
    | some cs =>
      match scanValue steps depth cs with
      | none => none
      | some (value, rest) =>
        match skipTrivia false rest with
        | some (',' :: rest) => scanItems steps depth (value :: done) rest
        | some (']' :: rest) => some (.array (value :: done).reverse, rest)
        | _ => none

/-- The members of a table in braces up to the closing one; `done` holds those read so far. -/
def scanMembers : Nat → (depth : Nat) → (done : Entries) → List Char → Option (Item × List Char)
  | 0, _, _, _ => none
  | steps + 1, depth, done, cs =>
    match scanKey cs with
    | some (key, '=' :: rest) =>
      match scanValue steps depth (skipBlanks rest) with
      | none => none
      | some (value, rest) =>
        match done.assign .braces key value with
        | none => none
        | some done =>
          match skipBlanks rest with
          | ',' :: rest => scanMembers steps depth done rest
          | '\x7d' :: rest => some (.table .braces done, rest)
          | _ => none
    | _ => none
end

/-- One statement and what follows it, in so many steps. -/
def scanStatement (steps : Nat) (cs : List Char) : Option (Statement × List Char) :=
  match cs with
  | '[' :: '[' :: rest =>
    match scanKey rest with
    | some (key, ']' :: ']' :: rest) => some (.element key, rest)
    | _ => none
  | '[' :: rest =>
    match scanKey rest with
    | some (key, ']' :: rest) => some (.table key, rest)
    | _ => none
  | cs =>
    match scanKey cs with
    | some (key, '=' :: rest) =>
      (scanValue steps 0 (skipBlanks rest)).map fun (value, rest) => (.assign key value, rest)
    | _ => none

/-- The statements up to the end of the text. Each takes one unit of the first argument, and no text
    needs more units than it has characters. -/
def scanStatements : Nat → List Char → Option (List Statement)
  | _, [] => some []
  | 0, _ => none
  | steps + 1, cs =>
    match scanStatement (steps + 1) cs with
    | none => none
    | some (statement, rest) =>
      match scanLineEnd rest with
      | none => none
      | some rest => (scanStatements steps rest).map (statement :: ·)

/-- The text without the mark of its byte order. -/
def skipMark : List Char → List Char
  | '\uFEFF' :: rest => rest
  | cs => cs

/-- The statements of a document. -/
def parse? (text : String) : Option (List Statement) :=
  match skipTrivia false (skipMark text.toList) with
  | none => none
  | some cs => scanStatements (cs.length + 1) cs

end Lineage.Toml
