import Lineage.Json.Printer
import Lineage.Proofs.Json.Literal

/-!
# JSON that is written can be read

A value whose literals were written for texts and numbers is read from its text on several lines,
whatever follows it. The reader is given as many steps as the text has characters, and each
character of a value pays for a step.

## Key results

- `Json.scanValue_prettyAt`: a reader takes just the text of a value
- `Json.parse?_pretty`: reading the text of a value gives the value
-/

namespace Lineage.Json

/-! ### Written values -/

mutual
/-- Every literal of the value was written for a text or a natural number. -/
def Written : Json → Prop
  | null => True
  | bool _ => True
  | number literal => ∃ value : Nat, literal = toString value
  | string literal => ∃ text, literal = encode text
  | array elements => WrittenElements elements
  | object members => WrittenMembers members

def WrittenElements : List Json → Prop
  | [] => True
  | element :: rest => element.Written ∧ WrittenElements rest

def WrittenMembers : List (String × Json) → Prop
  | [] => True
  | (key, value) :: rest => (∃ text, key = encode text) ∧ value.Written ∧ WrittenMembers rest
end

/-! ### Blanks -/

/-- The end of a line and the blanks before the next one. -/
def lineBreak (level : Nat) : List Char :=
  '\n' :: List.replicate (2 * level) ' '

variable (level : Nat) {cs others : List Char} (rest : List Char) {steps : Nat} {line : String}
  {value : Json}

theorem skipBlanks_lineBreak (cs : List Char) :
    skipBlanks (lineBreak level ++ cs) = skipBlanks cs := by
  refine List.dropWhile_append_of_pos fun c hc => ?_
  rcases List.mem_cons.mp hc with rfl | hc
  · rfl
  · rw [List.eq_of_mem_replicate hc]
    rfl

theorem toList_lineBreak : ("\n" ++ indent level).toList = lineBreak level := by
  rw [String.toList_append]
  exact congrArg ('\n' :: ·) String.toList_ofList

theorem skipBlanks_blank : skipBlanks (' ' :: rest) = skipBlanks rest := rfl

@[simp] theorem skipBlanks_quote : skipBlanks ('"' :: rest) = '"' :: rest := rfl

@[simp] theorem skipBlanks_colon : skipBlanks (':' :: rest) = ':' :: rest := rfl

@[simp] theorem skipBlanks_comma : skipBlanks (',' :: rest) = ',' :: rest := rfl

@[simp] theorem skipBlanks_openBracket : skipBlanks ('[' :: rest) = '[' :: rest := rfl

@[simp] theorem skipBlanks_closeBracket : skipBlanks (']' :: rest) = ']' :: rest := rfl

@[simp] theorem skipBlanks_openBrace : skipBlanks ('\x7b' :: rest) = '\x7b' :: rest := rfl

@[simp] theorem skipBlanks_closeBrace : skipBlanks ('\x7d' :: rest) = '\x7d' :: rest := rfl

theorem scanValue_congr (h : skipBlanks cs = skipBlanks others) (steps : Nat) :
    scanValue steps cs = scanValue steps others := by
  cases steps with
  | zero => rfl
  | succ steps => rw [scanValue, scanValue, h]

theorem scanElements_congr (h : skipBlanks cs = skipBlanks others) (steps : Nat)
    (done : List Json) : scanElements steps done cs = scanElements steps done others := by
  cases steps with
  | zero => rfl
  | succ steps => rw [scanElements, scanElements, scanValue_congr h]

theorem scanMembers_congr (h : skipBlanks cs = skipBlanks others) (steps : Nat)
    (done : List (String × Json)) : scanMembers steps done cs = scanMembers steps done others := by
  cases steps with
  | zero => rfl
  | succ steps => rw [scanMembers, scanMembers, h]

/-! ### Lists of lines -/

/-- Lines with a comma and a line break between them. -/
def joinLines (level : Nat) (lines : List String) : List Char :=
  (("," ++ ("\n" ++ indent level)).intercalate lines).toList

theorem joinLines_singleton (line : String) : joinLines level [line] = line.toList := by
  rw [joinLines, String.intercalate_singleton]

theorem joinLines_cons_cons (line next : String) (lines : List String) :
    joinLines level (line :: next :: lines) =
      line.toList ++ ',' :: (lineBreak level ++ joinLines level (next :: lines)) := by
  rw [joinLines, String.intercalate_cons_cons, String.toList_append, String.toList_append,
    String.toList_append, toList_lineBreak, joinLines, List.append_assoc]
  rfl

/-- Lines start as the first of them does. -/
theorem exists_joinLines_eq_cons {c : Char} (hline : line.toList = c :: cs) (level : Nat)
    (lines : List String) : ∃ others, joinLines level (line :: lines) = c :: others := by
  cases lines with
  | nil => exact ⟨_, by rw [joinLines_singleton, hline]⟩
  | cons next lines => exact ⟨_, by rw [joinLines_cons_cons, hline, List.cons_append]⟩

theorem toList_block_nil (opening closing : String) :
    (block level opening closing []).toList = opening.toList ++ closing.toList := by
  rw [block, if_pos List.isEmpty_nil, String.toList_append]

/-- Lines between an opening and a closing mark, each on a line of its own. -/
theorem toList_block (opening closing line : String) (lines : List String) :
    (block level opening closing (line :: lines)).toList =
      opening.toList ++ (lineBreak (level + 1) ++ (joinLines (level + 1) (line :: lines) ++
        (lineBreak level ++ closing.toList))) := by
  rw [block, if_neg (by simp)]
  simp only [String.toList_append, List.append_assoc, ← toList_lineBreak, joinLines]

/-! ### Reading -/

theorem toList_quoted (literal : String) (rest : List Char) :
    (quoted literal).toList ++ rest = '"' :: (literal.toList ++ '"' :: rest) := by
  rw [quoted, String.toList_append, String.toList_append, List.append_assoc, List.append_assoc]
  rfl

/-- A block starts with its opening mark. -/
theorem exists_toList_block (opening closing : String) (lines : List String) :
    ∃ cs, (block level opening closing lines).toList = opening.toList ++ cs := by
  unfold block
  split
  · exact ⟨_, String.toList_append⟩
  · simp only [String.toList_append, List.append_assoc]
    exact ⟨_, rfl⟩

theorem skipBlanks_digit {digit : Char} (h : digit.isDigit = true) (rest : List Char) :
    skipBlanks (digit :: rest) = digit :: rest := by
  refine List.dropWhile_cons_of_neg ?_
  have hblank : ∀ blank ∈ [' ', '\t', '\n', '\r'], digit ≠ blank := by
    rintro blank hblank rfl
    revert h
    simp only [List.mem_cons, List.not_mem_nil, or_false] at hblank
    rcases hblank with rfl | rfl | rfl | rfl
    all_goals decide
  simpa [and_assoc] using hblank

/-- The text of a written value starts with a mark, a letter or a digit. -/
theorem exists_prettyAt_eq_cons (h : value.Written) (level : Nat) :
    ∃ c cs, (value.prettyAt level).toList = c :: cs ∧ c ≠ ']' ∧
      ∀ rest, skipBlanks (c :: rest) = c :: rest := by
  cases value with
  | null => exact ⟨'n', ['u', 'l', 'l'], by rw [prettyAt]; rfl, by decide, fun rest => rfl⟩
  | bool value =>
    cases value with
    | true => exact ⟨'t', ['r', 'u', 'e'], by rw [prettyAt]; rfl, by decide, fun rest => rfl⟩
    | false => exact ⟨'f', ['a', 'l', 's', 'e'], by rw [prettyAt]; rfl, by decide, fun rest => rfl⟩
  | number literal =>
    obtain ⟨value, rfl⟩ := h
    obtain ⟨digit, cs, heq, hdigit⟩ := exists_toString_eq_cons value
    refine ⟨digit, cs, heq, ?_, skipBlanks_digit hdigit⟩
    -- A closing bracket is no digit.
    rintro rfl
    exact absurd hdigit (by decide)
  | string literal =>
    have heq := toList_quoted literal []
    rw [List.append_nil] at heq
    exact ⟨'"', _, heq, by decide, fun rest => rfl⟩
  | array elements =>
    obtain ⟨cs, heq⟩ := exists_toList_block level "[" "]" (prettyElements (level + 1) elements)
    exact ⟨'[', cs, heq, by decide, fun rest => rfl⟩
  | object members =>
    obtain ⟨cs, heq⟩ := exists_toList_block level "\x7b" "\x7d" (prettyMembers (level + 1) members)
    exact ⟨'\x7b', cs, heq, by decide, fun rest => rfl⟩

/-- A reader that meets a digit reads a number. -/
theorem scanValue_digit {digit : Char} (h : digit.isDigit = true) (steps : Nat) (cs : List Char) :
    scanValue (steps + 1) (digit :: cs) = scanNumber (digit :: cs) := by
  rw [scanValue, skipBlanks_digit h]
  split
  all_goals
    first | rfl | (rename_i heq; obtain ⟨rfl, _⟩ := List.cons.inj heq; exact absurd h (by decide))

/-- A value before the closing bracket is the last element. -/
theorem scanElements_last {outer : Nat} {rest : List Char} {element : Json}
    (hvalue : scanValue steps cs = some (element, lineBreak outer ++ ']' :: rest))
    (done : List Json) :
    scanElements (steps + 1) done cs = some (array (done.reverse ++ [element]), rest) := by
  rw [scanElements, hvalue]
  simp only [skipBlanks_lineBreak, skipBlanks_closeBracket, List.reverse_cons]

/-- A value before a comma is an element, and more follow. -/
theorem scanElements_comma {rest : List Char} {element : Json}
    (hvalue : scanValue steps cs = some (element, ',' :: rest)) (done : List Json) :
    scanElements (steps + 1) done cs = scanElements steps (element :: done) rest := by
  rw [scanElements, hvalue]
  simp only [skipBlanks_comma]

/-- The text of a member: its key and the text of its value. -/
theorem toList_member (text line : String) (rest : List Char) :
    (quoted (encode text) ++ ": " ++ line).toList ++ rest =
    '"' :: ((encode text).toList ++ '"' :: ':' :: ' ' :: (line.toList ++ rest)) := by
  rw [String.toList_append, String.toList_append, List.append_assoc, List.append_assoc,
    toList_quoted]
  rfl

/-- A value before the closing brace is that of the last member. -/
theorem scanMembers_last {outer : Nat} {rest : List Char}
    (hvalue : scanValue steps cs = some (value, lineBreak outer ++ '\x7d' :: rest)) (text : String)
    (done : List (String × Json)) :
    scanMembers (steps + 1) done ('"' :: ((encode text).toList ++ '"' :: ':' :: ' ' :: cs)) =
      some (object (done.reverse ++ [(encode text, value)]), rest) := by
  rw [scanMembers]
  simp only [skipBlanks_quote, scanString_encode, skipBlanks_colon,
    scanValue_congr (skipBlanks_blank cs), hvalue, skipBlanks_lineBreak, skipBlanks_closeBrace,
    List.reverse_cons]

/-- A value before a comma is that of a member, and more follow. -/
theorem scanMembers_comma {rest : List Char}
    (hvalue : scanValue steps cs = some (value, ',' :: rest)) (text : String)
    (done : List (String × Json)) :
    scanMembers (steps + 1) done ('"' :: ((encode text).toList ++ '"' :: ':' :: ' ' :: cs)) =
      scanMembers steps ((encode text, value) :: done) rest := by
  rw [scanMembers]
  simp only [skipBlanks_quote, scanString_encode, skipBlanks_colon,
    scanValue_congr (skipBlanks_blank cs), hvalue, skipBlanks_comma]

/-- A block has room for its lines and for the marks around them. -/
theorem length_joinLines_lt {level : Nat} {opening closing : String} {lines : List String}
    (henough : (block level opening closing (line :: lines)).toList.length ≤ steps)
    (hopening : opening.toList.length = 1) :
    ∃ fewer, steps = fewer + 1 ∧ (joinLines (level + 1) (line :: lines)).length < fewer := by
  rw [toList_block] at henough
  simp only [List.length_append, hopening, lineBreak, List.length_cons,
    List.length_replicate] at henough
  exact ⟨steps - 1, by omega, by omega⟩

/-- A reader that meets a block of elements takes them one by one. -/
theorem scanValue_elements {c : Char} (hline : line.toList = c :: cs) (hmark : c ≠ ']')
    (hblank : ∀ others, skipBlanks (c :: others) = c :: others) (level steps : Nat)
    (lines : List String) (rest : List Char) :
    scanValue (steps + 1) ((block level "[" "]" (line :: lines)).toList ++ rest) =
      scanElements steps [] (joinLines (level + 1) (line :: lines) ++
        (lineBreak level ++ ']' :: rest)) := by
  obtain ⟨others, hothers⟩ := exists_joinLines_eq_cons hline (level + 1) lines
  rw [toList_block, hothers, scanValue]
  simp only [List.append_assoc, List.cons_append]
  rw [show "[".toList = ['['] from rfl, List.singleton_append, skipBlanks_openBracket]
  simp only [skipBlanks_lineBreak, hblank]
  split
  · rename_i heq
    exact absurd (List.cons.inj heq).1 hmark
  · rfl

/-- A reader that meets a block of members takes them one by one. -/
theorem scanValue_members (hline : line.toList = '"' :: cs) (level steps : Nat)
    (lines : List String) (rest : List Char) :
    scanValue (steps + 1) ((block level "\x7b" "\x7d" (line :: lines)).toList ++ rest) =
      scanMembers steps [] (joinLines (level + 1) (line :: lines) ++
        (lineBreak level ++ '\x7d' :: rest)) := by
  obtain ⟨others, hothers⟩ := exists_joinLines_eq_cons hline (level + 1) lines
  rw [toList_block, hothers, scanValue]
  simp only [List.append_assoc, List.cons_append]
  rw [show "\x7b".toList = ['\x7b'] from rfl, List.singleton_append, skipBlanks_openBrace]
  simp only [skipBlanks_lineBreak, skipBlanks_quote]
  rfl

mutual
/-- A reader takes just the text of a written value, whatever follows it. -/
theorem scanValue_prettyAt :
    ∀ (value : Json), value.Written → ∀ (level steps : Nat) (rest : List Char),
    (value.prettyAt level).toList.length ≤ steps → Ends rest →
      scanValue steps ((value.prettyAt level).toList ++ rest) = some (value, rest)
  | null => by
    intro _ level steps rest henough _
    rw [prettyAt] at henough ⊢
    obtain ⟨steps, rfl⟩ :=
      Nat.exists_eq_add_of_le' (Nat.le_trans (by decide : 1 ≤ "null".toList.length) henough)
    rw [scanValue]
    rfl
  | bool true => by
    intro _ level steps rest henough _
    rw [prettyAt] at henough ⊢
    obtain ⟨steps, rfl⟩ :=
      Nat.exists_eq_add_of_le' (Nat.le_trans (by decide : 1 ≤ "true".toList.length) henough)
    rw [scanValue]
    rfl
  | bool false => by
    intro _ level steps rest henough _
    rw [prettyAt] at henough ⊢
    obtain ⟨steps, rfl⟩ :=
      Nat.exists_eq_add_of_le' (Nat.le_trans (by decide : 1 ≤ "false".toList.length) henough)
    rw [scanValue]
    rfl
  | number literal => by
    intro hwritten level steps rest henough hends
    rw [Written] at hwritten
    obtain ⟨value, rfl⟩ := hwritten
    rw [prettyAt] at henough ⊢
    -- The reader takes the digits up to the end of the number, where nothing that continues it may
    -- stand.
    obtain ⟨digit, cs, heq, hdigit⟩ := exists_toString_eq_cons value
    have hnumber := scanNumber_toString value hends
    rw [heq] at henough hnumber ⊢
    obtain ⟨steps, rfl⟩ :=
      Nat.exists_eq_add_of_le' (Nat.le_trans (Nat.le_add_left 1 cs.length) henough)
    exact (scanValue_digit hdigit steps _).trans hnumber
  | string literal => by
    intro hwritten level steps rest henough _
    rw [Written] at hwritten
    obtain ⟨text, rfl⟩ := hwritten
    have hlength := congrArg List.length (toList_quoted (encode text) [])
    rw [List.append_nil, List.length_cons] at hlength
    rw [prettyAt] at henough ⊢
    obtain ⟨steps, rfl⟩ := Nat.exists_eq_add_of_le' (show 1 ≤ steps by omega)
    rw [toList_quoted, scanValue]
    simp only [skipBlanks_quote, scanString_encode, Option.map_some]
  | array [] => by
    intro _ level steps rest henough _
    rw [prettyAt, prettyElements, toList_block_nil] at henough ⊢
    obtain ⟨steps, rfl⟩ :=
      Nat.exists_eq_add_of_le' (Nat.le_trans (by decide : 1 ≤ ['[', ']'].length) henough)
    rw [scanValue]
    rfl
  | array (element :: elements) => by
    intro hwritten level steps rest henough _
    rw [Written] at hwritten
    rw [prettyAt] at henough ⊢
    -- The reader has as many steps as the text is long, and one is spent on the bracket.
    have hlines := scanElements_joinLines (element :: elements) (by simp) hwritten (level + 1) level
    rw [prettyElements] at henough hlines ⊢
    obtain ⟨c, cs, hline, hmark, hblank⟩ := exists_prettyAt_eq_cons hwritten.1 (level + 1)
    obtain ⟨steps, rfl, hroom⟩ := length_joinLines_lt henough rfl
    rw [scanValue_elements hline hmark hblank, hlines steps [] rest hroom]
    rfl
  | object [] => by
    intro _ level steps rest henough _
    rw [prettyAt, prettyMembers, toList_block_nil] at henough ⊢
    obtain ⟨steps, rfl⟩ :=
      Nat.exists_eq_add_of_le' (Nat.le_trans (by decide : 1 ≤ ['\x7b', '\x7d'].length) henough)
    rw [scanValue]
    rfl
  | object ((key, value) :: members) => by
    intro hwritten level steps rest henough _
    rw [Written] at hwritten
    rw [prettyAt] at henough ⊢
    have hlines := scanMembers_joinLines ((key, value) :: members) (by simp) hwritten
      (level + 1) level
    obtain ⟨⟨text, rfl⟩, _⟩ := hwritten
    rw [prettyMembers] at henough hlines ⊢
    have hline := toList_member text (value.prettyAt (level + 1)) []
    rw [List.append_nil] at hline
    obtain ⟨steps, rfl, hroom⟩ := length_joinLines_lt henough rfl
    rw [scanValue_members hline, hlines steps [] rest hroom]
    rfl

/-- A reader takes the elements of an array up to its closing bracket. -/
theorem scanElements_joinLines :
    ∀ (elements : List Json), elements ≠ [] → WrittenElements elements →
    ∀ (level outer steps : Nat) (done : List Json) (rest : List Char),
      (joinLines level (prettyElements level elements)).length < steps →
        scanElements steps done (joinLines level (prettyElements level elements) ++
          (lineBreak outer ++ ']' :: rest)) = some (array (done.reverse ++ elements), rest)
  | [] => fun hsome => absurd rfl hsome
  | [element] => by
    intro _ hwritten level outer steps done rest henough
    rw [prettyElements, prettyElements, joinLines_singleton] at henough ⊢
    obtain ⟨steps, rfl⟩ := Nat.exists_eq_add_of_lt henough
    have hvalue := scanValue_prettyAt element hwritten.1 level _ (lineBreak outer ++ ']' :: rest)
      (Nat.le_add_right _ steps) (ends_newline _)
    exact scanElements_last hvalue done
  | element :: next :: elements => by
    intro _ hwritten level outer steps done rest henough
    have hrest := scanElements_joinLines (next :: elements) (by simp) hwritten.2 level outer
    rw [prettyElements] at henough ⊢
    rw [prettyElements] at henough hrest ⊢
    rw [joinLines_cons_cons] at henough ⊢
    simp only [List.length_append, List.length_cons] at henough
    obtain ⟨steps, rfl⟩ := Nat.exists_eq_add_of_le' (show 1 ≤ steps by omega)
    have hvalue := fun tail =>
      scanValue_prettyAt element hwritten.1 level steps (',' :: tail) (by omega) (ends_comma tail)
    rw [List.append_assoc, List.cons_append, scanElements_comma (hvalue _), List.append_assoc,
      scanElements_congr (skipBlanks_lineBreak _ _), hrest steps _ rest (by omega),
      List.reverse_cons, List.append_assoc]
    rfl

/-- A reader takes the members of an object up to its closing brace. -/
theorem scanMembers_joinLines :
    ∀ (members : List (String × Json)), members ≠ [] → WrittenMembers members →
    ∀ (level outer steps : Nat) (done : List (String × Json)) (rest : List Char),
      (joinLines level (prettyMembers level members)).length < steps →
        scanMembers steps done (joinLines level (prettyMembers level members) ++
          (lineBreak outer ++ '\x7d' :: rest)) = some (object (done.reverse ++ members), rest)
  | [] => fun hsome => absurd rfl hsome
  | [(key, value)] => by
    intro _ hwritten level outer steps done rest henough
    obtain ⟨⟨text, rfl⟩, hvalueWritten, _⟩ := hwritten
    -- The key and the colon leave fewer steps for the value, but still enough.
    have hlength := congrArg List.length (toList_member text (value.prettyAt level) [])
    rw [prettyMembers, prettyMembers, joinLines_singleton] at henough ⊢
    simp only [List.append_nil, List.length_cons, List.length_append] at hlength
    obtain ⟨steps, rfl⟩ := Nat.exists_eq_add_of_le' (show 1 ≤ steps by omega)
    have hvalue := scanValue_prettyAt value hvalueWritten level steps
      (lineBreak outer ++ '\x7d' :: rest) (by omega) (ends_newline _)
    rw [toList_member]
    exact scanMembers_last hvalue text done
  | (key, value) :: next :: members => by
    intro _ hwritten level outer steps done rest henough
    have hrest := scanMembers_joinLines (next :: members) (by simp) hwritten.2.2 level outer
    obtain ⟨⟨text, rfl⟩, hvalueWritten, _⟩ := hwritten
    have hlength := congrArg List.length (toList_member text (value.prettyAt level) [])
    rw [prettyMembers] at henough ⊢
    rw [prettyMembers] at henough hrest ⊢
    rw [joinLines_cons_cons] at henough ⊢
    simp only [List.append_nil, List.length_cons, List.length_append] at hlength henough
    obtain ⟨steps, rfl⟩ := Nat.exists_eq_add_of_le' (show 1 ≤ steps by omega)
    have hvalue := fun tail =>
      scanValue_prettyAt value hvalueWritten level steps (',' :: tail) (by omega) (ends_comma tail)
    rw [List.append_assoc, List.cons_append, toList_member, scanMembers_comma (hvalue _),
      List.append_assoc, scanMembers_congr (skipBlanks_lineBreak _ _),
      hrest steps _ rest (by omega), List.reverse_cons, List.append_assoc]
    rfl
end

/-- Reading the text of a written value gives the value. -/
theorem parse?_pretty (h : value.Written) : parse? value.pretty = some value := by
  have hread := scanValue_prettyAt value h 0 ((value.prettyAt 0).toList.length + 1) []
    (Nat.le_succ _) ends_nil
  rw [List.append_nil] at hread
  rw [parse?, pretty, hread]
  rfl

end Lineage.Json
