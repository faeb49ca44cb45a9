import Mathlib.Data.List.TakeDrop
import Std.Data.String.ToNat
import Lineage.Json.Parser

/-!
# Literals that are written can be read

A text is written as a string literal, character by character, and a number as its digits. Reading
takes one written character at a time, so what was written is read again, whatever follows it.

## Key results

- `Json.decode_encode`: a string literal stands for the text it was written for
- `Json.scanString_encode`: a reader finds the closing quote of a written text
- `Json.scanNumber_toString`: a reader finds the last digit of a written number
- `Json.natural?_ofNat`: a number literal stands for the number it was written for
-/

namespace Lineage.Json

/-! ### Hexadecimal digits -/

theorem hexValue?_hexDigit : ∀ value < 16, Text.hexValue? (hexDigit value) = some value := by
  decide

/-- The four digits of a control character. -/
theorem hexQuad?_control {code : Nat} (hcode : code < 0x20) :
    Text.hexQuad? '0' '0' (hexDigit (code / 16)) (hexDigit (code % 16)) = some code := by
  have hzero : Text.hexValue? '0' = some 0 := by decide
  have hhigh := hexValue?_hexDigit (code / 16) (by omega)
  have hlow := hexValue?_hexDigit (code % 16) (by omega)
  rw [Text.hexQuad?, hzero, hhigh, hlow]
  exact congrArg some (by omega)

/-! ### Characters of a text -/

/-- How a character stands in a string literal: as itself, as a letter after a backslash, or
    as its number. -/
inductive Spelled (c : Char) : List Char → Prop
  | plain (hquote : c ≠ '"') (hbackslash : c ≠ '\\') (hvisible : ¬ c.toNat < 0x20) : Spelled c [c]
  | short (letter : Char) (hletter : letter ≠ 'u') (hescape : shortEscape? letter = some c) :
      Spelled c ['\\', letter]
  | code (hcontrol : c.toNat < 0x20) :
      Spelled c ['\\', 'u', '0', '0', hexDigit (c.toNat / 16), hexDigit (c.toNat % 16)]

theorem spelled_encodeChar (c : Char) : Spelled c (encodeChar c) := by
  unfold encodeChar
  split
  · exact .short '"' (by decide) rfl
  · exact .short '\\' (by decide) rfl
  · exact .short 'b' (by decide) rfl
  · exact .short 'f' (by decide) rfl
  · exact .short 'n' (by decide) rfl
  · exact .short 'r' (by decide) rfl
  · exact .short 't' (by decide) rfl
  · rename_i hquote hbackslash _ _ _ _ _
    split
    · rename_i hcontrol
      exact .code hcontrol
    · rename_i hvisible
      exact .plain hquote hbackslash hvisible

variable {c : Char} {rest : List Char} (value : Nat)

/-- A character given by its number is read, whatever follows it. -/
theorem decodeFrom_code {done : List Char} {a b d : Char} {code : Nat}
    (hquad : Text.hexQuad? a b c d = some code) (hleading : isLeadingHalf code = false)
    (htrailing : isTrailingHalf code = false) :
    decodeFrom done ('\\' :: 'u' :: a :: b :: c :: d :: rest) =
      decodeFrom (Char.ofNat code :: done) rest := by
  rw [decodeFrom.eq_def]
  split
  all_goals grind

/-- Reading a text takes one written character at a time. -/
theorem Spelled.decodeFrom_append {spelling : List Char} (h : Spelled c spelling)
    (done rest : List Char) : decodeFrom done (spelling ++ rest) = decodeFrom (c :: done) rest := by
  cases h with
  | plain hquote hbackslash hvisible =>
    rw [List.singleton_append, decodeFrom.eq_def]
    split
    all_goals grind
  | short letter hletter hescape =>
    rw [List.cons_append, List.singleton_append, decodeFrom.eq_def]
    split
    all_goals grind
  | code hcontrol =>
    have hleading : isLeadingHalf c.toNat = false := by simp [isLeadingHalf]; omega
    have htrailing : isTrailingHalf c.toNat = false := by simp [isTrailingHalf]; omega
    simp only [List.cons_append, List.nil_append]
    rw [decodeFrom_code (hexQuad?_control hcontrol) hleading htrailing, Char.ofNat_toNat]

/-- Looking for the closing quote takes one written character at a time. -/
theorem Spelled.scanString_append {spelling : List Char} (h : Spelled c spelling)
    (done rest : List Char) :
    scanString done (spelling ++ rest) = scanString (spelling.reverse ++ done) rest := by
  cases h with
  | plain hquote hbackslash hvisible =>
    rw [List.singleton_append, scanString.eq_def]
    split
    all_goals grind
  | short letter hletter hescape =>
    rw [List.cons_append, List.singleton_append, scanString.eq_def]
    split
    all_goals grind
  | code hcontrol =>
    simp only [List.cons_append, List.nil_append]
    rw [scanString.eq_def]
    simp [hexQuad?_control hcontrol]

/-! ### Texts -/

theorem toList_encode (text : String) : (encode text).toList = text.toList.flatMap encodeChar :=
  String.toList_ofList

/-- A string literal stands for the text it was written for. -/
theorem decode_encode (text : String) : decode (encode text) = some text := by
  have hread : ∀ (cs done : List Char), decodeFrom done (cs.flatMap encodeChar) =
      some (done.reverse ++ cs) := by
    intro cs
    induction cs with
    | nil =>
      intro done
      rw [List.flatMap_nil, List.append_nil, decodeFrom]
    | cons c rest ih =>
      intro done
      rw [List.flatMap_cons, (spelled_encodeChar c).decodeFrom_append, ih, List.reverse_cons,
        List.append_assoc, List.singleton_append]
  rw [decode, toList_encode, hread, List.reverse_nil, List.nil_append, Option.map_some,
    String.ofList_toList]

/-- A reader finds the closing quote of a written text. -/
theorem scanString_encode (text : String) (rest : List Char) :
    scanString [] ((encode text).toList ++ '"' :: rest) = some (encode text, rest) := by
  have hread : ∀ (cs done : List Char), scanString done (cs.flatMap encodeChar ++ '"' :: rest) =
      some (String.ofList (done.reverse ++ cs.flatMap encodeChar), rest) := by
    intro cs
    induction cs with
    | nil =>
      intro done
      rw [List.flatMap_nil, List.nil_append, List.append_nil, scanString]
    | cons c cs ih =>
      intro done
      rw [List.flatMap_cons, List.append_assoc, (spelled_encodeChar c).scanString_append, ih,
        List.reverse_append, List.reverse_reverse, List.append_assoc]
  rw [toList_encode, hread, List.reverse_nil, List.nil_append]
  rfl

/-! ### Numbers -/

theorem toList_toString : (toString value).toList = Nat.toDigits 10 value :=
  Nat.toList_repr

theorem isDigit_of_mem_toString {value : Nat} (hc : c ∈ (toString value).toList) :
    c.isDigit = true := by
  rw [toList_toString] at hc
  exact Nat.isDigit_of_mem_toDigits (by omega) (by omega) hc

/-- A number starts with a digit. -/
theorem exists_toString_eq_cons :
    ∃ digit rest, (toString value).toList = digit :: rest ∧ digit.isDigit = true := by
  have hsome : (toString value).toList ≠ [] := by
    rw [toList_toString]
    exact Nat.toDigits_ne_nil
  obtain ⟨digit, rest, heq⟩ := List.exists_cons_of_ne_nil hsome
  exact ⟨digit, rest, heq, isDigit_of_mem_toString (by rw [heq]; exact List.mem_cons_self)⟩

/-- A positive number does not start with a zero. -/
theorem exists_toDigits_eq_cons {value : Nat} (hvalue : 0 < value) :
    ∃ digit rest, Nat.toDigits 10 value = digit :: rest ∧ digit ≠ '0' := by
  induction value using Nat.strongRecOn with
  | ind value ih =>
    by_cases hsmall : value < 10
    · have hdigit : ∀ small < 10, 0 < small → Nat.digitChar small ≠ '0' := by decide
      exact ⟨value.digitChar, [], Nat.toDigits_of_lt_base hsmall, hdigit value hsmall hvalue⟩
    · obtain ⟨digit, rest, heq, hdigit⟩ := ih (value / 10) (by omega) (by omega)
      refine ⟨digit, rest ++ [(value % 10).digitChar], ?_, hdigit⟩
      rw [Nat.toDigits_of_base_le (by omega) (by omega), heq, List.cons_append]

/-- What may follow a value that is written: nothing, a comma or the end of the line. -/
def Ends (rest : List Char) : Prop :=
  ∀ c, rest.head? = some c → c = ',' ∨ c = '\n'

theorem ends_nil : Ends [] := by
  intro c hc
  cases hc

theorem ends_comma (rest : List Char) : Ends (',' :: rest) := by
  intro c hc
  exact .inl (Option.some.inj hc).symm

theorem ends_newline (rest : List Char) : Ends ('\n' :: rest) := by
  intro c hc
  exact .inr (Option.some.inj hc).symm

/-- The digits of a number end where the number ends. -/
theorem span_isDigit {digits : List Char} (hdigits : ∀ c ∈ digits, c.isDigit = true)
    (hends : Ends rest) : (digits ++ rest).span Char.isDigit = (digits, rest) := by
  have hstop : rest.takeWhile Char.isDigit = [] ∧ rest.dropWhile Char.isDigit = rest := by
    cases rest with
    | nil => exact ⟨rfl, rfl⟩
    | cons c rest =>
      rcases hends c rfl with rfl | rfl
      all_goals exact ⟨rfl, rfl⟩
  rw [List.span_eq_takeWhile_dropWhile, List.takeWhile_append_of_pos hdigits,
    List.dropWhile_append_of_pos hdigits, hstop.1, hstop.2, List.append_nil]

/-- Neither a fraction nor an exponent follows a number that ends. -/
theorem scan_ends (hends : Ends rest) :
    scanFraction rest = some ([], rest) ∧ scanExponent rest = some ([], rest) := by
  cases rest with
  | nil => exact ⟨rfl, rfl⟩
  | cons c rest =>
    rcases hends c rfl with rfl | rfl
    all_goals exact ⟨rfl, rfl⟩

/-- A reader finds the last digit of a written number. -/
theorem scanNumber_toString (hends : Ends rest) :
    scanNumber ((toString value).toList ++ rest) = some (ofNat value, rest) := by
  -- A number has no sign, and its first digit is zero only if it is the only one.
  have hsign : scanSign ((toString value).toList ++ rest) =
      ([], (toString value).toList ++ rest) := by
    obtain ⟨digit, more, heq, hdigit⟩ := exists_toString_eq_cons value
    have hminus : digit ≠ '-' := by
      rintro rfl
      exact absurd hdigit (by decide)
    rw [heq, List.cons_append, scanSign]
    exact fun other hother => hminus (List.cons.inj hother).1
  have hwhole : scanWhole ((toString value).toList ++ rest) =
      some ((toString value).toList, rest) := by
    rcases Nat.eq_zero_or_pos value with rfl | hpos
    · rfl
    · obtain ⟨digit, more, heq, hzero⟩ := exists_toDigits_eq_cons hpos
      have hspan : ((toString value).toList ++ rest).span Char.isDigit =
          ((toString value).toList, rest) :=
        span_isDigit (fun c => isDigit_of_mem_toString) hends
      rw [toList_toString, heq, List.cons_append] at hspan ⊢
      rw [scanWhole, scanDigits, hspan]
      exact fun other hother => hzero (List.cons.inj hother).1
  -- What follows the digits is neither a fraction nor an exponent.
  rw [scanNumber, hsign]
  simp only [hwhole, (scan_ends hends).1, (scan_ends hends).2, Option.bind_eq_bind,
    Option.bind_some, List.nil_append, List.append_nil, String.ofList_toList]
  rfl

/-- A number literal stands for the number it was written for. -/
theorem natural?_ofNat : (ofNat value).natural? = some value := by
  have hdigits : (toString value).toList.all Char.isDigit = true :=
    List.all_eq_true.mpr fun c => isDigit_of_mem_toString
  rw [ofNat, natural?, if_pos hdigits]
  exact Nat.toNat?_repr value

end Lineage.Json
