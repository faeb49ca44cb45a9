import Mathlib.Data.List.Forall2
import Lineage.Proofs.Text.Fold

/-!
# Spellings of a text

Folding does not see the case of ASCII letters: two texts that differ in nothing else have the same
folded form. Neither blanks nor the classes of characters that decide the form of a sigma tell a
letter from its other case.

## Key results

- `fold_eq_of_sameLetters`: texts that differ only in the case of ASCII letters fold to the same
  name
- `sameLetters_join`: so do texts that are put together from such texts
-/

namespace Lineage.Text

/-! ### Single characters -/

theorem toLower_letter :
    ∀ place < 26, (Char.ofNat (place + 0x41)).toLower = Char.ofNat (place + 0x61) := by
  decide +kernel

theorem toLower_of_not_letter {c : Char} (h : c.toNat < 0x41 ∨ 0x5A < c.toNat) : c.toLower = c := by
  unfold Char.toLower
  split
  next hupper =>
    have hge : 0x41 ≤ c.toNat := UInt32.le_iff_toNat_le.mp hupper.1
    have hle : c.toNat ≤ 0x5A := UInt32.le_iff_toNat_le.mp hupper.2
    omega
  next => rfl

/-- What does not tell the two cases of any ASCII letter apart does not see case at all. -/
theorem toLower_of_letters {α : Type} (f : Char → α)
    (hletters : ∀ place < 26, f (Char.ofNat (place + 0x61)) = f (Char.ofNat (place + 0x41)))
    (c : Char) : f c.toLower = f c := by
  by_cases h : 0x41 ≤ c.toNat ∧ c.toNat ≤ 0x5A
  · have hc : Char.ofNat (c.toNat - 0x41 + 0x41) = c := by
      rw [Nat.sub_add_cancel h.1, Char.ofNat_toNat]
    have hlower := toLower_letter (c.toNat - 0x41) (by omega)
    rw [hc] at hlower
    rw [hlower, hletters _ (by omega), hc]
  · rw [toLower_of_not_letter (by omega)]

theorem isBlank_toLower (c : Char) : isBlank c.toLower = isBlank c :=
  toLower_of_letters isBlank (by decide +kernel) c

theorem isCased_toLower (c : Char) : isCased c.toLower = isCased c :=
  toLower_of_letters isCased (by decide +kernel) c

/-- No ignorable character is an ASCII letter. Checked range by range, since there are
    many of them. -/
theorem ignorableRanges_apart : (ignorableRanges.all fun range =>
    range.2 < 0x41 || (0x5A < range.1 && range.2 < 0x61) || 0x7A < range.1) = true := by
  decide +kernel

theorem isIgnorable_letter {code : Nat}
    (h : (0x41 ≤ code ∧ code ≤ 0x5A) ∨ (0x61 ≤ code ∧ code ≤ 0x7A)) :
    isIgnorable (Char.ofNat code) = false := by
  have hcode : (Char.ofNat code).toNat = code := toNat_ofNat (.inl (by omega))
  rw [isIgnorable, inRanges, hcode, List.any_eq_false]
  intro range hrange
  have hout := List.all_eq_true.mp ignorableRanges_apart range hrange
  simp only [Bool.or_eq_true, Bool.and_eq_true, decide_eq_true_eq] at hout ⊢
  omega

theorem isIgnorable_toLower (c : Char) : isIgnorable c.toLower = isIgnorable c := by
  apply toLower_of_letters isIgnorable
  intro place hplace
  rw [isIgnorable_letter (by omega), isIgnorable_letter (by omega)]

theorem lowerImage_toLower (afterCased : Bool) (c : Char) (rest : List Char) :
    lowerImage afterCased c.toLower rest = lowerImage afterCased c rest := by
  -- No ASCII letter is a sigma or the dotted capital I.
  have hplain : ∀ code < 0x80, Char.ofNat code ≠ 'Σ' ∧ Char.ofNat code ≠ 'İ' := by decide +kernel
  have hlower : ∀ place < 26, lowerChar (Char.ofNat (place + 0x61)) =
      lowerChar (Char.ofNat (place + 0x41)) := by
    decide +kernel
  apply toLower_of_letters (fun c => lowerImage afterCased c rest)
  intro place hplace
  obtain ⟨hsigma, hdotted⟩ := hplain (place + 0x61) (by omega)
  obtain ⟨hsigma', hdotted'⟩ := hplain (place + 0x41) (by omega)
  simp only [lowerImage, if_neg hsigma, if_neg hdotted, if_neg hsigma', if_neg hdotted',
    hlower place hplace]

/-! ### Texts -/

theorem startsCased_map_toLower (cs : List Char) :
    startsCased (cs.map Char.toLower) = startsCased cs := by
  have hignorable : isIgnorable ∘ Char.toLower = isIgnorable := funext isIgnorable_toLower
  rw [startsCased, List.dropWhile_map, hignorable, List.head?_map, Option.any_map]
  simp only [isCased_toLower]
  rfl

theorem lowerFrom_map_toLower (afterCased : Bool) (cs : List Char) :
    lowerFrom afterCased (cs.map Char.toLower) = lowerFrom afterCased cs := by
  induction cs generalizing afterCased with
  | nil => rfl
  | cons c rest ih =>
    have himage : lowerImage afterCased c.toLower (rest.map Char.toLower) =
        lowerImage afterCased c rest := by
      rw [lowerImage_toLower]
      simp only [lowerImage, startsCased_map_toLower]
    rw [List.map_cons, lowerFrom, himage, isIgnorable_toLower, isCased_toLower, ih]
    rfl

theorem trim_map_toLower (cs : List Char) :
    trim (cs.map Char.toLower) = (trim cs).map Char.toLower := by
  have hblank : isBlank ∘ Char.toLower = isBlank := funext isBlank_toLower
  rw [trim, List.dropWhile_map, ← List.map_reverse, List.dropWhile_map, ← List.map_reverse, hblank]
  rfl

/-- The texts are the same but for the case of ASCII letters. -/
def SameLetters (text other : String) : Prop :=
  text.toList.map Char.toLower = other.toList.map Char.toLower

instance (text other : String) : Decidable (SameLetters text other) :=
  inferInstanceAs (Decidable (_ = _))

theorem sameLetters_append {text text' other other' : String} (h : SameLetters text other)
    (h' : SameLetters text' other') : SameLetters (text ++ text') (other ++ other') := by
  unfold SameLetters at *
  rw [String.toList_append, String.toList_append, List.map_append, List.map_append, h, h']

theorem sameLetters_join {texts others : List String} (h : List.Forall₂ SameLetters texts others) :
    SameLetters (String.join texts) (String.join others) := by
  induction h with
  | nil => rfl
  | cons hhead _ ih =>
    rw [String.join_cons, String.join_cons]
    exact sameLetters_append hhead ih

end Lineage.Text

namespace Lineage

theorem fold_eq_of_sameLetters {text other : String} (h : Text.SameLetters text other) :
    fold text = fold other := by
  have hlower : ∀ text : String, fold text =
      String.ofList (Text.lower (Text.trim (text.toList.map Char.toLower))) := by
    intro text
    rw [Text.trim_map_toLower, Text.lower, Text.lowerFrom_map_toLower]
    rfl
  rw [hlower, hlower, h]

end Lineage
