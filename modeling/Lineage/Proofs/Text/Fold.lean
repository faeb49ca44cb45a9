import Mathlib.Data.List.DropRight
import Lineage.Text.Fold

/-!
# Folding twice

A folded name is its own folded form, so it does not matter how often a name has been folded on its
way. For single characters this is a property of the case tables: no partner of a character has a
partner itself, and none is blank. It is checked run against run, not character by character.

## Key results

- `Text.lower_lower`: a text in lower case stays as it is
- `Text.trim_lower_trim`: lower-casing brings no blanks to the ends
- `fold_fold`: a folded name stays as it is
- `Text.folded_intercalate`: so do folded names joined by dots
-/

namespace Lineage.Text

/-! ### The case table -/

namespace CaseRun

/-- No partner in the run lies in the other run: the partners lie before or after it, or between its
    members, or there is just one of them. -/
def apart (run other : CaseRun) : Bool :=
  run.apply run.last < other.first || other.last < run.image ||
    (run.step % 2 == 0 && other.step % 2 == 0 && (run.image + other.first) % 2 == 1) ||
    (run.first == run.last && !other.contains run.image)

/-- All partners in the run are characters, neither blank nor the dotted capital I. -/
def plain (run : CaseRun) : Bool :=
  (run.apply run.last < 0xD800 || (0xDFFF < run.image && run.apply run.last < 0x110000)) &&
    (run.apply run.last < 0x130 || 0x130 < run.image) &&
    blankRanges.all fun range => run.apply run.last < range.1 || range.2 < run.image

variable {run other : CaseRun} {code : Nat}

theorem contains_iff : run.contains code = true ↔
    run.first ≤ code ∧ code ≤ run.last ∧ (code - run.first) % run.step = 0 := by
  simp [contains, and_assoc]

theorem image_le_apply (run : CaseRun) (code : Nat) : run.image ≤ run.apply code :=
  Nat.le_add_right _ _

theorem apply_le_apply_last (h : run.contains code = true) :
    run.apply code ≤ run.apply run.last := by
  rw [contains_iff] at h
  unfold apply
  omega

theorem even_of_mod {distance step : Nat} (hstep : step % 2 = 0) (h : distance % step = 0) :
    distance % 2 = 0 :=
  Nat.mod_eq_zero_of_dvd (Nat.dvd_trans (Nat.dvd_of_mod_eq_zero hstep) (Nat.dvd_of_mod_eq_zero h))

theorem not_contains_of_apart (hapart : run.apart other = true) (h : run.contains code = true) :
    other.contains (run.apply code) = false := by
  have hlast := apply_le_apply_last h
  have hfirst := run.image_le_apply code
  obtain ⟨hlow, hhigh, hmod⟩ := contains_iff.mp h
  simp only [apart, Bool.or_eq_true, Bool.and_eq_true, decide_eq_true_eq, beq_iff_eq,
    Bool.not_eq_true'] at hapart
  rw [← Bool.not_eq_true, contains_iff]
  rintro ⟨hfrom, hto, hother⟩
  rcases hapart with ((hbefore | hafter) | ⟨⟨hstep, hstep'⟩, hodd⟩) | ⟨hsingle, hnot⟩
  · omega
  · omega
  · -- Both distances are even, but the partners and the other run do not start at the same parity.
    have hdistance := even_of_mod hstep hmod
    have hdistance' := even_of_mod hstep' hother
    unfold apply at hfrom hdistance'
    omega
  · have hcode : code = run.first := by omega
    rw [hcode, apply, Nat.sub_self, Nat.add_zero] at hfrom hto hother
    have hin := contains_iff.mpr ⟨hfrom, hto, hother⟩
    rw [hnot] at hin
    cases hin

end CaseRun

/-- No partner has a partner itself. -/
theorem lowerRuns_apart : (lowerRuns.all fun run => lowerRuns.all run.apart) = true := by
  decide +kernel

theorem lowerRuns_plain : lowerRuns.all CaseRun.plain = true := by
  decide +kernel

/-! ### Single characters -/

/-- Below `0x80` the table says the same as the rule for ASCII letters. -/
theorem lowerRuns_ascii : ∀ code < 0x80, (Char.ofNat code).toLower =
    ((lowerRuns.find? (·.contains code)).map fun run => Char.ofNat (run.apply code)).getD
      (Char.ofNat code) := by
  decide +kernel

theorem lowerChar_eq_find? (c : Char) :
    lowerChar c =
      ((lowerRuns.find? (·.contains c.toNat)).map fun run => Char.ofNat (run.apply c.toNat)).getD
        c := by
  unfold lowerChar
  split
  next hascii =>
    have h := lowerRuns_ascii c.toNat hascii
    rwa [Char.ofNat_toNat] at h
  next =>
    cases lowerRuns.find? (·.contains c.toNat) <;> rfl

/-- The character is its own lower-case form wherever it stands. -/
structure Settled (c : Char) : Prop where
  alone : lowerRuns.find? (·.contains c.toNat) = none
  dotted : c ≠ 'İ'

namespace Settled

variable {c : Char}

theorem lowerChar_eq (h : Settled c) : lowerChar c = c := by
  rw [lowerChar_eq_find?, h.alone]
  rfl

theorem ne_sigma (h : Settled c) : c ≠ 'Σ' := by
  rintro rfl
  have hrun : (lowerRuns.find? (·.contains 'Σ'.toNat)).isSome = true := by decide +kernel
  rw [h.alone] at hrun
  cases hrun

theorem lowerImage_eq (h : Settled c) (afterCased : Bool) (rest : List Char) :
    lowerImage afterCased c rest = [c] := by
  simp only [lowerImage, if_neg h.ne_sigma, if_neg h.dotted, h.lowerChar_eq]

end Settled

/-- The characters that stand for a sigma or a dotted capital I. -/
theorem settled_of_special : ∀ c ∈ ['σ', 'ς', 'i', '\u0307'], Settled c ∧ isBlank c = false := by
  have hcheck : (['σ', 'ς', 'i', '\u0307'].all fun c =>
      (lowerRuns.find? (·.contains c.toNat)).isNone && c != 'İ' && !isBlank c) = true := by
        decide +kernel
  intro c hc
  have hc' := List.all_eq_true.mp hcheck c hc
  simp only [Bool.and_eq_true, Option.isNone_iff_eq_none, bne_iff_ne, ne_eq,
    Bool.not_eq_true'] at hc'
  exact ⟨⟨hc'.1.1, hc'.1.2⟩, hc'.2⟩

theorem toNat_ofNat {code : Nat} (h : code < 0xD800 ∨ (0xDFFF < code ∧ code < 0x110000)) :
    (Char.ofNat code).toNat = code := by
  have hvalid : code.isValidChar := h
  rw [Char.ofNat, dif_pos hvalid]
  rfl

/-- A partner is settled and not blank. -/
theorem settled_partner {run : CaseRun} {code : Nat} (hrun : run ∈ lowerRuns)
    (h : run.contains code = true) :
    Settled (Char.ofNat (run.apply code)) ∧ isBlank (Char.ofNat (run.apply code)) = false := by
  -- The partners of a run fill an interval, so it is enough to look at its two ends.
  have hlast := run.apply_le_apply_last h
  have hfirst := run.image_le_apply code
  have hplain := List.all_eq_true.mp lowerRuns_plain run hrun
  simp only [CaseRun.plain, Bool.and_eq_true, Bool.or_eq_true, decide_eq_true_eq,
    List.all_eq_true] at hplain
  obtain ⟨⟨hvalid, hdotted⟩, hblank⟩ := hplain
  have hcode : (Char.ofNat (run.apply code)).toNat = run.apply code := toNat_ofNat (by omega)
  refine ⟨⟨?_, fun heq => ?_⟩, ?_⟩
  · rw [hcode, List.find?_eq_none]
    intro other hother
    rw [Bool.not_eq_true]
    have hapart := List.all_eq_true.mp lowerRuns_apart run hrun
    exact CaseRun.not_contains_of_apart (List.all_eq_true.mp hapart other hother) h
  · have hdot : run.apply code = 0x130 := by
      rw [← hcode, heq]
      rfl
    omega
  · rw [isBlank, inRanges, hcode, List.any_eq_false]
    intro range hrange
    have hout := hblank range hrange
    simp only [Bool.and_eq_true, decide_eq_true_eq]
    omega

/-- A character but the dotted capital I becomes a settled one, and a blank only if it is blank. -/
theorem settled_lowerChar {c : Char} (hc : c ≠ 'İ') :
    Settled (lowerChar c) ∧ (isBlank c = false → isBlank (lowerChar c) = false) := by
  rw [lowerChar_eq_find?]
  cases hfind : lowerRuns.find? (·.contains c.toNat) with
  | none => exact ⟨⟨hfind, hc⟩, id⟩
  | some run =>
    have hin : run.contains c.toNat = true := by simpa using List.find?_some hfind
    have hpartner := settled_partner (List.mem_of_find?_eq_some hfind) hin
    exact ⟨hpartner.1, fun _ => hpartner.2⟩

/-! ### Texts -/

variable {afterCased : Bool} {c x : Char} {cs rest : List Char}

theorem lowerImage_ne_nil : lowerImage afterCased c rest ≠ [] := by
  unfold lowerImage
  split_ifs <;> simp

/-- What a character becomes is settled, and blank only if the character is. -/
theorem settled_of_mem_lowerImage (hx : x ∈ lowerImage afterCased c rest) :
    Settled x ∧ (isBlank c = false → isBlank x = false) := by
  unfold lowerImage at hx
  split_ifs at hx with hsigma hfinal hdotted
  · have hspecial := settled_of_special x (by simp_all)
    exact ⟨hspecial.1, fun _ => hspecial.2⟩
  · have hspecial := settled_of_special x (by simp_all)
    exact ⟨hspecial.1, fun _ => hspecial.2⟩
  · have hspecial := settled_of_special x (by simp_all)
    exact ⟨hspecial.1, fun _ => hspecial.2⟩
  · rw [List.mem_singleton.mp hx]
    exact settled_lowerChar hdotted

theorem settled_of_mem_lowerFrom (hx : x ∈ lowerFrom afterCased cs) : Settled x := by
  induction cs generalizing afterCased with
  | nil => cases hx
  | cons c rest ih =>
    rcases List.mem_append.mp hx with hx | hx
    · exact (settled_of_mem_lowerImage hx).1
    · exact ih hx

theorem lowerFrom_of_settled (h : ∀ x ∈ cs, Settled x) : lowerFrom afterCased cs = cs := by
  induction cs generalizing afterCased with
  | nil => rfl
  | cons c rest ih =>
    rw [lowerFrom, (h c List.mem_cons_self).lowerImage_eq, ih fun x hx =>
      h x (List.mem_cons_of_mem c hx)]
    rfl

theorem lower_lower (cs : List Char) : lower (lower cs) = lower cs :=
  lowerFrom_of_settled fun _ hx => settled_of_mem_lowerFrom hx

/-! ### Ends of texts -/

/-- No blank stands at either end. -/
structure Tidy (cs : List Char) : Prop where
  head : ∀ c ∈ cs.head?, isBlank c = false
  last : ∀ c ∈ cs.getLast?, isBlank c = false

theorem trim_eq_rdropWhile (cs : List Char) : trim cs = (cs.dropWhile isBlank).rdropWhile isBlank :=
  rfl

theorem tidy_trim (cs : List Char) : Tidy (trim cs) := by
  rw [trim_eq_rdropWhile]
  constructor
  · -- Taking blanks off the end leaves the first character that is not blank where it is.
    intro c hc
    obtain ⟨tail, htail⟩ := List.rdropWhile_prefix isBlank (l := cs.dropWhile isBlank)
    have hhead : (cs.dropWhile isBlank).head? = some c := by
      rw [← htail, List.head?_append, Option.mem_def.mp hc]
      rfl
    have hnot := List.head?_dropWhile_not isBlank cs
    rw [hhead] at hnot
    simpa using hnot
  · intro c hc
    have hne : (cs.dropWhile isBlank).rdropWhile isBlank ≠ [] := by
      rintro hnil
      rw [hnil] at hc
      cases hc
    have hnot := List.rdropWhile_last_not isBlank (cs.dropWhile isBlank) hne
    rw [List.getLast?_eq_some_getLast hne, Option.mem_some] at hc
    rw [hc] at hnot
    simpa using hnot

theorem Tidy.trim_eq (h : Tidy cs) : trim cs = cs := by
  have hdrop : cs.dropWhile isBlank = cs := by
    cases cs with
    | nil => rfl
    | cons c rest => rw [List.dropWhile_cons_of_neg (by simp [h.head c rfl])]
  rw [trim_eq_rdropWhile, hdrop, List.rdropWhile_eq_self_iff]
  intro hne
  rw [Bool.not_eq_true]
  exact h.last _ (List.getLast?_eq_some_getLast hne)

theorem head?_lowerFrom (hx : x ∈ (lowerFrom afterCased cs).head?) :
    ∃ c ∈ cs.head?, isBlank c = false → isBlank x = false := by
  cases cs with
  | nil => cases hx
  | cons c rest =>
    rw [lowerFrom, List.head?_append_of_ne_nil _ lowerImage_ne_nil] at hx
    exact ⟨c, rfl, (settled_of_mem_lowerImage (List.mem_of_head? hx)).2⟩

theorem lowerFrom_ne_nil (h : cs ≠ []) : lowerFrom afterCased cs ≠ [] := by
  cases cs with
  | nil => exact absurd rfl h
  | cons c rest => simp [lowerFrom, lowerImage_ne_nil]

theorem getLast?_lowerFrom (hx : x ∈ (lowerFrom afterCased cs).getLast?) :
    ∃ c ∈ cs.getLast?, isBlank c = false → isBlank x = false := by
  induction cs generalizing afterCased with
  | nil => cases hx
  | cons c rest ih =>
    rw [lowerFrom] at hx
    by_cases hrest : rest = []
    · subst hrest
      rw [lowerFrom, List.append_nil] at hx
      exact ⟨c, rfl, (settled_of_mem_lowerImage (List.mem_of_getLast? hx)).2⟩
    · rw [List.getLast?_append_of_ne_nil _ (lowerFrom_ne_nil hrest)] at hx
      obtain ⟨d, hd, hblank⟩ := ih hx
      refine ⟨d, ?_, hblank⟩
      rwa [List.getLast?_cons_of_ne_nil hrest]

theorem Tidy.lower (h : Tidy cs) : Tidy (lower cs) := by
  constructor
  · intro x hx
    obtain ⟨c, hc, hblank⟩ := head?_lowerFrom hx
    exact hblank (h.head c hc)
  · intro x hx
    obtain ⟨c, hc, hblank⟩ := getLast?_lowerFrom hx
    exact hblank (h.last c hc)

theorem trim_lower_trim (cs : List Char) : trim (lower (trim cs)) = lower (trim cs) :=
  (tidy_trim cs).lower.trim_eq

end Lineage.Text

namespace Lineage

/-- A folded name stays as it is. -/
@[simp] theorem fold_fold (name : String) : fold (fold name) = fold name := by
  simp only [fold, String.toList_ofList, Text.trim_lower_trim, Text.lower_lower]

/-! ### Joined names -/

namespace Text

/-- Folding has nothing to change. -/
structure Folded (cs : List Char) : Prop where
  tidy : Tidy cs
  settled : ∀ x ∈ cs, Settled x

theorem folded_fold (name : String) : Folded (fold name).toList := by
  rw [fold, String.toList_ofList]
  exact ⟨(tidy_trim _).lower, fun _ hx => settled_of_mem_lowerFrom hx⟩

theorem Folded.fold_eq {text : String} (h : Folded text.toList) : fold text = text := by
  rw [fold, h.tidy.trim_eq, lower, lowerFrom_of_settled h.settled, String.ofList_toList]

/-- A dot between two texts is its own lower-case form, and no blank. -/
theorem Folded.dot {cs ds : List Char} (h : Folded cs) (hlast : Folded ds) :
    Folded (cs ++ '.' :: ds) := by
  have hdot : isBlank '.' = false ∧ (lowerRuns.find? (·.contains '.'.toNat)).isNone = true := by
    decide +kernel
  refine ⟨⟨fun c hc => ?_, fun c hc => ?_⟩, fun x hx => ?_⟩
  · cases cs with
    | nil =>
      cases hc
      exact hdot.1
    | cons first rest => exact h.tidy.head c hc
  · rw [List.getLast?_append_of_ne_nil _ (List.cons_ne_nil _ _)] at hc
    cases ds with
    | nil =>
      cases hc
      exact hdot.1
    | cons first rest => exact hlast.tidy.last c hc
  · rcases List.mem_append.mp hx with hfirst | hrest
    · exact h.settled x hfirst
    · rcases List.mem_cons.mp hrest with rfl | hmem
      · exact ⟨Option.isNone_iff_eq_none.mp hdot.2, by decide⟩
      · exact hlast.settled x hmem

theorem folded_intercalate {texts : List String} (h : ∀ text ∈ texts, Folded text.toList) :
    Folded (".".intercalate texts).toList := by
  induction texts with
  | nil => exact ⟨⟨by simp, by simp⟩, by simp⟩
  | cons text rest ih =>
    have htext := h text List.mem_cons_self
    have hrest := ih fun other hother => h other (List.mem_cons_of_mem _ hother)
    cases rest with
    | nil => rwa [String.intercalate_singleton]
    | cons next rest =>
      have hdot : ".".toList = ['.'] := rfl
      rw [String.intercalate_cons_cons, String.toList_append, String.toList_append, hdot,
        List.append_assoc]
      exact htext.dot hrest

end Text

end Lineage
