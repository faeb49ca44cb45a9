import Lineage.Proofs.Text.Fold
import Lineage.QualifiedName

/-!
# Texts with dots

A text without a dot is one segment, and so is its folded form: folding turns no character into a
dot. So two such texts with a dot between them are read as a name under one qualifier.

## Key results

- `segments_joinDots`: segments that are joined by dots are found again
- `splitLastDot_dot`: the last dot parts what stands before it from what follows it
- `dot_mem_of_fold`: folding adds no dots
- `QualifiedName.parse_dot`: a qualifier and a name with a dot between them
-/

namespace Lineage.Text

variable {cs rest : List Char}

/-! ### Segments -/

theorem cutAtDots_of_not_mem (h : '.' ∉ cs) : cutAtDots cs = [cs] := by
  induction cs with
  | nil => rfl
  | cons c rest ih =>
    have hne := List.ne_of_not_mem_cons h
    rw [cutAtDots, if_neg hne.symm, ih (List.not_mem_of_not_mem_cons h)]

theorem cutAtDots_dot (h : '.' ∉ cs) (rest : List Char) :
    cutAtDots (cs ++ '.' :: rest) = cs :: cutAtDots rest := by
  induction cs with
  | nil => simp [cutAtDots]
  | cons c more ih =>
    have hne := List.ne_of_not_mem_cons h
    rw [List.cons_append, cutAtDots, if_neg hne.symm, ih (List.not_mem_of_not_mem_cons h)]

theorem segments_of_not_mem {text : String} (h : '.' ∉ text.toList) : segments text = [text] := by
  rw [segments, cutAtDots_of_not_mem h, List.map_singleton, String.ofList_toList]

/-- Segments that are joined by dots are found again. -/
theorem segments_joinDots {parts : List String} (hsome : parts ≠ [])
    (h : ∀ part ∈ parts, '.' ∉ part.toList) : segments (joinDots parts) = parts := by
  induction parts with
  | nil => exact absurd rfl hsome
  | cons part rest ih =>
    obtain ⟨hpart, hrest⟩ := List.forall_mem_cons.mp h
    cases rest with
    | nil => rw [joinDots, String.intercalate_singleton, segments_of_not_mem hpart]
    | cons next rest =>
      have htext : (joinDots (part :: next :: rest)).toList = part.toList ++
          '.' :: (joinDots (next :: rest)).toList := by
        rw [joinDots, String.intercalate_cons_cons]
        simp [joinDots]
      have hlater : segments (joinDots (next :: rest)) = next :: rest :=
        ih (List.cons_ne_nil _ _) hrest
      rw [segments, htext, cutAtDots_dot hpart, List.map_cons, String.ofList_toList]
      exact congrArg (part :: ·) hlater

/-- The last dot parts what stands before it from what follows it. -/
theorem splitLastDot_dot {qualifier name : String} (hqualifier : '.' ∉ qualifier.toList)
    (hname : '.' ∉ name.toList) :
    splitLastDot (qualifier ++ "." ++ name) = (some qualifier, name) := by
  have htext : (qualifier ++ "." ++ name).toList = qualifier.toList ++ '.' :: name.toList := by simp
  have hsegments : segments (qualifier ++ "." ++ name) = [qualifier, name] := by
    rw [segments, htext, cutAtDots_dot hqualifier, cutAtDots_of_not_mem hname]
    simp
  rw [splitLastDot, hsegments]
  simp [joinDots]

/-! ### Folding adds no dots -/

/-- No partner in the case table comes as early as the dot. -/
theorem lowerRuns_after_dot : (lowerRuns.all fun run => '.'.toNat < run.image) = true := by
  decide +kernel

theorem eq_dot_of_lowerChar {c : Char} (h : lowerChar c = '.') : c = '.' := by
  rw [lowerChar_eq_find?] at h
  cases hfind : lowerRuns.find? (·.contains c.toNat) with
  | none => simpa [hfind] using h
  | some run =>
    -- A partner is a character after the dot.
    have hrun := List.mem_of_find?_eq_some hfind
    have hcontains : run.contains c.toNat = true := by simpa using List.find?_some hfind
    have hafter : '.'.toNat < run.image := by
      simpa using List.all_eq_true.mp lowerRuns_after_dot run hrun
    have hcode : (Char.ofNat (run.apply c.toNat)).toNat = run.apply c.toNat := by
      have hlast := run.apply_le_apply_last hcontains
      have hfirst := run.image_le_apply c.toNat
      have hplain := List.all_eq_true.mp lowerRuns_plain run hrun
      simp only [CaseRun.plain, Bool.and_eq_true, Bool.or_eq_true, decide_eq_true_eq] at hplain
      exact toNat_ofNat (by omega)
    rw [hfind] at h
    have hsame : run.apply c.toNat = '.'.toNat := hcode.symm.trans (congrArg Char.toNat h)
    have hfirst := run.image_le_apply c.toNat
    omega

theorem dot_mem_of_lowerFrom {afterCased : Bool} (h : '.' ∈ lowerFrom afterCased cs) :
    '.' ∈ cs := by
  induction cs generalizing afterCased with
  | nil => cases h
  | cons c rest ih =>
    rcases List.mem_append.mp h with himage | hrest
    · unfold lowerImage at himage
      split_ifs at himage with _ hsigma <;> simp at himage
      rw [eq_dot_of_lowerChar himage.symm]
      exact List.mem_cons_self
    · exact List.mem_cons_of_mem _ (ih hrest)

theorem dot_mem_of_fold {text : String} (h : '.' ∈ (fold text).toList) : '.' ∈ text.toList := by
  rw [fold, String.toList_ofList] at h
  have htrim := dot_mem_of_lowerFrom h
  rw [trim_eq_rdropWhile] at htrim
  exact (List.dropWhile_suffix _).mem ((List.rdropWhile_prefix _ _).mem htrim)

end Lineage.Text

namespace Lineage

namespace QualifiedName

variable {qualifier name : String} (hqualifier : '.' ∉ qualifier.toList)

include hqualifier

theorem parse_eq_qualifiedBy (hname : '.' ∉ name.toList) :
    parse (qualifier ++ "." ++ name) = (ofName name).qualifiedBy qualifier := by
  rw [parse, Text.splitLastDot_dot hqualifier hname]

/-- A blank text does not qualify, and one without dots qualifies by itself. -/
theorem qualifiedBy_of_not_mem (plain : QualifiedName) :
    plain.qualifiedBy qualifier =
      { plain with qualifier := if fold qualifier = "" then [] else [fold qualifier] } := by
  have hsegments := Text.segments_of_not_mem (mt Text.dot_mem_of_fold hqualifier)
  simp only [qualifiedBy, hsegments, String.isEmpty_iff]

/-- A qualifier and a name with a dot between them. A blank qualifier does not qualify. -/
theorem parse_dot (hname : '.' ∉ name.toList) :
    parse (qualifier ++ "." ++ name) =
      { ofName name with qualifier := if fold qualifier = "" then [] else [fold qualifier] } := by
  rw [parse_eq_qualifiedBy hqualifier hname, qualifiedBy_of_not_mem hqualifier]

end QualifiedName

end Lineage
