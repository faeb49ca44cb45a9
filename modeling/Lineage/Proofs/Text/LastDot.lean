import Mathlib.Data.List.DropRight
import Lineage.Proofs.Text.Segmentwise

/-!
# Names read from a text and written again

A name is read from a text by cutting it at its last dot. What follows the dot is the name, and what
precedes it qualifies the name, unless it is blank. Both are folded, and folding neither adds dots
nor changes what is folded already. So the dotted form of a name that was read is read as the same
name.

## Key results

- `splitLastDot_append`: what follows the last dot, and what precedes it
- `fold_eq_empty_iff`: blank texts fold to nothing
- `QualifiedName.parse_append`, `QualifiedName.parse_of_not_mem`: how texts with and without dots
  are read
- `QualifiedName.parse_display`: reading a name, writing it and reading it again
-/

namespace Lineage.Text

/-! ### The last dot -/

theorem splitLastDot_of_segments {text last : String} {front : List String}
    (h : segments text = front ++ [last]) :
    splitLastDot text = (if front = [] then none else some (joinDots front), last) := by
  rw [splitLastDot, h, List.reverse_append, List.reverse_singleton, List.singleton_append]
  cases front using List.reverseRecOn with
  | nil => rfl
  | append_singleton front segment => simp

theorem segments_ne_nil (text : String) : segments text ≠ [] := by
  simp [segments, cutAtDots_ne_nil]

/-- A dot parts the pieces before it from those after it. -/
theorem cutAtDots_append (cs ds : List Char) :
    cutAtDots (cs ++ '.' :: ds) = cutAtDots cs ++ cutAtDots ds := by
  induction cs with
  | nil => simp [cutAtDots]
  | cons c rest ih =>
    by_cases hdot : c = '.'
    · simp [cutAtDots, hdot, ih]
    · obtain ⟨pieces, hrest⟩ := cutAtDots_eq_cons rest
      rw [hrest, List.cons_append] at ih
      rw [List.cons_append, cutAtDots_cons_of_ne hdot ih, cutAtDots_cons_of_ne hdot hrest,
        List.cons_append]

theorem segments_append {qualifier name : String} (h : '.' ∉ name.toList) :
    segments (qualifier ++ "." ++ name) = segments qualifier ++ [name] := by
  have htext : (qualifier ++ "." ++ name).toList = qualifier.toList ++ '.' :: name.toList := by simp
  rw [segments, htext, cutAtDots_append, cutAtDots_of_not_mem h]
  simp [segments]

/-- What follows the last dot is the name, and all that precedes it is the qualifier. -/
theorem splitLastDot_append {qualifier name : String} (h : '.' ∉ name.toList) :
    splitLastDot (qualifier ++ "." ++ name) = (some qualifier, name) := by
  rw [splitLastDot_of_segments (segments_append h), if_neg (segments_ne_nil qualifier),
    joinDots_segments]

theorem splitLastDot_of_not_mem {text : String} (h : '.' ∉ text.toList) :
    splitLastDot text = (none, text) := by
  have hsegments : segments text = [] ++ [text] := segments_of_not_mem h
  rw [splitLastDot_of_segments hsegments, if_pos rfl]

/-- A text with dots has a last one. -/
theorem exists_last_dot {text : String} (h : '.' ∈ text.toList) :
    ∃ qualifier name, text = qualifier ++ "." ++ name ∧ '.' ∉ name.toList := by
  -- Read backwards, the last dot is the first one.
  obtain ⟨after, before, hsplit, hafter⟩ := List.eq_append_cons_of_mem (List.mem_reverse.mpr h)
  refine ⟨String.ofList before.reverse, String.ofList after.reverse, ?_, by simpa using hafter⟩
  have htext : text.toList = before.reverse ++ '.' :: after.reverse := by
    rw [← List.reverse_reverse text.toList, hsplit]
    simp
  rw [← String.toList_inj, htext]
  simp

/-! ### Blank texts -/

theorem trim_eq_nil_iff (cs : List Char) : trim cs = [] ↔ ∀ c ∈ cs, isBlank c = true := by
  rw [trim_eq_rdropWhile, List.rdropWhile_eq_nil_iff]
  constructor
  · intro h c hc
    rw [← List.takeWhile_append_dropWhile (p := isBlank) (l := cs)] at hc
    rcases List.mem_append.mp hc with hfront | hback
    · exact List.mem_takeWhile_imp hfront
    · exact h c hback
  · exact fun h c hc => h c ((List.dropWhile_suffix isBlank).mem hc)

end Lineage.Text

namespace Lineage

/-- Blank texts fold to nothing, and no others do. -/
theorem fold_eq_empty_iff (text : String) :
    fold text = "" ↔ ∀ c ∈ text.toList, Text.isBlank c = true := by
  rw [← Text.trim_eq_nil_iff, ← String.toList_inj, fold, String.toList_ofList, String.toList_empty]
  constructor
  · intro h
    by_contra hsome
    exact Text.lowerFrom_ne_nil hsome h
  · intro h
    rw [h]
    rfl

namespace QualifiedName

/-! ### Names read from a text -/

/-- A text without a dot is a plain name. -/
theorem parse_of_not_mem {text : String} (h : '.' ∉ text.toList) : parse text = ofName text := by
  rw [parse, Text.splitLastDot_of_not_mem h]

/-- A text with dots is what follows the last one, qualified by what precedes it. -/
theorem parse_append {qualifier name : String} (h : '.' ∉ name.toList) :
    parse (qualifier ++ "." ++ name) = (ofName name).qualifiedBy qualifier := by
  rw [parse, Text.splitLastDot_append h]

theorem dot_not_mem_fold {name : String} (h : '.' ∉ name.toList) : '.' ∉ (fold name).toList :=
  mt Text.dot_mem_of_fold h

/-- A name is qualified by the folded text, unless this is empty. -/
theorem qualifierText_qualifiedBy (plain : QualifiedName) (text : String) :
    (plain.qualifiedBy text).qualifierText = if fold text = "" then none else some (fold text) := by
  by_cases hblank : fold text = ""
  · simp [qualifierText, qualifiedBy, hblank]
  · simp [qualifierText, qualifiedBy, hblank, Text.segments_ne_nil, Text.joinDots_segments]

/-- The dotted form of a name with a qualifier. -/
theorem display_qualifiedBy {name : String} (h : '.' ∉ name.toList) (qualifier : String) :
    ((ofName name).qualifiedBy qualifier).display =
      if fold qualifier = "" then fold name else fold qualifier ++ "." ++ fold name := by
  have hdotted : Text.joinDots (Text.segments (fold qualifier) ++ [fold name]) = fold qualifier ++
      "." ++ fold name := by
    rw [← Text.segments_append (dot_not_mem_fold h), Text.joinDots_segments]
  by_cases hblank : fold qualifier = ""
  · simp [display, qualifiedBy, ofName, hblank, Text.joinDots]
  · simp [display, qualifiedBy, ofName, hblank, hdotted]

/-- Whether a name is folded once or twice, and its qualifier too, makes no difference. -/
theorem qualifiedBy_fold (name qualifier : String) :
    (ofName (fold name)).qualifiedBy (fold qualifier) = (ofName name).qualifiedBy qualifier := by
  simp only [qualifiedBy, ofName, fold_fold]

/-- Reading the dotted form of a name that was read gives the same name. -/
theorem parse_display (text : String) : parse (parse text).display = parse text := by
  by_cases hdot : '.' ∈ text.toList
  · obtain ⟨qualifier, name, rfl, hname⟩ := Text.exists_last_dot hdot
    rw [parse_append hname, display_qualifiedBy hname]
    split
    · next hblank =>
      rw [parse_of_not_mem (dot_not_mem_fold hname)]
      simp [qualifiedBy, ofName, hblank]
    · rw [parse_append (dot_not_mem_fold hname), qualifiedBy_fold]
  · have hdisplay : (ofName text).display = fold text := by simp [display, ofName, Text.joinDots]
    rw [parse_of_not_mem hdot, hdisplay, parse_of_not_mem (dot_not_mem_fold hdot), ofName,
      ofName, fold_fold]

/-- A text is read as what follows its last dot, folded, with what precedes that dot, folded, for
    its qualifier. There is no qualifier just where there is no dot or nothing but blanks before the
    last one. The name has no dots, and the dotted form of what was read is read as the same
    qualifier and name: a folded text stays as it is. -/
theorem parse_stable (text : String) :
    parse (parse text).display = parse text ∧
    '.' ∉ (parse text).name.toList ∧
    ((parse text).qualifierText = none ↔ '.' ∉ text.toList ∨
      ∃ before after, text = before ++ "." ++ after ∧ '.' ∉ after.toList ∧
        ∀ c ∈ before.toList, Text.isBlank c = true) ∧
    (∀ before after, text = before ++ "." ++ after → '.' ∉ after.toList →
      (parse text).name = fold after ∧
        ∀ qualifier ∈ (parse text).qualifierText, qualifier = fold before) ∧
    fold (fold text) = fold text := by
  have hname : '.' ∉ (parse text).name.toList := by
    by_cases hdot : '.' ∈ text.toList
    · obtain ⟨qualifier, name, rfl, hname⟩ := Text.exists_last_dot hdot
      rw [parse_append hname]
      exact dot_not_mem_fold hname
    · rw [parse_of_not_mem hdot]
      exact dot_not_mem_fold hdot
  have hnone : ∀ before after, text = before ++ "." ++ after → '.' ∉ after.toList →
      ((parse text).qualifierText = none ↔ ∀ c ∈ before.toList, Text.isBlank c = true) := by
    rintro before after rfl hafter
    rw [parse_append hafter, qualifierText_qualifiedBy, ← fold_eq_empty_iff]
    simp
  refine ⟨parse_display text, hname, ⟨fun habsent => ?_, ?_⟩, ?_, fold_fold text⟩
  · by_cases hdot : '.' ∈ text.toList
    · obtain ⟨before, after, htext, hafter⟩ := Text.exists_last_dot hdot
      exact .inr ⟨before, after, htext, hafter, (hnone before after htext hafter).mp habsent⟩
    · exact .inl hdot
  · rintro (hplain | ⟨before, after, htext, hafter, hblank⟩)
    · rw [parse_of_not_mem hplain]
      rfl
    · exact (hnone before after htext hafter).mpr hblank
  · rintro before after rfl hafter
    rw [parse_append hafter, qualifierText_qualifiedBy]
    refine ⟨rfl, fun qualifier hqualifier => ?_⟩
    split at hqualifier
    · cases hqualifier
    · exact (Option.some.inj hqualifier).symm

end QualifiedName

end Lineage
