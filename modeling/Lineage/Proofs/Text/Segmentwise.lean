import Mathlib.Algebra.Order.BigOperators.Group.List
import Mathlib.Algebra.Order.Ring.Nat
import Mathlib.Data.List.DropRight
import Lineage.Proofs.Text.Dots

/-!
# Folding a text with dots: as a whole, or segment by segment

A qualifier is folded as a whole and cut at its dots afterwards, while names are folded one by one.
Two things tell the two ways apart. Folding the whole leaves the blanks around the inner dots. And a
capital sigma may take another form in the whole text than in its own segment, since a dot is passed
over when cased letters are looked for. Where there is neither, the two ways agree, and nowhere
else.

## Key results

- `joinDots_segments`: the segments of a text make up the text
- `lowerFrom_eq_intercalate_iff`: when lower-casing the whole is lower-casing the pieces
- `fold_eq_foldSegments_iff`: when folding the whole is folding the segments
-/

namespace Lineage.Text

variable {cs rest before after : List Char} {c : Char} {pieces : List (List Char)} (text : String)

/-- The text with each of its segments folded. -/
def foldSegments (text : String) : String :=
  joinDots ((segments text).map fold)

/-! ### Cutting and joining -/

/-- The first piece reaches up to the first dot. -/
theorem cutAtDots_eq_cons (cs : List Char) :
    ∃ pieces, cutAtDots cs = cs.takeWhile (· ≠ '.') :: pieces := by
  induction cs with
  | nil => exact ⟨[], rfl⟩
  | cons c rest ih =>
    obtain ⟨pieces, hrest⟩ := ih
    by_cases hdot : c = '.'
    · exact ⟨cutAtDots rest, by simp [cutAtDots, hdot]⟩
    · exact ⟨pieces, by simp [cutAtDots, hdot, hrest]⟩

/-- A character but the dot belongs to the first piece. -/
theorem cutAtDots_cons_of_ne {piece : List Char} (hc : c ≠ '.')
    (h : cutAtDots rest = piece :: pieces) : cutAtDots (c :: rest) = (c :: piece) :: pieces := by
  simp [cutAtDots, hc, h]

theorem intercalate_cons_of_ne_nil (piece : List Char) (h : pieces ≠ []) :
    ['.'].intercalate (piece :: pieces) = piece ++ '.' :: ['.'].intercalate pieces := by
  cases pieces with
  | nil => exact absurd rfl h
  | cons next pieces => simp [List.intercalate_cons_cons]

/-- What stands before the first piece stands before all of them. -/
theorem intercalate_append_cons (front piece : List Char) (pieces : List (List Char)) :
    ['.'].intercalate ((front ++ piece) :: pieces) = front ++
    ['.'].intercalate (piece :: pieces) := by
  cases pieces with
  | nil => simp [List.intercalate_singleton]
  | cons next pieces => simp [List.intercalate_cons_cons]

theorem cutAtDots_ne_nil (cs : List Char) : cutAtDots cs ≠ [] := by
  obtain ⟨pieces, hcut⟩ := cutAtDots_eq_cons cs
  rw [hcut]
  exact List.cons_ne_nil _ _

theorem intercalate_cutAtDots (cs : List Char) : ['.'].intercalate (cutAtDots cs) = cs := by
  induction cs with
  | nil => rfl
  | cons c rest ih =>
    by_cases hdot : c = '.'
    · have hcut : cutAtDots (c :: rest) = [] :: cutAtDots rest := by simp [cutAtDots, hdot]
      rw [hcut, intercalate_cons_of_ne_nil [] (cutAtDots_ne_nil rest), ih, hdot]
      rfl
    · obtain ⟨pieces, hrest⟩ := cutAtDots_eq_cons rest
      rw [hrest] at ih
      have hfirst := intercalate_append_cons [c] (rest.takeWhile (· ≠ '.')) pieces
      rw [cutAtDots_cons_of_ne hdot hrest]
      exact hfirst.trans (by rw [ih]; rfl)

theorem toList_joinDots (parts : List String) :
    (joinDots parts).toList = ['.'].intercalate (parts.map String.toList) :=
  String.toList_intercalate

/-- The segments of a text make up the text. -/
theorem joinDots_segments : joinDots (segments text) = text := by
  have hpieces : (segments text).map String.toList = cutAtDots text.toList := by
    simp [segments, Function.comp_def]
  rw [← String.toList_inj, toList_joinDots, hpieces, intercalate_cutAtDots]

theorem dot_not_mem_of_mem_cutAtDots {piece : List Char} (h : piece ∈ cutAtDots cs) :
    '.' ∉ piece := by
  induction cs generalizing piece with
  | nil =>
    rw [cutAtDots, List.mem_singleton] at h
    simp [h]
  | cons c rest ih =>
    by_cases hdot : c = '.'
    · have hcut : cutAtDots (c :: rest) = [] :: cutAtDots rest := by simp [cutAtDots, hdot]
      rw [hcut] at h
      rcases List.mem_cons.mp h with rfl | hlater
      · simp
      · exact ih hlater
    · -- The character joins the first piece of the rest, and the other pieces stay.
      obtain ⟨pieces, hrest⟩ := cutAtDots_eq_cons rest
      rw [cutAtDots_cons_of_ne hdot hrest] at h
      rw [hrest] at ih
      rcases List.mem_cons.mp h with rfl | hlater
      · exact List.not_mem_cons_of_ne_of_not_mem (Ne.symm hdot) (ih List.mem_cons_self)
      · exact ih (List.mem_cons_of_mem _ hlater)

theorem dot_not_mem_of_mem_segments {text segment : String} (h : segment ∈ segments text) :
    '.' ∉ segment.toList := by
  obtain ⟨piece, hpiece, rfl⟩ := List.mem_map.mp h
  rw [String.toList_ofList]
  exact dot_not_mem_of_mem_cutAtDots hpiece

/-- Folding its segments leaves a text with as many segments. -/
theorem segments_foldSegments : segments (foldSegments text) = (segments text).map fold := by
  refine segments_joinDots (by simp [segments, cutAtDots_ne_nil]) fun part hpart => ?_
  obtain ⟨segment, hsegment, rfl⟩ := List.mem_map.mp hpart
  exact fun hdot => dot_not_mem_of_mem_segments hsegment (dot_mem_of_fold hdot)

/-- Once the segments are folded, folding the whole has nothing to change. -/
theorem fold_foldSegments : fold (foldSegments text) = foldSegments text := by
  refine (folded_intercalate fun part hpart => ?_).fold_eq
  obtain ⟨segment, _, rfl⟩ := List.mem_map.mp hpart
  exact folded_fold segment

/-! ### Blanks -/

theorem isBlank_dot : isBlank '.' = false := by
  decide

theorem ne_dot_of_isBlank (h : isBlank c = true) : c ≠ '.' := by
  rintro rfl
  rw [isBlank_dot] at h
  cases h

theorem trim_cons_of_isBlank (h : isBlank c = true) (cs : List Char) :
    trim (c :: cs) = trim cs := by
  rw [trim, trim, List.dropWhile_cons_of_pos h]

theorem trim_concat_of_isBlank (h : isBlank c = true) (cs : List Char) :
    trim (cs ++ [c]) = trim cs := by
  rw [trim_eq_rdropWhile, trim_eq_rdropWhile, List.dropWhile_append]
  split
  · next hnil =>
    rw [List.isEmpty_iff.mp hnil, List.dropWhile_cons_of_pos h]
    rfl
  · rw [List.rdropWhile_concat_pos _ _ _ h]

/-- A last character but the dot belongs to the last piece. -/
theorem cutAtDots_concat (cs : List Char) (hc : c ≠ '.') :
    ∃ front last, cutAtDots cs = front ++ [last] ∧ cutAtDots (cs ++ [c]) = front ++
    [last ++ [c]] := by
  induction cs with
  | nil => exact ⟨[], [], rfl, by simp [cutAtDots, hc]⟩
  | cons d rest ih =>
    obtain ⟨front, last, hrest, hmore⟩ := ih
    by_cases hdot : d = '.'
    · exact ⟨[] :: front, last, by simp [cutAtDots, hdot, hrest], by simp [cutAtDots, hdot, hmore]⟩
    · cases front with
      | nil =>
        exact ⟨[], d :: last, by simp [cutAtDots, hdot, hrest], by simp [cutAtDots, hdot, hmore]⟩
      | cons piece front =>
        exact ⟨(d :: piece) :: front, last, by simp [cutAtDots, hdot, hrest],
          by simp [cutAtDots, hdot, hmore]⟩

theorem map_trim_cutAtDots_dropWhile (cs : List Char) :
    (cutAtDots (cs.dropWhile isBlank)).map trim = (cutAtDots cs).map trim := by
  induction cs with
  | nil => rfl
  | cons c rest ih =>
    by_cases hblank : isBlank c = true
    · obtain ⟨pieces, hrest⟩ := cutAtDots_eq_cons rest
      rw [List.dropWhile_cons_of_pos hblank, ih,
        cutAtDots_cons_of_ne (ne_dot_of_isBlank hblank) hrest, hrest, List.map_cons, List.map_cons,
        trim_cons_of_isBlank hblank]
    · rw [List.dropWhile_cons_of_neg hblank]

theorem map_trim_cutAtDots_rdropWhile (cs : List Char) :
    (cutAtDots (cs.rdropWhile isBlank)).map trim = (cutAtDots cs).map trim := by
  induction cs using List.reverseRecOn with
  | nil => rfl
  | append_singleton cs c ih =>
    rw [List.rdropWhile_concat]
    split
    · next hblank =>
      obtain ⟨front, last, hcut, hmore⟩ := cutAtDots_concat cs (ne_dot_of_isBlank hblank)
      rw [ih, hmore, hcut, List.map_append, List.map_append, List.map_singleton, List.map_singleton,
        trim_concat_of_isBlank hblank]
    · rfl

/-- Blanks around a text are blanks around its first and its last piece. -/
theorem map_trim_cutAtDots_trim (cs : List Char) :
    (cutAtDots (trim cs)).map trim = (cutAtDots cs).map trim := by
  rw [trim_eq_rdropWhile, map_trim_cutAtDots_rdropWhile, map_trim_cutAtDots_dropWhile]

/-! ### Counting blanks -/

/-- The characters with the property `White_Space`, one by one, have no partners in lower case. -/
theorem blankRanges_alone :
    (blankRanges.all fun range => (List.range' range.1 (range.2 + 1 - range.1)).all fun code =>
    (lowerRuns.find? (·.contains code)).isNone && code != 'İ'.toNat) = true := by
  decide +kernel

theorem settled_of_isBlank (h : isBlank c = true) : Settled c := by
  obtain ⟨range, hrange, hin⟩ := List.any_eq_true.mp h
  simp only [Bool.and_eq_true, decide_eq_true_eq] at hin
  have halone := List.all_eq_true.mp (List.all_eq_true.mp blankRanges_alone range hrange) c.toNat
    (List.mem_range'_1.mpr (by omega))
  simp only [Bool.and_eq_true, Option.isNone_iff_eq_none, bne_iff_ne, ne_eq] at halone
  exact ⟨halone.1, fun hdotted => halone.2 (congrArg Char.toNat hdotted)⟩

/-- Lower-casing neither adds blanks nor takes any away. -/
theorem countP_lowerFrom (afterCased : Bool) (cs : List Char) :
    (lowerFrom afterCased cs).countP isBlank = cs.countP isBlank := by
  induction cs generalizing afterCased with
  | nil => rfl
  | cons c rest ih =>
    rw [lowerFrom, List.countP_append, ih, ← List.singleton_append, List.countP_append]
    congr 1
    by_cases hblank : isBlank c = true
    · rw [(settled_of_isBlank hblank).lowerImage_eq]
    · have hnone : (lowerImage afterCased c rest).countP isBlank = 0 := by
        rw [List.countP_eq_zero]
        intro x hx
        rw [Bool.not_eq_true]
        exact (settled_of_mem_lowerImage hx).2 (Bool.not_eq_true _ ▸ hblank)
      rw [hnone, List.countP_singleton, if_neg hblank]

/-- Where trimming changes a text, it takes a blank away. -/
theorem countP_trim_le (cs : List Char) :
    (trim cs).countP isBlank ≤ cs.countP isBlank ∧
    ((trim cs).countP isBlank = cs.countP isBlank → trim cs = cs) := by
  have hsuffix : (cs.dropWhile isBlank) <:+ cs := List.dropWhile_suffix _
  have hprefix : trim cs <+: cs.dropWhile isBlank := List.rdropWhile_prefix _ _
  -- Trimming cuts off a front and a back, and both hold nothing but blanks.
  obtain ⟨front, hfront⟩ := hsuffix
  obtain ⟨back, hback⟩ := hprefix
  have hcs : cs = front ++ (trim cs ++ back) := by rw [hback, hfront]
  have hfrontBlank : ∀ c ∈ front, isBlank c = true := by
    have htake : front = cs.takeWhile isBlank := by
      have hsplit := List.takeWhile_append_dropWhile (p := isBlank) (l := cs)
      exact List.append_cancel_right (hfront.trans hsplit.symm)
    intro c hc
    rw [htake] at hc
    exact List.mem_takeWhile_imp hc
  have hbackBlank : ∀ c ∈ back, isBlank c = true := by
    have htake : back = (cs.dropWhile isBlank).rtakeWhile isBlank := by
      have hsplit := List.rdropWhile_append_rtakeWhile (p := isBlank) (l := cs.dropWhile isBlank)
      exact List.append_cancel_left (hback.trans hsplit.symm)
    intro c hc
    rw [htake] at hc
    exact List.mem_rtakeWhile_imp hc
  have hcount : cs.countP isBlank = front.length + ((trim cs).countP isBlank + back.length) := by
    conv_lhs => rw [hcs]
    rw [List.countP_append, List.countP_append, List.countP_eq_length.mpr hfrontBlank,
      List.countP_eq_length.mpr hbackBlank]
  refine ⟨by omega, fun hsame => ?_⟩
  have hempty : front = [] ∧ back = [] := by
    constructor <;> apply List.eq_nil_of_length_eq_zero <;> omega
  conv_rhs => rw [hcs, hempty.1, hempty.2]
  simp

/-- Where no item counts for more than before and the sum is the same, every item
    counts for as much. -/
theorem eq_of_sum_map_eq {α : Type} {items : List α} {f g : α → Nat}
    (hle : ∀ item ∈ items, f item ≤ g item) (hsum : (items.map f).sum = (items.map g).sum) :
    ∀ item ∈ items, f item = g item := by
  induction items with
  | nil => simp
  | cons item rest ih =>
    obtain ⟨hitem, hrest⟩ := List.forall_mem_cons.mp hle
    have hmore : (rest.map f).sum ≤ (rest.map g).sum := List.sum_le_sum hrest
    simp only [List.map_cons, List.sum_cons] at hsum
    exact List.forall_mem_cons.mpr ⟨by omega, ih hrest (by omega)⟩

/-- The blanks of joined pieces are those of the pieces. -/
theorem countP_intercalate (pieces : List (List Char)) :
    (['.'].intercalate pieces).countP isBlank = (pieces.map (·.countP isBlank)).sum := by
  induction pieces with
  | nil => rfl
  | cons piece pieces ih =>
    cases pieces with
    | nil => simp [List.intercalate_singleton]
    | cons next pieces =>
      rw [List.intercalate_cons_cons, List.countP_append, List.countP_append, ih, List.map_cons,
        List.sum_cons]
      simp [isBlank_dot]

/-! ### Capital sigmas -/

/-- Past ignorable characters, the text ends in a cased letter. -/
def endsCased (cs : List Char) : Bool :=
  startsCased cs.reverse

/-- A capital sigma between the two texts takes its final form. -/
def sigmaIsFinal (before after : List Char) : Bool :=
  endsCased before && !startsCased after

/-- A capital sigma between the two texts takes the form that it has between the nearest dots. -/
def SigmaKeepsForm (before after : List Char) : Prop :=
  sigmaIsFinal before after = sigmaIsFinal (before.rtakeWhile (· ≠ '.')) (after.takeWhile (· ≠ '.'))

theorem endsCased_concat (cs : List Char) (c : Char) :
    endsCased (cs ++ [c]) = if isIgnorable c then endsCased cs else isCased c := by
  by_cases hignorable : isIgnorable c = true <;> simp [endsCased, startsCased, hignorable]

theorem length_lowerImage (afterCased other : Bool) (c : Char) (rest rest' : List Char) :
    (lowerImage afterCased c rest).length = (lowerImage other c rest').length := by
  unfold lowerImage
  split_ifs <;> rfl

/-- What surrounds a character matters for a capital sigma only. -/
theorem lowerImage_eq_iff (afterCased other : Bool) (c : Char) (rest rest' : List Char) :
    lowerImage afterCased c rest = lowerImage other c rest' ↔
      (c = 'Σ' → (afterCased && !startsCased rest) = (other && !startsCased rest')) := by
  unfold lowerImage
  by_cases hsigma : c = 'Σ'
  · simp only [hsigma, if_true, true_implies, List.cons.injEq, and_true]
    cases (afterCased && !startsCased rest) <;> cases (other && !startsCased rest') <;> decide
  · simp [hsigma]

/-- The sigmas of a text are its first character, if it is one, and those of the rest. -/
theorem forall_sigma_cons (front : List Char) (c : Char) (rest : List Char) :
    (∀ before after, c :: rest = before ++ 'Σ' :: after → SigmaKeepsForm (front ++ before) after) ↔
      (c = 'Σ' → SigmaKeepsForm front rest) ∧
        ∀ before after, rest = before ++ 'Σ' :: after →
          SigmaKeepsForm (front ++ [c] ++ before) after := by
  constructor
  · intro h
    refine ⟨fun hc => ?_, fun before after hrest => ?_⟩
    · simpa using h [] rest (by rw [hc]; rfl)
    · simpa using h (c :: before) after (by rw [hrest]; rfl)
  · rintro ⟨hfirst, hlater⟩ before after hsplit
    cases before with
    | nil =>
      obtain ⟨rfl, rfl⟩ := List.cons.inj hsplit
      simpa using hfirst rfl
    | cons d before =>
      obtain ⟨rfl, hrest⟩ := List.cons.inj hsplit
      simpa using hlater before after hrest

/-- Lower-casing the whole is lower-casing the pieces just where each capital sigma has the same
    form in both. The induction goes along the text and keeps what stands before it, which decides
    the form of a sigma. -/
theorem lowerFrom_eq_intercalate_iff (front cs : List Char)
    (hcut : cutAtDots cs = cs.takeWhile (· ≠ '.') :: pieces) :
    lowerFrom (endsCased front) cs = ['.'].intercalate
      (lowerFrom (endsCased (front.rtakeWhile (· ≠ '.'))) (cs.takeWhile (· ≠ '.')) ::
        pieces.map lower) ↔
    ∀ before after, cs = before ++ 'Σ' :: after → SigmaKeepsForm (front ++ before) after := by
  induction cs generalizing front pieces with
  | nil =>
    obtain rfl : pieces = [] := (List.cons.inj hcut).2.symm
    simp [lowerFrom, List.intercalate_singleton]
  | cons c rest ih =>
    obtain ⟨more, hrest⟩ := cutAtDots_eq_cons rest
    have hnext := ih (front ++ [c]) hrest
    rw [endsCased_concat, List.rtakeWhile_concat] at hnext
    rw [forall_sigma_cons, ← hnext]
    by_cases hdot : c = '.'
    · -- After a dot the next piece starts, of which nothing has been seen yet.
      subst hdot
      obtain rfl : pieces = rest.takeWhile (· ≠ '.') :: more := by
        rw [cutAtDots, if_pos rfl, hrest] at hcut
        exact (List.cons.inj hcut).2.symm
      have hdot : ∀ afterCased, lowerImage afterCased '.' rest = ['.'] := fun afterCased =>
        Settled.lowerImage_eq ⟨by decide +kernel, by decide⟩ afterCased rest
      have hstart : endsCased [] = false := rfl
      simp [lowerFrom, hdot, List.intercalate_cons_cons, lower, hstart]
    · obtain rfl : pieces = more := by
        rw [cutAtDots_cons_of_ne hdot hrest] at hcut
        exact (List.cons.inj hcut).2.symm
      have htake : (c :: rest).takeWhile (· ≠ '.') = c :: rest.takeWhile (· ≠ '.') :=
        List.takeWhile_cons_of_pos (by simpa using hdot)
      have hkept : (decide (c ≠ '.')) = true := by simpa using hdot
      rw [htake, lowerFrom, lowerFrom, intercalate_append_cons, if_pos hkept, endsCased_concat,
        List.append_eq_append_iff_of_size_eq_left (length_lowerImage _ _ c rest _),
        lowerImage_eq_iff]
      rfl

/-! ### Folding -/

/-- Folding a trimmed text as a whole and piece by piece gives the same: no blank stands next to a
    dot, and no capital sigma changes its form because of what stands beyond a dot. -/
structure CutsCleanly (cs : List Char) : Prop where
  trimmed : ∀ piece ∈ cutAtDots cs, trim piece = piece
  sigmas : ∀ before after, cs = before ++ 'Σ' :: after → SigmaKeepsForm before after

/-- Lower-casing the whole is lower-casing the pieces just where each capital sigma has the same
    form in both. -/
theorem lower_eq_intercalate_iff (cs : List Char) :
    lower cs = ['.'].intercalate ((cutAtDots cs).map lower) ↔
    ∀ before after, cs = before ++ 'Σ' :: after → SigmaKeepsForm before after := by
  obtain ⟨pieces, hcut⟩ := cutAtDots_eq_cons cs
  have hiff := lowerFrom_eq_intercalate_iff [] cs hcut
  rw [hcut]
  exact hiff

/-- Trimming the pieces of a text before they are lower-cased is lower-casing the text only if
    they are trimmed. -/
theorem trimmed_of_lower_eq
    (h : lower cs = ['.'].intercalate ((cutAtDots cs).map fun piece => lower (trim piece))) :
    ∀ piece ∈ cutAtDots cs, trim piece = piece := by
  -- As many blanks are left as there were, so no piece has lost any.
  have hcount : ((cutAtDots cs).map fun piece => (trim piece).countP isBlank).sum =
      ((cutAtDots cs).map fun piece => piece.countP isBlank).sum := by
    have hleft := countP_lowerFrom false cs
    have hcut := congrArg (List.countP isBlank) (intercalate_cutAtDots cs)
    rw [← lower, h, countP_intercalate, List.map_map, ← hcut, countP_intercalate] at hleft
    rw [← hleft]
    exact congrArg List.sum (List.map_congr_left fun piece _ =>
      (countP_lowerFrom false (trim piece)).symm)
  intro piece hpiece
  refine (countP_trim_le piece).2 ?_
  exact eq_of_sum_map_eq (fun piece _ => (countP_trim_le piece).1) hcount piece hpiece

/-- Folding a text with dots as a whole is folding its segments just where the trimmed text
    cuts cleanly. -/
theorem fold_eq_foldSegments_iff :
    fold text = foldSegments text ↔ CutsCleanly (trim text.toList) := by
  have hpieces : (foldSegments text).toList =
      ['.'].intercalate ((cutAtDots (trim text.toList)).map fun piece => lower (trim piece)) := by
    -- Blanks around the whole text are blanks around its first and last piece.
    have htrim := congrArg (List.map lower) (map_trim_cutAtDots_trim text.toList)
    rw [List.map_map, List.map_map] at htrim
    rw [foldSegments, toList_joinDots, segments, List.map_map, List.map_map]
    refine congrArg ['.'].intercalate (Eq.trans ?_ htrim.symm)
    exact List.map_congr_left fun piece _ => by simp [fold]
  rw [← String.toList_inj, hpieces, fold, String.toList_ofList]
  constructor
  · intro h
    have htrimmed := trimmed_of_lower_eq h
    refine ⟨htrimmed, (lower_eq_intercalate_iff _).mp (h.trans ?_)⟩
    exact congrArg _ (List.map_congr_left fun piece hpiece => by rw [htrimmed piece hpiece])
  · rintro ⟨htrimmed, hsigmas⟩
    refine ((lower_eq_intercalate_iff _).mpr hsigmas).trans ?_
    exact congrArg _ (List.map_congr_left fun piece hpiece => by rw [htrimmed piece hpiece])

end Lineage.Text
