import Lineage.Proofs.Graph.Edges
import Lineage.Proofs.Scope.Qualified
import Lineage.Proofs.Text.LastDot
import Lineage.Proofs.Walk.Operations

/-!
# Spellings of dotted names

A dotted name can be written with its segments folded or as it comes. The last segment is folded
alone, and so is a qualifier of one segment. A qualifier of several segments is folded as a whole,
so it may be cut into other segments than those that stand in it. Records that are nested in each
other tell any two qualifiers apart, and so a dotted name and its folded form mean the same in all
states just where the two have the same segments.

## Key results

- `QualifiedName.parse_foldSegments`: the folded form of a dotted name
- `Scope.Nest.resolve?_eq_some_iff`: which dotted names mean something among nested records
- `dotted_lookups_agree_iff`: when a dotted name can be written in any spelling
-/

namespace Lineage

/-! ### The folded form of a dotted name -/

namespace Text

theorem segments_injective : Function.Injective segments := by
  intro text other h
  rw [← joinDots_segments text, h, joinDots_segments]

/-- The last dot of a text whose segments are folded is where it was. -/
theorem splitLastDot_foldSegments (text : String) :
    splitLastDot (foldSegments text) =
      ((splitLastDot text).1.map foldSegments, fold (splitLastDot text).2) := by
  by_cases hdot : '.' ∈ text.toList
  · obtain ⟨qualifier, name, rfl, hname⟩ := exists_last_dot hdot
    have hfolded : foldSegments (qualifier ++ "." ++ name) = foldSegments qualifier ++
        "." ++ fold name := by
      apply segments_injective
      rw [segments_foldSegments, segments_append hname, segments_append (mt dot_mem_of_fold hname),
        segments_foldSegments, List.map_append, List.map_singleton]
    rw [hfolded, splitLastDot_append (mt dot_mem_of_fold hname), splitLastDot_append hname]
    rfl
  · have hfolded : foldSegments text = fold text := by
      rw [foldSegments, segments_of_not_mem hdot, List.map_singleton, joinDots,
        String.intercalate_singleton]
    rw [hfolded, splitLastDot_of_not_mem (mt dot_mem_of_fold hdot), splitLastDot_of_not_mem hdot]
    rfl

/-- Only a text of one segment is blank once its segments are folded, and such a text is
    folded as a whole. -/
theorem foldSegments_ne_empty {text : String} (h : fold text ≠ foldSegments text) :
    foldSegments text ≠ "" := by
  intro hempty
  have hblank : (segments text).map fold = [""] := by
    rw [← segments_foldSegments, hempty]
    rfl
  obtain ⟨segment, hsegment, -⟩ := List.map_eq_singleton_iff.mp hblank
  have htext := joinDots_segments text
  rw [hsegment, joinDots, String.intercalate_singleton] at htext
  refine h ?_
  rw [foldSegments, hsegment, List.map_singleton, joinDots, String.intercalate_singleton, htext]

end Text

namespace QualifiedName

theorem parse_of_splitLastDot {text qualifier name : String}
    (h : Text.splitLastDot text = (some qualifier, name)) :
    parse text = (ofName name).qualifiedBy qualifier := by
  rw [parse, h]

/-- The folded form of a dotted name. Its qualifier is cut after it was folded, so it has the
    folded segments. -/
theorem parse_foldSegments {text qualifier name : String}
    (h : Text.splitLastDot text = (some qualifier, name)) :
    parse (Text.foldSegments text) = (ofName name).qualifiedBy (Text.foldSegments qualifier) := by
  have hsplit : Text.splitLastDot (Text.foldSegments text) =
      (some (Text.foldSegments qualifier), fold name) := by
    rw [Text.splitLastDot_foldSegments, h]
    rfl
  rw [parse_of_splitLastDot hsplit, ofName, fold_fold]
  rfl

/-- A dotted name whose qualifier is folded as its segments are is read as its folded form. -/
theorem parse_eq_parse_foldSegments {text : String}
    (h : ∀ qualifier ∈ (Text.splitLastDot text).1, fold qualifier = Text.foldSegments qualifier) :
    parse text = parse (Text.foldSegments text) := by
  cases hsplit : Text.splitLastDot text with
  | mk qualifier? name =>
    cases qualifier? with
    | none =>
      have hfolded : Text.splitLastDot (Text.foldSegments text) = (none, fold name) := by
        rw [Text.splitLastDot_foldSegments, hsplit]
        rfl
      simp only [parse, hsplit, hfolded, ofName, fold_fold]
    | some qualifier =>
      have hsame : fold qualifier = Text.foldSegments qualifier := h qualifier (by rw [hsplit]; rfl)
      rw [parse_of_splitLastDot hsplit, parse_foldSegments hsplit, ← hsame]
      simp only [qualifiedBy, fold_fold]

end QualifiedName

/-! ### Records nested in each other -/

namespace Scope

/-- Nothing but records of the given names, the first one global and each further one the only
    member of the one before. -/
structure Nest (scope : Scope) (first : String) (rest : List String) : Prop where
  frames : scope.frames = []
  external : scope.root.external = []
  declared : ∀ name, scope.root.catalog.named name = if fold first = name then [⟨0⟩] else []
  size : scope.graph.size = rest.length + 1
  binding : ∀ index name, (first :: rest)[index]? = some name →
    scope.graph.get ⟨index⟩ =
      { Binding.ofName name .record with
        children := ((first :: rest)[index + 1]?.map fun _ => ⟨index + 1⟩).toList }

/-- A single global record. -/
theorem nest_singleton (name : String) :
    (((ofSchema .empty).add (.ofName name .record)).2.declareGlobal ⟨0⟩).Nest name [] where
  frames := rfl
  external := rfl
  declared wanted := by
    have hname : ((ofSchema .empty).add (.ofName name .record)).2.graph.name ⟨0⟩ = fold name := rfl
    have hcatalog : ((ofSchema .empty).add (.ofName name .record)).2.root.catalog = .empty := rfl
    by_cases hwanted : fold name = wanted <;>
      simp [declareGlobal, Catalog.add, Catalog.contains, Catalog.named, hname, hcatalog,
        Catalog.empty, hwanted, Std.TreeMap.getD_insert]
  size := rfl
  binding index wanted hwanted := by
    obtain ⟨rfl, rfl⟩ : index = 0 ∧ name = wanted := by cases index <;> simp_all
    rfl

namespace Nest

variable {scope : Scope} {first : String} {rest : List String} (h : scope.Nest first rest)

include h

theorem membersMatching {index : Nat} {name : String} (hname : (first :: rest)[index]? = some name)
    (wanted : String) {accepts : Binding.Kind → Bool} (haccepts : accepts .record = true) :
    scope.graph.membersMatching ⟨index⟩ wanted accepts =
      if rest[index]?.map fold = some wanted then [⟨index + 1⟩] else [] := by
  rw [Graph.membersMatching, Graph.children, h.binding index name hname, List.getElem?_cons_succ]
  cases hnext : rest[index]? with
  | none => simp
  | some next =>
    have hbinding := h.binding (index + 1) next (by rwa [List.getElem?_cons_succ])
    by_cases hwanted : fold next = wanted <;>
      simp [Graph.name, Graph.kind, hbinding, Binding.ofName, hwanted, haccepts]

/-- From record to record the way goes along the names of the nest, and nowhere else. -/
theorem descend?_eq_some_iff {index : Nat} {name : String}
    (hname : (first :: rest)[index]? = some name) (path : List String) (owner : BindingId) :
    scope.graph.descend? ⟨index⟩ path = some owner ↔
      path <+: (rest.drop index).map fold ∧ owner = ⟨index + path.length⟩ := by
  induction path generalizing index name with
  | nil => simp [Graph.descend?, eq_comm]
  | cons segment path ih =>
    rw [Graph.descend?, h.membersMatching hname segment rfl]
    cases hnext : rest[index]? with
    | none =>
      have hdrop : rest.drop index = [] :=
        List.drop_eq_nil_of_le (List.getElem?_eq_none_iff.mp hnext)
      simp [hdrop]
    | some next =>
      obtain ⟨hlt, rfl⟩ := List.getElem?_eq_some_iff.mp hnext
      have hlater := @ih (index + 1) _ (by rwa [List.getElem?_cons_succ])
      rw [List.drop_eq_getElem_cons hlt, List.map_cons, List.cons_prefix_cons]
      by_cases hsegment : fold rest[index] = segment
      · simp only [hsegment, Option.map_some, if_true, List.getLast?_singleton, hlater, true_and,
          List.length_cons]
        rw [show index + 1 + path.length = index + (path.length + 1) by omega]
      · simp [hsegment, Ne.symm hsegment]

theorem resolvePlain?_eq (name : String) {accepts : Binding.Kind → Bool}
    (haccepts : accepts .record = true) :
    scope.resolvePlain? false name accepts = if fold first = name then some ⟨0⟩ else none := by
  have hkind : scope.graph.kind ⟨0⟩ = .record := by
    rw [Graph.kind, h.binding 0 first rfl]
    rfl
  by_cases hname : fold first = name <;>
    simp [resolvePlain?, h.frames, Catalog.lookup?, h.declared, hname, hkind, haccepts,
      external?, h.external]

/-- The name itself is one step more on the way. -/
theorem bind_descend? (path : List String) (name : String) :
    ((scope.graph.descend? ⟨0⟩ path).bind
      fun owner => (scope.graph.membersMatching owner name fun _ => true).getLast?) =
      scope.graph.descend? ⟨0⟩ (path ++ [name]) := by
  rw [Graph.descend?_append]
  refine Option.bind_congr fun owner howner => ?_
  have hfirst : (first :: rest)[0]? = some first := rfl
  obtain ⟨hpath, rfl⟩ := (h.descend?_eq_some_iff hfirst path owner).mp howner
  have hlt : path.length < (first :: rest).length := by
    have hle := hpath.length_le
    simp only [List.length_map, List.length_drop, List.length_cons] at hle ⊢
    omega
  have hname := List.getElem?_eq_getElem hlt
  rw [Nat.zero_add, h.membersMatching hname name rfl, Graph.descend?,
    h.membersMatching hname name rfl]
  split_ifs <;> rfl

/-- Among nested records a name means something just where its segments are the first names of the
    nest, and it means the record that has as many names before its own. -/
theorem resolve?_eq_some_iff (qualifier : List String) (name : String) (id : BindingId) :
    scope.resolve? ⟨qualifier, name, none, false⟩ = some id ↔
      qualifier ++ [name] <+: (first :: rest).map fold ∧ id = ⟨qualifier.length⟩ := by
  cases qualifier with
  | nil =>
    have hplain : scope.resolve? ⟨[], name, none, false⟩ =
        if fold first = name then some ⟨0⟩ else none :=
      h.resolvePlain?_eq name rfl
    rw [hplain]
    by_cases hname : fold first = name
    · simp [hname, eq_comm]
    · simp [hname, Ne.symm hname]
  | cons segment path =>
    have hfollow : scope.resolve? ⟨segment :: path, name, none, false⟩ =
        (scope.follow? false segment path).bind fun owner =>
          (scope.graph.membersMatching owner name fun _ => true).getLast? := by
      rw [resolve?, List.reverse_cons]
      exact scope.resolveUnder?_eq_follow false segment path name _
    rw [hfollow, follow?, ← resolvePlain?_eq_findSome?, h.resolvePlain?_eq segment rfl,
      List.map_cons, List.cons_append, List.cons_prefix_cons]
    have hfirst : (first :: rest)[0]? = some first := rfl
    by_cases hsegment : fold first = segment
    · rw [if_pos hsegment, Option.bind_some, h.bind_descend?, h.descend?_eq_some_iff hfirst]
      simp [hsegment]
    · simp [hsegment, Ne.symm hsegment]

/-- One more record inside the last one. -/
theorem concat (name : String) :
    ((scope.add (.ofName name .record)).2.addChild ⟨rest.length⟩ ⟨rest.length + 1⟩).Nest first
      (rest ++ [name]) where
  frames := h.frames
  external := h.external
  declared := h.declared
  size := by simp [add, addChild, Graph.add, h.size]
  binding index wanted hwanted := by
    have hnew : scope.graph.nextId = ⟨rest.length + 1⟩ := by rw [Graph.nextId, h.size]
    have hgains := (scope.graph.push (.ofName name .record)).gains_addChild ⟨rest.length⟩
      ⟨rest.length + 1⟩
    have hlt := (List.getElem?_eq_some_iff.mp hwanted).1
    have hle : index ≤ rest.length + 1 := Nat.le_of_lt_succ (by simpa using hlt)
    have hid : (scope.graph.push (.ofName name .record)).contains ⟨index⟩ = true := by
      rw [Graph.contains_iff, Graph.size_push, h.size]
      exact Nat.lt_succ_of_le hle
    refine (hgains.binding ⟨index⟩ hid).trans ?_
    rw [Graph.targetsOf_singleton]
    by_cases hlast : index = rest.length + 1
    · -- The new record has no members.
      subst hlast
      obtain rfl : name = wanted := by simpa using hwanted
      rw [Graph.children, Graph.outputs, ← hnew, Graph.get_push_nextId, hnew]
      simp [Binding.ofName]
    · have hold : scope.graph.contains ⟨index⟩ = true := by
        rw [Graph.contains_iff, h.size]
        change index < rest.length + 1
        omega
      rw [← List.cons_append, List.getElem?_append_left (by simp; omega)] at hwanted
      rw [Graph.children, Graph.outputs, Graph.get_push_of_contains _ hold,
        h.binding index wanted hwanted]
      by_cases hparent : index = rest.length
      · subst hparent
        simp [appendNew_singleton, Binding.ofName]
      · have hinner : rest[index]? = (rest ++ [name])[index]? :=
          (List.getElem?_append_left (by omega)).symm
        simp [Ne.symm hparent, hinner, Binding.ofName]

end Nest

end Scope

/-! ### Dotted names in all states -/

namespace Walk

/-- Records of any names can be nested. -/
theorem exists_nest (first : String) (rest : List String) :
    ∃ session, Reachable .empty session ∧ session.scope.Nest first rest := by
  induction rest using List.reverseRecOn with
  | nil =>
    have hadded : Reachable .empty
        ((Operation.add first .record none none []).run (.ofSchema .empty)).2 :=
      .after _ .start ⟨Graph.holds_nil _, by simp [Operation.catalogs]⟩
    exact ⟨_, .after (.declareGlobal ⟨0⟩) hadded ⟨Graph.holds_singleton rfl,
      by simp [Operation.catalogs]⟩, Scope.nest_singleton first⟩
  | append_singleton rest name ih =>
    obtain ⟨session, hreachable, hnest⟩ := ih
    have hadded : Reachable .empty ((Operation.add name .record none none []).run session).2 :=
      .after _ hreachable ⟨Graph.holds_nil _, by simp [Operation.catalogs]⟩
    refine ⟨_, .after (.addChild ⟨rest.length⟩ ⟨rest.length + 1⟩) hadded
      ⟨?_, by simp [Operation.catalogs]⟩, hnest.concat name⟩
    have hsize : ((Operation.add name .record none none []).run session).2.scope.graph.size =
        rest.length + 2 :=
      (Graph.size_push _ _).trans (congrArg (· + 1) hnest.size)
    intro id hid
    rw [Graph.contains_iff, hsize]
    simp only [Operation.ids, List.mem_cons, List.not_mem_nil, or_false] at hid
    rcases hid with rfl | rfl <;> simp

/-- A dotted name means the same in all states as the name whose segments are folded one by one just
    where its qualifier, trimmed, cuts cleanly: no blank stands next to one of its dots, and no
    capital sigma changes its form because of what stands beyond a dot. The spelling of the last
    segment and of the ends of the qualifier does not matter. -/
theorem dotted_lookups_agree_iff (text : String) :
    (∀ schema session, Reachable schema session →
      session.scope.resolve? (.parse text) =
        session.scope.resolve? (.parse (Text.foldSegments text))) ↔
    ∀ qualifier ∈ (Text.splitLastDot text).1, Text.CutsCleanly (Text.trim qualifier.toList) := by
  simp only [← Text.fold_eq_foldSegments_iff]
  refine ⟨fun hagree qualifier hqualifier => ?_, fun hclean schema session _ => ?_⟩
  · obtain ⟨name, hsplit⟩ : ∃ name, Text.splitLastDot text = (some qualifier, name) :=
      ⟨_, Prod.ext hqualifier rfl⟩
    by_contra hdiffers
    obtain ⟨segment, path, hsegments⟩ := List.exists_cons_of_ne_nil (Text.segments_ne_nil qualifier)
    obtain ⟨session, hreachable, hnest⟩ := exists_nest segment (path ++ [name])
    have hfolded : Text.segments (Text.foldSegments qualifier) = (segment :: path).map fold := by
      rw [Text.segments_foldSegments, hsegments]
    -- Among records nested by the segments of the text, the folded name means the innermost one.
    have hmeans : session.scope.resolve? (.parse (Text.foldSegments text)) =
        some ⟨path.length + 1⟩ := by
      rw [QualifiedName.parse_foldSegments hsplit, QualifiedName.qualifiedBy,
        Text.fold_foldSegments, hfolded,
        if_neg (by simpa using Text.foldSegments_ne_empty hdiffers)]
      exact (hnest.resolve?_eq_some_iff _ _ _).mpr (by simp [QualifiedName.ofName])
    -- So does the name as it comes, which is possible only if its qualifier has the same segments.
    rw [← hagree _ session hreachable, QualifiedName.parse_of_splitLastDot hsplit,
      QualifiedName.qualifiedBy] at hmeans
    obtain ⟨segments, hsame⟩ : ∃ segments, segments =
        if (fold qualifier).isEmpty then [] else Text.segments (fold qualifier) := ⟨_, rfl⟩
    rw [← hsame] at hmeans
    obtain ⟨hleads, hlength⟩ := (hnest.resolve?_eq_some_iff segments (fold name) _).mp hmeans
    rw [BindingId.mk.injEq] at hlength
    have hwhole := hleads.eq_of_length (by rw [List.length_append, ← hlength]; simp)
    rw [← List.cons_append, List.map_append, ← hfolded] at hwhole
    rw [List.append_inj_left' hwhole rfl] at hsame
    split at hsame
    · exact Text.segments_ne_nil _ hsame
    · exact hdiffers (Text.segments_injective hsame.symm)
  · rw [QualifiedName.parse_eq_parse_foldSegments hclean]

/-- Capitals do not matter, nor do blanks around the last dot and around the whole. -/
theorem dotted_lookups_agree_sales :
    Text.CutsCleanly (Text.trim " Sales.ORDERS ".toList) ∧ ∃ session, Reachable .empty session ∧
      session.scope.resolve? (.parse " Sales.ORDERS . Total ") = some ⟨2⟩ := by
  have hclean : Text.CutsCleanly (Text.trim " Sales.ORDERS ".toList) := by
    refine ⟨by decide +kernel, fun before after hsigma => ?_⟩
    have hmem := List.mem_append_right before (List.mem_cons_self (a := 'Σ') (l := after))
    rw [← hsigma] at hmem
    exact absurd hmem (by decide +kernel)
  obtain ⟨session, hreachable, hnest⟩ := exists_nest "sales" ["orders", "total"]
  have hsplit : Text.splitLastDot " Sales.ORDERS . Total " =
      (some " Sales.ORDERS ", " Total ") := by decide +kernel
  have hagree :=
    (dotted_lookups_agree_iff " Sales.ORDERS . Total ").mpr (by simpa [hsplit] using hclean)
  have hfolded : QualifiedName.parse (Text.foldSegments " Sales.ORDERS . Total ") =
      ⟨["sales", "orders"], "total", none, false⟩ := by decide +kernel
  refine ⟨hclean, session, hreachable, ?_⟩
  rw [hagree _ session hreachable, hfolded, hnest.resolve?_eq_some_iff]
  exact ⟨by decide +kernel, rfl⟩

/-- Blanks around an inner dot do matter: among nested records, a name that is written with them
    means nothing, though folding its segments gives the name of the innermost record. -/
theorem spaced_segments_differ :
    Text.foldSegments "P . Q . X" = "p.q.x" ∧ ∃ session, Reachable .empty session ∧
      session.scope.resolve? (.parse "P . Q . X") = none ∧
      session.scope.resolve? (.parse "p.q.x") = some ⟨2⟩ := by
  obtain ⟨session, hreachable, hnest⟩ := exists_nest "p" ["q", "x"]
  have hspaced : QualifiedName.parse "P . Q . X" = ⟨["p ", " q"], "x", none, false⟩ := by
    decide +kernel
  have hfolded : QualifiedName.parse "p.q.x" = ⟨["p", "q"], "x", none, false⟩ := by decide +kernel
  refine ⟨by decide +kernel, session, hreachable, ?_, ?_⟩
  · rw [hspaced, Option.eq_none_iff_forall_ne_some]
    intro id hid
    have hleads := ((hnest.resolve?_eq_some_iff _ _ id).mp hid).1
    exact absurd hleads (by decide +kernel)
  · rw [hfolded, hnest.resolve?_eq_some_iff]
    exact ⟨by decide +kernel, rfl⟩

end Walk

end Lineage
