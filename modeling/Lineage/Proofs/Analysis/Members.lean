import Mathlib.Algebra.GroupWithZero.Nat
import Lineage.Analysis.Members
import Lineage.Proofs.Analysis.Closure

/-!
# Which bindings belong to the roots

`preorder` works on a stack that may hold a binding several times, and it finds out only when it
takes a binding from the stack whether that one is new. `Traversal` is the walk that this amounts
to, told without a stack: a new binding comes first, then its members and all that is below them,
then what stands to its right. The stack can be cut anywhere, so what lies on top of it is walked
through before the rest, and the two agree on every graph, whatever its members share and however
they lead back.

## Key results

- `Traversal.unique`, `Traversal.nodup`, `Traversal.mem_iff`: a walk is determined by its lists,
  visits nothing twice, and visits what members lead to
- `Unseen.exists_traversal`: what is on top of the stack is walked through before the rest of it
- `sum_countByKind`: the counts of the kinds add up
- `bindings_walked`: what `bindings` and `countByKind` list
-/

namespace Lineage

/-- The second binding is a member of the first one. -/
def Graph.HasMember (graph : Graph) (owner id : BindingId) : Prop :=
  id ∈ graph.children owner

namespace Analysis

/-! ### Walks -/

/-- A walk from left to right through the listed bindings. What was seen before is passed over;
    any other binding is visited, and then what is below it, before the walk goes on to the
    right. The lists are the bindings seen before, the listed ones, and the visited ones in the
    order of the walk. -/
inductive Traversal (children : BindingId → List BindingId) :
    List BindingId → List BindingId → List BindingId → Prop where
  | done (seen : List BindingId) : Traversal children seen [] []
  | pass {seen rest order : List BindingId} {id : BindingId} :
      id ∈ seen → Traversal children seen rest order → Traversal children seen (id :: rest) order
  | visit {seen rest below after : List BindingId} {id : BindingId} :
      id ∉ seen → Traversal children (seen ++ [id]) (children id) below →
      Traversal children (seen ++ id :: below) rest after →
      Traversal children seen (id :: rest) (id :: below ++ after)

variable {children : BindingId → List BindingId} {seen unseen listed order all : List BindingId}
  {id : BindingId}

namespace Traversal

/-- What was seen and what is listed decide what is visited, and in which order. -/
theorem unique {other : List BindingId} (h : Traversal children seen listed order)
    (hother : Traversal children seen listed other) : order = other := by
  induction h generalizing other with
  | done seen =>
    cases hother
    rfl
  | pass hseen _ ih =>
    cases hother with
    | pass _ hrest => exact ih hrest
    | visit hnew => exact absurd hseen hnew
  | visit hnew _ _ ihbelow ihafter =>
    cases hother with
    | pass hseen => exact absurd hseen hnew
    | visit _ hbelow hafter =>
      obtain rfl := ihbelow hbelow
      rw [ihafter hafter]

/-- Nothing is visited twice, and nothing that was seen before. -/
theorem nodup (h : Traversal children seen listed order) :
    order.Nodup ∧ ∀ id ∈ order, id ∉ seen := by
  induction h with
  | done seen => simp
  | pass _ _ ih => exact ih
  | visit hnew _ _ ihbelow ihafter =>
    -- What is below differs from the binding, and what comes after differs from both.
    obtain ⟨hbelow, hbelowNew⟩ := ihbelow
    obtain ⟨hafter, hafterNew⟩ := ihafter
    constructor
    · rw [List.nodup_append, List.nodup_cons]
      refine ⟨⟨fun hmem => hbelowNew _ hmem (by simp), hbelow⟩, hafter, ?_⟩
      rintro early hearly late hlate rfl
      exact hafterNew early hlate (List.mem_append_right _ hearly)
    · intro other hother hseen
      rcases List.mem_append.mp hother with hearly | hlate
      · rcases List.mem_cons.mp hearly with rfl | hmem
        · exact hnew hseen
        · exact hbelowNew other hmem (List.mem_append_left _ hseen)
      · exact hafterNew other hlate (List.mem_append_left _ hseen)

/-- After the walk everything listed has been seen, and so have the members of all
    that was visited. -/
theorem closed (h : Traversal children seen listed order) :
    (∀ id ∈ listed, id ∈ seen ++ order) ∧ ∀ id ∈ order, ∀ child ∈ children id, child ∈
      seen ++ order := by
  induction h with
  | done seen => simp
  | pass hseen _ ih =>
    refine ⟨?_, ih.2⟩
    rw [List.forall_mem_cons]
    exact ⟨List.mem_append_left _ hseen, ih.1⟩
  | @visit seen rest below after id hnew _ _ ihbelow ihafter =>
    obtain ⟨hmembers, hbelow⟩ := ihbelow
    obtain ⟨hrest, hafter⟩ := ihafter
    -- What was seen when the walk left the members has been seen in the end.
    have hgrow : ∀ other ∈ seen ++ [id] ++ below, other ∈ seen ++ (id :: below ++ after) := by
      intro other hother
      simp only [List.mem_append, List.mem_cons, List.not_mem_nil, or_false] at hother ⊢
      tauto
    have hsame : seen ++ id :: below ++ after = seen ++ (id :: below ++ after) :=
      List.append_assoc ..
    rw [hsame] at hrest hafter
    constructor
    · rw [List.forall_mem_cons]
      exact ⟨by simp, hrest⟩
    · intro other hother child hchild
      rcases List.mem_append.mp hother with hearly | hlate
      · rcases List.mem_cons.mp hearly with rfl | hmem
        · exact hgrow child (hmembers child hchild)
        · exact hgrow child (hbelow other hmem child hchild)
      · exact hafter other hlate child hchild

/-- Members lead from what is listed to all that is visited. -/
theorem reached (h : Traversal children seen listed order) :
    ∀ id ∈ order, ∃ start ∈ listed, Relation.ReflTransGen (Follows children) start id := by
  induction h with
  | done seen => simp
  | pass _ _ ih =>
    intro id hid
    obtain ⟨start, hstart, hway⟩ := ih id hid
    exact ⟨start, List.mem_cons_of_mem _ hstart, hway⟩
  | visit _ _ _ ihbelow ihafter =>
    intro other hother
    -- What comes first is below the visited one; what comes later was listed after it.
    rcases List.mem_append.mp hother with hearly | hlate
    · refine ⟨_, List.mem_cons_self, ?_⟩
      rcases List.mem_cons.mp hearly with rfl | hmem
      · exact .refl
      · obtain ⟨start, hstart, hway⟩ := ihbelow other hmem
        exact hway.head hstart
    · obtain ⟨start, hstart, hway⟩ := ihafter other hlate
      exact ⟨start, List.mem_cons_of_mem _ hstart, hway⟩

/-- A walk that has seen nothing before visits just what members lead to from what is listed. -/
theorem mem_iff (h : Traversal children [] listed order) :
    id ∈ order ↔ ∃ start ∈ listed, Relation.ReflTransGen (Follows children) start id := by
  refine ⟨h.reached id, ?_⟩
  rintro ⟨start, hstart, hway⟩
  obtain ⟨hlisted, hmembers⟩ := h.closed
  induction hway with
  | refl => exact hlisted start hstart
  | tail _ hchild ih => exact hmembers _ ih _ hchild

end Traversal

/-! ### The stack -/

/-- Of all bindings, the unseen ones are those that have not been seen. -/
structure Unseen (all seen unseen : List BindingId) : Prop where
  nodup : unseen.Nodup
  mem_iff : ∀ id ∈ all, id ∈ unseen ↔ id ∉ seen

namespace Unseen

theorem initial (h : all.Nodup) : Unseen all [] all :=
  ⟨h, fun _ hid => by simpa using hid⟩

/-- A binding is seen. -/
theorem see (h : Unseen all seen unseen) (id : BindingId) :
    Unseen all (seen ++ [id]) (unseen.erase id) where
  nodup := h.nodup.erase id
  mem_iff other hother := by
    rw [h.nodup.mem_erase_iff, h.mem_iff other hother, List.mem_append, List.mem_singleton, not_or]
    exact and_comm

/-- What lies on top of the stack is walked through before the rest of it. The walk through the
    members of a new binding and the walk through what stands to its right both start with fewer
    unseen bindings than there were. -/
theorem exists_traversal (hmembers : ∀ id, ∀ child ∈ children id, child ∈ all)
    (h : Unseen all seen unseen) (hlisted : ∀ id ∈ listed, id ∈ all) :
    ∃ order left, Traversal children seen listed order ∧ Unseen all (seen ++ order) left ∧
      left.length ≤ unseen.length ∧
      ∀ stack, preorder children unseen (listed ++ stack) = order ++
      preorder children left stack := by
  induction hcount : unseen.length using Nat.strongRecOn generalizing seen unseen listed with
  | ind count ihcount =>
    -- A binding that was seen before leaves the count as it is, so the listed ones need an
    -- induction of their own.
    induction listed with
    | nil => exact ⟨[], unseen, .done seen, by simpa using h, by omega, fun stack => rfl⟩
    | cons id rest ihrest =>
      obtain ⟨hid, hrest⟩ := List.forall_mem_cons.mp hlisted
      by_cases hnew : id ∈ unseen
      · have hpos := List.length_pos_of_mem hnew
        have hfewer := List.length_erase_of_mem hnew
        obtain ⟨below, middle, hbelow, hmiddle, hmiddleLength, hbelowStack⟩ :=
          ihcount (unseen.erase id).length (by omega) (h.see id) (hmembers id) rfl
        rw [List.append_assoc, List.singleton_append] at hmiddle
        obtain ⟨after, left, hafter, hleft, hleftLength, hafterStack⟩ :=
          ihcount middle.length (by omega) hmiddle hrest rfl
        refine ⟨id :: below ++ after, left, .visit ((h.mem_iff id hid).mp hnew) hbelow hafter, ?_,
          by omega, fun stack => ?_⟩
        · rwa [List.append_assoc] at hleft
        · rw [List.cons_append, preorder, if_pos hnew, hbelowStack, hafterStack]
          simp
      · obtain ⟨order, left, horder, hleft, hlength, hstack⟩ := ihrest hrest
        have hseen : id ∈ seen := by
          by_contra hnot
          exact hnew ((h.mem_iff id hid).mpr hnot)
        refine ⟨order, left, .pass hseen horder, hleft, hlength, fun stack => ?_⟩
        rw [List.cons_append, preorder, if_neg hnew, hstack]

end Unseen

/-- The stack goes through a graph as the walk does. -/
theorem traversal_preorder (hnodup : all.Nodup)
    (hmembers : ∀ id, ∀ child ∈ children id, child ∈ all) (hlisted : ∀ id ∈ listed, id ∈ all) :
    Traversal children [] listed (preorder children all listed) := by
  obtain ⟨order, left, horder, -, -, hstack⟩ :=
    (Unseen.initial hnodup).exists_traversal hmembers hlisted
  have hall := hstack []
  rw [List.append_nil, preorder, List.append_nil] at hall
  rwa [hall]

/-! ### Counts -/

/-- The kinds that occur, in their fixed order, each with the number of bindings of that kind. -/
theorem countByKind_eq (analysis : Analysis) :
    analysis.countByKind =
      (Binding.Kind.all.filter (· ∈ analysis.bindings.map analysis.graph.kind)).map fun kind =>
        (kind, (analysis.bindings.map analysis.graph.kind).count kind) := by
  have hcount : ∀ kind, (analysis.bindings.countP fun id => analysis.graph.kind id == kind) =
      (analysis.bindings.map analysis.graph.kind).count kind := by
    intro kind
    rw [List.count_eq_countP, List.countP_map]
    rfl
  have hoccurs : ∀ kind, decide (0 < (analysis.bindings.map analysis.graph.kind).count kind) =
      decide (kind ∈ analysis.bindings.map analysis.graph.kind) := fun kind =>
    decide_eq_decide.mpr List.count_pos_iff
  simp only [countByKind, hcount, List.filter_map, Function.comp_def, hoccurs]

theorem nodup_kinds : Binding.Kind.all.Nodup := by
  decide

theorem mem_kinds (kind : Binding.Kind) : kind ∈ Binding.Kind.all := by
  cases kind <;> decide

/-- No kind is missing and none comes twice, so the counts add up. -/
theorem sum_countByKind (analysis : Analysis) :
    (analysis.countByKind.map Prod.snd).sum = analysis.bindings.length := by
  have hperm : (Binding.Kind.all.filter (· ∈ analysis.bindings.map analysis.graph.kind)).Perm
      (analysis.bindings.map analysis.graph.kind).dedup := by
    rw [List.perm_ext_iff_of_nodup (nodup_kinds.filter _) (List.nodup_dedup _)]
    intro kind
    simp [mem_kinds]
  calc (analysis.countByKind.map Prod.snd).sum
      = ((Binding.Kind.all.filter (· ∈ analysis.bindings.map analysis.graph.kind)).map
          (analysis.bindings.map analysis.graph.kind).count).sum := by
        rw [countByKind_eq, List.map_map]
        rfl
    _ = ((analysis.bindings.map analysis.graph.kind).dedup.map
        (analysis.bindings.map analysis.graph.kind).count).sum :=
        (hperm.map _).sum_eq
    _ = (analysis.bindings.map analysis.graph.kind).length := List.sum_map_count_dedup_eq_length _
    _ = analysis.bindings.length := List.length_map _

/-- In a graph whose roots and members exist, `bindings` lists what the walk from left to right
    through the roots visits, in its order: each binding once, and just those that members lead to
    from a root. There is one such walk, also where members are shared or lead back to their owners
    and where roots are repeated. The kinds of these bindings are counted in the fixed order of the
    kinds, each kind that occurs once, and the counts add up to the number of bindings. -/
theorem bindings_walked (analysis : Analysis) (hroots : analysis.graph.Holds analysis.roots)
    (hmembers : ∀ id, analysis.graph.Holds (analysis.graph.children id)) :
    (∀ order, Traversal analysis.graph.children [] analysis.roots order ↔
      order = analysis.bindings) ∧
    analysis.bindings.Nodup ∧
    (∀ id, id ∈ analysis.bindings ↔ ∃ root ∈ analysis.roots,
      Relation.ReflTransGen analysis.graph.HasMember root id) ∧
    (analysis.countByKind =
      (Binding.Kind.all.filter (· ∈ analysis.bindings.map analysis.graph.kind)).map fun kind =>
        (kind, (analysis.bindings.map analysis.graph.kind).count kind)) ∧
    (analysis.countByKind.map Prod.fst).Nodup ∧
    (analysis.countByKind.map Prod.snd).sum = analysis.bindings.length := by
  have hwalk : Traversal analysis.graph.children [] analysis.roots analysis.bindings :=
    traversal_preorder analysis.graph.nodup_ids
      (fun id child hchild => Graph.mem_ids.mpr (hmembers id child hchild)) fun id hid =>
        Graph.mem_ids.mpr (hroots id hid)
  refine ⟨fun order => ⟨fun horder => horder.unique hwalk, ?_⟩, hwalk.nodup.1,
    fun id => hwalk.mem_iff, countByKind_eq analysis, ?_, sum_countByKind analysis⟩
  · rintro rfl
    exact hwalk
  · rw [countByKind_eq, List.map_map]
    simpa [Function.comp_def] using nodup_kinds.filter _

/-- A package with two members, of which the first has the other and the package itself for members,
    and the other one is its own member. A table stands apart. The routine and the package are
    roots, the routine twice. -/
def knot : Analysis :=
  .ofGraph ⟨#[{ Binding.ofName "p" .package with children := [⟨1⟩, ⟨2⟩] },
    { Binding.ofName "f" .routine with children := [⟨2⟩, ⟨0⟩] },
    { Binding.ofName "g" .routine with children := [⟨2⟩] }, .ofName "t" .relation]⟩ [⟨1⟩, ⟨0⟩, ⟨1⟩]

/-- The roots and members of `knot` exist. The walk starts at the routine that is the first
    root and goes on to its two members; it finds nothing new after that, and so does not come
    to the table. -/
theorem bindings_walked_knot :
    knot.graph.Holds knot.roots ∧ (∀ id, knot.graph.Holds (knot.graph.children id)) ∧
    knot.bindings = [⟨1⟩, ⟨2⟩, ⟨0⟩] ∧
    ¬(∃ root ∈ knot.roots, Relation.ReflTransGen knot.graph.HasMember root ⟨3⟩) ∧
    knot.countByKind = [(.package, 1), (.routine, 2)] := by
  have hroots : knot.graph.Holds knot.roots := by
    have hall : ∀ id ∈ knot.roots, knot.graph.contains id = true := by decide
    exact hall
  have hmembers : ∀ id, knot.graph.Holds (knot.graph.children id) := by
    intro id
    by_cases hcontains : knot.graph.contains id = true
    · have hall : ∀ id ∈ knot.graph.ids, ∀ child ∈ knot.graph.children id,
          knot.graph.contains child = true := by
        decide
      exact hall id (Graph.mem_ids.mpr hcontains)
    · rw [Graph.children, Graph.get_of_not_contains hcontains]
      exact Graph.holds_nil _
  obtain ⟨hwalk, -, hreached, hcounts, -, -⟩ := bindings_walked knot hroots hmembers
  have hbindings : knot.bindings = [⟨1⟩, ⟨2⟩, ⟨0⟩] := by
    refine ((hwalk [⟨1⟩, ⟨2⟩, ⟨0⟩]).mp ?_).symm
    -- Below the first root stand its two members, and what they lead to has been seen.
    have hself : Traversal knot.graph.children [⟨1⟩, ⟨2⟩] [⟨2⟩] [] := .pass (by decide) (.done _)
    have hback : Traversal knot.graph.children [⟨1⟩, ⟨2⟩, ⟨0⟩] [⟨1⟩, ⟨2⟩] [] :=
      .pass (by decide) (.pass (by decide) (.done _))
    have hlast := Traversal.visit (show (⟨0⟩ : BindingId) ∉ [⟨1⟩, ⟨2⟩] by decide) hback (.done _)
    have hbelow := Traversal.visit (show (⟨2⟩ : BindingId) ∉ [⟨1⟩] by decide) hself hlast
    have hrest : Traversal knot.graph.children [⟨1⟩, ⟨2⟩, ⟨0⟩] [⟨0⟩, ⟨1⟩] [] :=
      .pass (by decide) (.pass (by decide) (.done _))
    exact Traversal.visit (show (⟨1⟩ : BindingId) ∉ [] by decide) hbelow hrest
  refine ⟨hroots, hmembers, hbindings, ?_, ?_⟩
  · rw [← hreached, hbindings]
    decide
  · rw [hcounts, hbindings]
    decide

end Analysis

end Lineage
