import Lineage.Proofs.Scope.Columns
import Lineage.Proofs.Scope.Derivation
import Std.Data.String.ToNat

/-!
# The columns that an insert fills

An insert finds its columns by name among the members of its table, and adds those that are missing.
Without a list of names it takes the columns that the table is known to have or, if there are none,
makes up one for each position. All this adds to the graph, but no value flows yet.

## Key results

- `outputs_insertTarget`, `outputs_columnsNamed`: finding the columns lets no value flow
- `columnsNamed_names`: each name stands for the latest member of that name, or else for a new
  column
- `nodup_positionalColumns`: the columns made up for positions are different ones
-/

namespace Lineage

namespace Graph

variable {graph before after later : Graph} {parent : BindingId} {name : String}

/-! ### No value flows -/

/-- A binding without outputs adds none. -/
theorem outputs_push {binding : Binding} (h : binding.outputs = []) (id : BindingId) :
    (graph.push binding).outputs id = graph.outputs id := by
  by_cases hid : graph.contains id = true
  · rw [outputs, get_push_of_contains binding hid, outputs]
  · have hnone : graph.outputs id = [] := by
      rw [outputs, get_of_not_contains hid]
      rfl
    rw [hnone]
    by_cases hnew : (graph.push binding).contains id = true
    · rw [outputs, eq_nextId_of_push hnew (by simpa using hid), get_push_nextId, h]
    · rw [outputs, get_of_not_contains hnew]
      rfl

/-- What finding a member or adding it comes to. -/
theorem childOrInsert_cases (graph : Graph) (parent : BindingId) (name : String)
    (kind : Binding.Kind) :
    (∃ child, (graph.membersNamed parent (fold name)).getLast? = some child ∧
      graph.childOrInsert parent name kind = (child, graph)) ∨
    (graph.membersNamed parent (fold name) = [] ∧
      graph.childOrInsert parent name kind =
        (graph.nextId, (graph.push (.ofName name kind)).addChild parent graph.nextId)) := by
  cases hlast : (graph.membersNamed parent (fold name)).getLast? with
  | some child => exact .inl ⟨child, rfl, childOrInsert_of_getLast? hlast kind⟩
  | none =>
    refine .inr ⟨List.getLast?_eq_none_iff.mp hlast, ?_⟩
    rw [childOrInsert, childNamed?_eq, hlast]
    rfl

theorem outputs_childOrInsert (graph : Graph) (parent : BindingId) (name : String)
    (kind : Binding.Kind) (id : BindingId) :
    (graph.childOrInsert parent name kind).2.outputs id = graph.outputs id := by
  rcases graph.childOrInsert_cases parent name kind with ⟨child, _, heq⟩ | ⟨_, heq⟩ <;> rw [heq]
  rw [outputs_addChild, outputs_push rfl]

/-! ### The column of a name -/

/-- What a name in a list of columns stands for: the latest member that the table has by this name
    or, if it has none, a new column. -/
structure NamesColumn (table : BindingId) (before after : Graph) (name : String)
    (column : BindingId) : Prop where
  latest : ∀ member, (before.membersNamed table name).getLast? = some member → column = member
  new : before.membersNamed table name = [] → before.contains column = false ∧
    after.kind column = .column
  exists_after : after.contains column = true
  member : column ∈ after.children table
  named : after.name column = name

theorem mem_membersNamed {id : BindingId} :
    id ∈ graph.membersNamed parent name ↔ id ∈ graph.children parent ∧ graph.name id = name := by
  simp [membersNamed]

theorem namesColumn_childOrInsert (h : graph.WellFormed) (hparent : graph.contains parent = true)
    (name : String) :
    NamesColumn parent graph (graph.childOrInsert parent name .column).2 (fold name)
      (graph.childOrInsert parent name .column).1 := by
  rcases graph.childOrInsert_cases parent name .column with ⟨child, hlast, heq⟩ | ⟨hnone, heq⟩ <;>
      rw [heq]
  · obtain ⟨hmember, hname⟩ := mem_membersNamed.mp (List.mem_of_getLast? hlast)
    refine ⟨fun member hmem => Option.some.inj (hlast.symm.trans hmem), fun hnil => ?_, ?_,
      hmember, hname⟩
    · rw [hnil] at hlast
      cases hlast
    · exact h.children parent child hmember
  · have hpushed : (graph.push (.ofName name .column)).contains parent = true :=
      (Grows.refl.push _).contains hparent
    have hadded : ((graph.push (.ofName name .column)).addChild parent graph.nextId).contains
        graph.nextId = true :=
      (Grows.refl.addChild parent graph.nextId).contains (contains_push_nextId _ _)
    have hgrows : (graph.push (.ofName name .column)).Grows
        ((graph.push (.ofName name .column)).addChild parent graph.nextId) :=
          Grows.refl.addChild parent graph.nextId
    refine ⟨fun member hmem => ?_, fun _ => ⟨?_, ?_⟩, hadded, ?_, ?_⟩
    · rw [hnone] at hmem
      cases hmem
    · simp [contains, nextId]
    · rw [hgrows.kind (contains_push_nextId _ _), kind, get_push_nextId]
      rfl
    · -- The new binding is no member of anything yet.
      have hnew : graph.nextId ∉ (graph.push (.ofName name .column)).children parent := by
        rw [children, get_push_of_contains _ hparent]
        intro hmem
        have hcontains := h.children parent graph.nextId hmem
        simp [contains, nextId] at hcontains
      rw [children_addChild hpushed hnew]
      exact List.mem_append_right _ (List.mem_singleton_self _)
    · rw [hgrows.name (contains_push_nextId _ _), Graph.name, get_push_nextId]
      rfl

theorem NamesColumn.grow {table column : BindingId} (h : NamesColumn table before after name column)
    (hgrows : after.Grows later) (htable : after.contains table = true) :
    NamesColumn table before later name column where
  latest := h.latest
  new hnone := ⟨(h.new hnone).1, by rw [hgrows.kind h.exists_after, (h.new hnone).2]⟩
  exists_after := hgrows.contains h.exists_after
  member := ((extends_of_grows hgrows).binding table htable).children.subset h.member
  named := (hgrows.name h.exists_after).trans h.named

end Graph

namespace Scope

variable {scope : Scope} {table : BindingId}

theorem outputs_insertTarget (scope : Scope) (name : String) (id : BindingId) :
    (scope.insertTarget name).2.graph.outputs id = scope.graph.outputs id := by
  unfold insertTarget
  split
  · rfl
  · split
    · rfl
    · exact Graph.outputs_push rfl id

theorem outputs_columnsNamed (table : BindingId) (names : List String) (scope : Scope)
    (id : BindingId) :
    (columnsNamed table names scope).2.graph.outputs id = scope.graph.outputs id := by
  induction names generalizing scope with
  | nil => rfl
  | cons name rest ih =>
    simp only [columnsNamed, ih]
    exact Graph.outputs_childOrInsert _ _ _ _ _

@[simp] theorem length_columnsNamed (table : BindingId) (names : List String) (scope : Scope) :
    (columnsNamed table names scope).1.length = names.length := by
  induction names generalizing scope with
  | nil => rfl
  | cons name rest ih => simp only [columnsNamed, List.length_cons, ih]

/-- In a list of columns, each name stands for the latest member that the table has by this name
    when the names before it have been read, or else for a new column. -/
theorem columnsNamed_names (h : scope.WellFormed) (htable : scope.graph.contains table = true)
    {names : List String} {position : Nat} {name : String} (hname : names[position]? = some name) :
    ∃ column, (columnsNamed table names scope).1[position]? = some column ∧
      Graph.NamesColumn table (columnsNamed table (names.take position) scope).2.graph
        (columnsNamed table names scope).2.graph (fold name) column := by
  induction names generalizing scope position with
  | nil => simp at hname
  | cons first rest ih =>
    have hwell := (h.childOrInsert table first .column).1
    have hcontains : (scope.childOrInsert table first .column).2.graph.contains table = true :=
      (Graph.grows_childOrInsert _ _ _ _).contains htable
    cases position with
    | zero =>
      cases hname
      have hnamed := Graph.namesColumn_childOrInsert h.graph htable name
      have hgrows :=
        (learns_columnsNamed table rest (scope.childOrInsert table name .column).2).grows
      exact ⟨_, rfl, hnamed.grow hgrows hcontains⟩
    | succ position => exact ih hwell hcontains hname

/-- So the columns bear the names in the list, and they are members of the table. -/
theorem map_name_columnsNamed (h : scope.WellFormed) (htable : scope.graph.contains table = true)
    (names : List String) :
    (columnsNamed table names scope).1.map (columnsNamed table names scope).2.graph.name =
      names.map fold := by
  refine List.ext_getElem? fun position => ?_
  rw [List.getElem?_map, List.getElem?_map]
  cases hname : names[position]? with
  | none =>
    rw [List.getElem?_eq_none_iff] at hname
    rw [List.getElem?_eq_none (by simpa using hname)]
    rfl
  | some name =>
    obtain ⟨column, hcolumn, hnamed⟩ := columnsNamed_names h htable hname
    rw [hcolumn, Option.map_some, Option.map_some, hnamed.named]

theorem members_columnsNamed (h : scope.WellFormed) (htable : scope.graph.contains table = true)
    (names : List String) :
    ∀ column ∈ (columnsNamed table names scope).1, column ∈
      (columnsNamed table names scope).2.graph.children table := by
  intro column hcolumn
  obtain ⟨position, hposition⟩ := List.mem_iff_getElem?.mp hcolumn
  have hlt : position < names.length := by
    obtain ⟨hlt, _⟩ := List.getElem?_eq_some_iff.mp hposition
    simpa using hlt
  obtain ⟨other, hother, hnamed⟩ := columnsNamed_names h htable (List.getElem?_eq_getElem hlt)
  cases hposition.symm.trans hother
  exact hnamed.member

/-! ### Columns for positions -/

/-- The names of the columns that stand for positions. -/
def positionalNames (count : Nat) : List String :=
  (List.range count).map fun position => s!"[{position}]"

theorem toList_position (position : Nat) :
    (s!"[{position}]").toList = '[' :: (Nat.toDigits 10 position ++ [']']) := by
  have htext : s!"[{position}]" = "[" ++ position.repr ++ "]" := rfl
  rw [htext]
  simp [Nat.toList_repr]

/-- Brackets and digits are stored as they are written. -/
theorem fold_position (position : Nat) : fold s!"[{position}]" = s!"[{position}]" := by
  -- None of these characters changes when it is folded, and none is trimmed.
  have hcheck : ("[]0123456789".toList.all fun c =>
      (Text.lowerRuns.find? (·.contains c.toNat)).isNone && c != 'İ' && !Text.isBlank c) =
        true := by decide +kernel
  have hdigit : ∀ c : Char, c.isDigit = true → c ∈ "[]0123456789".toList := by
    intro c hc
    have hcodes : ∀ code < 58, 48 ≤ code → Char.ofNat code ∈ "[]0123456789".toList := by decide
    simp only [Char.isDigit, Bool.and_eq_true, decide_eq_true_eq] at hc
    have hcode : 48 ≤ c.toNat ∧ c.toNat ≤ 57 := hc
    rw [← Char.ofNat_toNat c]
    exact hcodes c.toNat (by omega) hcode.1
  have hplain : ∀ c ∈ (s!"[{position}]").toList, Text.Settled c ∧ Text.isBlank c = false := by
    intro c hc
    have hmem : c ∈ "[]0123456789".toList := by
      rw [toList_position] at hc
      rcases List.mem_cons.mp hc with rfl | hrest
      · decide
      · rcases List.mem_append.mp hrest with hdigits | hlast
        · exact hdigit c (Nat.isDigit_of_mem_toDigits (by omega) (by omega) hdigits)
        · rw [List.mem_singleton.mp hlast]
          decide
    have hc' := List.all_eq_true.mp hcheck c hmem
    simp only [Bool.and_eq_true, Option.isNone_iff_eq_none, bne_iff_ne, ne_eq,
      Bool.not_eq_true'] at hc'
    exact ⟨⟨hc'.1.1, hc'.1.2⟩, hc'.2⟩
  exact Text.Folded.fold_eq ⟨⟨fun c hc => (hplain c (List.mem_of_head? hc)).2,
    fun c hc => (hplain c (List.mem_of_getLast? hc)).2⟩, fun c hc => (hplain c hc).1⟩

theorem position_injective {first second : Nat} (h : s!"[{first}]" = s!"[{second}]") :
    first = second := by
  have hlist := congrArg String.toList h
  rw [toList_position, toList_position, List.cons.injEq] at hlist
  have hdigits := List.append_cancel_right hlist.2
  refine Nat.repr_injective (String.toList_injective ?_)
  rw [Nat.toList_repr, Nat.toList_repr, hdigits]

/-- The columns made up for positions are different ones. -/
theorem nodup_positionalColumns (h : scope.WellFormed) (htable : scope.graph.contains table = true)
    (count : Nat) : (columnsNamed table (positionalNames count) scope).1.Nodup := by
  refine List.Nodup.of_map (columnsNamed table (positionalNames count) scope).2.graph.name ?_
  rw [map_name_columnsNamed h htable, positionalNames, List.map_map]
  refine List.nodup_range.map fun first second hsame => position_injective ?_
  rw [← fold_position first, ← fold_position second]
  exact hsame

end Scope

end Lineage
