import Lineage.Proofs.Scope.Schema
import Lineage.Proofs.Scope.Progress
import Lineage.Proofs.Text.Fold

/-!
# One table for each name

A table becomes global as a table of the schema that is used for the first time, as the placeholder
of a table that nobody knows, or as the qualifier of a dotted name. Each of these looks first for a
table that goes by the name already, though each in an order of its own. So at the outermost level
all tables of one name are one binding, and that binding is what references to the name give.

## Key results

- `Tables.table`, `Tables.insertTarget`, `Tables.dottedReference`: references keep the tables of one
  name the same
- `Tables.table_known`, `Tables.insertTarget_known`, `Tables.referenceHead_known`: they give the
  table of the name, unless an inner level gives another meaning to it
-/

namespace Lineage.Scope

/-- The global tables with the exact name, first to last. -/
def tablesNamed (scope : Scope) (name : String) : List BindingId :=
  scope.globals.filter fun id => (scope.graph.kind id).isSource && scope.graph.name id == name

/-- All that goes by the exact name as a table at the outermost level: the table of the schema and
    the global tables. -/
def tablesKnown (scope : Scope) (name : String) : List BindingId :=
  (scope.root.external.lookup name).toList ++ scope.tablesNamed name

/-- The global declarations and the tables of the schema exist under their names, and at the
    outermost level all tables of one name are the same. -/
structure Tables (scope : Scope) : Prop where
  globals : scope.root.catalog.WellFormed scope.graph
  external : ∀ entry ∈ scope.root.external, scope.graph.contains entry.2 = true ∧
    scope.graph.kind entry.2 = .relation ∧ scope.graph.name entry.2 = fold entry.1
  agree : ∀ name, ∀ first ∈ scope.tablesKnown name, ∀ second ∈ scope.tablesKnown name,
    first = second

/-- The inner levels give the exact name no meaning other than that of a table known at the
    outermost level. -/
def Unshadowed (scope : Scope) (name : String) : Prop :=
  ∀ frame ∈ scope.frames, ∀ accepts id, frame.resolve? scope.graph name accepts = some id →
    id ∈ scope.tablesKnown name

variable {scope after : Scope} {name : String} {id : BindingId}

theorem mem_tablesNamed : id ∈ scope.tablesNamed name ↔
    id ∈ scope.globals ∧ (scope.graph.kind id).isSource = true ∧ scope.graph.name id = name := by
  simp [tablesNamed]

theorem mem_tablesKnown : id ∈ scope.tablesKnown name ↔
    scope.root.external.lookup name = some id ∨ id ∈ scope.tablesNamed name := by
  simp [tablesKnown]

/-- At the outermost level a table can be known under a name in two ways. -/
theorem tablesKnown_eq_nil (hexternal : scope.root.external.lookup name = none)
    (hnamed : ∀ id ∈ scope.globals, scope.graph.name id = name →
      (scope.graph.kind id).isSource = false) :
    scope.tablesKnown name = [] := by
  refine List.eq_nil_iff_forall_not_mem.mpr fun id hid => ?_
  rcases mem_tablesKnown.mp hid with hfound | hmem
  · rw [hexternal] at hfound
    cases hfound
  · obtain ⟨hglobal, hsource, hname⟩ := mem_tablesNamed.mp hmem
    rw [hnamed id hglobal hname] at hsource
    cases hsource

/-- Only relations and records are tables. -/
theorem not_isSource {kind : Binding.Kind} (hrelation : kind ≠ .relation)
    (hrecord : kind ≠ .record) : kind.isSource = false := by
  cases kind <;> simp_all [Binding.Kind.isSource]

theorem name_add (scope : Scope) (binding : Binding) :
    (scope.add binding).2.graph.name scope.graph.nextId = binding.name :=
  congrArg Binding.name (scope.graph.get_push_nextId binding)

theorem kind_add (scope : Scope) (binding : Binding) :
    (scope.add binding).2.graph.kind scope.graph.nextId = binding.kind :=
  congrArg Binding.kind (scope.graph.get_push_nextId binding)

/-! ### Looking names up -/

theorem resolve?_ofName (scope : Scope) (name : String) :
    scope.resolve? (.ofName name) = scope.resolvePlain? false (fold name) fun _ => true := rfl

theorem declaredOfKind?_eq (scope : Scope) (name : String) (kind : Binding.Kind) :
    scope.declaredOfKind? name kind = scope.resolvePlain? true (fold name) (kind == ·) := rfl

/-- A plain name is looked up in the inner levels, among the global declarations, and
    in the schema. -/
theorem resolvePlain?_cases {localOnly : Bool} {accepts : Binding.Kind → Bool}
    (h : scope.resolvePlain? localOnly name accepts = some id) :
    (∃ frame ∈ scope.frames, frame.resolve? scope.graph name accepts = some id) ∨
      scope.root.catalog.lookup? scope.graph name accepts = some id ∨
      scope.external? name = some id := by
  simp only [resolvePlain?] at h
  split at h
  · next declared hdeclared =>
    rw [← Option.some.inj h]
    rcases Option.or_eq_some_iff.mp hdeclared with hlevel | ⟨_, hglobal⟩
    · exact .inl (List.exists_of_findSome?_eq_some hlevel)
    · exact .inr (.inl hglobal)
  · split at h
    · cases h
    · exact .inr (.inr (Option.filter_eq_some_iff.mp h).1)

/-- A name without a meaning is not declared globally. -/
theorem lookup?_of_resolvePlain?_none {localOnly : Bool} {accepts : Binding.Kind → Bool}
    (h : scope.resolvePlain? localOnly name accepts = none) :
    scope.root.catalog.lookup? scope.graph name accepts = none := by
  simp only [resolvePlain?] at h
  split at h
  · cases h
  · next hnone => exact (Option.or_eq_none_iff.mp hnone).2

/-- A name without any meaning does not occur in the schema. -/
theorem external?_of_resolve?_none (h : scope.resolve? (.ofName name) = none) :
    scope.root.external.lookup (fold name) = none := by
  rw [resolve?_ofName] at h
  simp only [resolvePlain?] at h
  split at h
  · cases h
  · have hnone : scope.external? (fold name) = none := by
      rw [Option.eq_none_iff_forall_ne_some]
      simpa using h
    rwa [external?, fold_fold] at hnone

namespace Tables

variable (h : scope.Tables)

include h

/-- A table of the schema is known under its name. -/
theorem of_external? (hfound : scope.external? name = some id) :
    scope.graph.contains id = true ∧ scope.graph.kind id = .relation ∧
    scope.graph.name id = fold name ∧
      id ∈ scope.tablesKnown (fold name) := by
  obtain ⟨front, back, heq, _⟩ := List.lookup_eq_some_iff.mp hfound
  have hentry : (fold name, id) ∈ scope.root.external := by
    rw [heq]
    simp
  obtain ⟨hcontains, hkind, hname⟩ := h.external _ hentry
  exact ⟨hcontains, hkind, hname.trans (fold_fold name), mem_tablesKnown.mpr (.inl hfound)⟩

/-- Where no record and no relation is found and the schema has no table of the name,
    none is known. -/
theorem tablesKnown_eq_nil (hrecord : scope.declaredOfKind? name .record = none)
    (hrelation : scope.declaredOfKind? name .relation = none)
    (hexternal : scope.external? name = none) : scope.tablesKnown (fold name) = [] := by
  refine Scope.tablesKnown_eq_nil hexternal fun id hid hname => ?_
  -- A global declaration of this name would have been found by the lookup of its own kind.
  have hnot : ∀ kind, scope.declaredOfKind? name kind = none → scope.graph.kind id ≠ kind := by
    intro kind hnone
    rw [declaredOfKind?_eq, ← hname] at hnone
    have hrejected := h.globals.not_accepts_of_lookup? hid (lookup?_of_resolvePlain?_none hnone)
    exact fun hkind => by simp [hkind] at hrejected
  exact not_isSource (hnot .relation hrelation) (hnot .record hrecord)

/-- Where a name has no meaning at all, no table is known by it. -/
theorem tablesKnown_eq_nil_of_resolve? (hnone : scope.resolve? (.ofName name) = none) :
    scope.tablesKnown (fold name) = [] := by
  refine Scope.tablesKnown_eq_nil (external?_of_resolve?_none hnone) fun id hid hname => ?_
  -- The lookup accepts every kind, so it cannot miss a global declaration of the name.
  rw [resolve?_ofName, ← hname] at hnone
  cases h.globals.not_accepts_of_lookup? hid (lookup?_of_resolvePlain?_none hnone)

/-- What an unshadowed name means is the table known by it, if it is a table. -/
theorem of_resolvePlain? (hplain : scope.Unshadowed (fold name)) {localOnly : Bool}
    {accepts : Binding.Kind → Bool}
    (hfound : scope.resolvePlain? localOnly (fold name) accepts = some id)
    (hsource : accepts (scope.graph.kind id) = true → (scope.graph.kind id).isSource = true) :
    id ∈ scope.tablesKnown (fold name) := by
  rcases resolvePlain?_cases hfound with ⟨frame, hframe, hresolve⟩ | hglobal | hexternal
  · exact hplain frame hframe accepts id hresolve
  · -- What is declared globally may be of any kind; only a table is known as one.
    obtain ⟨hmem, hname, haccepts⟩ := h.globals.of_lookup? hglobal
    exact mem_tablesKnown.mpr (.inr (mem_tablesNamed.mpr ⟨hmem, hsource haccepts, hname⟩))
  · have hknown := (h.of_external? hexternal).2.2.2
    rwa [fold_fold] at hknown

theorem of_declaredOfKind? (hplain : scope.Unshadowed (fold name)) {kind : Binding.Kind}
    (hkind : kind.isSource = true) (hfound : scope.declaredOfKind? name kind = some id) :
    id ∈ scope.tablesKnown (fold name) := by
  refine h.of_resolvePlain? hplain ((declaredOfKind?_eq scope name kind).symm.trans hfound)
    fun haccepts => ?_
  rwa [← eq_of_beq haccepts]

/-! ### Steps -/

/-- The global tables stay as they are when the graph grows. -/
theorem tablesNamed_of_grows (hgrows : scope.graph.Grows after.graph)
    (hroot : after.root = scope.root) (name : String) :
    after.tablesNamed name = scope.tablesNamed name := by
  unfold tablesNamed Scope.globals
  rw [hroot]
  refine List.filter_congr fun id hid => ?_
  have hcontains := h.globals.holds id hid
  rw [hgrows.kind hcontains, hgrows.name hcontains]

theorem tablesKnown_of_grows (hgrows : scope.graph.Grows after.graph)
    (hroot : after.root = scope.root) (name : String) :
    after.tablesKnown name = scope.tablesKnown name := by
  rw [tablesKnown, h.tablesNamed_of_grows hgrows hroot, hroot]
  rfl

/-- A step that leaves the root alone. -/
theorem of_root (hgrows : scope.graph.Grows after.graph) (hroot : after.root = scope.root) :
    after.Tables where
  globals := by
    rw [hroot]
    exact h.globals.grow hgrows
  external entry hentry := by
    rw [hroot] at hentry
    obtain ⟨hcontains, hkind, hname⟩ := h.external entry hentry
    exact ⟨hgrows.contains hcontains, (hgrows.kind hcontains).trans hkind,
      (hgrows.name hcontains).trans hname⟩
  agree name := by
    rw [h.tablesKnown_of_grows hgrows hroot]
    exact h.agree name

/-- Declaring a binding at the root, if it is no table or the only one known by its name. -/
theorem declareGlobal (hid : scope.graph.contains id = true)
    (hsame : (scope.graph.kind id).isSource = true →
      ∀ other ∈ scope.tablesKnown (scope.graph.name id), other = id) :
    (scope.declareGlobal id).Tables where
  globals := h.globals.add hid
  external := h.external
  agree name := by
    -- What is known afterwards was known before, or is the declared table itself under its own
    -- name.
    have hmem : ∀ other ∈ (scope.declareGlobal id).tablesKnown name, other ∈
        scope.tablesKnown name ∨
        (other = id ∧ (scope.graph.kind id).isSource = true ∧ scope.graph.name id = name) := by
      intro other hother
      rcases mem_tablesKnown.mp hother with hexternal | hnamed
      · exact .inl (mem_tablesKnown.mpr (.inl hexternal))
      · obtain ⟨hglobal, hsource, hname⟩ := mem_tablesNamed.mp hnamed
        rcases Catalog.mem_order_add.mp hglobal with hold | rfl
        · exact .inl (mem_tablesKnown.mpr (.inr (mem_tablesNamed.mpr ⟨hold, hsource, hname⟩)))
        · exact .inr ⟨rfl, hsource, hname⟩
    intro first hfirst second hsecond
    rcases hmem first hfirst with hold | ⟨rfl, hsource, rfl⟩
    · rcases hmem second hsecond with hold' | ⟨rfl, hsource, rfl⟩
      · exact h.agree name first hold second hold'
      · exact hsame hsource first hold
    · rcases hmem second hsecond with hold' | ⟨rfl, _, _⟩
      · exact (hsame hsource second hold').symm
      · rfl

/-- A table of the schema becomes global. -/
theorem declareExternal (hfound : scope.external? name = some id) :
    (scope.declareGlobal id).Tables := by
  obtain ⟨hcontains, _, hname, hknown⟩ := h.of_external? hfound
  -- It was known before as the schema's table, so every other one known by its name is the same.
  refine h.declareGlobal hcontains fun _ other hother => ?_
  rw [hname] at hother
  exact h.agree _ other hother id hknown

theorem add (binding : Binding) : (scope.add binding).2.Tables :=
  h.of_root (.push binding .refl) rfl

/-- Declaring a binding that is no table. -/
theorem declare (hid : scope.graph.contains id = true)
    (hkind : (scope.graph.kind id).isSource = false) : (scope.declare id).Tables := by
  unfold Scope.declare
  split
  · next hdeclare => exact h.of_root (grows_of_declareAmong? hdeclare) rfl
  · exact h.declareGlobal hid fun hsource => by simp [hkind] at hsource

theorem declareNew {binding : Binding} (hkind : binding.kind.isSource = false) :
    (scope.declareNew binding).2.Tables := by
  refine (h.add binding).declare (scope.graph.contains_push_nextId binding) ?_
  rwa [kind_add]

/-- A new global table, if none is known by its name. -/
theorem declareNewGlobal (kind : Binding.Kind) (hnone : scope.tablesKnown (fold name) = []) :
    (scope.declareNewGlobal (.ofName name kind)).2.Tables := by
  refine (h.add (.ofName name kind)).declareGlobal (scope.graph.contains_push_nextId _)
    fun _ other hother => ?_
  have hgrows : scope.graph.Grows (scope.add (.ofName name kind)).2.graph := .push _ .refl
  rw [name_add, h.tablesKnown_of_grows hgrows rfl] at hother
  rw [show scope.tablesKnown (Binding.ofName name kind).name = [] from hnone] at hother
  cases hother

/-! ### References -/

theorem childOrInsert (parent : BindingId) (name : String) (kind : Binding.Kind) :
    (scope.childOrInsert parent name kind).2.Tables :=
  h.of_root (Graph.grows_childOrInsert _ parent name kind) rfl

theorem reference (name : String) : (scope.reference name).2.Tables := by
  unfold Scope.reference
  split
  · exact h
  · split
    · exact h.childOrInsert _ name .field
    · exact h.declareNew rfl

theorem referenceHead (name : String) : (scope.referenceHead name).2.Tables := by
  unfold Scope.referenceHead
  split
  · exact h
  · next hnone => exact h.declareNewGlobal .record (h.tablesKnown_eq_nil_of_resolve? hnone)

theorem memberChain (names : List String) (current : BindingId) :
    (Scope.memberChain names current scope).2.Tables := by
  induction names generalizing scope current with
  | nil => exact h
  | cons name rest ih => exact ih (h.childOrInsert current name .field) _

theorem dottedReference (qualifiers : List String) (name : String) :
    (scope.dottedReference qualifiers name).2.Tables := by
  cases qualifiers with
  | nil => exact h.reference name
  | cons head rest => exact (h.referenceHead head).memberChain _ _

theorem table (name : String) : (scope.table name).2.Tables := by
  unfold Scope.table
  split
  · exact h
  · next hrecord =>
    split
    · next hexternal => exact h.declareExternal hexternal
    · next hexternal =>
      split
      · exact h
      · -- All three lookups have failed, so the new record is the only table of its name.
        next hrelation =>
          exact h.declareNewGlobal .record (h.tablesKnown_eq_nil hrecord hrelation hexternal)

theorem insertTarget (name : String) : (scope.insertTarget name).2.Tables := by
  unfold Scope.insertTarget
  split
  · next hexternal => exact h.declareExternal hexternal
  · next hexternal =>
    split
    · exact h
    · next hnone =>
      obtain ⟨hrelation, hrecord⟩ := Option.or_eq_none_iff.mp hnone
      exact h.declareNewGlobal .relation (h.tablesKnown_eq_nil hrecord hrelation hexternal)

theorem columnsNamed (table : BindingId) (names : List String) :
    (Scope.columnsNamed table names scope).2.Tables := by
  induction names generalizing scope with
  | nil => exact h
  | cons name rest ih => exact ih (h.childOrInsert table name .column)

/-! ### What references give -/

omit h in
/-- A new global table is known by its name. -/
theorem known_declareNewGlobal (scope : Scope) (name : String) {kind : Binding.Kind}
    (hkind : kind.isSource = true) :
    (scope.declareNewGlobal (.ofName name kind)).1 ∈
      (scope.declareNewGlobal (.ofName name kind)).2.tablesKnown (fold name) := by
  refine mem_tablesKnown.mpr
    (.inr (mem_tablesNamed.mpr ⟨Catalog.mem_order_add.mpr (.inr rfl), ?_, ?_⟩))
  · have hnew := kind_add scope (.ofName name kind)
    exact (congrArg Binding.Kind.isSource hnew).trans hkind
  · exact name_add scope (.ofName name kind)

theorem table_known (hplain : scope.Unshadowed (fold name)) :
    (scope.table name).1 ∈ (scope.table name).2.tablesKnown (fold name) := by
  unfold Scope.table
  split
  · next hfound => exact h.of_declaredOfKind? hplain rfl hfound
  · split
    · next hexternal => exact mem_tablesKnown.mpr (.inl hexternal)
    · split
      · next hfound => exact h.of_declaredOfKind? hplain rfl hfound
      · exact known_declareNewGlobal scope name rfl

theorem insertTarget_known (hplain : scope.Unshadowed (fold name)) :
    (scope.insertTarget name).1 ∈ (scope.insertTarget name).2.tablesKnown (fold name) := by
  unfold Scope.insertTarget
  split
  · next hexternal => exact mem_tablesKnown.mpr (.inl hexternal)
  · split
    · next hfound =>
      rcases Option.or_eq_some_iff.mp hfound with hrelation | ⟨_, hrecord⟩
      · exact h.of_declaredOfKind? hplain rfl hrelation
      · exact h.of_declaredOfKind? hplain rfl hrecord
    · exact known_declareNewGlobal scope name rfl

/-- The qualifier of a dotted name need not be a table. -/
theorem referenceHead_known (hplain : scope.Unshadowed (fold name))
    (hsource : ((scope.referenceHead name).2.graph.kind (scope.referenceHead name).1).isSource =
      true) :
    (scope.referenceHead name).1 ∈ (scope.referenceHead name).2.tablesKnown (fold name) := by
  unfold Scope.referenceHead at hsource ⊢
  split at hsource
  · next hfound =>
      exact h.of_resolvePlain? hplain ((resolve?_ofName scope name).symm.trans hfound)
        fun _ => hsource
  · exact known_declareNewGlobal scope name rfl

/-! ### Global tables -/

/-- At most one global table has a given name. -/
theorem length_tablesNamed (name : String) : (scope.tablesNamed name).length ≤ 1 := by
  have hnodup : (scope.tablesNamed name).Nodup := h.globals.nodup.filter _
  have hsame : ∀ first ∈ scope.tablesNamed name, ∀ second ∈ scope.tablesNamed name,
      first = second :=
    fun first hfirst second hsecond =>
      h.agree name first (mem_tablesKnown.mpr (.inr hfirst)) second
        (mem_tablesKnown.mpr (.inr hsecond))
  rcases hlist : scope.tablesNamed name with _ | ⟨first, _ | ⟨second, rest⟩⟩
  · simp
  · simp
  · -- The first two would be the same table, but none is listed twice.
    rw [hlist] at hnodup hsame
    have hne : first ≠ second := by
      rintro rfl
      simp at hnodup
    exact absurd (hsame first (by simp) second (by simp)) hne

/-- A table that is known stays known. -/
theorem tablesKnown_subset (hlater : scope.Later after) (name : String) :
    scope.tablesKnown name ⊆ after.tablesKnown name := by
  intro id hid
  rcases mem_tablesKnown.mp hid with hexternal | hnamed
  · exact mem_tablesKnown.mpr (.inl (by rw [hlater.external]; exact hexternal))
  · obtain ⟨hglobal, hsource, hname⟩ := mem_tablesNamed.mp hnamed
    have hcontains := h.globals.holds id hglobal
    refine mem_tablesKnown.mpr (.inr (mem_tablesNamed.mpr ⟨hlater.globals.subset hglobal, ?_, ?_⟩))
    · rwa [hlater.grows.kind hcontains]
    · rwa [hlater.grows.name hcontains]

end Tables

/-- At the start no table is global, and those of the schema are known by their names. -/
theorem tables_ofSchema (schema : Schema) : (ofSchema schema).Tables where
  globals := Catalog.wellFormed_empty _
  external := by
    -- By induction on the relations of the schema: later ones only add to the graph.
    refine schema.instantiate_induction .empty
      (P := fun known graph => ∀ entry ∈ known, graph.contains entry.2 = true ∧
        graph.kind entry.2 = .relation ∧ graph.name entry.2 = fold entry.1) (by simp) ?_
    intro known graph relation hknown entry hentry
    have hgrows := relation.grows_instantiate graph
    rcases List.mem_append.mp hentry with hold | hnew
    · obtain ⟨hcontains, hkind, hname⟩ := hknown entry hold
      exact ⟨hgrows.contains hcontains, (hgrows.kind hcontains).trans hkind,
        (hgrows.name hcontains).trans hname⟩
    · rw [List.mem_singleton.mp hnew]
      obtain ⟨hcontains, hname, hkind⟩ := relation.instantiate_spec graph
      exact ⟨hcontains, hkind, hname⟩
  agree name first hfirst second hsecond := by
    -- A lookup in the schema gives one table at most.
    have hnone : (ofSchema schema).tablesNamed name = [] := rfl
    rw [mem_tablesKnown, hnone] at hfirst hsecond
    simp only [List.not_mem_nil, or_false] at hfirst hsecond
    exact Option.some.inj (hfirst.symm.trans hsecond)

end Lineage.Scope
