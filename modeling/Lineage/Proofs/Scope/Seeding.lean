import Mathlib.Data.List.Sort
import Lineage.Analyze
import Lineage.Proofs.Scope.Schema
import Lineage.Proofs.Text.Fold

/-!
# What a schema puts into a graph

A schema keeps one table for each folded name, the last one listed, in ascending order of the names.
A run starts with the bindings of these tables, one after the other: the table itself, and then its
columns, which are its members. So only the order of tables with the same folded name matters.

## Key results

- `Schema.mem_ofRelations`: which tables a schema keeps
- `Schema.eq_of_mem_iff`: schemas with the same tables are the same
- `Schema.ofRelations_of_reordered`: the order of tables with different names does not matter
- `Schema.instantiate_eq`: the bindings of a schema, and the index of each table
- `Scope.seeding_faithful`: what a run starts with
-/

namespace Lineage

/-! ### The bindings of tables -/

/-- The binding of a column. -/
def Column.binding (column : Column) : Binding :=
  { name := column.name, kind := .column, comment := column.comment, position := none, types := [],
    children := [], outputs := [] }

namespace Relation

/-- The bindings of a table with the given columns: its own one, which gets the given index, and
    those of its columns, which are its members. -/
def bindingsWith (index : Nat) (relation : Relation) (columns : List Column) : List Binding :=
  { name := relation.name, kind := .relation, comment := relation.comment, position := none,
    types := [relation.type.tag], children := (List.range' (index + 1) columns.length).map .mk,
    outputs := [] } :: columns.map Column.binding

/-- The bindings of a table, the first of which gets the given index. -/
def bindings (index : Nat) (relation : Relation) : List Binding :=
  relation.bindingsWith index relation.columns

/-- The bindings of tables one after the other, the first of which gets the given index. -/
def bindingsOfAll (index : Nat) : List Relation → List Binding
  | [] => []
  | relation :: rest =>
    relation.bindings index ++ bindingsOfAll (index + (relation.bindings index).length) rest

/-- The ids of tables by their names, if their bindings come one after the other from the
    given index on. -/
def placesOfAll (index : Nat) : List Relation → List (String × BindingId)
  | [] => []
  | relation :: rest =>
    (relation.name, ⟨index⟩) :: placesOfAll (index + (relation.bindings index).length) rest

variable {relation : Relation}

/-- A column of a folded table is folded. -/
theorem binding_of_folded (h : relation.folded = relation) {column : Column}
    (hcolumn : column ∈ relation.columns) :
    { Binding.ofName column.name .column with comment := column.comment } = column.binding := by
  obtain ⟨listed, hlisted, rfl⟩ : ∃ listed ∈ relation.columns,
      { listed with name := fold listed.name } = column := by
    rw [← h] at hcolumn
    exact List.mem_map.mp hcolumn
  simp [Binding.ofName, Column.binding]

/-- A change in the middle of a list. -/
private theorem modify_middle {α : Type} (front back : List α) (item : α) (change : α → α) :
    (front ++ item :: back).modify front.length change = front ++ change item :: back := by
  induction front with
  | nil => rfl
  | cons first rest ih => simpa using ih

/-- A new column comes after the others, in the graph and among the members of its table. -/
theorem addColumn_eq {front : List Binding} {columns : List Column} {column : Column}
    (hcolumn : { Binding.ofName column.name .column with comment := column.comment } =
      column.binding) :
    addColumn ⟨front.length⟩
      ⟨(front ++ relation.bindingsWith front.length columns).toArray⟩ column =
      ⟨(front ++ relation.bindingsWith front.length (columns ++ [column])).toArray⟩ := by
  simp only [addColumn, Graph.add, hcolumn]
  have hnext : Graph.nextId ⟨(front ++ relation.bindingsWith front.length columns).toArray⟩ =
      ⟨front.length + 1 + columns.length⟩ := by
    simp only [Graph.nextId, Graph.size, bindingsWith, List.size_toArray, List.length_append,
      List.length_cons, List.length_map, BindingId.mk.injEq]
    omega
  have hchildren : (Graph.push ⟨(front ++ relation.bindingsWith front.length columns).toArray⟩
      column.binding).children ⟨front.length⟩ =
        (List.range' (front.length + 1) columns.length).map .mk := by
    simp [Graph.push, Graph.children, Graph.get, bindingsWith]
  -- The members so far have smaller ids, so the new one is not among them.
  have hnew : ((List.range' (front.length + 1) columns.length).map BindingId.mk).contains
      ⟨front.length + 1 + columns.length⟩ = false := by
    simp [List.mem_range'_1]
  rw [Graph.addChild, hnext, hchildren, hnew]
  simp [Graph.push, Graph.update, bindingsWith, List.range'_concat, modify_middle]

/-- All columns of a table come after those that it has. -/
theorem addColumns_eq {front : List Binding} {known columns : List Column}
    (hcolumns : ∀ column ∈ columns,
      { Binding.ofName column.name .column with comment := column.comment } = column.binding) :
    columns.foldl (addColumn ⟨front.length⟩)
      ⟨(front ++ relation.bindingsWith front.length known).toArray⟩ =
      ⟨(front ++ relation.bindingsWith front.length (known ++ columns)).toArray⟩ := by
  induction columns generalizing known with
  | nil => simp
  | cons column rest ih =>
    obtain ⟨hcolumn, hrest⟩ := List.forall_mem_cons.mp hcolumns
    rw [List.foldl_cons, addColumn_eq hcolumn, ih hrest, List.append_assoc, List.singleton_append]

/-- A folded table is added behind what is there, with all its columns. -/
theorem instantiate_eq (front : List Binding) (h : relation.folded = relation) :
    relation.instantiate ⟨front.toArray⟩ =
      (⟨front.length⟩, ⟨(front ++ relation.bindings front.length).toArray⟩) := by
  have hname : fold relation.name = relation.name := congrArg Relation.name h
  have hstart : Graph.push ⟨front.toArray⟩ { Binding.ofName relation.name .relation with
      comment := relation.comment
      types := [relation.type.tag] } =
        ⟨(front ++ relation.bindingsWith front.length []).toArray⟩ := by
    simp [Graph.push, Binding.ofName, bindingsWith, hname]
  have hcolumns : ∀ column ∈ relation.columns, _ := fun column hcolumn =>
    binding_of_folded h hcolumn
  have hnext : Graph.nextId ⟨front.toArray⟩ = ⟨front.length⟩ := rfl
  simp only [instantiate, Graph.add, hnext, hstart, addColumns_eq hcolumns,
    List.nil_append, bindings]

/-- The id of a name is the index at which the bindings of the first table with this name begin. -/
theorem exists_of_lookup_placesOfAll {index : Nat} {relations : List Relation} {name : String}
    {id : BindingId} (h : (placesOfAll index relations).lookup name = some id) :
    ∃ before relation after, relations = before ++ relation :: after ∧
      relations.find? (·.name == name) = some relation ∧
      id.index = index + (bindingsOfAll index before).length := by
  induction relations generalizing index with
  | nil => cases h
  | cons relation rest ih =>
    rw [placesOfAll, List.lookup_cons] at h
    split at h
    · next hname =>
      obtain rfl : ⟨index⟩ = id := Option.some.inj h
      refine ⟨[], relation, rest, rfl, ?_, rfl⟩
      simp only [List.find?_cons, Bool.beq_comm, hname]
    · next hname =>
      -- The bindings of the first table come before those of the one that is found.
      obtain ⟨before, found, after, hsplit, hfound, hindex⟩ := ih h
      refine ⟨relation :: before, found, after, by rw [hsplit]; rfl, ?_, ?_⟩
      · simp only [List.find?_cons, Bool.beq_comm, hname]
        simpa only [Bool.beq_comm] using hfound
      · rw [bindingsOfAll, List.length_append, hindex]
        omega

theorem isSome_lookup_placesOfAll (index : Nat) (relations : List Relation) (name : String) :
    ((placesOfAll index relations).lookup name).isSome =
      (relations.find? (·.name == name)).isSome := by
  induction relations generalizing index with
  | nil => rfl
  | cons relation rest ih =>
    rw [placesOfAll, List.lookup_cons, List.find?_cons, Bool.beq_comm]
    split
    · rfl
    · exact ih _

end Relation

namespace Schema

/-- The tables of a schema are folded. -/
theorem folded_of_mem (schema : Schema) {table : Relation} (h : table ∈ schema.relations) :
    table.folded = table := by
  obtain ⟨listed, rfl⟩ := schema.folded table h
  simp [Relation.folded]

/-- The bindings of the tables come one after the other. -/
theorem instantiate_eq (schema : Schema) :
    schema.instantiate .empty =
      (Relation.placesOfAll 0 schema.relations,
        ⟨(Relation.bindingsOfAll 0 schema.relations).toArray⟩) := by
  have h : ∀ relation ∈ schema.relations, relation.folded = relation :=
    fun _ => schema.folded_of_mem
  have hfold : ∀ known (front : List Binding), schema.relations.foldl
      (fun state relation =>
        (state.1 ++ [(relation.name, (relation.instantiate state.2).1)],
          (relation.instantiate state.2).2))
      (known, ⟨front.toArray⟩) =
      (known ++ Relation.placesOfAll front.length schema.relations,
        ⟨(front ++ Relation.bindingsOfAll front.length schema.relations).toArray⟩) := by
    generalize schema.relations = relations at h
    induction relations with
    | nil => simp [Relation.placesOfAll, Relation.bindingsOfAll]
    | cons relation rest ih =>
      obtain ⟨hrelation, hrest⟩ := List.forall_mem_cons.mp h
      intro known front
      simp only [List.foldl_cons, Relation.instantiate_eq front hrelation]
      rw [ih hrest, List.length_append]
      simp [Relation.placesOfAll, Relation.bindingsOfAll]
  exact hfold [] []

/-! ### The tables that count -/

/-- The last listed table with a folded name. -/
def lastNamed? (relations : List Relation) (name : String) : Option Relation :=
  relations.reverse.find? fun relation => fold relation.name == name

theorem lastNamed?_append (relations : List Relation) (relation : Relation) (name : String) :
    lastNamed? (relations ++ [relation]) name =
      if fold relation.name = name then some relation else lastNamed? relations name := by
  simp only [lastNamed?, List.reverse_append, List.reverse_singleton, List.singleton_append,
    List.find?_cons]
  by_cases hname : fold relation.name = name
  · simp [hname]
  · simp only [beq_false_of_ne hname, if_neg hname]

/-- A table takes its place among others and replaces the one of the same name. -/
theorem mem_insert {relation other : Relation} {known : List Relation}
    (h : known.Pairwise fun first second => first.name < second.name) :
    other ∈ insert relation known ↔ other = relation ∨ other ∈ known ∧
    other.name ≠ relation.name := by
  induction known with
  | nil => simp [insert]
  | cons first rest ih =>
    obtain ⟨hfirst, hrest⟩ := List.pairwise_cons.mp h
    unfold insert
    split
    · next hlt =>
      -- All others have greater names.
      have hne : ∀ table ∈ first :: rest, table.name ≠ relation.name := by
        intro table htable hsame
        rcases List.mem_cons.mp htable with rfl | hmem
        · exact String.lt_irrefl _ (hsame ▸ hlt)
        · exact String.lt_irrefl _ (hsame ▸ String.lt_trans hlt (hfirst table hmem))
      rw [List.mem_cons]
      exact or_congr_right ⟨fun hmem => ⟨hmem, hne other hmem⟩, And.left⟩
    · split
      · next hsame =>
        have hne : ∀ table ∈ rest, table.name ≠ relation.name := fun table htable heq =>
          String.lt_irrefl _ (heq ▸ hsame ▸ hfirst table htable)
        rw [List.mem_cons, List.mem_cons]
        refine or_congr_right ⟨fun hmem => ⟨.inr hmem, hne other hmem⟩, fun ⟨hmem, hother⟩ => ?_⟩
        exact hmem.resolve_left fun heq => hother (heq ▸ hsame.symm)
      · next hne =>
        rw [List.mem_cons, ih hrest, List.mem_cons]
        constructor
        · rintro (rfl | rfl | ⟨hmem, hother⟩)
          · exact .inr ⟨.inl rfl, fun heq => hne heq.symm⟩
          · exact .inl rfl
          · exact .inr ⟨.inr hmem, hother⟩
        · rintro (rfl | ⟨rfl | hmem, hother⟩)
          · exact .inr (.inl rfl)
          · exact .inl rfl
          · exact .inr (.inr ⟨hmem, hother⟩)

theorem ofRelations_append (relations : List Relation) (relation : Relation) :
    ofRelations (relations ++ [relation]) = (ofRelations relations).add relation := by
  simp [ofRelations]

/-- Each table of a schema is the last one listed with its name. -/
theorem mem_ofRelations {relations : List Relation} {table : Relation} :
    table ∈ (ofRelations relations).relations ↔
      (lastNamed? relations table.name).map Relation.folded = some table := by
  induction relations using List.reverseRecOn with
  | nil => simp [ofRelations, empty, lastNamed?]
  | append_singleton relations relation ih =>
    rw [ofRelations_append, add, mem_insert (ofRelations relations).ascending, ih,
      lastNamed?_append]
    have hfolded : relation.folded.name = fold relation.name := rfl
    by_cases hname : fold relation.name = table.name
    · simp [hname, hfolded, eq_comm]
    · have hne : table ≠ relation.folded := fun hsame => hname (hsame ▸ rfl)
      simp [hname, hne, hfolded, Ne.symm hname]

/-- Schemas with the same tables are the same, since their order is given by their names. -/
theorem eq_of_mem_iff {schema other : Schema}
    (h : ∀ table, table ∈ other.relations ↔ table ∈ schema.relations) : other = schema := by
  have hantisymm : Std.Antisymm fun first second : Relation => first.name < second.name :=
    ⟨fun _ _ hlt hgt => absurd (String.lt_trans hlt hgt) (String.lt_irrefl _)⟩
  have hirrefl : Std.Irrefl fun first second : Relation => first.name < second.name :=
    ⟨fun _ => String.lt_irrefl _⟩
  have hrelations : other.relations = schema.relations :=
    other.ascending.eq_of_mem_iff schema.ascending fun table => h table
  cases schema
  cases other
  cases hrelations
  rfl

/-- The second list holds the tables of the first one in an order in which those of one folded name
    follow each other as before. -/
structure Reordered (relations others : List Relation) : Prop where
  perm : others.Perm relations
  keeps : ∀ name, (others.filter fun relation => fold relation.name = name) =
    relations.filter fun relation => fold relation.name = name

/-- The last table of a name depends on the tables of this name only. -/
theorem lastNamed?_eq_getLast? (relations : List Relation) (name : String) :
    lastNamed? relations name =
      (relations.filter fun relation => fold relation.name = name).getLast? := by
  rw [lastNamed?, ← List.head?_filter, List.filter_reverse, List.head?_reverse]
  simp only [beq_eq_decide]

/-- The order of tables with different names does not matter. -/
theorem ofRelations_of_reordered {relations others : List Relation}
    (h : Reordered relations others) : ofRelations others = ofRelations relations := by
  have hlast : ∀ name, lastNamed? others name = lastNamed? relations name := fun name => by
    rw [lastNamed?_eq_getLast?, lastNamed?_eq_getLast?, h.keeps]
  exact eq_of_mem_iff fun table => by rw [mem_ofRelations, mem_ofRelations, hlast]

end Schema

namespace Scope

/-- A run over listed tables starts with one table for each folded name, in ascending order of the
    names, and this is the last one listed with its name. The bindings of the tables come one after
    the other, that of the table before those of its columns, which are its members. A name stands
    for a table from outside if and only if the schema resolves it, and then for the binding of that
    table. Listing tables of different names in another order changes nothing. -/
theorem seeding_faithful (relations : List Relation) :
    let schema := Schema.ofRelations relations
    let scope := ofSchema schema
    (schema.relations.Pairwise fun first second => first.name < second.name) ∧
    (∀ table, table ∈ schema.relations ↔
      (Schema.lastNamed? relations table.name).map Relation.folded = some table) ∧
    scope.graph.bindings.toList = Relation.bindingsOfAll 0 schema.relations ∧
    (∀ name, (scope.external? name).isSome = (schema.resolve? name).isSome ∧
      ∀ id table, scope.external? name = some id → schema.resolve? name = some table →
        ∃ before after, schema.relations = before ++ table :: after ∧ table.name = fold name ∧
          id.index = (Relation.bindingsOfAll 0 before).length) ∧
    ∀ others, Schema.Reordered relations others →
      ofSchema (.ofRelations others) = scope ∧
      ∀ tree dialect, analyze tree dialect (.ofRelations others) = analyze tree dialect schema := by
  intro schema scope
  have hscope := schema.instantiate_eq
  have hgraph : scope.graph = ⟨(Relation.bindingsOfAll 0 schema.relations).toArray⟩ :=
    congrArg Prod.snd hscope
  have hexternal : scope.root.external = Relation.placesOfAll 0 schema.relations :=
    congrArg Prod.fst hscope
  refine ⟨schema.ascending, fun _ => Schema.mem_ofRelations, by rw [hgraph],
    fun name => ⟨?_, fun id table hid htable => ?_⟩, fun others h => ?_⟩
  · rw [external?, hexternal]
    exact Relation.isSome_lookup_placesOfAll 0 schema.relations (fold name)
  · rw [external?, hexternal] at hid
    obtain ⟨before, found, after, hsplit, hfound, hindex⟩ :=
      Relation.exists_of_lookup_placesOfAll hid
    obtain rfl : found = table := Option.some.inj (hfound.symm.trans htable)
    have hname : (found.name == fold name) = true := by simpa using List.find?_some hfound
    rw [Nat.zero_add] at hindex
    exact ⟨before, after, hsplit, eq_of_beq hname, hindex⟩
  · rw [Schema.ofRelations_of_reordered h]
    exact ⟨rfl, fun _ _ => rfl⟩

/-- A table that is listed in two spellings. -/
def firstSpelling : Relation := ⟨"T", .table, none, [⟨"X", none⟩]⟩

def secondSpelling : Relation := ⟨" t ", .view, some "current", []⟩

def otherTable : Relation := ⟨"Other", .view, none, []⟩

/-- A table between two spellings of another one may be listed before both, and of the two the
    second one counts. -/
theorem seeding_faithful_twoSpellings :
    Schema.Reordered [firstSpelling, otherTable, secondSpelling]
      [otherTable, firstSpelling, secondSpelling] ∧
    ofSchema (.ofRelations [otherTable, firstSpelling, secondSpelling]) =
      ofSchema (.ofRelations [firstSpelling, otherTable, secondSpelling]) ∧
    secondSpelling.folded ∈
      (Schema.ofRelations [firstSpelling, otherTable, secondSpelling]).relations := by
  have hfirst : fold firstSpelling.name = "t" := by decide +kernel
  have hsecond : fold secondSpelling.name = "t" := by decide +kernel
  have hother : fold otherTable.name = "other" := by decide +kernel
  have hreordered :
      Schema.Reordered [firstSpelling, otherTable, secondSpelling]
        [otherTable, firstSpelling, secondSpelling] := by
    refine ⟨.swap _ _ _, fun name => ?_⟩
    by_cases hname : name = "t"
    · simp [List.filter_cons, hname, hfirst, hother]
    · have hne : "t" ≠ name := fun hsame => hname hsame.symm
      simp [List.filter_cons, hfirst, hsecond, hother, hne]
  obtain ⟨-, hmem, -, -, horder⟩ := seeding_faithful [firstSpelling, otherTable, secondSpelling]
  refine ⟨hreordered, (horder _ hreordered).1, (hmem _).mpr ?_⟩
  have hname : secondSpelling.folded.name = "t" := hsecond
  simp [hname, Schema.lastNamed?, hsecond]

end Scope

end Lineage
