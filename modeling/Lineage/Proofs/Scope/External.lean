import Lineage.Proofs.Scope.Progress
import Lineage.Proofs.Scope.Schema

/-!
# The tables of the schema in later states

Each table of the schema has a binding from the start, with its columns as its first members. The
graph only grows and the names from outside stay what they are, so at any later time a name that the
schema resolves stands for the binding of that table.

## Key results

- `Relation.isAt_instantiate`: the binding of a table has its name, kind, type, comment and columns
- `Relation.IsAt.grow`: it keeps them
- `Scope.external?_of_resolve?`, `Scope.external?_eq_none`: what a name stands for from outside
-/

namespace Lineage

namespace Relation

/-- The binding stands for the table: it has the table's name, type and comment, and its first
    members are the table's columns. -/
structure IsAt (relation : Relation) (graph : Graph) (id : BindingId) : Prop where
  contains : graph.contains id = true
  name : graph.name id = fold relation.name
  kind : graph.kind id = .relation
  types : (graph.get id).types = [relation.type.tag]
  comment : (graph.get id).comment = relation.comment
  columns : (relation.columns.map fun column => fold column.name) <+:
    (graph.children id).map graph.name

variable {relation : Relation} {graph after : Graph} {id : BindingId}

theorem IsAt.grow (h : relation.IsAt graph id) (hwell : graph.WellFormed)
    (hgrows : graph.Grows after) : relation.IsAt after id := by
  have hextends := Graph.extends_of_grows hgrows
  have hbinding := hextends.binding id h.contains
  have hnames : (graph.children id).map after.name = (graph.children id).map graph.name :=
    List.map_congr_left fun child hchild => hgrows.name (hwell.children id child hchild)
  refine ⟨hgrows.contains h.contains, hbinding.name.trans h.name, hbinding.kind.trans h.kind,
    hbinding.types.trans h.types, (hextends.comment id h.contains (by simp)).trans h.comment, ?_⟩
  exact (hnames ▸ h.columns).trans (hbinding.children.map after.name)

/-- Columns become members in their order. -/
theorem names_addColumns {owner : BindingId} (columns : List Column) (hwell : graph.WellFormed)
    (howner : graph.contains owner = true) :
    ((columns.foldl (addColumn owner) graph).children owner).map
      (columns.foldl (addColumn owner) graph).name =
      (graph.children owner).map graph.name ++ columns.map fun column => fold column.name := by
  induction columns generalizing graph with
  | nil => simp
  | cons column rest ih =>
    have hcontains :
        (graph.push { Binding.ofName column.name .column with comment := column.comment }).contains
          owner = true :=
      (Graph.Grows.refl.push _).contains howner
    have hkept :
        (graph.push { Binding.ofName column.name .column with comment := column.comment }).children
          owner = graph.children owner := by
      rw [Graph.children, Graph.get_push_of_contains _ howner, Graph.children]
    -- The new binding is no member of anything yet.
    have hnew : graph.nextId ∉ graph.children owner := by
      intro hmem
      have hold := hwell.children owner graph.nextId hmem
      simp [Graph.contains, Graph.nextId] at hold
    have hgrows := grows_addColumn owner graph column
    have hchildren : (addColumn owner graph column).children owner = graph.children owner ++
        [graph.nextId] := by
      rw [← hkept]
      exact Graph.children_addChild hcontains (hkept ▸ hnew)
    have hname : (addColumn owner graph column).name graph.nextId = fold column.name := by
      refine ((Graph.Grows.refl.addChild owner graph.nextId).name
        (Graph.contains_push_nextId _ _)).trans ?_
      rw [Graph.name, Graph.get_push_nextId]
      rfl
    have hnames : (graph.children owner).map (addColumn owner graph column).name =
        (graph.children owner).map graph.name :=
      List.map_congr_left fun child hchild => hgrows.name (hwell.children owner child hchild)
    have hnext : (addColumn owner graph column).WellFormed :=
      wellFormed_addColumns owner [column] hwell
    rw [List.foldl_cons, ih hnext (hgrows.contains howner), hchildren,
      List.map_append, hnames, List.map_singleton, hname, List.append_assoc]
    rfl

theorem isAt_instantiate (relation : Relation) (hwell : graph.WellFormed) :
    relation.IsAt (relation.instantiate graph).2 (relation.instantiate graph).1 := by
  obtain ⟨hcontains, hname, hkind⟩ := relation.instantiate_spec graph
  have hnew := graph.contains_push_nextId
    { Binding.ofName relation.name .relation with
      comment := relation.comment
      types := [relation.type.tag] }
  -- The columns come after the relation, and leave what it was made with.
  have hextends := Graph.extends_of_grows (grows_addColumns graph.nextId relation.columns
    (graph.push { Binding.ofName relation.name .relation with
      comment := relation.comment
      types := [relation.type.tag] }))
  have hpushed : (graph.push { Binding.ofName relation.name .relation with
      comment := relation.comment
      types := [relation.type.tag] }).WellFormed := by
    refine hwell.push ?_
    exact { Binding.wellFormed_ofName graph relation.name .relation with }
  have hnames := names_addColumns relation.columns hpushed hnew
  refine ⟨hcontains, hname, hkind, ?_, ?_, ?_⟩
  · refine (hextends.binding _ hnew).types.trans ?_
    rw [Graph.get_push_nextId]
  · refine (hextends.comment _ hnew (by simp)).trans ?_
    rw [Graph.get_push_nextId]
  · -- A new relation has no members but its columns.
    have hnone : (graph.push { Binding.ofName relation.name .relation with
        comment := relation.comment
        types := [relation.type.tag] }).children graph.nextId = [] := by
      rw [Graph.children, Graph.get_push_nextId]
      rfl
    rw [hnone] at hnames
    exact ⟨[], (List.append_nil _).trans hnames.symm⟩

end Relation

namespace Schema

/-- An entry of the names from outside is that of a table. -/
def Entry (graph : Graph) (relation : Relation) (entry : String × BindingId) : Prop :=
  entry.1 = relation.name ∧ relation.IsAt graph entry.2

/-- The names from outside are those of the tables, in their order. -/
theorem entries_instantiate (schema : Schema) :
    List.Forall₂ (Entry (schema.instantiate .empty).2) schema.relations
      (schema.instantiate .empty).1 := by
  suffices hall : ∀ (rest done : List Relation) (known : List (String × BindingId)) (graph : Graph),
      graph.WellFormed → List.Forall₂ (Entry graph) done known →
      let result := rest.foldl (fun built relation =>
        (built.1 ++ [(relation.name, (relation.instantiate built.2).1)],
          (relation.instantiate built.2).2)) (known, graph)
      List.Forall₂ (Entry result.2) (done ++ rest) result.1 from
    hall schema.relations [] [] .empty Graph.wellFormed_empty .nil
  -- The tables that are done have their entries, and keep them while the graph grows.
  intro rest
  induction rest with
  | nil => simp
  | cons relation rest ih =>
    intro done known graph hwell hknown
    have hgrows := relation.grows_instantiate graph
    have hkept : List.Forall₂ (Entry (relation.instantiate graph).2) done known :=
      hknown.imp fun _ _ hentry => ⟨hentry.1, hentry.2.grow hwell hgrows⟩
    have hrest := ih (done ++ [relation])
      (known ++ [(relation.name, (relation.instantiate graph).1)]) (relation.instantiate graph).2
      (relation.wellFormed_instantiate hwell)
      (List.rel_append hkept (.cons ⟨rfl, relation.isAt_instantiate hwell⟩ .nil))
    rwa [List.append_assoc] at hrest

end Schema

namespace Scope

variable {schema : Schema} {scope : Scope} {name : String}

theorem lookup_of_entries {graph : Graph} {relations : List Relation}
    {entries : List (String × BindingId)} (h : List.Forall₂ (Schema.Entry graph) relations entries)
    (key : String) :
    (∀ relation, relations.find? (fun relation => relation.name == key) = some relation →
      ∃ id, entries.lookup key = some id ∧ relation.IsAt graph id) ∧
    (relations.find? (fun relation => relation.name == key) = none →
      entries.lookup key = none) := by
  induction h with
  | nil => simp
  | @cons relation entry relations entries hentry _ ih =>
    obtain ⟨known, id⟩ := entry
    obtain ⟨rfl, hat⟩ : known = relation.name ∧ relation.IsAt graph id := hentry
    by_cases hkey : relation.name = key
    · subst hkey
      simp [hat]
    · have hother : (key == relation.name) = false := by simpa using Ne.symm hkey
      have hnot : (relation.name == key) = false := by simpa using hkey
      simpa [List.lookup_cons, hother, hnot] using ih

/-- A name that the schema resolves stands for the binding of its table, at any later time. -/
theorem external?_of_resolve? (h : (ofSchema schema).Later scope) {relation : Relation}
    (hresolve : schema.resolve? name = some relation) :
    ∃ id, scope.external? name = some id ∧ relation.IsAt scope.graph id := by
  obtain ⟨id, hfound, hat⟩ :=
    (lookup_of_entries schema.entries_instantiate (fold name)).1 relation hresolve
  refine ⟨id, ?_, hat.grow (wellFormed_ofSchema schema).graph h.grows⟩
  rw [external?, h.external]
  exact hfound

/-- A name that the schema does not resolve stands for nothing from outside. -/
theorem external?_eq_none (h : (ofSchema schema).Later scope)
    (hresolve : schema.resolve? name = none) : scope.external? name = none := by
  rw [external?, h.external]
  exact (lookup_of_entries schema.entries_instantiate (fold name)).2 hresolve

end Scope

end Lineage
