import Lineage.Proofs.Scope.WellFormed

/-!
# The scope of a schema

A run starts with the tables of a schema: each is a binding of its own, with its columns as members.
This scope is well-formed.

## Key results

- `Relation.instantiate_spec`: the binding of a relation is there, with its name and kind
- `Schema.instantiate_induction`: what is kept by each further table holds of all of them
- `Scope.wellFormed_ofSchema`: the scope outside of everything is well-formed
-/

namespace Lineage

/-! ### Tables of the schema -/

namespace Relation

theorem grows_addColumn (owner : BindingId) (graph : Graph) (column : Column) :
    graph.Grows (addColumn owner graph column) :=
  (Graph.Grows.refl.push _).addChild owner _

theorem grows_addColumns (owner : BindingId) (columns : List Column) (graph : Graph) :
    graph.Grows (columns.foldl (addColumn owner) graph) := by
  induction columns generalizing graph with
  | nil => exact .refl
  | cons column rest ih => exact (grows_addColumn owner graph column).trans (ih _)

theorem wellFormed_addColumns (owner : BindingId) (columns : List Column) {graph : Graph}
    (h : graph.WellFormed) : (columns.foldl (addColumn owner) graph).WellFormed := by
  induction columns generalizing graph with
  | nil => exact h
  | cons column rest ih =>
    refine ih ((h.push ?_).addChild owner (graph.contains_push_nextId _))
    exact { Binding.wellFormed_ofName graph column.name .column with }

theorem grows_instantiate (relation : Relation) (graph : Graph) :
    graph.Grows (relation.instantiate graph).2 :=
  (Graph.Grows.refl.push _).trans (grows_addColumns _ _ _)

/-- The binding of a relation is there, with its name and kind. -/
theorem instantiate_spec (relation : Relation) (graph : Graph) :
    (relation.instantiate graph).2.contains (relation.instantiate graph).1 = true ∧
      (relation.instantiate graph).2.name (relation.instantiate graph).1 = fold relation.name ∧
      (relation.instantiate graph).2.kind (relation.instantiate graph).1 = .relation := by
  have hgrows := grows_addColumns graph.nextId relation.columns
    (graph.push { Binding.ofName relation.name .relation with
      comment := relation.comment
      types := [relation.type.tag] })
  have hnew := graph.contains_push_nextId
    { Binding.ofName relation.name .relation with
      comment := relation.comment
      types := [relation.type.tag] }
  refine ⟨hgrows.contains hnew, ?_, ?_⟩
  · refine (hgrows.name hnew).trans ?_
    -- The columns come after the relation, and leave its name and its kind.
    rw [Graph.name, Graph.get_push_nextId]
    rfl
  · refine (hgrows.kind hnew).trans ?_
    rw [Graph.kind, Graph.get_push_nextId]
    rfl

theorem wellFormed_instantiate (relation : Relation) {graph : Graph} (h : graph.WellFormed) :
    (relation.instantiate graph).2.WellFormed := by
  refine wellFormed_addColumns _ _ (h.push ?_)
  exact { Binding.wellFormed_ofName graph relation.name .relation with }

end Relation

namespace Schema

/-- The schema of one table. -/
def oneTable (name : String) (columns : List String) : Schema :=
  .ofRelations [⟨name, .table, none, columns.map (⟨·, none⟩)⟩]

/-- What holds of the tables known so far and the graph, and is kept by each further table,
    holds of all. -/
theorem instantiate_induction (schema : Schema) (graph : Graph)
    {P : List (String × BindingId) → Graph → Prop} (hstart : P [] graph)
    (hstep : ∀ known graph (relation : Relation), P known graph →
      P (known ++ [(relation.name, (relation.instantiate graph).1)])
        (relation.instantiate graph).2) :
    P (schema.instantiate graph).1 (schema.instantiate graph).2 :=
  List.foldlRecOn (motive := fun result : List (String × BindingId) × Graph => P result.1 result.2)
    schema.relations _ hstart fun (known, graph) h relation _ => hstep known graph relation h

end Schema

namespace Scope

/-- The scope outside of everything is well-formed. -/
theorem wellFormed_ofSchema (schema : Schema) : (ofSchema schema).WellFormed := by
  -- The invariant of the loop over the tables: the graph is well-formed, and the known ids exist.
  have hschema := schema.instantiate_induction .empty
    (P := fun known graph => graph.WellFormed ∧ graph.Holds (known.map Prod.snd))
    ⟨Graph.wellFormed_empty, Graph.holds_nil _⟩ fun known graph relation ⟨hgraph, hknown⟩ => by
      refine ⟨relation.wellFormed_instantiate hgraph, ?_⟩
      rw [List.map_append]
      exact (hknown.grow (relation.grows_instantiate graph)).append
        (Graph.holds_singleton (relation.instantiate_spec graph).1)
  exact ⟨hschema.1, Catalog.wellFormed_empty _, hschema.2, by simp [ofSchema]⟩

end Scope

end Lineage
