import Lineage.Proofs.Graph.Edges
import Lineage.Proofs.Graph.WellFormed

/-!
# Catalogs over a growing graph

A catalog keeps what was declared twice over: in a list, and in an index by name that is filled with
the names of the bindings at the time of their declaration. The graph goes on growing between
declarations and lookups. Names never change, so the index says what a search through the list would
say, whenever a lookup is made.

## Key results

- `Catalog.order_add`: what one declaration does to the list
- `Catalog.WellFormed.lookup?_eq`: a lookup in the index is a search through the list
- `Catalog.History.wellFormed`, `Catalog.History.order`: what any declarations and any growth leave
- `Catalog.lookups_search_declarations`: the list, and all that can be asked of a catalog, in terms
  of what was declared
-/

namespace Lineage.Catalog

/-- Declaring a binding puts it at the end of the list, unless it is there already. -/
theorem order_add (catalog : Catalog) (graph : Graph) (id : BindingId) :
    (catalog.add graph id).order = appendNew catalog.order [id] := by
  rw [appendNew_singleton]
  unfold add contains
  split <;> rfl

theorem contains_iff {catalog : Catalog} {id : BindingId} :
    catalog.contains id = true ↔ id ∈ catalog.order := by
  simp [contains]

/-- A lookup finds the last declared binding with the exact name and an accepted kind. -/
theorem WellFormed.lookup?_eq {catalog : Catalog} {graph : Graph} (h : catalog.WellFormed graph)
    (name : String) (accepts : Binding.Kind → Bool) :
    catalog.lookup? graph name accepts =
      (catalog.order.filter fun id =>
        graph.name id == name && accepts (graph.kind id)).getLast? := by
  have hsplit : (catalog.order.filter fun id => graph.name id == name && accepts (graph.kind id)) =
      (catalog.group graph name).filter fun id => accepts (graph.kind id) := by
    rw [group, List.filter_filter]
    exact List.filter_congr fun id _ => Bool.and_comm _ _
  rw [lookup?, h.named, hsplit, List.getLast?_eq_head?_reverse, ← List.filter_reverse,
    List.head?_filter]

/-! ### Declarations between growth -/

/-- A catalog that was empty at the start has come about by the listed declarations, one after the
    other, while the graph was growing and comments were set. Every binding was part of the graph
    when it was declared, and the same one may have been declared several times. -/
inductive History (start : Graph) : List BindingId → Graph → Catalog → Prop where
  | start : History start [] start empty
  | add {added : List BindingId} {graph : Graph} {catalog : Catalog} (id : BindingId) :
      graph.contains id = true → History start added graph catalog →
      History start (added ++ [id]) graph (catalog.add graph id)
  | grow {added : List BindingId} {graph after : Graph} {catalog : Catalog} :
      graph.Grows after → History start added graph catalog → History start added after catalog
  | setComment {added : List BindingId} {graph : Graph} {catalog : Catalog} (id : BindingId)
      (comment : String) :
      History start added graph catalog → History start added (graph.setComment id comment) catalog

namespace History

variable {start graph : Graph} {added : List BindingId} {catalog : Catalog}

/-- The index stays in step with the list and with the names in the graph. -/
theorem wellFormed (h : History start added graph catalog) : catalog.WellFormed graph := by
  induction h with
  | start => exact wellFormed_empty start
  | add id hid _ ih => exact ih.add hid
  | grow hgrows _ ih => exact ih.grow hgrows
  | setComment id comment _ ih => exact ih.extend (Graph.extends_setComment _ id comment)

/-- The list holds what was declared, in the order of the first declarations. -/
theorem order (h : History start added graph catalog) : catalog.order = appendNew [] added := by
  induction h with
  | start => rfl
  | add id _ _ ih => rw [order_add, ih, appendNew_appendNew]
  | grow _ _ ih => exact ih
  | setComment _ _ _ ih => exact ih

end History

/-- Whatever is declared in a catalog, in whatever order and however often, and however the graph
    grows in between: the catalog lists what was declared, each binding once and in the order of the
    first declarations, it contains just what it lists, and a lookup by an exact name and for
    accepted kinds gives the last one on the list that has this name and such a kind in the graph as
    it is by then, or nothing if there is none. -/
theorem lookups_search_declarations {start graph : Graph} {added : List BindingId}
    {catalog : Catalog} (h : History start added graph catalog) :
    catalog.order = added.eraseDups ∧
    (∀ id, catalog.contains id = true ↔ id ∈ added.eraseDups) ∧
    ∀ name accepts, catalog.lookup? graph name accepts =
      (added.eraseDups.filter fun id =>
        graph.name id == name && accepts (graph.kind id)).getLast? := by
  have horder : catalog.order = added.eraseDups := by
    rw [h.order]
    simp [appendNew]
  refine ⟨horder, fun id => ?_, fun name accepts => ?_⟩
  · rw [contains_iff, horder]
  · rw [h.wellFormed.lookup?_eq, horder]

/-- A variable, a routine of the same name and a parameter of the routine, with a comment. -/
def overloads : Graph :=
  (((Graph.empty.push (.ofName "X" .var)).push (.ofName "x" .routine)).push
    (.ofName "a" .parameter)).setComment ⟨2⟩ "in"

/-- The variable is declared once more after the routine, which was added to the graph in between,
    and then the parameter is declared. Each of them is listed once. The routine hides the variable
    from a lookup of any kind, but not from one for variables. -/
theorem lookups_search_declarations_overloads :
    ∃ catalog, History Graph.empty [⟨0⟩, ⟨1⟩, ⟨0⟩, ⟨2⟩] overloads catalog ∧
      catalog.order = [⟨0⟩, ⟨1⟩, ⟨2⟩] ∧ catalog.contains ⟨3⟩ = false ∧
      catalog.lookup? overloads "x" (fun _ => true) = some ⟨1⟩ ∧
      catalog.lookup? overloads "x" (· == .var) = some ⟨0⟩ ∧
      catalog.lookup? overloads "X" (fun _ => true) = none := by
  have hvar : History Graph.empty _ _ _ :=
    (History.start.grow (Graph.Grows.refl.push (.ofName "X" .var))).add ⟨0⟩ rfl
  have hroutine := (hvar.grow (Graph.Grows.refl.push (.ofName "x" .routine))).add ⟨1⟩ rfl
  -- The variable is declared once more, after the routine of its name.
  have hagain := hroutine.add ⟨0⟩ rfl
  have hlast :=
    ((hagain.grow (Graph.Grows.refl.push (.ofName "a" .parameter))).add ⟨2⟩ rfl).setComment ⟨2⟩ "in"
  obtain ⟨horder, hcontains, hlookup⟩ := lookups_search_declarations hlast
  refine ⟨_, hlast, horder.trans (by decide), ?_, (hlookup _ _).trans ?_, (hlookup _ _).trans ?_,
    (hlookup _ _).trans ?_⟩
  · rw [← Bool.not_eq_true, hcontains]
    decide
  all_goals decide +kernel

end Lineage.Catalog
