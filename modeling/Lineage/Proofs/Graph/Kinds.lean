import Lineage.Proofs.Graph.Extension

/-!
# The bindings of one kind

A graph lists its bindings of one kind in the order in which they were added. Growth only appends to
such a list, and a step that adds no binding of the kind leaves it as it is. `GrowsBy` relates a
graph to those that come from it by adding bindings of given kinds only, and `GrowsPlain` to those
that come from it without new routines, parameters, arguments and calls.

## Key results

- `ofKind_push`: a new binding is the last of its kind
- `Grows.ofKind_isPrefix`: growth appends to the bindings of a kind
- `GrowsBy.ofKind`: growth by other kinds leaves the bindings of a kind
- `growsBy_childOrInsert`, `growsBy_passArgument`, `growsBy_passToMember`: the operations that do
  more than one step
-/

namespace Lineage.Graph

/-- The bindings of a kind, in the order in which they were added. -/
def ofKind (graph : Graph) (kind : Binding.Kind) : List BindingId :=
  graph.ids.filter fun id => graph.kind id = kind

variable {before middle after graph : Graph} {kinds more : List Binding.Kind} {kind : Binding.Kind}

theorem mem_ids {id : BindingId} : id ∈ graph.ids ↔ graph.contains id = true := by
  obtain ⟨index⟩ := id
  simp [ids, contains_iff]

theorem nodup_ids (graph : Graph) : graph.ids.Nodup := by
  unfold ids
  rw [List.Nodup, List.pairwise_map]
  exact List.nodup_range.imp fun hne heq => hne (BindingId.mk.inj heq)

@[simp] theorem ids_push (graph : Graph) (binding : Binding) :
    (graph.push binding).ids = graph.ids ++ [graph.nextId] := by
  simp [ids, nextId, List.range_succ]

/-- The bindings of a kind depend on which bindings there are and on their kinds. -/
theorem ofKind_congr (hids : after.ids = before.ids)
    (hkinds : ∀ id, before.contains id = true → after.kind id = before.kind id) :
    after.ofKind kind = before.ofKind kind := by
  unfold ofKind
  rw [hids]
  refine List.filter_congr fun id hid => ?_
  rw [hkinds id (mem_ids.mp hid)]

@[simp] theorem ofKind_addChild (graph : Graph) (parent child : BindingId) :
    (graph.addChild parent child).ofKind kind = graph.ofKind kind :=
  ofKind_congr (by simp [ids]) fun id _ => kind_addChild graph parent child id

@[simp] theorem ofKind_addOutput (graph : Graph) (source target : BindingId) :
    (graph.addOutput source target).ofKind kind = graph.ofKind kind :=
  ofKind_congr (by simp [ids]) fun id _ => kind_addOutput graph source target id

/-- A new binding is the last one of its kind. -/
theorem ofKind_push (graph : Graph) (binding : Binding) :
    (graph.push binding).ofKind kind =
      graph.ofKind kind ++ if binding.kind = kind then [graph.nextId] else [] := by
  unfold ofKind
  rw [ids_push, List.filter_append]
  congr 1
  · refine List.filter_congr fun id hid => ?_
    -- The old ids keep their kinds, and the new one has that of the binding.
    rw [Graph.kind, get_push_of_contains binding (mem_ids.mp hid)]
    rfl
  · by_cases hkind : binding.kind = kind <;> simp [Graph.kind, hkind]

/-- Growth appends to the bindings of a kind. -/
theorem Grows.ofKind_isPrefix (h : before.Grows after) (kind : Binding.Kind) :
    before.ofKind kind <+: after.ofKind kind := by
  -- New bindings come last, and edges change no kind.
  induction h with
  | refl => exact List.prefix_rfl
  | push binding _ ih =>
    rw [ofKind_push]
    exact ih.trans (List.prefix_append _ _)
  | addChild parent child _ ih => rwa [ofKind_addChild]
  | addOutput source target _ ih => rwa [ofKind_addOutput]

/-! ### Growth by some kinds only -/

/-- The second graph comes from the first one by growth that adds no bindings but those of
    the given kinds. -/
inductive GrowsBy (kinds : List Binding.Kind) (before : Graph) : Graph → Prop where
  | refl : GrowsBy kinds before before
  | push {after : Graph} (binding : Binding) :
      binding.kind ∈ kinds → GrowsBy kinds before after → GrowsBy kinds before (after.push binding)
  | addChild {after : Graph} (parent child : BindingId) :
      GrowsBy kinds before after → GrowsBy kinds before (after.addChild parent child)
  | addOutput {after : Graph} (source target : BindingId) :
      GrowsBy kinds before after → GrowsBy kinds before (after.addOutput source target)

namespace GrowsBy

theorem trans (hfirst : GrowsBy kinds before middle) (hlast : GrowsBy kinds middle after) :
    GrowsBy kinds before after := by
  induction hlast with
  | refl => exact hfirst
  | push binding hkind _ ih => exact ih.push binding hkind
  | addChild parent child _ ih => exact ih.addChild parent child
  | addOutput source target _ ih => exact ih.addOutput source target

theorem mono (h : GrowsBy kinds before after) (hmore : kinds ⊆ more) :
    GrowsBy more before after := by
  induction h with
  | refl => exact .refl
  | push binding hkind _ ih => exact ih.push binding (hmore hkind)
  | addChild parent child _ ih => exact ih.addChild parent child
  | addOutput source target _ ih => exact ih.addOutput source target

theorem grows (h : GrowsBy kinds before after) : before.Grows after := by
  induction h with
  | refl => exact .refl
  | push binding _ _ ih => exact ih.push binding
  | addChild parent child _ ih => exact ih.addChild parent child
  | addOutput source target _ ih => exact ih.addOutput source target

/-- Growth by other kinds leaves the bindings of a kind. -/
theorem ofKind (h : GrowsBy kinds before after) (hkind : kind ∉ kinds) :
    after.ofKind kind = before.ofKind kind := by
  induction h with
  | refl => rfl
  | push binding hmem _ ih =>
    have hother : binding.kind ≠ kind := fun hsame => hkind (hsame ▸ hmem)
    rw [ofKind_push, if_neg hother, List.append_nil, ih]
  | addChild parent child _ ih => rw [ofKind_addChild, ih]
  | addOutput source target _ ih => rw [ofKind_addOutput, ih]

end GrowsBy

theorem growsBy_childOrInsert (graph : Graph) (parent : BindingId) (name : String)
    (kind : Binding.Kind) (h : kind ∈ kinds) :
    GrowsBy kinds graph (graph.childOrInsert parent name kind).2 := by
  unfold childOrInsert
  split
  · exact .refl
  · exact (GrowsBy.refl.push _ h).addChild parent _

theorem growsBy_addOutputs (graph : Graph) (sources : List BindingId) (target : BindingId) :
    GrowsBy kinds graph
      (sources.foldl (fun graph source => graph.addOutput source target) graph) := by
  induction sources generalizing graph with
  | nil => exact .refl
  | cons source rest ih => exact (GrowsBy.refl.addOutput source target).trans (ih _)

theorem growsBy_passArgument (graph : Graph) (routine argument : BindingId) :
    GrowsBy kinds graph (Frame.passArgument graph routine argument) :=
  (GrowsBy.refl.addOutput argument _).trans (growsBy_addOutputs _ _ _)

theorem growsBy_passToMember (graph : Graph) (owner id : BindingId)
    (h : Binding.Kind.field ∈ kinds) : GrowsBy kinds graph (Frame.passToMember graph owner id) :=
  (growsBy_childOrInsert graph owner _ _ h).addOutput id _

end Lineage.Graph

namespace Lineage

/-! ### Growth by plain kinds -/

/-- All kinds of bindings but routines, parameters, arguments and calls. -/
def Binding.Kind.plain : List Binding.Kind :=
  [.relation, .column, .record, .package, .var, .cursor, .field, .aliased, .result]

/-- The graph grows, by bindings of plain kinds only. -/
abbrev Graph.GrowsPlain (before after : Graph) : Prop :=
  GrowsBy Binding.Kind.plain before after

end Lineage
