import Lineage.Proofs.Scope.Signals
import Lineage.Scope.Reference

/-!
# What a scope can learn

Looking names up, declaring them and giving tables other names changes what the levels know, but not
what they have gathered. `Learns` relates a scope to those that come from it in this way.

## Key results

- `Learns.cores`: learning leaves the cores of all levels as they are
- `Learns.grows`: learning adds to the graph
- `learns_dottedReference`, `learns_table`, `learns_insertTarget`, `learns_columnsNamed`: references
  learn
-/

namespace Lineage.Scope

/-! ### Declaring keeps the cores -/

/-- What the levels have gathered. -/
def cores (scope : Scope) : List Frame :=
  scope.frames.map Frame.core

variable {id : BindingId} {graph graph' : Graph} {frames after : List Frame} (scope : Scope)

theorem map_core_declareAmong? (h : declareAmong? id graph frames = some (after, graph')) :
    after.map Frame.core = frames.map Frame.core := by
  obtain ⟨above, frame, taken, below, rfl, rfl, _, hdeclared⟩ := exists_of_declareAmong? h
  simp only [List.map_append, List.map_cons, Frame.core_of_declare? hdeclared]

@[simp] theorem cores_declare (id : BindingId) : (scope.declare id).cores = scope.cores := by
  unfold declare
  split
  · next h => exact map_core_declareAmong? h
  · rfl

theorem relations_renameLast? {relation : BindingId} {aliasName : Option String}
    {sources after : List Source}
    (h : QueryScope.renameLast? relation aliasName sources = some after) :
    after.map (·.relation) = sources.map (·.relation) := by
  induction sources generalizing after with
  | nil => simp [QueryScope.renameLast?] at h
  | cons source rest ih =>
    simp only [QueryScope.renameLast?] at h
    split at h
    -- The last source of the table is renamed, so the rest of the list is tried first.
    · next hrest =>
      rw [← Option.some.inj h, List.map_cons, List.map_cons, ih hrest]
    · split at h
      · next hsame => simp [← Option.some.inj h, hsame]
      · simp at h

theorem core_rename? {query after : QueryScope} {relation : BindingId} {aliasName : Option String}
    (h : query.rename? relation aliasName = some after) : after.core = query.core := by
  obtain ⟨sources, hsources, rfl⟩ := Option.map_eq_some_iff.mp h
  have hrelations :=
    congrArg (List.map fun id => (⟨id, none⟩ : Source)) (relations_renameLast? hsources)
  simpa [QueryScope.core, Function.comp_def] using hrelations

theorem map_core_changeNearestQuery? {change : QueryScope → Option QueryScope}
    (hchange : ∀ query changed, change query = some changed → changed.core = query.core)
    (h : changeNearestQuery? change frames = some after) :
    after.map Frame.core = frames.map Frame.core := by
  induction frames generalizing after with
  | nil => simp [changeNearestQuery?] at h
  | cons frame rest ih =>
    cases frame with
    | select query =>
      obtain ⟨changed, hchanged, rfl⟩ := Option.map_eq_some_iff.mp h
      simp [Frame.core, hchange query changed hchanged]
    | _ =>
      obtain ⟨inner, hinner, rfl⟩ := Option.map_eq_some_iff.mp h
      simp [ih hinner]

/-- Another name for a table leaves the cores as they are. -/
@[simp] theorem cores_renameSource? (relation : BindingId) (aliasName : Option String) :
    ((scope.renameSource? relation aliasName).getD scope).cores = scope.cores := by
  unfold renameSource?
  cases h : changeNearestQuery? (·.rename? relation aliasName) scope.frames with
  | none => rfl
  | some frames => exact map_core_changeNearestQuery? (fun _ _ hchange => core_rename? hchange) h

/-- Declaring may make a binding a member of the body's owner, and adds no binding. -/
theorem plain_of_declareAmong? (h : declareAmong? id graph frames = some (after, graph')) :
    graph.GrowsPlain graph' := by
  obtain ⟨_, _, _, _, _, _, _, hdeclared⟩ := exists_of_declareAmong? h
  exact Frame.plain_of_declare? hdeclared

theorem plain_declare (id : BindingId) : scope.graph.GrowsPlain (scope.declare id).graph := by
  unfold declare
  split
  · next h => exact plain_of_declareAmong? h
  · exact .refl

theorem grows_of_declareAmong? (h : declareAmong? id graph frames = some (after, graph')) :
    graph.Grows graph' :=
  (plain_of_declareAmong? h).grows

theorem grows_declare (id : BindingId) : scope.graph.Grows (scope.declare id).graph :=
  (scope.plain_declare id).grows

@[simp] theorem graph_renameSource? (relation : BindingId) (aliasName : Option String) :
    ((scope.renameSource? relation aliasName).getD scope).graph = scope.graph := by
  unfold renameSource?
  cases changeNearestQuery? (·.rename? relation aliasName) scope.frames <;> rfl

/-! ### Learning -/

/-- The second scope comes from the first one by adding to the graph, declaring bindings and giving
    tables other names. -/
inductive Learns (before : Scope) : Scope → Prop where
  | refl : Learns before before
  | grow {after : Scope} (graph : Graph) : Learns before after → after.graph.Grows graph →
      Learns before { after with graph }
  | declare {after : Scope} (id : BindingId) : Learns before after →
      Learns before (after.declare id)
  | declareGlobal {after : Scope} (id : BindingId) :
      Learns before after → Learns before (after.declareGlobal id)
  | renameSource {after : Scope} (relation : BindingId) (aliasName : Option String) :
      Learns before after → Learns before ((after.renameSource? relation aliasName).getD after)

variable {before middle after : Scope}

theorem Learns.trans (hfirst : before.Learns middle) (hlast : middle.Learns after) :
    before.Learns after := by
  induction hlast with
  | refl => exact hfirst
  | grow graph _ hgrows ih => exact ih.grow graph hgrows
  | declare id _ ih => exact ih.declare id
  | declareGlobal id _ ih => exact ih.declareGlobal id
  | renameSource relation aliasName _ ih => exact ih.renameSource relation aliasName

/-- Learning leaves the cores of all levels as they are. -/
theorem Learns.cores (h : before.Learns after) : after.cores = before.cores := by
  induction h with
  | refl => rfl
  | grow graph _ _ ih => exact ih
  | declare id _ ih => rw [cores_declare, ih]
  | declareGlobal id _ ih => exact ih
  | renameSource relation aliasName _ ih => rw [cores_renameSource?, ih]

theorem Learns.grows (h : before.Learns after) : before.graph.Grows after.graph := by
  induction h with
  | refl => exact .refl
  | grow graph _ hgrows ih => exact ih.trans hgrows
  | declare id _ ih => exact ih.trans (grows_declare _ id)
  | declareGlobal id _ ih => exact ih
  | renameSource relation aliasName _ ih => rwa [graph_renameSource?]

/-! ### What learns -/

theorem learns_add (binding : Binding) : scope.Learns (scope.add binding).2 :=
  Learns.refl.grow _ (.push binding .refl)

theorem learns_addChild (parent child : BindingId) : scope.Learns (scope.addChild parent child) :=
  Learns.refl.grow _ (.addChild parent child .refl)

theorem learns_addOutput (source target : BindingId) :
    scope.Learns (scope.addOutput source target) :=
  Learns.refl.grow _ (.addOutput source target .refl)

theorem learns_childOrInsert (parent : BindingId) (name : String) (kind : Binding.Kind) :
    scope.Learns (scope.childOrInsert parent name kind).2 :=
  Learns.refl.grow _ (Graph.grows_childOrInsert _ parent name kind)

theorem learns_declareNew (binding : Binding) : scope.Learns (scope.declareNew binding).2 :=
  (learns_add scope binding).declare _

theorem learns_declareNewGlobal (binding : Binding) :
    scope.Learns (scope.declareNewGlobal binding).2 :=
  (learns_add scope binding).declareGlobal _

theorem learns_reference (name : String) : scope.Learns (scope.reference name).2 := by
  unfold reference
  split
  · exact .refl
  · split
    · exact learns_childOrInsert scope _ _ _
    · exact learns_declareNew scope _

theorem learns_referenceHead (name : String) : scope.Learns (scope.referenceHead name).2 := by
  unfold referenceHead
  split
  · exact .refl
  · exact learns_declareNewGlobal scope _

theorem learns_memberChain (names : List String) (current : BindingId) (scope : Scope) :
    scope.Learns (memberChain names current scope).2 := by
  induction names generalizing current scope with
  | nil => exact .refl
  | cons name rest ih => exact (learns_childOrInsert scope current name .field).trans (ih _ _)

theorem learns_dottedReference (qualifiers : List String) (name : String) :
    scope.Learns (scope.dottedReference qualifiers name).2 := by
  cases qualifiers with
  | nil => exact learns_reference scope name
  | cons head rest => exact (learns_referenceHead scope head).trans (learns_memberChain _ _ _)

theorem learns_table (name : String) : scope.Learns (scope.table name).2 := by
  -- A table of the schema becomes global, an unknown one is made, and any other was there before.
  unfold table
  split
  · exact .refl
  · split
    · exact Learns.refl.declareGlobal _
    · split
      · exact .refl
      · exact learns_declareNewGlobal scope _

theorem learns_insertTarget (name : String) : scope.Learns (scope.insertTarget name).2 := by
  unfold insertTarget
  split
  · exact Learns.refl.declareGlobal _
  · split
    · exact .refl
    · exact learns_declareNewGlobal scope _

theorem learns_columnsNamed (table : BindingId) (names : List String) (scope : Scope) :
    scope.Learns (columnsNamed table names scope).2 := by
  induction names generalizing scope with
  | nil => exact .refl
  | cons name rest ih => exact (learns_childOrInsert scope table name .column).trans (ih _)

/-- Several bindings are declared in a row. -/
theorem learns_declareAll (ids : List BindingId) (scope : Scope) :
    scope.Learns (ids.foldl Scope.declare scope) := by
  induction ids generalizing scope with
  | nil => exact .refl
  | cons id rest ih => exact (Learns.refl.declare id).trans (ih _)

end Lineage.Scope
