import Lineage.Proofs.Scope.Offers

/-!
# From a scope to a later one

While the levels come and go, what the outermost level knows stays: bindings are added to the graph
and to the global declarations and never taken away, and the tables of the schema are fixed. Sending
bindings outward and closing levels does not touch the root at all, and adds bindings of plain kinds
at most: a field for a binding that is sent, and an alias at the end of an element of a select list.

## Key results

- `Later`: a scope that comes after another one
- `root_receiveAll`, `root_pop`, `root_unwind`, `root_flushElement`: what travels outward leaves the
  root alone
- `plain_receiveAll`, `plain_unwind`, `plain_flushElement`: what travels outward adds no routine,
  parameter, argument or call
- `Learns.later`: learning leads to a later scope
-/

namespace Lineage.Scope

/-! ### Bindings on their way out -/

variable {after : Scope} (scope : Scope)

theorem root_of_receive {scope : Scope} {id : BindingId} (h : scope.receive id = .ok after) :
    after.root = scope.root := by
  obtain ⟨_, _, -, rfl⟩ := receiveAmong_of_receive h
  rfl

theorem plain_of_receive {scope : Scope} {id : BindingId} (h : scope.receive id = .ok after) :
    scope.graph.GrowsPlain after.graph := by
  obtain ⟨_, _, hsent, rfl⟩ := receiveAmong_of_receive h
  exact plain_of_receiveAmong hsent

@[simp] theorem root_receiveAll (ids : List BindingId) (scope : Scope) :
    (receiveAll ids scope).2.root = scope.root :=
  receiveAll_keeps (motive := fun after => after.root = scope.root)
    (fun h hsent => (root_of_receive hsent).trans h) rfl ids

theorem plain_receiveAll (ids : List BindingId) (scope : Scope) :
    scope.graph.GrowsPlain (receiveAll ids scope).2.graph :=
  receiveAll_keeps (motive := fun after => scope.graph.GrowsPlain after.graph)
    (fun h hsent => h.trans (plain_of_receive hsent)) .refl ids

theorem grows_receiveAll (ids : List BindingId) (scope : Scope) :
    scope.graph.Grows (receiveAll ids scope).2.graph :=
  (plain_receiveAll ids scope).grows

@[simp] theorem root_pop : scope.pop.2.root = scope.root :=
  pop_keeps (motive := fun after => after.root = scope.root)
    (fun h hsent => (root_of_receive hsent).trans h) (fun _ => rfl) rfl

theorem plain_pop : scope.graph.GrowsPlain scope.pop.2.graph :=
  pop_keeps (motive := fun after => scope.graph.GrowsPlain after.graph)
    (fun h hsent => h.trans (plain_of_receive hsent)) (fun _ => .refl) .refl

theorem grows_pop : scope.graph.Grows scope.pop.2.graph :=
  scope.plain_pop.grows

@[simp] theorem root_unwind (height : Nat) (finish : Bool) :
    (scope.unwind height finish).2.root = scope.root :=
  unwind_keeps (motive := fun after => after.root = scope.root) (fun h => (root_pop _).trans h)
    (fun _ h => h) rfl height finish

theorem plain_unwind (height : Nat) (finish : Bool) :
    scope.graph.GrowsPlain (scope.unwind height finish).2.graph :=
  unwind_keeps (motive := fun after => scope.graph.GrowsPlain after.graph)
    (fun h => h.trans (plain_pop _)) (fun _ h => h) .refl height finish

theorem grows_unwind (height : Nat) (finish : Bool) :
    scope.graph.Grows (scope.unwind height finish).2.graph :=
  (scope.plain_unwind height finish).grows

@[simp] theorem root_flushElement (position : Nat) :
    (scope.flushElement position).2.root = scope.root := by
  unfold flushElement
  split
  · dsimp only
    split <;> rfl
  · rfl

theorem plain_flushElement (position : Nat) :
    scope.graph.GrowsPlain (scope.flushElement position).2.graph := by
  refine flushElement_keeps (motive := fun after => scope.graph.GrowsPlain after.graph) position ?_
    (fun h => h) .refl
  intro pending rest _
  have hvalue := plain_contribution scope.graph position pending
  exact ⟨hvalue, fun after hsent => hvalue.trans (plain_of_receive hsent)⟩

theorem grows_flushElement (position : Nat) :
    scope.graph.Grows (scope.flushElement position).2.graph :=
  (scope.plain_flushElement position).grows

@[simp] theorem root_restartAssignment? (queries : Nat) :
    ((scope.restartAssignment? queries).getD scope).root = scope.root := by
  unfold restartAssignment?
  cases scope.pendingAssignment? queries <;> rfl

@[simp] theorem root_renameSource? (relation : BindingId) (aliasName : Option String) :
    ((scope.renameSource? relation aliasName).getD scope).root = scope.root := by
  unfold renameSource?
  cases changeNearestQuery? (·.rename? relation aliasName) scope.frames <;> rfl

/-! ### Later scopes -/

/-- The second scope comes after the first one: it has at least the bindings and the global
    declarations, and the same tables of the schema. -/
structure Later (before after : Scope) : Prop where
  grows : before.graph.Grows after.graph
  globals : before.globals <+: after.globals
  external : after.root.external = before.root.external

namespace Later

variable {before middle after : Scope}

theorem refl : before.Later before :=
  ⟨.refl, List.prefix_rfl, rfl⟩

theorem trans (hfirst : before.Later middle) (hlast : middle.Later after) : before.Later after :=
  ⟨hfirst.grows.trans hlast.grows, hfirst.globals.trans hlast.globals,
    hlast.external.trans hfirst.external⟩

/-- A step that leaves the root alone. -/
theorem of_root (hgrows : before.graph.Grows after.graph) (hroot : after.root = before.root) :
    before.Later after where
  grows := hgrows
  globals := by simp [Scope.globals, hroot]
  external := by rw [hroot]

end Later

theorem later_declareGlobal (id : BindingId) : scope.Later (scope.declareGlobal id) where
  grows := .refl
  globals := by
    simp only [Scope.globals, declareGlobal, Catalog.add]
    -- What was declared before is not listed again.
    split
    · exact List.prefix_rfl
    · exact List.prefix_append _ _
  external := rfl

theorem later_declare (id : BindingId) : scope.Later (scope.declare id) := by
  unfold declare
  split
  · next h => exact .of_root (grows_of_declareAmong? h) rfl
  · exact scope.later_declareGlobal id

/-- Learning leads to a later scope. -/
theorem Learns.later {before : Scope} (h : before.Learns after) : before.Later after := by
  -- By induction on how it was learnt; only two of the steps come near the root.
  induction h with
  | refl => exact .refl
  | grow graph _ hgrows ih => exact ih.trans (.of_root hgrows rfl)
  | declare id _ ih => exact ih.trans (later_declare _ id)
  | declareGlobal id _ ih => exact ih.trans (later_declareGlobal _ id)
  | renameSource relation aliasName _ ih =>
    exact ih.trans
      (.of_root (by rw [graph_renameSource?]; exact .refl)
        (root_renameSource? _ relation aliasName))

end Lineage.Scope
