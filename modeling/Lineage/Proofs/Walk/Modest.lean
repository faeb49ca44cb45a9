import Lineage.Proofs.Scope.Kinds
import Lineage.Proofs.Walk.Steps

/-!
# Walks that add neither routines nor parameters

Routines and parameters are added by the rules for packages, routines and cursors, and by no others.
`Modest` says of a walk that it adds no such binding, and that it leaves the routines that were
declared ahead of their bodies. All quiet steps of all other rules are modest.

## Key results

- `StepsOf.modest`: a walk made of steps of other rules is modest
- `Script.modest_ofRule`: the quiet steps of all other rules are modest
-/

namespace Lineage

/-- All kinds of bindings but routines and parameters. -/
def Binding.Kind.modest : List Binding.Kind :=
  .argument :: .call :: plain

namespace Walk

variable {α β ι : Type}

/-- The second state comes from the first one by adding neither routines nor parameters, and has the
    same routines that were declared ahead of their bodies. -/
structure Idle (before after : Session) : Prop where
  grows : before.scope.graph.GrowsBy Binding.Kind.modest after.scope.graph
  hoisted : after.hoisted = before.hoisted

namespace Idle

variable {before middle after : Session}

theorem refl : Idle before before :=
  ⟨.refl, rfl⟩

theorem trans (hfirst : Idle before middle) (hlast : Idle middle after) : Idle before after :=
  ⟨hfirst.grows.trans hlast.grows, hlast.hoisted.trans hfirst.hoisted⟩

/-- A step on the scope that adds bindings of plain kinds only. -/
theorem of_plain {session : Session} {scope : Scope}
    (h : session.scope.graph.GrowsPlain scope.graph) : Idle session { session with scope } :=
  ⟨h.mono (by decide), rfl⟩

end Idle

/-- The walk adds neither routines nor parameters, and leaves the routines that were
    declared ahead. -/
def Modest (walk : Walk α) : Prop :=
  ∀ session, Idle session (walk session).2

namespace Modest

theorem pure (value : α) : Modest (Pure.pure value) := fun _ => .refl

theorem fail (error : Error) : Modest (Walk.fail error : Walk α) := fun _ => .refl

theorem read (look : Session → α) : Modest (Walk.read look) := fun _ => .refl

theorem onScope {step : Scope → α × Scope}
    (h : ∀ scope : Scope, scope.graph.GrowsPlain (step scope).2.graph) :
    Modest (Walk.onScope step) := fun session => .of_plain (h session.scope)

theorem changeScope {step : Scope → Scope}
    (h : ∀ scope : Scope, scope.graph.GrowsPlain (step scope).graph) :
    Modest (Walk.changeScope step) := fun session => .of_plain (h session.scope)

theorem bind {first : Walk α} {next : α → Walk β} (hfirst : Modest first)
    (hnext : ∀ value, Modest (next value)) : Modest (first >>= next) := fun session =>
  Stateful.state_bind (Idle session) (hfirst session) (fun _ h => h) fun value after hidle =>
    hidle.trans (hnext value after)

end Modest

/-! ### Levels -/

/-- Closing or leaving a level adds neither routines nor parameters. -/
theorem idle_within (frame : Frame) (walk : Walk Unit) (session : Session) :
    Idle (walk { session with scope := session.scope.push frame }).2
      (within frame walk session).2 := by
  simp only [within]
  rcases walk { session with scope := session.scope.push frame } with ⟨error | ⟨⟩, after⟩
  · exact ⟨.refl, rfl⟩
  · exact .of_plain (after.scope.plain_unwind _ true)

theorem idle_closeArm (session : Session) : Idle session (closeArm session).2 := by
  rw [closeArm_eq]
  split
  · exact .of_plain session.scope.plain_pop
  · exact .refl

theorem idle_nextArm (queries : Nat) (session : Session) :
    Idle session (nextArm queries session).2 := by
  rw [nextArm_eq]
  split
  · exact .refl
  · split
    -- Starting an assignment anew changes its level and leaves the graph.
    · refine ⟨?_, rfl⟩
      unfold Scope.restartAssignment?
      cases session.scope.pendingAssignment? queries <;> exact .refl
    · exact .refl

/-! ### The modest parts of the rules -/

/-- Adds a binding that is neither a routine nor a parameter. -/
theorem modest_add {binding : Binding} (h : binding.kind ∈ Binding.Kind.modest) :
    Modest (add binding) :=
  fun _ => ⟨.push binding h .refl, rfl⟩

theorem modest_declare (name : String) {kind : Binding.Kind} (h : kind ∈ Binding.Kind.plain) :
    Modest (declare (.ofName name kind)) :=
  .onScope fun scope => scope.plain_declareNew name h

theorem modest_declareAll (ids : List BindingId) : Modest (declareAll ids) :=
  .changeScope fun scope => scope.plain_declareAll ids

variable {tree : Tree} {dialect : Dialect} {node : Node tree} {rule : Rule}

/-- Routines and parameters are added, and routines kept for later, by three rules alone. -/
theorem StepsOf.modest {walk : Walk α} (h : StepsOf dialect node rule walk)
    (hrule : rule ∉ [.package, .routine, .cursor]) : Modest walk := by
  -- By induction on the list of steps; those that are not modest belong to the three rules.
  induction h with
  | pure value => exact .pure value
  | bind _ _ ihfirst ihnext => exact .bind ihfirst ihnext
  | read look => exact .read look
  | fail error | missing => exact .fail _
  | add binding hkind =>
    have hkinds : rule.addedKinds ⊆ Binding.Kind.modest := by
      cases rule <;> simp at hrule <;> decide
    exact modest_add (hkinds hkind)
  | declare name hkind =>
    have hkinds : rule.declaredKinds ⊆ Binding.Kind.plain := by
      cases rule <;> simp at hrule <;> decide
    exact modest_declare name (hkinds hkind)
  | declareAll ids => exact modest_declareAll ids
  | declareQuery id => exact .changeScope fun scope => scope.plain_declare id
  | addChild parent child => exact .changeScope fun _ => .addChild parent child .refl
  | addOutput source target => exact .changeScope fun _ => .addOutput source target .refl
  | dottedReference qualifiers name =>
    exact .onScope fun scope => scope.plain_dottedReference qualifiers name
  | memberAccess name =>
    refine .onScope fun scope => ?_
    cases chainHead? scope with
    | none => exact scope.plain_add name (by decide)
    | some head => exact scope.plain_childOrInsert head name (by decide)
  | table name => exact .onScope fun scope => scope.plain_table name
  | insertTarget name => exact .onScope fun scope => scope.plain_insertTarget name
  | columnsNamed table names => exact .onScope fun scope => scope.plain_columnsNamed table names
  | renameSource relation name =>
    refine .changeScope fun scope => ?_
    rw [Scope.graph_renameSource?]
    exact .refl
  | keepHoisted _ _ hpackage => simp [hpackage] at hrule
  | takeHoisted hroutine => simp [hroutine] at hrule
  | claimInto =>
    intro session
    simp only [Walk.claimInto]
    split
    · exact .refl
    · split <;> exact ⟨.refl, rfl⟩

/-! ### Scripts -/

namespace Script

/-- All quiet steps of the script are modest. -/
def Modest : {α : Type} → Script tree α → Prop
  | _, quiet walk _ => Walk.Modest walk
  | _, within _ body => body.Modest
  | _, andThen first next => first.Modest ∧ ∀ value, (next value).Modest
  | _, _ => True

theorem StepsOf.modest {script : Script tree α} (h : script.StepsOf dialect node rule)
    (hrule : rule ∉ [.package, .routine, .cursor]) : script.Modest := by
  induction script with
  | quiet walk _ => exact Walk.StepsOf.modest h hrule
  | within frame body ih => exact ih h.2
  | andThen first next ihfirst ihnext => exact ⟨ihfirst h.1, fun value => ihnext value (h.2 value)⟩
  | _ => trivial

/-- The quiet steps of all rules but those for packages, routines and cursors are modest. -/
theorem modest_ofRule (node : Node tree) {rule : Rule} (hpackage : rule ≠ .package)
    (hroutine : rule ≠ .routine) (hcursor : rule ≠ .cursor) : (ofRule dialect node rule).Modest :=
  (stepsOf_ofRule dialect node rule).modest (by simp [hpackage, hroutine, hcursor])

end Script

end Walk

end Lineage
