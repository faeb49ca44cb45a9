import Lineage.Scope.Reference
import Lineage.Scope.Signal
import Lineage.Stateful

/-! # Walks

A walk is a computation that changes the state of an analysis and may fail. A failed walk tells the
state it leaves behind, as a successful one does. -/

namespace Lineage

/-- The state of an analysis. -/
structure Session where
  scope : Scope
  /-- Routines declared ahead of their bodies, by the index of their nodes. -/
  hoisted : List (Nat × BindingId)
  /-- The indexes of the target clauses that a query has taken. -/
  claimed : List Nat
  /-- The indexes of the nodes visited so far, the latest first. -/
  visited : List Nat

/-- The state before anything was read. -/
def Session.ofSchema (schema : Schema) : Session :=
  { scope := .ofSchema schema, hoisted := [], claimed := [], visited := [] }

/-- A computation on the state of an analysis. -/
abbrev Walk (α : Type) : Type :=
  Stateful Session Error α

namespace Walk

export Stateful (fail read change require)

/-- A step on the scope that cannot fail. -/
def onScope {α : Type} (step : Scope → α × Scope) : Walk α :=
  fun session =>
    let (value, scope) := step session.scope
    (.ok value, { session with scope })

/-- A step on the scope that may fail. -/
def attempt (step : Scope → Scope.Outcome) : Walk Unit :=
  fun session =>
    let (result, scope) := step session.scope
    (result, { session with scope })

/-- The walk with its errors placed, unless they are placed already. -/
def located {α : Type} (place : Location) (walk : Walk α) : Walk α :=
  fun session =>
    match walk session with
    | (.ok value, session) => (.ok value, session)
    | (.error error, session) => (.error (error.atLocation place), session)

/-- The walk inside one more level, which is closed when the walk succeeds and left
    when it fails. -/
def within (frame : Frame) (walk : Walk Unit) : Walk Unit :=
  fun session =>
    let height := session.scope.height
    match walk { session with scope := session.scope.push frame } with
    | (.ok (), session) => attempt (·.unwind height true) session
    | (.error error, session) =>
      (.error error, { session with scope := session.scope.dropTo height })

/-- Sends a binding outward. It reaches no level if that fails. -/
def produce (id : BindingId) : Walk Unit :=
  attempt fun scope => scope.receiveAll [id]

/-- Adds a binding. -/
def add (binding : Binding) : Walk BindingId :=
  onScope (·.add binding)

/-- Adds a binding and declares it. -/
def declare (binding : Binding) : Walk BindingId :=
  onScope (·.declareNew binding)

/-- Changes the scope. -/
def changeScope (step : Scope → Scope) : Walk Unit :=
  change fun session => { session with scope := step session.scope }

end Walk

end Lineage
