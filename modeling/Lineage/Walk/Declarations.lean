import Lineage.View.Declarations
import Lineage.Walk.Basic

/-! # Declarations

How packages, routines, variables and cursors enter the scope. The routines of a package are
declared before its body is read, so that they can call each other in any order. -/

namespace Lineage.Walk

variable {tree : Tree} (dialect : Dialect) (walk : Node tree → Walk Unit)

/-- The name that a node declares. -/
def declaredName (node : Node tree) : Walk String :=
  require (dialect.declaredName? node) (.misshapen (.unnamedDeclaration node.tag))

/-- Adds a parameter to a routine or cursor. -/
def addParameter (owner : BindingId) (parameter : Node tree) (position : Nat) : Walk BindingId := do
  let name ← declaredName dialect parameter
  let id ← add ((Binding.ofName name .parameter).withPosition position)
  changeScope (·.addChild owner id)
  return id

/-- The parameters of a routine or cursor: those it already has, or else those that its
    node declares. -/
def parameters (owner : BindingId) (node : Node tree) (tag : String) : Walk (List BindingId) := do
  let known ← read fun session =>
    (session.scope.graph.children owner).filter fun child =>
      session.scope.graph.kind child == .parameter
  if known.isEmpty then
    (dialect.parametersOf node tag).zipIdx.mapM fun (parameter, position) =>
      addParameter dialect owner parameter position
  else return known

/-- Declares a routine ahead of its body. -/
def hoist (routine : Node tree) : Walk Unit := do
  let name ← declaredName dialect routine
  let id ← declare (.ofName name .routine)
  let _ ← parameters dialect id routine dialect.vocabulary.declarations.parameter
  change fun session =>
    { session with hoisted := (routine.index?.map fun index => (index, id)).toList ++
      session.hoisted }

/-- Declares the routines of a package ahead of their bodies. -/
def hoistAll (package : Node tree) : Walk Unit :=
  (dialect.routinesOf package).forM (hoist dialect)

def package (node : Node tree) : Walk Unit := do
  let name ← declaredName dialect node
  let id ← declare (.ofName name .package)
  within (.body (some id)) do
    hoistAll dialect node
    (dialect.packageBody node).forM walk

/-- The routine that was declared ahead for a node; it is then no longer kept. -/
def takeHoisted (node : Node tree) : Walk (Option BindingId) := fun session =>
  match node.index? with
  | none => (.ok none, session)
  | some index =>
    (.ok (session.hoisted.lookup index),
      { session with hoisted := session.hoisted.filter fun entry => entry.1 ≠ index })

/-- The routine of a node, declared now if it was not declared ahead. -/
def routineId (node : Node tree) : Walk BindingId := do
  match ← takeHoisted node with
  | some id => return id
  | none => declare (.ofName (← declaredName dialect node) .routine)

/-- Makes parameters known inside the body of their owner. -/
def declareAll (ids : List BindingId) : Walk Unit :=
  changeScope fun scope => ids.foldl Scope.declare scope

def routine (node : Node tree) : Walk Unit := do
  let id ← routineId dialect node
  let parameters ← parameters dialect id node dialect.vocabulary.declarations.parameter
  within (.body (some id)) do
    declareAll parameters
    (dialect.routineBody node).forM walk

def varDeclaration (node : Node tree) : Walk Unit := do
  let name ← declaredName dialect node
  let id ← declare (.ofName name .var)
  let value := dialect.defaultValue node
  if value.isPresent then within (.assignment (some id)) (value.children.forM walk)

def cursor (node : Node tree) : Walk Unit := do
  let name ← declaredName dialect node
  let id ← declare (.ofName name .cursor)
  let parameters ← parameters dialect id node dialect.vocabulary.declarations.cursorParameter
  within (.body (some id)) do
    declareAll parameters
    within (.wrapper id false) (walk (dialect.cursorQuery node))

end Lineage.Walk
