import Lineage.View.Statements
import Lineage.Walk.Basic

/-! # Statements and expressions

How calls, names, member accesses and control statements produce bindings. -/

namespace Lineage.Walk

variable {tree : Tree} (dialect : Dialect) (walk : Node tree → Walk Unit)

/-- The binding of a name that must have been declared before. -/
def existing (node : Node tree) : Walk BindingId := do
  if node.isPresent then
    let name := (QualifiedName.parse (dialect.nameOf node)).restricted
    let found ← read (·.scope.resolve? name)
    require found (.unresolved name.display node.location)
  else fail (.misshapen .missingReference)

/-- A name that must have been declared before. -/
def reference (node : Node tree) : Walk Unit := do
  produce (← existing dialect node)

/-! ## Calls -/

/-- The binding of an argument, named for its position unless it is passed by name. -/
def argumentBinding (argument : Node tree) (position : Nat) : Binding :=
  let name := dialect.argumentName argument
  if name.isPresent then .ofName (dialect.nameOf name) .argument
  else (Binding.ofName s!"[{position}]" .argument).withPosition position

/-- An argument, which becomes a member of the call if there is one. -/
def argument (call : Option BindingId) (node : Node tree) (position : Nat) : Walk Unit := do
  let id ← add (argumentBinding dialect node position)
  match call with
  | some call => changeScope (·.addChild call id)
  | none => pure ()
  within (.wrapper id true) ((dialect.argumentValue node).forM walk)

/-- The arguments of a call. -/
def arguments (call : Option BindingId) (node : Node tree) : Walk Unit :=
  (dialect.argumentsOf node).zipIdx.forM fun (node, position) =>
    argument dialect walk call node position

/-- A call of a known routine. A statement produces a call, an expression the routine itself. -/
def callOf (routine : BindingId) (name : QualifiedName) (statement : Bool) (node : Node tree) :
    Walk Unit :=
  within (.routineCall (some routine)) do
    let call ← if statement then some <$> add (.ofName name.display .call) else pure none
    produce (call.getD routine)
    arguments dialect walk call node

/-- A call. A statement must call a known routine; the arguments of an unknown function
    pass through. -/
def call (statement : Bool) (node : Node tree) : Walk Unit := do
  let name ← require (dialect.calledName? node) (.misshapen .unnamedCall)
  match ← read (·.scope.resolve? name) with
  | some routine => callOf dialect walk routine name statement node
  | none =>
    if statement then fail (.unresolved name.display .unknown)
    else (dialect.argumentsOf node).forM walk

/-! ## Names -/

/-- A name in an expression. Of a dotted name only the last segment acts. -/
def identifier (node : Node tree) : Walk Unit := do
  if dialect.qualifies node.next then pure ()
  else
    let qualifiers := (dialect.qualifiersOf node).map dialect.nameOf
    produce (← onScope (·.dottedReference qualifiers node.text))

/-- The last binding of the chain whose frame is the innermost level. -/
def chainHead? (scope : Scope) : Option BindingId :=
  match scope.frames with
  | .chain head :: _ => head
  | _ => none

/-- A member access. -/
def fieldSuffix (node : Node tree) : Walk Unit := do
  let member := node.child dialect.vocabulary.names.member
  if member.isPresent then
    let name := dialect.nameOf member
    let id ← onScope fun scope =>
      match chainHead? scope with
      | some head => scope.childOrInsert head name .field
      | none => scope.add (.ofName name .field)
    produce id
  else node.children.forM walk

/-! ## Statements -/

/-- The value of a routine. -/
def returnStatement (node : Node tree) : Walk Unit := do
  let id ← add (.ofName "[return]" .result)
  within (.wrapper id false) (node.children.forM walk)

/-- Rows of a cursor flow into variables. -/
def fetch (node : Node tree) : Walk Unit := do
  let tags := dialect.vocabulary.statements
  let cursor ← existing dialect (node.child tags.fetchCursor)
  (node.find tags.fetchTarget).forM fun target => do
    let target ← existing dialect target
    changeScope (·.addOutput cursor target)

/-- The values of a condition are dropped. -/
def conditional (node : Node tree) : Walk Unit := do
  let condition := node.childAt 0
  within .ignoreReturn (walk condition)
  condition.later.forM walk

def loop (node : Node tree) : Walk Unit :=
  within (.body none) do
    match dialect.loopParts node with
    | .plain body => body.forM walk
    | .overRows record sources body =>
      if record.isPresent then
        let id ← declare (.ofName (dialect.nameOf record) .record)
        within (.assignment (some id)) (sources.forM walk)
        body.forM walk
      else fail (.misshapen .loopWithoutRecord)

end Lineage.Walk
