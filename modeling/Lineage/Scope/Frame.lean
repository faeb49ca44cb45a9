import Lineage.Scope.Query

/-! # Frames

A frame is one level of the scope that surrounds a place in a program. It answers three questions:
what a name means here (`resolve?`), whether a new binding belongs here (`declare?`), and what a
binding produced further inside means here (`receive`). A frame without an answer leaves the
question to the frame around it. -/

namespace Lineage

inductive Frame where
  /-- A routine, package or loop body, and the binding whose body it is. -/
  | lexical (catalog : Catalog) (owner : Option BindingId)
  /-- Values flow into the target; without one the first value becomes the target. -/
  | assignment (target : Option BindingId)
  /-- The first value flows into the first target and so on; `received` values have come so far. -/
  | multipleAssignment (targets : List BindingId) (received : Nat)
  /-- Values become members of the binding if `structural`, and otherwise flow into it. -/
  | wrapper (binding : BindingId) (structural : Bool)
  /-- Values become members of the owner if `structural`, and otherwise flow into its members of
      the same names. -/
  | members (owner : BindingId) (structural : Bool)
  /-- Each value becomes a member of the one before it; `head` is the last one. -/
  | chain (head : Option BindingId)
  /-- Values are dropped. -/
  | ignoreReturn
  /-- Arguments flow into the parameters of the routine. -/
  | routineCall (routine : Option BindingId)
  | select (query : QueryScope)
  /-- The values of one element of a select list. -/
  | selectList (pending : List BindingId)
  /-- Tables pass, all other values are dropped. -/
  | effectClause

/-- What became of a binding offered to a frame. -/
inductive Delivery where
  /-- The frame took it, which changed the frame and the graph. -/
  | consumed (frame : Frame) (graph : Graph)
  /-- The frame passed it on, and nothing changed. -/
  | forwarded

namespace Frame

/-- An empty body. -/
def body (owner : Option BindingId) : Frame :=
  lexical .empty owner

/-- A query that has seen nothing yet. -/
def query : Frame :=
  select .empty

/-- The frame's word. -/
def role : Frame → String
  | lexical .. => "lexical"
  | assignment .. => "assignment"
  | multipleAssignment .. => "multiple-assignment"
  | wrapper .. => "wrapper"
  | members .. | chain .. => "children"
  | ignoreReturn => "ignore-return"
  | routineCall .. => "routine-call"
  | select .. => "select"
  | selectList .. => "select-list"
  | effectClause => "effect-clause"

def isSelect : Frame → Bool
  | select _ => true
  | _ => false

/-- What an exact name means at this level. -/
def resolve? (frame : Frame) (graph : Graph) (name : String) (accepts : Binding.Kind → Bool) :
    Option BindingId :=
  match frame with
  | lexical catalog _ => catalog.lookup? graph name accepts
  | select query => query.resolve? graph name accepts
  | _ => none

/-- Declares a binding at this level. Bodies and queries leave global bindings to the outermost
    level; a body makes a member of its owner what can be one. -/
def declare? (frame : Frame) (graph : Graph) (id : BindingId) : Option (Frame × Graph) :=
  match frame with
  | lexical catalog owner =>
    if (graph.kind id).isGlobal then none
    else
      let frame := lexical (catalog.add graph id) owner
      match owner with
      | some owner =>
        if (graph.kind id).isMember then some (frame, graph.addChild owner id)
        else some (frame, graph)
      | none => some (frame, graph)
  | select query =>
    if (graph.kind id).isGlobal then none
    else some (select { query with catalog := query.catalog.add graph id }, graph)
  | _ => none

/-- The first parameter of the routine that the argument is meant for: the one at its position or,
    if it has none, the one of its name. -/
def parameterFor? (graph : Graph) (routine argument : BindingId) : Option BindingId :=
  let parameters := (graph.children routine).filter fun child => graph.kind child == .parameter
  match (graph.get argument).position with
  | some position => parameters.find? fun id => (graph.get id).position == some position
  | none => parameters.find? fun id => graph.name id == graph.name argument

/-- An argument and the values it is made of flow into its parameter, or into the routine if
    there is none. -/
def passArgument (graph : Graph) (routine argument : BindingId) : Graph :=
  let target := (parameterFor? graph routine argument).getD routine
  let graph := graph.addOutput argument target
  (graph.children argument).foldl (fun graph value => graph.addOutput value target) graph

/-- A value flows into the member of its own name, which is added as a field if there is none. -/
def passToMember (graph : Graph) (owner id : BindingId) : Graph :=
  let (member, graph) := graph.childOrInsert owner (graph.name id) .field
  graph.addOutput id member

/-- Offers a binding to the frame. The only failure is a value for which no target is left. -/
def receive (frame : Frame) (graph : Graph) (id : BindingId) : Except Error Delivery :=
  match frame with
  | lexical _ owner =>
    match graph.kind id, owner with
    | .field, _ => if graph.name id == "delete" then .ok (.consumed frame graph) else .ok .forwarded
    | .call, _ => .ok (.consumed frame graph)
    | .result, some owner => .ok (.consumed frame (graph.addOutput id owner))
    | _, _ => .ok .forwarded
  | assignment none => .ok (.consumed (assignment (some id)) graph)
  | assignment (some target) =>
    .ok (.consumed frame (if target = id then graph else graph.addOutput id target))
  | multipleAssignment targets received =>
    match targets[received]? with
    | some target =>
      .ok (.consumed (multipleAssignment targets (received + 1)) (graph.addOutput id target))
    | none => .error (.mispaired (.surplus targets.length))
  | wrapper binding structural =>
    .ok (.consumed frame
      (if structural then graph.addChild binding id else graph.addOutput id binding))
  | members owner structural =>
    .ok (.consumed frame
      (if structural then graph.addChild owner id else passToMember graph owner id))
  | chain none => .ok (.consumed (chain (some id)) graph)
  | chain (some head) =>
    .ok (.consumed (chain (some id)) (if head = id then graph else graph.addChild head id))
  | ignoreReturn => .ok (.consumed frame graph)
  | routineCall routine =>
    if graph.kind id = .argument then
      match routine with
      | some routine => .ok (.consumed frame (passArgument graph routine id))
      | none => .ok (.consumed frame graph)
    else .ok .forwarded
  | select query =>
    if (graph.kind id).isSource then .ok (.consumed (select (query.addSource id)) graph)
    else .ok .forwarded
  | selectList pending => .ok (.consumed (selectList (pending ++ [id])) graph)
  | effectClause => if (graph.kind id).isSource then .ok .forwarded else .ok (.consumed frame graph)

/-- What a frame reports to the one around it when it closes. A frame with several targets can close
    only when each has received a value. -/
def finish (frame : Frame) (graph : Graph) : Except Error (List BindingId) :=
  match frame with
  | multipleAssignment targets received =>
    if received = targets.length then .ok []
    else .error (.mispaired (.shortfall received targets.length))
  | wrapper binding _ => if (graph.kind binding).isSignal then .ok [binding] else .ok []
  | chain (some head) => .ok [head]
  | selectList pending => .ok pending
  | _ => .ok []

end Frame

end Lineage
