import Lineage.Scope.Basic

/-! # Bindings on their way out

A produced binding travels outward until a level takes it. When a level closes, it reports what it
gathered to the level around it. A step that fails tells the scope it leaves behind as well. -/

namespace Lineage.Scope

/-- The result of a step, and the scope after it, whether it succeeded or not. -/
abbrev Outcome := Except Error Unit × Scope

/-- Offers a binding to the given levels one after the other. What none of them takes
    goes to the root. -/
def receiveAmong (id : BindingId) (graph : Graph) : List Frame → Except Error (List Frame × Graph)
  | [] => .ok ([], graph)
  | frame :: rest =>
    match frame.receive graph id with
    | .error error => .error error
    | .ok (.consumed frame graph) => .ok (frame :: rest, graph)
    | .ok .forwarded => (receiveAmong id graph rest).map fun (rest, graph) => (frame :: rest, graph)

/-- Sends a binding outward from the innermost level. -/
def receive (scope : Scope) (id : BindingId) : Except Error Scope :=
  (receiveAmong id scope.graph scope.frames).map fun (frames, graph) => { scope with frames, graph }

/-- Offers a binding to the innermost level alone; nothing if that passes it on. -/
def receiveInnermost (scope : Scope) (id : BindingId) : Except Error (Option Scope) :=
  match scope.frames with
  | [] => .ok (some scope)
  | frame :: rest =>
    (frame.receive scope.graph id).map fun delivery =>
      match delivery with
      | .consumed frame graph => some { scope with frames := frame :: rest, graph }
      | .forwarded => none

/-- Sends bindings outward one after the other, up to the first that fails. -/
def receiveAll : List BindingId → Scope → Outcome
  | [], scope => (.ok (), scope)
  | id :: rest, scope =>
    match scope.receive id with
    | .ok scope => receiveAll rest scope
    | .error error => (.error error, scope)

/-- Closes the innermost level. It is gone even if closing it fails. -/
def pop (scope : Scope) : Outcome :=
  match scope.frames with
  | [] => (.error (.misshapen .rootPopped), scope)
  | frame :: rest =>
    let outer := { scope with frames := rest }
    match frame.finish scope.graph with
    | .ok reported => receiveAll reported outer
    | .error error => (.error error, outer)

/-- Closes a number of levels. If that fails, the rest of them are left without closing. -/
def popAll : Nat → Scope → Outcome
  | 0, scope => (.ok (), scope)
  | levels + 1, scope =>
    match scope.pop with
    | (.ok (), scope) => popAll levels scope
    | (.error error, scope) => (.error error, scope.dropTo (scope.height - levels))

/-- Closes all levels above a height, or leaves them without closing. -/
def unwind (scope : Scope) (height : Nat) (finish : Bool) : Outcome :=
  if finish then popAll (scope.height - max height 1) scope else (.ok (), scope.dropTo height)

/-- Ends an element of a select list. If its expression gave one value, that is the element's;
    otherwise a new binding named for the position stands for all its values. The element's value
    goes to the levels around the list. -/
def flushElement (scope : Scope) (position : Nat) : Outcome :=
  match scope.frames with
  | .selectList pending :: rest =>
    let (value, graph) := match pending with
      | [single] => (single, scope.graph)
      | values =>
        let (id, graph) :=
          scope.graph.add ((Binding.ofName s!"[{position}]" .aliased).withPosition position)
        (id, values.foldl (fun graph value => graph.addOutput value id) graph)
    match receiveAmong value graph rest with
    | .ok (rest, graph) => (.ok (), { scope with graph, frames := .selectList [] :: rest })
    | .error error => (.error error, { scope with graph, frames := .selectList [] :: rest })
  | _ => (.error (.misshapen .elementOutsideList), scope)

end Lineage.Scope
