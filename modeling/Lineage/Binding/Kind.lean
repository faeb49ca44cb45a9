import Lineage.Error

/-! # Kinds of bindings

What a name can stand for. A few classes of kinds decide where a binding is declared and how it
travels through the frames of a scope. -/

namespace Lineage.Binding

inductive Kind where
  | relation
  | column
  | record
  | package
  | routine
  | var
  | parameter
  | cursor
  | field
  | aliased
  | argument
  | result
  | call
deriving DecidableEq, Repr

namespace Kind

/-- All kinds, in the order in which they are counted and listed. -/
def all : List Kind :=
  [relation, column, record, package, routine, var, parameter, cursor, field, aliased, argument,
   result, call]

/-- The kind's word. -/
def name : Kind → String
  | relation => "relation"
  | column => "column"
  | record => "structure"
  | package => "package"
  | routine => "routine"
  | var => "variable"
  | parameter => "parameter"
  | cursor => "cursor"
  | field => "field"
  | aliased => "alias"
  | argument => "argument"
  | result => "return"
  | call => "call"

/-- The kind's word in capitals, as documents write it. -/
def capitalName (kind : Kind) : String :=
  kind.name.map Char.toUpper

/-- The kind with the given word, in any mix of ASCII upper and lower case. -/
def ofName? (text : String) : Option Kind :=
  all.find? fun kind => kind.name == text.map Char.toLower

/-- The kind with the given word, or the complaint that there is none. -/
def ofName (text : String) : Except Error Kind :=
  match ofName? text with
  | some kind => .ok kind
  | none => .error (.unreadable s!"Unknown binding kind: {text}")

/-- Declared in the outermost frame, wherever the declaration stands. -/
def isGlobal : Kind → Bool
  | relation | package => true
  | _ => false

/-- Can qualify a name. -/
def isContainer : Kind → Bool
  | relation | record | package | cursor => true
  | _ => false

/-- Becomes a child of the routine or package that declares it. -/
def isMember : Kind → Bool
  | routine | parameter | cursor | var => true
  | _ => false

/-- Is reported to the enclosing frame when its own frame closes. -/
def isSignal : Kind → Bool
  | result | argument => true
  | _ => false

/-- Can be read from by a query. -/
def isSource : Kind → Bool
  | relation | record => true
  | _ => false

end Kind

end Lineage.Binding
