import Lineage.Toml.Basic

/-! # Tables

What the statements of a document define together. No key may be defined twice, and a table that was
given in one form cannot be added to in another. -/

namespace Lineage.Toml

namespace Entries

/-- Defines a key, instead of what it stood for before. -/
def put (entries : Entries) (name : String) (item : Item) : Entries :=
  if entries.any (·.1 == name) then
    entries.map fun entry => if entry.1 == name then (name, item) else entry
  else entries ++ [(name, item)]

/-- Changes the table that names lead to from a table of the given form. A table not yet known is
    made on the way, and in a list of tables the last one is meant. The names of a key, unlike
    those of a heading, do not lead through tables that have a heading, and none lead through
    tables in braces. -/
def within (ofKey : Bool) (change : Form → Entries → Option Entries) (form : Form)
    (entries : Entries) : List String → Option Entries
  | [] => change form entries
  | name :: rest =>
    match entries.lookup name with
    | none =>
      let form := if ofKey then Form.dotted else .implied
      (within ofKey change form [] rest).map fun inner => entries.put name (.table form inner)
    | some (.table form inner) =>
      if form = .braces ∨ (ofKey ∧ form = .headed) then none
      else (within ofKey change form inner rest).map fun inner =>
        entries.put name (.table form inner)
    | some (.elements tables) =>
      match tables.getLast? with
      | none => none
      | some last =>
        (within ofKey change .headed last rest).map fun inner =>
          entries.put name (.elements (tables.dropLast ++ [inner]))
    | some _ => none

/-- Gives a value to a key of a table of the given form. A key with dots defines something in a
    table that only such keys mention. -/
def assign (form : Form) (entries : Entries) (key : List String) (value : Item) : Option Entries :=
  match key.getLast? with
  | none => none
  | some name =>
    within true
      (fun form entries =>
        if (form == .dotted) == key.dropLast.isEmpty || (entries.lookup name).isSome then none
        else some (entries.put name value))
      form entries key.dropLast

/-- Starts a table under a name. It may have been implied before. -/
def start (name : String) (entries : Entries) : Option Entries :=
  match entries.lookup name with
  | none => some (entries.put name (.table .headed []))
  | some (.table .implied inner) => some (entries.put name (.table .headed inner))
  | some _ => none

/-- Starts one more table of the list of tables under a name. -/
def startElement (name : String) (entries : Entries) : Option Entries :=
  match entries.lookup name with
  | none => some (entries.put name (.elements [[]]))
  | some (.elements tables) => some (entries.put name (.elements (tables ++ [[]])))
  | some _ => none

/-- Carries out a statement in the table that the names `here` lead to, and gives the names for
    the next one. -/
def apply (entries : Entries) (here : List String) : Statement → Option (Entries × List String)
  | .assign key value =>
    (within false (fun form inner => assign form inner key value) .headed entries here).map
      (·, here)
  | .table key =>
    match key.getLast? with
    | none => none
    | some name => (within false (fun _ => start name) .headed entries key.dropLast).map (·, key)
  | .element key =>
    match key.getLast? with
    | none => none
    | some name =>
      (within false (fun _ => startElement name) .headed entries key.dropLast).map (·, key)

/-- Carries out statements one after the other. -/
def applyAll (entries : Entries) (here : List String) : List Statement → Option Entries
  | [] => some entries
  | statement :: rest =>
    match entries.apply here statement with
    | none => none
    | some (entries, here) => applyAll entries here rest

end Entries

/-- What the statements define, if they fit together. -/
def define? (statements : List Statement) : Option Entries :=
  Entries.applyAll [] [] statements

/-- The text that a key was given. The outer `none` says that it was given something else. -/
def textAt? (entries : Entries) (key : String) : Option (Option String) :=
  match entries.lookup key with
  | none => some none
  | some (.text text) => some (some text)
  | some _ => none

end Lineage.Toml
