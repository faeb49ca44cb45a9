/-! # Settings documents

A document is a list of statements: a value given to a key, or the start of a table in which the
keys that follow stand. -/

namespace Lineage.Toml

/-- How a table came about. -/
inductive Form where
  /-- It is written in braces. -/
  | braces
  /-- It has a heading of its own. -/
  | headed
  /-- Only headings of tables inside it mention it. -/
  | implied
  /-- Only keys with dots mention it. -/
  | dotted
deriving DecidableEq, Repr

/-- What a key stands for. Of values only texts are told apart closely. -/
inductive Item where
  | text (value : String)
  /-- A number, a truth value or a date, as written. -/
  | scalar (literal : String)
  | array (items : List Item)
  | table (form : Form) (entries : List (String × Item))
  /-- A list of tables, each with a heading of its own. -/
  | elements (tables : List (List (String × Item)))
deriving Repr

/-- The contents of a table, each key once. -/
abbrev Entries := List (String × Item)

/-- A statement; keys are lists of names, from the outermost table inward. -/
inductive Statement where
  | assign (key : List String) (value : Item)
  | table (key : List String)
  /-- The start of one more table of a list of tables. -/
  | element (key : List String)
deriving Repr

/-- The item is a list or a table that holds nothing. -/
def Item.isHollow : Item → Bool
  | array items => items.isEmpty
  | table _ entries => entries.isEmpty
  | elements tables => tables.isEmpty
  | text _ | scalar _ => false

/-- A character that must be escaped: a control character other than a tab. -/
def isControl (c : Char) : Bool :=
  (c.toNat < 0x20 && c != '\t') || c.toNat == 0x7F

/-- Values are nested less deep than this, and keys have fewer names. -/
def nestingLimit : Nat := 80

end Lineage.Toml
