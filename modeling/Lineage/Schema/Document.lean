import Lineage.Json.Fields
import Lineage.Json.Parser
import Lineage.Schema.Basic

/-! # Schema documents

Reads a schema from a JSON text: an object with a list of tables, each with a name, a type, a
comment and a list of columns. -/

namespace Lineage

namespace Relation

/-- A type by its word. -/
def Type.ofWord? : String → Option Relation.Type
  | "table" => some .table
  | "view" => some .view
  | _ => none

/-- A type is its word, or an object whose only key is the word and holds null. -/
def Type.read? : Json → Option Relation.Type
  | .string literal => (Json.decode literal).bind ofWord?
  | .object [(key, .null)] => (Json.decode key).bind ofWord?
  | _ => none

/-- The type of a relation that states none is `table`. -/
def Type.readField? : Option Json → Option Relation.Type
  | none => some .table
  | some value => read? value

end Relation

/-- Reads a column. -/
def Column.read? (value : Json) : Option Column :=
  match value.fields? ["name", "comment"] with
  | some [name, comment] => do
    return { name := ← Json.requiredText? name, comment := ← Json.optional? Json.text? comment }
  | _ => none

/-- Reads a table or view. -/
def Relation.read? (value : Json) : Option Relation :=
  match value.fields? ["name", "type", "comment", "columns"] with
  | some [name, type, comment, columns] => do
    return {
      name := ← Json.requiredText? name
      type := ← Relation.Type.readField? type
      comment := ← Json.optional? Json.text? comment
      columns := ← (← Json.elements? columns).mapM Column.read? }
  | _ => none

namespace Schema

/-- Reads a schema from a value. -/
def read? (value : Json) : Option Schema :=
  match value.fields? ["tables"] with
  | some [tables] => do
    return ofRelations (← (← Json.elements? tables).mapM Relation.read?)
  | _ => none

/-- The schema that a JSON text holds. -/
def parse? (text : String) : Option Schema :=
  (Json.parse? text).bind read?

end Schema

end Lineage
