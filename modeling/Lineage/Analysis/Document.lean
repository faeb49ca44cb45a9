import Lineage.Analysis.Basic
import Lineage.Json.Printer

/-! # Analysis documents

An analysis as a JSON value: the roots, and every binding with its id and path. Fields that are not
set are left out. -/

namespace Lineage

/-- The JSON number of a binding. -/
def BindingId.toJson (id : BindingId) : Json :=
  .ofNat id.index

/-- The fields of a binding. -/
def Binding.toFields (binding : Binding) : List (String × Json) :=
  [("name", .ofText binding.name), ("kind", .ofText binding.kind.capitalName)] ++
    (binding.comment.map fun comment => ("comment", Json.ofText comment)).toList ++
    (binding.position.map fun position => ("position", Json.ofNat position)).toList ++
    (if binding.types.isEmpty then [] else [("types", .array (binding.types.map Json.ofText))]) ++
    [("children", .array (binding.children.map BindingId.toJson)),
     ("outputs", .array (binding.outputs.map BindingId.toJson))]

namespace Analysis

/-- A binding with its id and path. -/
def entry (analysis : Analysis) (id : BindingId) : Json :=
  .object ([("id", id.toJson), ("path", .ofText (analysis.path id))] ++
    (analysis.graph.get id).toFields)

/-- The whole analysis. -/
def toJson (analysis : Analysis) : Json :=
  .object
    [("roots", .array (analysis.roots.map BindingId.toJson)),
     ("bindings", .array (analysis.graph.ids.map analysis.entry))]

/-- The document on several lines. -/
def document (analysis : Analysis) : String :=
  analysis.toJson.pretty

end Analysis

end Lineage
