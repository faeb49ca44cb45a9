import Lineage.Analysis.Document
import Lineage.Json.Fields
import Lineage.Proofs.Json.RoundTrip

/-!
# The document of an analysis loses nothing

`Analysis.decode?` reads the roots and the graph from the text of a document, without a look at the
ids and paths that stand beside the bindings. It gives back what the document was written for, so
different analyses have different documents: fields that are left out, empty ones and any text in
names and comments are all told apart.

## Key results

- `Binding.ofFields?_fieldValues`: the values of its fields tell a binding, whether optional ones
  are set or not
- `Analysis.written_toJson`: every literal of a document was written for a text or a number
- `Analysis.document_lossless`: the text of a document tells the roots and the graph
-/

namespace Lineage

/-! ### Reading documents -/

/-- The id that a JSON number stands for. -/
def BindingId.ofJson? (value : Json) : Option BindingId :=
  value.natural?.map BindingId.mk

namespace Binding

/-- The fields that tell a binding. -/
def fieldNames : List String :=
  ["name", "kind", "comment", "position", "types", "children", "outputs"]

/-- The binding that the values of the fields tell. -/
def ofFields? : List (Option Json) → Option Binding
  | [name, kind, comment, position, types, children, outputs] => do
    return {
      name := ← Json.requiredText? name
      kind := ← (Json.requiredText? kind).bind Kind.ofName?
      comment := ← Json.optional? Json.text? comment
      position := ← Json.optional? Json.natural? position
      types := ← (← Json.elements? types).mapM Json.text?
      children := ← (← Json.elements? children).mapM BindingId.ofJson?
      outputs := ← (← Json.elements? outputs).mapM BindingId.ofJson? }
  | _ => none

/-- The binding that an entry of a document tells. -/
def ofEntry? (entry : Json) : Option Binding :=
  (entry.fields? fieldNames).bind ofFields?

end Binding

/-- The roots and the graph that the text of a document tells. -/
def Analysis.decode? (text : String) : Option (List BindingId × Graph) := do
  let document ← Json.parse? text
  match ← document.fields? ["roots", "bindings"] with
  | [roots, bindings] =>
    let roots ← (← Json.elements? roots).mapM BindingId.ofJson?
    let bindings ← (← Json.elements? bindings).mapM Binding.ofEntry?
    return (roots, ⟨bindings.toArray⟩)
  | _ => none

/-! ### Fields -/

namespace Json

variable {α : Type} {write : α → Json} {members : List (String × Json)}

/-- Reading what was written for each element of a list. -/
theorem mapM_map_eq_some {β : Type} {read : Json → Option β} {view : α → β}
    (h : ∀ value, read (write value) = some (view value)) (values : List α) :
    (values.map write).mapM read = some (values.map view) := by
  induction values with
  | nil => rfl
  | cons value rest ih =>
    rw [List.map_cons, List.mapM_cons, h, ih]
    rfl

theorem text?_ofText (text : String) : (ofText text).text? = some text :=
  decode_encode text

/-- A field that is written only if it is set. -/
theorem optional?_map {read : Json → Option α} (hread : ∀ value, read (write value) = some value)
    (hnull : ∀ value, write value ≠ null) (value : Option α) :
    optional? read (value.map write) = some value := by
  cases value with
  | none => rfl
  | some value =>
    have hset := hnull value
    rw [Option.map_some, optional?]
    · rw [hread, Option.map_some]
    · exact hset

/-- Keys that stand for themselves. -/
theorem keyed?_eq_some (h : ∀ member ∈ members, decode member.1 = some member.1) :
    keyed? members = some members := by
  induction members with
  | nil => rfl
  | cons member rest ih =>
    obtain ⟨key, value⟩ := member
    have hkey : decode key = some key := h (key, value) List.mem_cons_self
    have hrest := ih fun other hother => h other (List.mem_cons_of_mem _ hother)
    rw [keyed?] at hrest ⊢
    simp only [List.mapM_cons, hkey, hrest, Option.map_some, Option.bind_eq_bind, Option.bind_some,
      Option.pure_def]

theorem writtenElements_iff {elements : List Json} :
    WrittenElements elements ↔ ∀ element ∈ elements, element.Written := by
  induction elements with
  | nil => simp [WrittenElements]
  | cons element rest ih => rw [WrittenElements, ih, List.forall_mem_cons]

theorem writtenMembers_iff : WrittenMembers members ↔
    ∀ member ∈ members, (∃ text, member.1 = encode text) ∧ member.2.Written := by
  induction members with
  | nil => simp [WrittenMembers]
  | cons member rest ih => rw [WrittenMembers, ih, List.forall_mem_cons, and_assoc]

theorem written_ofText (text : String) : (ofText text).Written := by
  rw [ofText, Written]
  exact ⟨text, rfl⟩

theorem written_ofNat (value : Nat) : (ofNat value).Written := by
  rw [ofNat, Written]
  exact ⟨value, rfl⟩

theorem written_array_map (h : ∀ value, (write value).Written) (values : List α) :
    (array (values.map write)).Written := by
  rw [Written, writtenElements_iff, List.forall_mem_map]
  exact fun value _ => h value

/-- The keys of a document. They need no escapes. -/
def documentKeys : List String :=
  ["roots", "bindings", "id", "path", "name", "kind", "comment", "position", "types",
    "children", "outputs"]

theorem encode_of_mem_documentKeys : ∀ key ∈ documentKeys, encode key = key := by
  decide

/-- An object with keys of a document is written if its values are. -/
theorem written_object (h : ∀ member ∈ members, member.1 ∈ documentKeys ∧ member.2.Written) :
    (object members).Written := by
  rw [Written, writtenMembers_iff]
  intro member hmember
  obtain ⟨hkey, hvalue⟩ := h member hmember
  exact ⟨⟨member.1, (encode_of_mem_documentKeys _ hkey).symm⟩, hvalue⟩

/-- The fields of an object with keys of a document. -/
theorem fields?_object (h : ∀ member ∈ members, member.1 ∈ documentKeys) (names : List String) :
    (object members).fields? names = names.mapM (field? members) := by
  have hkeys : keyed? members = some members := by
    refine keyed?_eq_some fun member hmember => ?_
    have hdecode := decode_encode member.1
    rwa [encode_of_mem_documentKeys _ (h member hmember)] at hdecode
  rw [fields?, hkeys, Option.bind_eq_bind, Option.bind_some]

end Json

/-! ### Entries -/

theorem BindingId.ofJson?_toJson (id : BindingId) : ofJson? id.toJson = some id := by
  rw [ofJson?, toJson, Json.natural?_ofNat, Option.map_some]

theorem BindingId.mapM_ofJson?_toJson (ids : List BindingId) :
    (ids.map toJson).mapM ofJson? = some ids := by
  rw [Json.mapM_map_eq_some ofJson?_toJson, List.map_id']

namespace Binding

/-- The words of the kinds tell them apart. -/
theorem Kind.ofName?_capitalName (kind : Kind) : ofName? kind.capitalName = some kind := by
  cases kind <;> decide +kernel

/-- The fields of a binding have keys of a document, and their values are written. -/
theorem written_of_mem_toFields {binding : Binding} {member : String × Json}
    (h : member ∈ binding.toFields) : member.1 ∈ Json.documentKeys ∧ member.2.Written := by
  have hids : ∀ ids : List BindingId, (Json.array (ids.map BindingId.toJson)).Written :=
    Json.written_array_map fun id => Json.written_ofNat id.index
  simp only [toFields, List.mem_append, Option.mem_toList] at h
  -- The fields come in five groups, of which those in the middle may be missing.
  rcases h with (((hfirst | hcomment) | hposition) | htypes) | hlast
  · rcases List.mem_cons.mp hfirst with rfl | hkind
    · exact ⟨by simp [Json.documentKeys], Json.written_ofText _⟩
    · rw [List.mem_singleton.mp hkind]
      exact ⟨by simp [Json.documentKeys], Json.written_ofText _⟩
  · obtain ⟨comment, _, rfl⟩ := Option.map_eq_some_iff.mp hcomment
    exact ⟨by simp [Json.documentKeys], Json.written_ofText comment⟩
  · obtain ⟨position, _, rfl⟩ := Option.map_eq_some_iff.mp hposition
    exact ⟨by simp [Json.documentKeys], Json.written_ofNat position⟩
  · split at htypes
    · cases htypes
    · rw [List.mem_singleton.mp htypes]
      exact ⟨by simp [Json.documentKeys], Json.written_array_map Json.written_ofText _⟩
  · rcases List.mem_cons.mp hlast with rfl | houtputs
    · exact ⟨by simp [Json.documentKeys], hids _⟩
    · rw [List.mem_singleton.mp houtputs]
      exact ⟨by simp [Json.documentKeys], hids _⟩

/-- The values that an entry holds under `fieldNames`. Fields that are not set are missing. -/
def fieldValues (binding : Binding) : List (Option Json) :=
  [some (.ofText binding.name), some (.ofText binding.kind.capitalName),
    binding.comment.map Json.ofText, binding.position.map Json.ofNat,
    if binding.types.isEmpty then none else some (.array (binding.types.map Json.ofText)),
    some (.array (binding.children.map BindingId.toJson)),
    some (.array (binding.outputs.map BindingId.toJson))]

theorem mapM_field?_toFields (binding : Binding) (id path : Json) :
    fieldNames.mapM (Json.field? ([("id", id), ("path", path)] ++ binding.toFields)) =
      some binding.fieldValues := by
  obtain ⟨name, kind, comment, position, types, children, outputs⟩ := binding
  cases comment <;> cases position <;> cases types <;>
    simp [fieldNames, Json.field?, toFields, fieldValues]

/-- The values of its fields tell a binding. -/
theorem ofFields?_fieldValues (binding : Binding) :
    ofFields? binding.fieldValues = some binding := by
  have htypes : Json.elements?
      (if binding.types.isEmpty then none else some (.array (binding.types.map Json.ofText))) =
      some (binding.types.map Json.ofText) := by
    cases binding.types <;> rfl
  have htexts := Json.mapM_map_eq_some Json.text?_ofText binding.types
  rw [List.map_id'] at htexts
  have hcomment :=
    Json.optional?_map Json.text?_ofText (fun text => by simp [Json.ofText]) binding.comment
  have hposition :=
    Json.optional?_map Json.natural?_ofNat (fun value => by simp [Json.ofNat]) binding.position
  have harray : ∀ elements, Json.elements? (some (.array elements)) = some elements := fun _ => rfl
  simp only [ofFields?, fieldValues, Json.requiredText?, Json.text?_ofText, harray, htypes, htexts,
    hcomment, hposition, BindingId.mapM_ofJson?_toJson, Kind.ofName?_capitalName,
    Option.bind_eq_bind, Option.bind_some, Option.pure_def]

end Binding

/-- The bindings of a graph, by their ids. -/
theorem Graph.map_get_ids (graph : Graph) : graph.ids.map graph.get = graph.bindings.toList := by
  refine List.ext_getElem (by simp [ids, size]) fun place hplace hvalid => ?_
  rw [Array.length_toList] at hvalid
  simp [ids, get, Array.getD_eq_getD_getElem?, hvalid]

namespace Analysis

/-- The members of an entry have keys of a document, and their values are written. -/
theorem written_of_mem_entry {analysis : Analysis} {id : BindingId} {member : String × Json}
    (h : member ∈ [("id", id.toJson), ("path", .ofText (analysis.path id))] ++
      (analysis.graph.get id).toFields) :
    member.1 ∈ Json.documentKeys ∧ member.2.Written := by
  rcases List.mem_append.mp h with hfirst | hfields
  · rcases List.mem_cons.mp hfirst with rfl | hpath
    · exact ⟨by simp [Json.documentKeys], Json.written_ofNat _⟩
    · rw [List.mem_singleton.mp hpath]
      exact ⟨by simp [Json.documentKeys], Json.written_ofText _⟩
  · exact Binding.written_of_mem_toFields hfields

/-- An entry tells its binding. -/
theorem ofEntry?_entry (analysis : Analysis) (id : BindingId) :
    Binding.ofEntry? (analysis.entry id) = some (analysis.graph.get id) := by
  rw [Binding.ofEntry?, entry,
    Json.fields?_object fun member hmember => (written_of_mem_entry hmember).1,
    Binding.mapM_field?_toFields, Option.bind_some, Binding.ofFields?_fieldValues]

/-- Every literal of a document was written for a text or a number. -/
theorem written_toJson (analysis : Analysis) : analysis.toJson.Written := by
  refine Json.written_object fun member hmember => ?_
  rcases List.mem_cons.mp hmember with rfl | hbindings
  · exact ⟨by simp [Json.documentKeys],
      Json.written_array_map (fun id : BindingId => Json.written_ofNat id.index) _⟩
  · rw [List.mem_singleton.mp hbindings]
    refine ⟨by simp [Json.documentKeys], Json.written_array_map (fun id => ?_) _⟩
    exact Json.written_object fun member hmember => written_of_mem_entry hmember

/-- Reading the text of a document gives the roots and the graph. -/
theorem decode?_document (analysis : Analysis) :
    decode? analysis.document = some (analysis.roots, analysis.graph) := by
  have hfields : analysis.toJson.fields? ["roots", "bindings"] = some
      [some (.array (analysis.roots.map BindingId.toJson)),
        some (.array (analysis.graph.ids.map analysis.entry))] := by
    rw [toJson, Json.fields?_object (by simp [Json.documentKeys])]
    simp [Json.field?]
  have hbindings := Json.mapM_map_eq_some analysis.ofEntry?_entry analysis.graph.ids
  rw [decode?, document, Json.parse?_pretty (written_toJson analysis)]
  simp only [Option.bind_eq_bind, Option.bind_some, hfields, Json.elements?,
    BindingId.mapM_ofJson?_toJson, hbindings, Graph.map_get_ids]
  rfl

/-- The text of a document tells the roots and every field of every binding. Two analyses share a
    document only if they have the same roots and the same graph. -/
theorem document_lossless (analysis other : Analysis) :
    decode? analysis.document = some (analysis.roots, analysis.graph) ∧
      (other.document = analysis.document ↔ other.roots = analysis.roots ∧
        other.graph = analysis.graph) := by
  refine ⟨decode?_document analysis, fun h => ?_, fun h => ?_⟩
  · have hboth : some (other.roots, other.graph) = some (analysis.roots, analysis.graph) := by
      rw [← decode?_document other, h, decode?_document analysis]
    exact Prod.mk.inj (Option.some.inj hboth)
  · -- The owners are those of the graph.
    obtain ⟨graph, roots, owners, rfl⟩ := analysis
    obtain ⟨graph', roots', owners', rfl⟩ := other
    obtain ⟨rfl, rfl⟩ := h
    rfl

end Analysis

end Lineage
