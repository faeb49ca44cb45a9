import Lineage.Proofs.Scope.Columns
import Lineage.Proofs.Scope.Schema

/-!
# Qualified names are followed from left to right

A qualified name is looked up from its last segment on: its owner is what the segments before mean,
and so on down to the first one. Read from left to right, this is a way through the graph. The first
segment is looked for in the levels and in the schema, each further one among the members of what
the way has come to, and only what can qualify a name counts until the name itself is reached. The
two ways of reading agree for every scope and any number of segments.

## Key results

- `Scope.resolvePlain?_eq_findSome?`: a plain name means what the first level with an answer says
- `Scope.resolveUnder?_eq_follow`: from the last segment on, or from the first one on
- `Scope.qualified_names_followed`: what a qualified name means, and that it is a member of what its
  qualifier means
-/

namespace Lineage

namespace Graph

/-- From member to member along the segments, each time to the member attached last among those with
    the name of the segment that can qualify a name. -/
def descend? (graph : Graph) : BindingId → List String → Option BindingId
  | owner, [] => some owner
  | owner, segment :: rest =>
    match (graph.membersMatching owner segment Binding.Kind.isContainer).getLast? with
    | some member => graph.descend? member rest
    | none => none

/-- One more segment at the end of the way. -/
theorem descend?_append (graph : Graph) (owner : BindingId) (front back : List String) :
    graph.descend? owner (front ++ back) =
      (graph.descend? owner front).bind (graph.descend? · back) := by
  induction front generalizing owner with
  | nil => rfl
  | cons segment rest ih =>
    simp only [List.cons_append, descend?]
    split
    · exact ih _
    · rfl

end Graph

namespace Scope

variable (scope : Scope) (localOnly : Bool)

/-- What the levels say about a plain name, innermost first and the root last, and then the schema,
    unless only the levels count. -/
def answers (name : String) (accepts : Binding.Kind → Bool) : List (Option BindingId) :=
  scope.frames.map (·.resolve? scope.graph name accepts) ++
  [scope.root.catalog.lookup? scope.graph name accepts] ++
    if localOnly then [] else [(scope.external? name).filter fun id =>
      accepts (scope.graph.kind id)]

/-- What a qualifier means: the first answer for its first segment, and from there from
    member to member. -/
def follow? (first : String) (rest : List String) : Option BindingId :=
  ((scope.answers localOnly first Binding.Kind.isContainer).findSome? id).bind
    (scope.graph.descend? · rest)

/-- A plain name means what the first level with an answer says. -/
theorem resolvePlain?_eq_findSome? (name : String) (accepts : Binding.Kind → Bool) :
    scope.resolvePlain? localOnly name accepts =
      (scope.answers localOnly name accepts).findSome? id := by
  have hframes : (scope.frames.map (·.resolve? scope.graph name accepts)).findSome? id =
      scope.frames.findSome? (·.resolve? scope.graph name accepts) := by
    rw [List.findSome?_map]
    rfl
  rw [resolvePlain?_eq_or, answers, List.findSome?_append, List.findSome?_append, hframes,
    List.findSome?_singleton]
  cases localOnly <;> simp

/-- One more segment of a qualifier. -/
theorem follow?_append (first : String) (front back : List String) :
    scope.follow? localOnly first (front ++ back) =
      (scope.follow? localOnly first front).bind (scope.graph.descend? · back) := by
  rw [follow?, follow?, Option.bind_assoc]
  congr 1
  funext owner
  exact scope.graph.descend?_append owner front back

/-- From the last segment on, or from the first one on: what a name under a qualifier means is the
    same. The segments of the qualifier come innermost first on the left side. -/
theorem resolveUnder?_eq_follow (first : String) (rest : List String) (name : String)
    (accepts : Binding.Kind → Bool) :
    scope.resolveUnder? localOnly (rest.reverse ++ [first]) name accepts =
      (scope.follow? localOnly first rest).bind fun owner =>
        (scope.graph.membersMatching owner name accepts).getLast? := by
  induction rest using List.reverseRecOn generalizing name accepts with
  | nil =>
    -- The only segment is a plain name.
    have hfirst : scope.follow? localOnly first [] =
        scope.resolvePlain? localOnly first Binding.Kind.isContainer := by
      rw [resolvePlain?_eq_findSome?, follow?]
      cases (scope.answers localOnly first Binding.Kind.isContainer).findSome? id <;> rfl
    rw [hfirst]
    simp only [List.reverse_nil, List.nil_append, resolveUnder?]
    cases scope.resolvePlain? localOnly first Binding.Kind.isContainer with
    | none => rfl
    | some owner => exact scope.graph.latestChild?_eq_getLast? owner name accepts
  | append_singleton front segment ih =>
    have hlast : scope.follow? localOnly first (front ++ [segment]) =
        scope.resolveUnder? localOnly (front.reverse ++ [first]) segment
          Binding.Kind.isContainer := by
      rw [ih, follow?_append]
      congr 1
      funext owner
      simp only [Graph.descend?]
      split
      · next hfound => exact hfound.symm
      · next hnone => exact hnone.symm
    rw [hlast, List.reverse_append, List.reverse_singleton, List.singleton_append, List.cons_append,
      resolveUnder?]
    cases scope.resolveUnder? localOnly (front.reverse ++ [first]) segment
        Binding.Kind.isContainer with
    | none => rfl
    | some owner => exact scope.graph.latestChild?_eq_getLast? owner name accepts

/-- A qualified name is followed from left to right, for every scope and any number of qualifying
    segments. The first segment means what the first level with an answer says, or the schema where
    it counts; each further segment means the member of that name attached last among those that can
    qualify a name; and the name itself means the member of what the qualifier means that was
    attached last among those with its name and an accepted kind. Where one of these steps leads to
    nothing, the name means nothing, whatever it means on its own. A qualifier that is written as a
    text has the pieces between its dots for segments, empty ones included. -/
theorem qualified_names_followed (first : String) (rest : List String) (name : String)
    (kind : Option Binding.Kind) :
    let qualified : QualifiedName := ⟨first :: rest, name, kind, localOnly⟩
    (scope.resolve? qualified = (scope.follow? localOnly first rest).bind fun owner =>
      (scope.graph.membersMatching owner name qualified.accepts).getLast?) ∧
    (∀ front back, rest = front ++ back → scope.follow? localOnly first front = none →
      scope.resolve? qualified = none) ∧
    (∀ id, scope.resolve? qualified = some id →
      ∃ owner, scope.follow? localOnly first rest = some owner ∧
      id ∈ scope.graph.children owner ∧ scope.graph.name id = name ∧
      kind.all (· == scope.graph.kind id) = true) ∧
    ∀ (plain : QualifiedName) (text : String), fold text = Text.joinDots (first :: rest) →
      fold text ≠ "" →
      (∀ segment ∈ first :: rest, '.' ∉ segment.toList) →
        plain.qualifiedBy text = { plain with qualifier := first :: rest } := by
  intro qualified
  have hfollow : scope.resolve? qualified = (scope.follow? localOnly first rest).bind fun owner =>
      (scope.graph.membersMatching owner name qualified.accepts).getLast? := by
    rw [← resolveUnder?_eq_follow, resolve?]
    simp only [qualified, List.reverse_cons]
  refine ⟨hfollow, fun front back hrest hnone => ?_, fun id hid => ?_,
    fun plain text htext hsome hdots => ?_⟩
  · rw [hfollow, hrest, follow?_append, hnone]
    rfl
  · rw [hfollow] at hid
    obtain ⟨owner, howner, hlast⟩ := Option.bind_eq_some_iff.mp hid
    have hmember := List.mem_of_getLast? hlast
    rw [Graph.membersMatching, List.mem_filter, Bool.and_eq_true, beq_iff_eq] at hmember
    exact ⟨owner, howner, hmember.1, hmember.2.1, hmember.2.2⟩
  · have hsegments : Text.segments (fold text) = first :: rest := by
      rw [htext]
      exact Text.segments_joinDots (List.cons_ne_nil _ _) hdots
    rw [QualifiedName.qualifiedBy, hsegments]
    simp [hsome]

/-- A body inside which a variable goes by a name that is no column of the only table
    of the schema. -/
def besideTable : Scope :=
  (((ofSchema (.oneTable "t" ["a"])).push (.body none)).declareNew (.ofName "b" .var)).2

/-- The table qualifies its column, and it does not qualify the variable, though this has a
    meaning of its own. -/
theorem qualified_names_followed_besideTable :
    besideTable.resolve? ⟨["t"], "a", none, false⟩ = some ⟨1⟩ ∧
    (∃ owner, besideTable.follow? false "t" [] = some owner ∧
      ⟨1⟩ ∈ besideTable.graph.children owner) ∧
    besideTable.resolve? (.ofName "b") = some ⟨2⟩ ∧
    besideTable.resolve? ⟨["t"], "b", none, false⟩ = none ∧
    besideTable.follow? false "t" ["a"] = none ∧
    besideTable.resolve? ⟨["t", "a"], "b", none, false⟩ = none ∧
    (QualifiedName.ofName "B").qualifiedBy " T.A" = ⟨["t", "a"], "b", none, false⟩ := by
  have hcolumn : besideTable.resolve? ⟨["t"], "a", none, false⟩ = some ⟨1⟩ := by decide +kernel
  have hstuck : besideTable.follow? false "t" ["a"] = none := by decide +kernel
  obtain ⟨_, _, hmember, _⟩ := besideTable.qualified_names_followed false "t" [] "a" none
  obtain ⟨howner, _, _, _⟩ := besideTable.qualified_names_followed false "t" [] "b" none
  obtain ⟨_, hnone, _, htext⟩ := besideTable.qualified_names_followed false "t" ["a"] "b" none
  obtain ⟨owner, hfollowed, hchild, _⟩ := hmember ⟨1⟩ hcolumn
  have hqualified := htext (.ofName "B") " T.A" (by decide +kernel) (by decide +kernel) (by decide)
  exact ⟨hcolumn, ⟨owner, hfollowed, hchild⟩, by decide +kernel,
    howner.trans (by decide +kernel), hstuck, hnone ["a"] [] rfl hstuck,
    hqualified.trans (by decide +kernel)⟩

end Scope

end Lineage
