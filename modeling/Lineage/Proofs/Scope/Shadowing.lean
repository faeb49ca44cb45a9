import Mathlib.Data.List.Find
import Lineage.Proofs.Scope.Columns
import Lineage.Proofs.Scope.Names

/-!
# Declarations shadow

A binding that is declared for the first time becomes the meaning of its name, as far as its kind is
wanted, and all other plain names keep their meaning. This takes two things. The level that takes
the declaration is the innermost one that knows any names, so nothing further inside hides it. And
where the binding becomes a member of an owner, it can be taken for a column of that owner only by a
name that now means the binding itself.

## Key results

- `Catalog.lookup?_add`: what a catalog finds after a declaration
- `Frame.resolve?_congr`: what a level says depends on little of the graph
- `Scope.resolvePlain?_declare`: what plain names mean after a declaration
- `Scope.resolvePlain?_declareNew`: the same for a binding that is added to be declared
-/

namespace Lineage

/-! ### Members that do not match -/

namespace Graph

@[simp] theorem name_addChild (graph : Graph) (parent child id : BindingId) :
    (graph.addChild parent child).name id = graph.name id := by
  unfold addChild name
  split
  · rfl
  · rw [get_update]
    split <;> rfl

/-- Members stay, and one comes to them at most. -/
theorem children_addChild_cases (graph : Graph) (parent child id : BindingId) :
    (graph.addChild parent child).children id = graph.children id ∨
      (graph.addChild parent child).children id = graph.children id ++ [child] := by
  unfold addChild
  split
  · exact .inl rfl
  · simp only [children, get_update]
    split
    · exact .inr rfl
    · exact .inl rfl

/-- A new member does not count for names and kinds that are not its own. -/
theorem membersMatching_addChild {graph : Graph} {child : BindingId} {name : String}
    {accepts : Binding.Kind → Bool}
    (h : ¬(graph.name child = name ∧ accepts (graph.kind child) = true)) (parent id : BindingId) :
    (graph.addChild parent child).membersMatching id name accepts =
      graph.membersMatching id name accepts := by
  have hchild : (graph.name child == name && accepts (graph.kind child)) = false := by
    rw [← Bool.not_eq_true, Bool.and_eq_true, beq_iff_eq]
    exact h
  simp only [membersMatching, name_addChild, kind_addChild]
  rcases graph.children_addChild_cases parent child id with hsame | hmore
  · rw [hsame]
  · rw [hmore, List.filter_append, List.filter_singleton, hchild]
    simp

/-- A new member that matches comes last. -/
theorem membersMatching_addChild_self {graph : Graph} {parent child : BindingId}
    (hparent : graph.contains parent = true) (hnew : child ∉ graph.children parent) (name : String)
    (accepts : Binding.Kind → Bool) :
    (graph.addChild parent child).membersMatching parent name accepts =
      graph.membersMatching parent name accepts ++
      if graph.name child = name ∧ accepts (graph.kind child) = true then [child] else [] := by
  simp only [membersMatching, name_addChild, kind_addChild, children_addChild hparent hnew,
    List.filter_append, List.filter_singleton, cond_eq_ite, Bool.and_eq_true, beq_iff_eq]

/-- In a well-formed graph a new binding is a member of none that was there. -/
theorem WellFormed.membersMatching_push {graph : Graph} (h : graph.WellFormed) (binding : Binding)
    {id : BindingId} (hid : graph.contains id = true) (name : String)
    (accepts : Binding.Kind → Bool) :
    (graph.push binding).membersMatching id name accepts =
      graph.membersMatching id name accepts := by
  have hchildren : (graph.push binding).children id = graph.children id := by
    rw [Graph.children, Graph.children, get_push_of_contains binding hid]
  rw [membersMatching, membersMatching, hchildren]
  refine List.filter_congr fun child hchild => ?_
  simp only [Graph.name, Graph.kind, get_push_of_contains binding (h.children id child hchild)]

section

variable {graph : Graph} {owner : BindingId} (h : graph.WellFormed)
  (howner : graph.contains owner = true)

include h howner

/-- A new member comes last among those of its name. -/
theorem WellFormed.membersNamed_insert (name other : String) (kind : Binding.Kind) :
    ((graph.push (.ofName name kind)).addChild owner graph.nextId).membersNamed owner other =
      graph.membersNamed owner other ++ if fold name = other then [graph.nextId] else [] := by
  have hgrows : graph.Grows (graph.push (.ofName name kind)) := .push _ .refl
  have hnew : graph.nextId ∉ (graph.push (.ofName name kind)).children owner := by
    rw [Graph.children, get_push_of_contains _ howner]
    intro hmem
    have hold := h.children owner _ hmem
    rw [contains_nextId] at hold
    cases hold
  have hname : (graph.push (.ofName name kind)).name graph.nextId = fold name := by
    rw [Graph.name, get_push_nextId]
    rfl
  rw [← membersMatching_true, ← membersMatching_true,
    membersMatching_addChild_self (hgrows.contains howner) hnew,
    h.membersMatching_push _ howner, hname]
  simp

/-- A new member is found under its name, and under other names what was found before. -/
theorem WellFormed.childNamed?_insert (name other : String) (kind : Binding.Kind) :
    ((graph.push (.ofName name kind)).addChild owner graph.nextId).childNamed? owner other none =
      if fold name = fold other then some graph.nextId else graph.childNamed? owner other none := by
  rw [childNamed?_eq, childNamed?_eq, h.membersNamed_insert howner]
  by_cases hsame : fold name = fold other <;> simp [hsame]

end

end Graph

/-! ### What a level says -/

theorem findSome?_congr {α β : Type} {items : List α} {f g : α → Option β}
    (h : ∀ item ∈ items, f item = g item) : items.findSome? f = items.findSome? g := by
  induction items with
  | nil => rfl
  | cons item rest ih =>
    obtain ⟨hitem, hrest⟩ := List.forall_mem_cons.mp h
    rw [List.findSome?_cons, List.findSome?_cons, hitem, ih hrest]

/-- A binding that is declared for the first time is found first under its own name, and no other
    lookup changes. -/
theorem Catalog.lookup?_add {catalog : Catalog} {graph : Graph} {id : BindingId}
    (hnew : id ∉ catalog.order) (name : String) (accepts : Binding.Kind → Bool) :
    (catalog.add graph id).lookup? graph name accepts =
      if graph.name id = name ∧ accepts (graph.kind id) = true then some id
      else catalog.lookup? graph name accepts := by
  have hcontains : catalog.contains id = false := by simpa [Catalog.contains] using hnew
  unfold Catalog.lookup? Catalog.add Catalog.named
  rw [hcontains]
  by_cases hname : graph.name id = name
  · -- The binding is the last one of its name, so the search starts with it.
    by_cases haccepts : accepts (graph.kind id) = true <;> simp [hname, haccepts]
  · simp [hname, Std.TreeMap.getD_insert]

/-- What can be seen of a binding under a name: its own name, its kind, and its
    members that match. -/
structure Graph.SameView (before after : Graph) (wanted : String) (accepts : Binding.Kind → Bool)
    (id : BindingId) : Prop where
  name : after.name id = before.name id
  kind : after.kind id = before.kind id
  members : after.membersMatching id wanted accepts = before.membersMatching id wanted accepts

namespace Catalog

theorem lookup?_congr {catalog : Catalog} {before after : Graph} {name : String}
    (h : ∀ id ∈ catalog.named name, after.kind id = before.kind id)
    (accepts : Binding.Kind → Bool) :
    catalog.lookup? after name accepts = catalog.lookup? before name accepts :=
  List.find?_congr fun id hid => by rw [h id (List.mem_reverse.mp hid)]

end Catalog

namespace Frame

variable {frame after : Frame} {graph graph' : Graph} {id : BindingId} {name : String}
  {accepts : Binding.Kind → Bool}

/-- What a level says of a name depends on the kinds of what it declared, and on what can be seen
    of its tables. -/
theorem resolve?_congr
    (hkinds : ∀ catalog ∈ frame.catalogs, ∀ id ∈ catalog.named name, graph'.kind id = graph.kind id)
    (hviews : ∀ id ∈ frame.ids, graph.SameView graph' name accepts id) :
    frame.resolve? graph' name accepts = frame.resolve? graph name accepts := by
  cases frame with
  | lexical catalog owner =>
    exact Catalog.lookup?_congr (hkinds catalog (by simp [catalogs])) accepts
  | select query =>
    have hsources : ∀ source ∈ query.sources, graph.SameView graph' name accepts source.relation :=
      fun source hsource => hviews _ (List.mem_map_of_mem hsource)
    have hcatalog := Catalog.lookup?_congr (hkinds query.catalog (by simp [catalogs])) accepts
    -- A query asks its catalog, its sources and their columns, and none of them sees a difference.
    have hsource : query.source? graph' name accepts = query.source? graph name accepts := by
      have hfind : query.sources.find? (fun source => source.name graph' == name) =
          query.sources.find? fun source => source.name graph == name :=
        List.find?_congr fun source hmem => by
          rw [Source.name, Source.name, (hsources source hmem).name]
      unfold QueryScope.source?
      rw [hfind]
      split
      · next source hfound => rw [(hsources source (List.mem_of_find?_eq_some hfound)).kind]
      · rfl
    have hcolumns : query.sources.findSome? (fun source => source.column? graph' name accepts) =
        query.sources.findSome? fun source => source.column? graph name accepts :=
      findSome?_congr fun source hmem => by
        rw [Source.column?_eq_head?, Source.column?_eq_head?, (hsources source hmem).members]
    simp only [resolve?, QueryScope.resolve?, hcatalog, hsource, hcolumns]
  | _ => rfl

/-- A level that takes a binding finds it first under its own name, and says of other names what
    it said before. -/
theorem resolve?_of_declare? (h : frame.declare? graph id = some (after, graph'))
    (hnew : ∀ catalog ∈ frame.catalogs, id ∉ catalog.order) (name : String)
    (accepts : Binding.Kind → Bool) :
    after.resolve? graph' name accepts =
      if graph.name id = name ∧ accepts (graph.kind id) = true then some id
      else frame.resolve? graph name accepts := by
  rcases declare?_cases h with ⟨catalog, owner, rfl, rfl, hgraph⟩ | ⟨query, rfl, rfl, rfl⟩
  · have hkinds : ∀ other, graph'.kind other = graph.kind other := by
      rcases hgraph with rfl | ⟨parent, _, rfl⟩
      · exact fun _ => rfl
      · exact graph.kind_addChild parent id
    rw [resolve?, Catalog.lookup?_congr fun other _ => hkinds other,
      Catalog.lookup?_add (hnew catalog (by simp [catalogs]))]
    rfl
  · simp only [resolve?, QueryScope.resolve?,
      Catalog.lookup?_add (hnew query.catalog (by simp [catalogs]))]
    split
    · rfl
    · rfl

/-- A level that does not take what is not global knows no names. -/
theorem resolve?_of_declare?_eq_none (h : frame.declare? graph id = none)
    (hkind : (graph.kind id).isGlobal = false) (graph' : Graph) (name : String)
    (accepts : Binding.Kind → Bool) : frame.resolve? graph' name accepts = none := by
  by_cases hrole : frame.role = "lexical" ∨ frame.role = "select"
  · obtain ⟨declared, hdeclared⟩ := Scope.declare?_of_role hrole hkind
    rw [hdeclared] at h
    cases h
  · cases frame <;> first | rfl | simp [role] at hrole

end Frame

/-! ### What plain names mean -/

namespace Scope

variable {scope : Scope} {id : BindingId}

/-- The binding is declared at no level, the root included. -/
def Undeclared (scope : Scope) (id : BindingId) : Prop :=
  ∀ catalog ∈ scope.root.catalog :: scope.catalogs, id ∉ catalog.order

/-- A new member of an owner changes what can be seen under its own name only. -/
theorem sameView_addChild {graph : Graph} {name : String} {accepts : Binding.Kind → Bool}
    (h : ¬(graph.name id = name ∧ accepts (graph.kind id) = true)) (owner other : BindingId) :
    graph.SameView (graph.addChild owner id) name accepts other :=
  ⟨graph.name_addChild owner id other, graph.kind_addChild owner id other,
    Graph.membersMatching_addChild h owner other⟩

/-- The levels together find the binding first under its own name, since those that did not take it
    know no names. -/
theorem findSome?_of_declareAmong? {graph graph' : Graph} {frames after : List Frame}
    (h : declareAmong? id graph frames = some (after, graph'))
    (hkind : (graph.kind id).isGlobal = false)
    (hnew : ∀ frame ∈ frames, ∀ catalog ∈ frame.catalogs, id ∉ catalog.order) (name : String)
    (accepts : Binding.Kind → Bool) :
    after.findSome? (·.resolve? graph' name accepts) =
      if graph.name id = name ∧ accepts (graph.kind id) = true then some id
      else frames.findSome? (·.resolve? graph name accepts) := by
  obtain ⟨above, frame, taken, below, rfl, rfl, hpassed, hdeclared⟩ := exists_of_declareAmong? h
  have hsilent : ∀ graph', above.findSome? (·.resolve? graph' name accepts) = none := fun graph' =>
    List.findSome?_eq_none_iff.mpr fun passed hmem =>
      Frame.resolve?_of_declare?_eq_none (hpassed passed hmem) hkind graph' name accepts
  rw [List.findSome?_append, List.findSome?_append, hsilent, hsilent, Option.none_or,
    Option.none_or, List.findSome?_cons,
    Frame.resolve?_of_declare? hdeclared (hnew frame (by simp))]
  by_cases hmatch : graph.name id = name ∧ accepts (graph.kind id) = true
  · rw [if_pos hmatch, if_pos hmatch]
  · -- The levels further out see the new member of the owner, but not under this name.
    have hothers : ∀ other ∈ below, other.resolve? graph' name accepts =
        other.resolve? graph name accepts := by
      intro other _
      rcases Frame.graph_of_declare? hdeclared with rfl | ⟨owner, _, rfl⟩
      · rfl
      · exact Frame.resolve?_congr (fun _ _ id _ => graph.kind_addChild owner _ id) fun other _ =>
          sameView_addChild hmatch owner other
    rw [if_neg hmatch, if_neg hmatch, List.findSome?_cons, findSome?_congr hothers]

/-- If no level takes a binding that is not global, no level knows any names. -/
theorem findSome?_of_declareAmong?_eq_none {graph : Graph} {frames : List Frame}
    (h : declareAmong? id graph frames = none) (hkind : (graph.kind id).isGlobal = false)
    (name : String) (accepts : Binding.Kind → Bool) :
    frames.findSome? (·.resolve? graph name accepts) = none := by
  induction frames with
  | nil => rfl
  | cons frame rest ih =>
    simp only [declareAmong?] at h
    split at h
    · cases h
    · next hnone =>
      rw [List.findSome?_cons, Frame.resolve?_of_declare?_eq_none hnone hkind]
      exact ih (Option.map_eq_none_iff.mp h)

/-- A binding that is declared for the first time is what its name means, as far as its kind is
    wanted, and other plain names mean what they did before. -/
theorem resolvePlain?_declare (hnew : scope.Undeclared id)
    (hkind : (scope.graph.kind id).isGlobal = false) (localOnly : Bool) (name : String)
    (accepts : Binding.Kind → Bool) :
    (scope.declare id).resolvePlain? localOnly name accepts =
      if scope.graph.name id = name ∧ accepts (scope.graph.kind id) = true then some id
      else scope.resolvePlain? localOnly name accepts := by
  obtain ⟨hroot, hlevels⟩ := List.forall_mem_cons.mp hnew
  have hframes : ∀ frame ∈ scope.frames, ∀ catalog ∈ frame.catalogs, id ∉ catalog.order := by
    intro frame hframe catalog hcatalog
    exact hlevels catalog (List.mem_flatten.mpr ⟨_, List.mem_map_of_mem hframe, hcatalog⟩)
  unfold declare
  split
  · next frames graph hdeclared =>
    have hfound := findSome?_of_declareAmong? hdeclared hkind hframes name accepts
    have hkinds : ∀ other, graph.kind other = scope.graph.kind other := by
      intro other
      rcases graph_of_declareAmong? hdeclared with hsame | ⟨owner, _, hadded⟩
      · rw [hsame]
      · rw [hadded, Graph.kind_addChild]
    rw [resolvePlain?_eq_or, resolvePlain?_eq_or, hfound,
      Catalog.lookup?_congr fun other _ => hkinds other]
    simp only [hkinds]
    by_cases hmatch : scope.graph.name id = name ∧ accepts (scope.graph.kind id) = true
    · rw [if_pos hmatch, if_pos hmatch, Option.some_or, Option.some_or]
    · rw [if_neg hmatch, if_neg hmatch]
      rfl
  · next hnone =>
    -- The root takes it, and no level stands between that knows names.
    have hsilent := findSome?_of_declareAmong?_eq_none hnone hkind name accepts
    rw [resolvePlain?_eq_or, resolvePlain?_eq_or, hsilent, Option.none_or]
    show ((scope.frames.findSome? (·.resolve? scope.graph name accepts)).or
      ((scope.root.catalog.add scope.graph id).lookup? scope.graph name accepts)).or _ = _
    rw [hsilent, Catalog.lookup?_add hroot, Option.none_or]
    by_cases hmatch : scope.graph.name id = name ∧ accepts (scope.graph.kind id) = true
    · rw [if_pos hmatch, if_pos hmatch, Option.some_or]
    · rw [if_neg hmatch, if_neg hmatch]
      rfl

/-- A new member changes what its own name means at most. -/
theorem resolvePlain?_addChild {parent child : BindingId} {name : String}
    {accepts : Binding.Kind → Bool}
    (h : ¬(scope.graph.name child = name ∧ accepts (scope.graph.kind child) = true))
    (localOnly : Bool) :
    (scope.addChild parent child).resolvePlain? localOnly name accepts =
      scope.resolvePlain? localOnly name accepts := by
  have hkinds := scope.graph.kind_addChild parent child
  have hframes : scope.frames.findSome?
      (·.resolve? (scope.graph.addChild parent child) name accepts) =
      scope.frames.findSome? (·.resolve? scope.graph name accepts) :=
    findSome?_congr fun frame _ => Frame.resolve?_congr (fun _ _ id _ => hkinds id) fun id _ =>
      sameView_addChild h parent id
  rw [resolvePlain?_eq_or, resolvePlain?_eq_or, ← hframes,
    ← Catalog.lookup?_congr fun id _ => hkinds id]
  simp only [← hkinds]
  rfl

/-- A new binding is declared nowhere. -/
theorem WellFormed.undeclared_add (h : scope.WellFormed) (binding : Binding) :
    (scope.add binding).2.Undeclared scope.graph.nextId := by
  have hnot : ¬scope.graph.contains scope.graph.nextId = true := by
    rw [Graph.contains_iff]
    exact Nat.lt_irrefl _
  refine List.forall_mem_cons.mpr ⟨fun hmem => hnot (h.globals.holds _ hmem),
    fun catalog hcatalog hmem => ?_⟩
  obtain ⟨_, hknown, hcatalog⟩ := List.mem_flatten.mp hcatalog
  obtain ⟨frame, hframe, rfl⟩ := List.mem_map.mp hknown
  exact hnot (((h.frames frame hframe).catalogs catalog hcatalog).holds _ hmem)

/-- No plain name means anything else because a binding is added to the graph. -/
theorem WellFormed.resolvePlain?_add (h : scope.WellFormed) (binding : Binding) (localOnly : Bool)
    (name : String) (accepts : Binding.Kind → Bool) :
    (scope.add binding).2.resolvePlain? localOnly name accepts =
      scope.resolvePlain? localOnly name accepts := by
  -- All that a name can mean was there before, and the new binding is a member of nothing.
  have hview : ∀ id, scope.graph.contains id = true →
      scope.graph.SameView (scope.graph.push binding) name accepts id := fun id hid => by
    have hget := Graph.get_push_of_contains binding hid
    exact ⟨congrArg Binding.name hget, congrArg Binding.kind hget,
      h.graph.membersMatching_push binding hid name accepts⟩
  have hnamed : ∀ {catalog : Catalog}, catalog.WellFormed scope.graph → ∀ id ∈ catalog.named name,
      (scope.graph.push binding).kind id = scope.graph.kind id := by
    intro catalog hcatalog id hid
    rw [hcatalog.named] at hid
    exact (hview id (hcatalog.holds id (List.mem_of_mem_filter hid))).kind
  have hframes : scope.frames.findSome? (·.resolve? (scope.graph.push binding) name accepts) =
      scope.frames.findSome? (·.resolve? scope.graph name accepts) :=
    findSome?_congr fun frame hframe => Frame.resolve?_congr
      (fun catalog hcatalog => hnamed ((h.frames frame hframe).catalogs catalog hcatalog))
      fun id hid => hview id ((h.frames frame hframe).ids id hid)
  have hexternal :
      ((scope.external? name).filter fun id => accepts ((scope.graph.push binding).kind id)) =
      (scope.external? name).filter fun id => accepts (scope.graph.kind id) := by
    cases hfound : scope.external? name with
    | none => rfl
    | some id =>
      obtain ⟨front, back, hentries, _⟩ := List.lookup_eq_some_iff.mp hfound
      have hid : scope.graph.contains id = true := h.external id (by simp [hentries])
      simp only [Option.filter, (hview id hid).kind]
  rw [resolvePlain?_eq_or, resolvePlain?_eq_or, ← hframes,
    ← Catalog.lookup?_congr (hnamed h.globals), ← hexternal]
  rfl

/-- A binding that is added to be declared is what its name means, as far as its kind is wanted, and
    other plain names mean what they did before. -/
theorem WellFormed.resolvePlain?_declareNew (h : scope.WellFormed) {binding : Binding}
    (hkind : binding.kind.isGlobal = false) (localOnly : Bool) (name : String)
    (accepts : Binding.Kind → Bool) :
    (scope.declareNew binding).2.resolvePlain? localOnly name accepts =
      if binding.name = name ∧ accepts binding.kind = true then some (scope.declareNew binding).1
      else scope.resolvePlain? localOnly name accepts := by
  have hget : (scope.add binding).2.graph.get scope.graph.nextId = binding :=
    scope.graph.get_push_nextId binding
  have hdeclared := resolvePlain?_declare (h.undeclared_add binding)
    (by rwa [Graph.kind, hget]) localOnly name accepts
  rw [Graph.name, Graph.kind, hget, h.resolvePlain?_add] at hdeclared
  exact hdeclared

end Scope

end Lineage
