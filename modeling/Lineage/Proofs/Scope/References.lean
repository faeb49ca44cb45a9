import Lineage.Proofs.Scope.Derivation
import Lineage.Proofs.Scope.Shadowing
import Lineage.Proofs.Scope.Tables

/-!
# What a reference stands for

A name that means nothing is given a meaning by its first reference, and the next reference finds
it. A plain name becomes a member of the only table that the innermost query reads from, or else a
declaration of its own. A dotted name leads from member to member, starting from what its first
segment means; a segment that leads nowhere is added on the way.

## Key results

- `Scope.WellFormed.reference_of_unresolved`: a name without a meaning stands for a new field
- `Scope.WellFormed.resolve?_reference`: once a name has been referred to, it has a meaning
- `Scope.WellFormed.memberPath_memberChain`: the members along a dotted name
-/

namespace Lineage

/-- A binding that was added keeps its name and its kind. -/
theorem Graph.name_kind_of_push {graph after : Graph} {binding : Binding}
    (h : (graph.push binding).Grows after) :
    after.name graph.nextId = binding.name ∧ after.kind graph.nextId = binding.kind := by
  have hnew := graph.contains_push_nextId binding
  rw [h.name hnew, h.kind hnew, Graph.name, Graph.kind, get_push_nextId]
  exact ⟨rfl, rfl⟩

/-- A new member has no members. -/
theorem Graph.children_insert (graph : Graph) {owner : BindingId}
    (howner : graph.contains owner = true) (name : String) (kind : Binding.Kind) :
    ((graph.push (.ofName name kind)).addChild owner graph.nextId).children graph.nextId = [] := by
  have hother : graph.nextId ≠ owner := by
    rintro rfl
    rw [contains_nextId] at howner
    cases howner
  rw [children, get_addChild_of_ne _ hother, get_push_nextId]
  rfl

namespace QueryScope

/-- A query in which a name means nothing neither has declared it nor reads from a table that goes
    by it, and none of its tables has a member of that name. -/
theorem of_resolve?_none {query : QueryScope} {graph : Graph} {wanted : String}
    (h : query.resolve? graph wanted (fun _ => true) = none) : query.catalog.named wanted = [] ∧
      ∀ source ∈ query.sources, wanted ≠ source.name graph ∧
        graph.membersNamed source.relation wanted = [] := by
  simp only [resolve?, Option.or_eq_none_iff] at h
  obtain ⟨hcatalog, hsource, hcolumns⟩ := h
  refine ⟨?_, fun source hmem => ⟨?_, ?_⟩⟩
  · exact List.eq_nil_iff_forall_not_mem.mpr (by simpa [Catalog.lookup?] using hcatalog)
  · rintro rfl
    unfold source? at hsource
    split at hsource
    · simp at hsource
    · next hfind => exact absurd (List.find?_eq_none.mp hfind source hmem) (by simp)
  · have hcolumn := List.findSome?_eq_none_iff.mp hcolumns source hmem
    rwa [Source.column?_eq, List.head?_eq_none_iff] at hcolumn

end QueryScope

namespace Scope

variable {scope : Scope} {name : String} {relation : BindingId}

/-! ### The innermost query -/

/-- The levels inside of the innermost query are no queries. -/
theorem exists_of_nearestQuery? {query : QueryScope} (h : scope.nearestQuery? = some query) :
    ∃ inner outer, scope.frames = inner ++ .select query :: outer ∧
      ∀ frame ∈ inner, frame.isSelect = false := by
  obtain ⟨inner, frame, outer, hframes, hquery, hinner⟩ := List.findSome?_eq_some_iff.mp h
  obtain rfl : frame = .select query := by
    cases frame with
    | select other => exact congrArg Frame.select (Option.some.inj hquery)
    | _ => cases hquery
  refine ⟨inner, outer, hframes, fun frame hframe => ?_⟩
  have hnone := hinner frame hframe
  cases frame with
  | select other => cases hnone
  | _ => rfl

theorem sources_of_onlySource? {query : QueryScope} (h : query.onlySource? = some relation) :
    ∃ source, query.sources = [source] ∧ source.relation = relation := by
  unfold QueryScope.onlySource? at h
  split at h
  · next source hsources => exact ⟨source, hsources, Option.some.inj h⟩
  · cases h

/-- Names without a meaning mean nothing at any level. -/
theorem resolve?_frame_of_none (h : scope.resolve? (.ofName name) = none) {frame : Frame}
    (hframe : frame ∈ scope.frames) :
    frame.resolve? scope.graph (fold name) (fun _ => true) = none := by
  rw [resolve?_ofName, resolvePlain?_eq_or, Option.or_eq_none_iff, Option.or_eq_none_iff] at h
  exact List.findSome?_eq_none_iff.mp h.1.1 frame hframe

/-- The only table of the innermost query has no member with a name that means nothing. -/
theorem membersNamed_of_unresolved (hnone : scope.resolve? (.ofName name) = none)
    (hsource : scope.nearestQuery?.bind QueryScope.onlySource? = some relation) :
    scope.graph.membersNamed relation (fold name) = [] := by
  obtain ⟨query, hquery, honly⟩ := Option.bind_eq_some_iff.mp hsource
  obtain ⟨source, hsources, rfl⟩ := sources_of_onlySource? honly
  have hsilent := resolve?_frame_of_none hnone (mem_frames_of_nearestQuery? hquery)
  exact ((QueryScope.of_resolve?_none hsilent).2 source (by simp [hsources])).2

/-! ### Plain names -/

/-- A name without a meaning stands for a new member of the only table of the innermost query. -/
theorem reference_of_source (hnone : scope.resolve? (.ofName name) = none)
    (hsource : scope.nearestQuery?.bind QueryScope.onlySource? = some relation) :
    scope.reference name = (scope.graph.nextId,
      { scope with graph := (scope.graph.push
        (.ofName name .field)).addChild relation scope.graph.nextId }) := by
  have hmember : scope.graph.childNamed? relation name none = none := by
    rw [Graph.childNamed?_eq, membersNamed_of_unresolved hnone hsource]
    rfl
  simp only [reference, hnone, hsource, childOrInsert, Graph.childOrInsert, hmember, Graph.add]

theorem reference_of_no_source (hnone : scope.resolve? (.ofName name) = none)
    (hsource : scope.nearestQuery?.bind QueryScope.onlySource? = none) :
    scope.reference name = scope.declareNew (.ofName name .field) := by
  simp only [reference, hnone, hsource]

/-- A name without a meaning stands for a new field of that name. -/
theorem reference_of_unresolved (hnone : scope.resolve? (.ofName name) = none) :
    (scope.reference name).1 = scope.graph.nextId ∧
      (scope.reference name).2.graph.name scope.graph.nextId = fold name ∧
      (scope.reference name).2.graph.kind scope.graph.nextId = .field := by
  cases hsource : scope.nearestQuery?.bind QueryScope.onlySource? with
  | some relation =>
    rw [reference_of_source hnone hsource]
    exact ⟨rfl, Graph.name_kind_of_push (.addChild relation _ .refl)⟩
  | none =>
    rw [reference_of_no_source hnone hsource]
    exact ⟨rfl,
      Graph.name_kind_of_push
        (grows_declare (scope.add (.ofName name .field)).2 scope.graph.nextId)⟩

/-- A new member of the only table is what its name means in the query, and what it means at all. -/
theorem WellFormed.resolve?_insert (h : scope.WellFormed)
    (hnone : scope.resolve? (.ofName name) = none)
    (hsource : scope.nearestQuery?.bind QueryScope.onlySource? = some relation) :
    { scope with graph := (scope.graph.push
      (.ofName name .field)).addChild relation scope.graph.nextId }.resolve? (.ofName name) =
        some scope.graph.nextId := by
  obtain ⟨query, hquery, honly⟩ := Option.bind_eq_some_iff.mp hsource
  obtain ⟨source, hsources, rfl⟩ := sources_of_onlySource? honly
  obtain ⟨inner, outer, hframes, hinner⟩ := exists_of_nearestQuery? hquery
  have hselect : .select query ∈ scope.frames := mem_frames_of_nearestQuery? hquery
  have hrelation : scope.graph.contains source.relation = true :=
    (h.frames _ hselect).ids _ (List.mem_map_of_mem (by simp [hsources]))
  obtain ⟨hundeclared, hothers⟩ :=
    QueryScope.of_resolve?_none (resolve?_frame_of_none hnone hselect)
  obtain ⟨hname, hmembers⟩ := hothers source (by simp [hsources])
  generalize hgraph : (scope.graph.push (.ofName name .field)).addChild source.relation
    scope.graph.nextId = graph
  have hgrows : scope.graph.Grows graph := hgraph ▸ .addChild _ _ (.push _ .refl)
  -- Further inside there is no query, and nothing is declared there.
  have hinside : inner.findSome? (·.resolve? graph (fold name) fun _ => true) = none := by
    rw [List.findSome?_eq_none_iff]
    intro frame hframe
    have hmem : frame ∈ scope.frames := by
      rw [hframes]
      exact List.mem_append_left _ hframe
    have hsilent := resolve?_frame_of_none hnone hmem
    cases frame with
    | lexical catalog owner => exact hsilent
    | select other => cases hinner _ hframe
    | _ => rfl
  have hfound : (Frame.select query).resolve? graph (fold name) (fun _ => true) =
      some scope.graph.nextId := by
    have hother : fold name ≠ source.name graph := by
      rwa [Source.name, hgrows.name hrelation]
    rw [Frame.resolve?, QueryScope.resolve?_column hsources hundeclared hother,
      Source.column?_eq, ← hgraph, h.graph.membersNamed_insert hrelation, hmembers, if_pos rfl]
    rfl
  rw [resolve?_ofName, resolvePlain?_eq_or]
  simp only [hframes, List.findSome?_append, List.findSome?_cons, hinside, hfound, Option.none_or,
    Option.some_or]

/-- Once a name has been referred to, it means what the reference stood for. -/
theorem WellFormed.resolve?_reference (h : scope.WellFormed) (name : String) :
    (scope.reference name).2.resolve? (.ofName name) = some (scope.reference name).1 := by
  cases hresolve : scope.resolve? (.ofName name) with
  | some id => simp only [reference, hresolve]
  | none =>
    cases hsource : scope.nearestQuery?.bind QueryScope.onlySource? with
    | some relation =>
      rw [reference_of_source hresolve hsource]
      exact h.resolve?_insert hresolve hsource
    | none =>
      rw [reference_of_no_source hresolve hsource, resolve?_ofName, h.resolvePlain?_declareNew rfl,
        if_pos ⟨rfl, rfl⟩]

/-- A name that has been referred to in some spelling stands for the same again, and
    nothing changes. -/
theorem WellFormed.reference_reference (h : scope.WellFormed) {other : String}
    (hsame : fold other = fold name) :
    (scope.reference name).2.reference other = scope.reference name := by
  have hresolve := h.resolve?_reference name
  rw [resolve?_ofName, ← hsame, ← resolve?_ofName] at hresolve
  rw [reference, hresolve]

end Scope

/-! ### Dotted names -/

/-- From member to member along the names. Each member goes by its name, and either it was a member
    of the one before at first or it is new and a field. -/
inductive Graph.MemberPath (before after : Graph) : BindingId → List String → BindingId → Prop
  | nil (owner : BindingId) : MemberPath before after owner [] owner
  | cons {owner member last : BindingId} {name : String} {rest : List String} :
      member ∈ after.children owner → after.name member = fold name →
      (member ∈ before.children owner ∨ before.contains member = false ∧
        after.kind member = .field) →
      MemberPath before after member rest last → MemberPath before after owner (name :: rest) last

namespace Graph

variable {before middle after : Graph} {owner last : BindingId} {names : List String}

/-- From an owner without members only new members are reached, so it does not matter which graph
    they are new to. -/
theorem MemberPath.of_children_eq_nil (h : middle.MemberPath after owner names last)
    (hchildren : middle.children owner = []) (hgrows : before.Grows middle) :
    before.MemberPath after owner names last := by
  induction h with
  | nil owner => exact .nil owner
  | cons hmember hname hnew _ ih =>
    rw [hchildren] at hnew
    obtain ⟨hfresh, hkind⟩ := hnew.resolve_left List.not_mem_nil
    refine .cons hmember hname (.inr ⟨?_, hkind⟩) (ih ?_)
    · rw [← Bool.not_eq_true] at hfresh ⊢
      exact fun hold => hfresh (hgrows.contains hold)
    · rw [children, get_of_not_contains (by rw [hfresh]; exact Bool.false_ne_true)]
      rfl

end Graph

namespace Scope

variable {scope : Scope}

/-- A member that is found has the name, and nothing changes. -/
theorem memberChain_of_found {current child : BindingId} {name : String}
    (hfound : scope.graph.childNamed? current name none = some child) (rest : List String) :
    memberChain (name :: rest) current scope = memberChain rest child scope ∧
      child ∈ scope.graph.children current ∧ scope.graph.name child = fold name := by
  have hmember := List.mem_of_getLast? ((scope.graph.childNamed?_eq current name).symm.trans hfound)
  rw [Graph.membersNamed, List.mem_filter, beq_iff_eq] at hmember
  refine ⟨?_, hmember⟩
  simp only [memberChain, childOrInsert, Graph.childOrInsert, hfound]

/-- The members along the names, from one that exists. -/
theorem memberPath_memberChain (hwell : scope.graph.WellFormed) {current : BindingId}
    (hcurrent : scope.graph.contains current = true) (names : List String) :
    scope.graph.MemberPath (memberChain names current scope).2.graph current names
      (memberChain names current scope).1 := by
  induction names generalizing scope current with
  | nil => exact .nil current
  | cons name rest ih =>
    cases hfound : scope.graph.childNamed? current name none with
    | some child =>
      obtain ⟨hchain, hchild, hname⟩ := memberChain_of_found hfound rest
      have hcontains := hwell.children current child hchild
      have hgrows := (learns_memberChain rest child scope).grows
      have hkept := ((Graph.extends_of_grows hgrows).binding current hcurrent).children
      rw [hchain]
      exact .cons (hkept.mem hchild)
        ((hgrows.name hcontains).trans hname) (.inl hchild) (ih hwell hcontains)
    | none =>
      -- The new member has no members, so all that come after it are new as well.
      have hchain : memberChain (name :: rest) current scope = memberChain rest scope.graph.nextId
          { scope with graph := (scope.graph.push
            (.ofName name .field)).addChild current scope.graph.nextId } := by
        simp only [memberChain, childOrInsert, Graph.childOrInsert, hfound, Graph.add]
      have hmembers := hwell.membersNamed_insert hcurrent name (fold name) .field
      have hpushed : (scope.graph.push (.ofName name .field)).Grows
          ((scope.graph.push (.ofName name .field)).addChild current scope.graph.nextId) :=
            .addChild _ _ .refl
      have hnext := scope.graph.contains_push_nextId (.ofName name .field)
      have hinserted :=
        (hwell.push (Binding.wellFormed_ofName scope.graph name .field)).addChild current hnext
      have hchildless := scope.graph.children_insert hcurrent name .field
      rw [hchain]
      generalize
        (scope.graph.push (.ofName name .field)).addChild current scope.graph.nextId = inserted at *
      have hgrows :=
        (learns_memberChain rest scope.graph.nextId { scope with graph := inserted }).grows
      have hpath := @ih { scope with graph := inserted } hinserted _ (hpushed.contains hnext)
      have hkept := ((Graph.extends_of_grows hgrows).binding current
        (hpushed.contains ((Graph.Grows.refl.push _).contains hcurrent))).children
      have hmember : scope.graph.nextId ∈ inserted.membersNamed current (fold name) := by
        simp [hmembers]
      obtain ⟨hname, hkind⟩ := Graph.name_kind_of_push (hpushed.trans hgrows)
      exact .cons (hkept.mem (List.mem_of_mem_filter hmember)) hname
        (.inr ⟨scope.graph.contains_nextId, hkind⟩)
        (hpath.of_children_eq_nil hchildless ((Graph.Grows.refl.push _).trans hpushed))

theorem root_memberChain (names : List String) (current : BindingId) (scope : Scope) :
    (memberChain names current scope).2.root = scope.root := by
  induction names generalizing current scope with
  | nil => rfl
  | cons name rest ih => exact ih _ _

/-- What the segments of a dotted name stand for: the first one for what it meant or, where it meant
    nothing, for a new binding of its name, which is a global record if other segments follow, and
    the others for members along the way. -/
structure StandsFor (before after : Scope) (first : String) (rest : List String)
    (head last : BindingId) : Prop where
  resolved : ∀ id, before.resolve? (.ofName first) = some id → head = id
  fresh : before.resolve? (.ofName first) = none → before.graph.contains head = false ∧
    after.graph.name head = fold first ∧
    (rest ≠ [] → after.graph.kind head = .record ∧ head ∈ after.globals)
  path : before.graph.MemberPath after.graph head rest last

theorem standsFor_reference (scope : Scope) (name : String) :
    scope.StandsFor (scope.reference name).2 name [] (scope.reference name).1
      (scope.reference name).1 where
  resolved id hid := by simp only [reference, hid]
  fresh hnone := by
    obtain ⟨hid, hname, -⟩ := reference_of_unresolved hnone
    rw [hid]
    exact ⟨scope.graph.contains_nextId, hname, fun hrest => absurd rfl hrest⟩
  path := .nil _

theorem WellFormed.standsFor_memberChain (h : scope.WellFormed) (first : String)
    (names : List String) :
    scope.StandsFor
      (memberChain names (scope.referenceHead first).1 (scope.referenceHead first).2).2 first names
      (scope.referenceHead first).1
      (memberChain names (scope.referenceHead first).1 (scope.referenceHead first).2).1 := by
  cases hresolve : scope.resolve? (.ofName first) with
  | some id =>
    have hhead : scope.referenceHead first = (id, scope) := by simp only [referenceHead, hresolve]
    have hderives : scope.Derives [] [id] scope := derives_resolve hresolve
    have hid := (hderives.wellFormed h scope.graph.holds_nil).2 id List.mem_cons_self
    rw [hhead]
    exact ⟨fun other hother => (Option.some.inj (hresolve.symm.trans hother)),
      fun hnone => by simp [hresolve] at hnone, memberPath_memberChain h.graph hid names⟩
  | none =>
    have hhead : scope.referenceHead first = scope.declareNewGlobal (.ofName first .record) := by
      simp only [referenceHead, hresolve]
    rw [hhead]
    have hgraph : (scope.declareNewGlobal (.ofName first .record)).2.graph =
        scope.graph.push (.ofName first .record) := rfl
    have hwell := h.graph.push (Binding.wellFormed_ofName scope.graph first .record)
    have hgrows :=
      (learns_memberChain names scope.graph.nextId
        (scope.declareNewGlobal (.ofName first .record)).2).grows
    -- The head is new: no other binding has its id, and it has no members before the chain.
    obtain ⟨hname, hkind⟩ := Graph.name_kind_of_push hgrows
    refine ⟨fun other hother => by simp [hresolve] at hother,
      fun _ => ⟨scope.graph.contains_nextId, hname, fun _ => ⟨hkind, ?_⟩⟩, ?_⟩
    · rw [Scope.globals, root_memberChain]
      exact Catalog.mem_order_add.mpr (.inr rfl)
    · have hpath := @memberPath_memberChain
        (scope.declareNewGlobal (.ofName first .record)).2 hwell _
        (scope.graph.contains_push_nextId _) names
      refine hpath.of_children_eq_nil ?_ (.push _ .refl)
      rw [hgraph, Graph.children, Graph.get_push_nextId]
      rfl

end Scope

end Lineage
