import Lineage.Proofs.Scope.WellFormed
import Lineage.Proofs.Text.Dots
import Lineage.Scope.Resolve

/-!
# Columns of the tables that a query reads from

A query takes nothing but tables for its sources, and it keeps them whatever happens around it.
Where it reads from a single table, a column can be named with the table's name before it or alone.
The plain name gives the first member of the table with that name, the qualified name gives the
latest one.

## Key results

- `ReadsTables.learn`, `ReadsTables.unwind`, `ReadsTables.flushElement`: queries go on reading from
  tables only
- `resolvePlain?_of_find?`: the innermost level that gives names a meaning comes first
- `resolvePlain?_column`: a plain name gives the first member of that name
- `resolveUnder?_column`: a qualified name gives the latest member of that name
-/

namespace Lineage

/-! ### Sources are tables -/

namespace Frame

/-- If the frame is a query, it reads from tables only. -/
def ReadsTables (graph : Graph) : Frame → Prop
  | select query => ∀ source ∈ query.sources, (graph.kind source.relation).isSource = true
  | _ => True

variable {frame after : Frame} {graph graph' : Graph} {id : BindingId}

theorem readsTables_of_role (h : frame.role ≠ "select") (graph : Graph) :
    frame.ReadsTables graph := by
  cases frame with
  | select query => exact absurd rfl h
  | _ => trivial

theorem readsTables_core : frame.core.ReadsTables graph ↔ frame.ReadsTables graph := by
  cases frame <;> simp [core, ReadsTables, QueryScope.core]

/-- What does not exist is no table, so what is one stays one. -/
theorem ReadsTables.extend {commented : List BindingId} (h : frame.ReadsTables graph)
    (hextends : graph.Extends commented graph') : frame.ReadsTables graph' := by
  cases frame with
  | select query =>
    intro source hsource
    have htable := h source hsource
    have hcontains : graph.contains source.relation = true := by
      by_contra hnot
      rw [Graph.kind, Graph.get_of_not_contains hnot] at htable
      cases htable
    rwa [Graph.kind, (hextends.binding source.relation hcontains).kind]
  | _ => trivial

theorem ReadsTables.grow (h : frame.ReadsTables graph) (hgrows : graph.Grows graph') :
    frame.ReadsTables graph' :=
  h.extend (Graph.extends_of_grows hgrows)

theorem ReadsTables.receive (h : frame.ReadsTables graph)
    (hreceive : frame.receive graph id = .ok (.consumed after graph')) :
    after.ReadsTables graph' := by
  cases frame with
  | select query =>
    simp only [Frame.receive] at hreceive
    split at hreceive
    · next hsource =>
      simp only [Except.ok.injEq, Delivery.consumed.injEq] at hreceive
      obtain ⟨rfl, rfl⟩ := hreceive
      simp only [QueryScope.addSource]
      split
      · exact h
      · -- The table comes last among the sources.
        intro source hmem
        rcases List.mem_append.mp hmem with hbefore | hnew
        · exact h source hbefore
        · rw [List.mem_singleton.mp hnew]
          exact hsource
    · cases hreceive
  | _ =>
    -- A frame that takes a binding keeps its word, and these are no queries.
    obtain ⟨_, rfl⟩ := eq_taking_of_receive hreceive
    exact readsTables_of_role (by rw [role_taking]; simp [role]) graph'

end Frame

namespace Scope

/-- All queries around the current place read from tables only. -/
def ReadsTables (scope : Scope) : Prop :=
  ∀ frame ∈ scope.frames, frame.ReadsTables scope.graph

namespace ReadsTables

variable {scope before after : Scope} {id : BindingId}

/-- Only what the levels have gathered counts. -/
theorem of_cores (h : before.ReadsTables) (hgrows : before.graph.Grows after.graph)
    (hcores : after.cores ⊆ before.cores) : after.ReadsTables := by
  intro frame hframe
  obtain ⟨other, hother, hsame⟩ := List.mem_map.mp (hcores (List.mem_map_of_mem hframe))
  rw [← Frame.readsTables_core, ← hsame, Frame.readsTables_core]
  exact (h other hother).grow hgrows

theorem learn (h : before.ReadsTables) (hlearns : before.Learns after) : after.ReadsTables :=
  h.of_cores hlearns.grows (by rw [hlearns.cores]; exact List.Subset.refl _)

theorem push {frame : Frame} (h : scope.ReadsTables) (hframe : frame.ReadsTables scope.graph) :
    (scope.push frame).ReadsTables :=
  List.forall_mem_cons.mpr ⟨hframe, h⟩

theorem withFrames {frames : List Frame} (h : scope.ReadsTables) (hframes : frames ⊆ scope.frames) :
    { scope with frames }.ReadsTables :=
  fun frame hframe => h frame (hframes hframe)

theorem dropTo (h : scope.ReadsTables) (height : Nat) : (scope.dropTo height).ReadsTables :=
  h.withFrames (List.drop_subset _ _)

/-- Of the levels, one has taken the binding and the others have seen the graph grow. -/
theorem receiveAmong {graph graph' : Graph} {frames left : List Frame}
    (h : ∀ frame ∈ frames, frame.ReadsTables graph)
    (hreceive : Scope.receiveAmong id graph frames = .ok (left, graph')) :
    ∀ frame ∈ left, frame.ReadsTables graph' := by
  have hgrows := grows_of_receiveAmong hreceive
  rcases exists_of_receiveAmong hreceive with
      ⟨rfl, rfl⟩ | ⟨above, frame, taken, below, rfl, rfl, htaken⟩
  · exact h
  · exact forall_mem_exchange h (fun _ hother => hother.grow hgrows) fun hframe =>
      hframe.receive htaken

theorem receive (h : scope.ReadsTables) (hreceive : scope.receive id = .ok after) :
    after.ReadsTables := by
  obtain ⟨_, _, hamong, rfl⟩ := receiveAmong_of_receive hreceive
  exact receiveAmong h hamong

theorem receiveInnermost (h : scope.ReadsTables)
    (hreceive : scope.receiveInnermost id = .ok (some after)) : after.ReadsTables := by
  rcases exists_of_receiveInnermost hreceive with
      rfl | ⟨frame, taken, rest, graph, hframes, htaken, rfl⟩
  · exact h
  · have hlevels : ∀ frame ∈ scope.frames, frame.ReadsTables scope.graph := h
    rw [hframes] at hlevels
    obtain ⟨hframe, hrest⟩ := List.forall_mem_cons.mp hlevels
    have hgrows := Frame.grows_of_receive htaken
    exact List.forall_mem_cons.mpr ⟨hframe.receive htaken, fun other hother =>
      (hrest other hother).grow hgrows⟩

theorem receiveAll (h : scope.ReadsTables) (ids : List BindingId) :
    (Scope.receiveAll ids scope).2.ReadsTables :=
  receiveAll_keeps receive h ids

theorem pop (h : scope.ReadsTables) : scope.pop.2.ReadsTables :=
  pop_keeps receive
    (fun hframes => h.withFrames (by rw [hframes]; exact List.subset_cons_self _ _)) h

theorem unwind (h : scope.ReadsTables) (height : Nat) (finish : Bool) :
    (scope.unwind height finish).2.ReadsTables :=
  unwind_keeps pop (fun height h => h.dropTo height) h height finish

theorem restartAssignment? (h : scope.ReadsTables) (queries : Nat) :
    ((scope.restartAssignment? queries).getD scope).ReadsTables := by
  unfold Scope.restartAssignment?
  cases scope.pendingAssignment? queries with
  | none => exact h
  | some pending =>
    intro frame hframe
    rcases List.mem_or_eq_of_mem_set hframe with hmem | rfl
    · exact h frame hmem
    · trivial

theorem declareInnermost? (h : scope.ReadsTables) (id : BindingId) :
    ((scope.declareInnermost? id).getD scope).ReadsTables := by
  unfold Scope.declareInnermost?
  cases hframes : scope.frames with
  | nil => exact h.learn (Learns.refl.declareGlobal id)
  | cons frame rest =>
    cases hdeclare : frame.declare? scope.graph id with
    | none =>
      simp only [hdeclare]
      exact h
    | some declared =>
      simp only [hdeclare]
      refine h.of_cores (Frame.grows_of_declare? hdeclare) ?_
      simp [cores, hframes, Frame.core_of_declare? hdeclare]

theorem flushElement (h : scope.ReadsTables) (position : Nat) :
    (scope.flushElement position).2.ReadsTables := by
  refine flushElement_keeps position ?_ (fun h => h.push trivial) h
  intro pending rest hframes
  have haround : { scope with graph := (contribution scope.graph position pending).2, frames := rest
      }.ReadsTables := by
    refine h.of_cores (grows_contribution scope.graph position pending) ?_
    simp [cores, hframes]
  exact ⟨haround, fun _ => haround.receive⟩

end ReadsTables

end Scope

/-! ### Members by name -/

namespace Graph

/-- The members with the exact name and an accepted kind, first to last. -/
def membersMatching (graph : Graph) (parent : BindingId) (name : String)
    (accepts : Binding.Kind → Bool) : List BindingId :=
  (graph.children parent).filter fun child => graph.name child == name && accepts (graph.kind child)

/-- The members with the exact name, first to last. -/
def membersNamed (graph : Graph) (parent : BindingId) (name : String) : List BindingId :=
  (graph.children parent).filter fun child => graph.name child == name

variable {graph : Graph} {parent : BindingId}

theorem membersMatching_true (graph : Graph) (parent : BindingId) (name : String) :
    graph.membersMatching parent name (fun _ => true) = graph.membersNamed parent name := by
  simp [membersMatching, membersNamed]

/-- The latest member is the last of those that match. -/
theorem latestChild?_eq_getLast? (graph : Graph) (parent : BindingId) (name : String)
    (accepts : Binding.Kind → Bool) :
    graph.latestChild? parent name accepts =
      (graph.membersMatching parent name accepts).getLast? := by
  rw [latestChild?, membersMatching, List.getLast?_eq_head?_reverse, ← List.filter_reverse,
    List.head?_filter]

theorem latestChild?_eq (graph : Graph) (parent : BindingId) (name : String) :
    graph.latestChild? parent name (fun _ => true) = (graph.membersNamed parent name).getLast? := by
  rw [latestChild?_eq_getLast?, membersMatching_true]

theorem childNamed?_eq (graph : Graph) (parent : BindingId) (name : String) :
    graph.childNamed? parent name none = (graph.membersNamed parent (fold name)).getLast? :=
  graph.latestChild?_eq parent (fold name)

theorem WellFormed.nodup_membersNamed (h : graph.WellFormed) (parent : BindingId) (name : String) :
    (graph.membersNamed parent name).Nodup := by
  refine List.Nodup.filter _ ?_
  by_cases hid : graph.contains parent = true
  · exact (h parent hid).nodup_children
  · rw [Graph.children, get_of_not_contains hid]
    exact List.nodup_nil

/-- A member that exists is found, and nothing is added. -/
theorem childOrInsert_of_getLast? {name : String} {child : BindingId}
    (h : (graph.membersNamed parent (fold name)).getLast? = some child) (kind : Binding.Kind) :
    graph.childOrInsert parent name kind = (child, graph) := by
  rw [childOrInsert, childNamed?_eq, h]

end Graph

/-! ### Plain and qualified columns -/

/-- The first and the last of several different items are the same only if there is just one. -/
theorem last_eq_first_iff {α : Type} {items : List α} {first last : α} (hnodup : items.Nodup)
    (hfirst : items.head? = some first) (hlast : items.getLast? = some last) :
    last = first ↔ items = [first] := by
  obtain ⟨rest, rfl⟩ := List.head?_eq_some_iff.mp hfirst
  constructor
  · rintro rfl
    rcases List.eq_nil_or_concat rest with rfl | ⟨front, final, rfl⟩
    · rfl
    · -- The last item stands behind the first one, so it is another one.
      rw [List.concat_eq_append, ← List.cons_append, List.getLast?_concat] at hlast
      cases hlast
      simp at hnodup
  · intro hsingle
    rw [hsingle] at hlast
    exact (Option.some.inj hlast).symm

/-- A column is the first of the members that match. -/
theorem Source.column?_eq_head? (source : Source) (graph : Graph) (name : String)
    (accepts : Binding.Kind → Bool) :
    source.column? graph name accepts =
      (graph.membersMatching source.relation name accepts).head? := by
  rw [column?, Graph.membersMatching, List.head?_filter]

theorem Source.column?_eq (source : Source) (graph : Graph) (name : String) :
    source.column? graph name (fun _ => true) =
      (graph.membersNamed source.relation name).head? := by
  rw [column?_eq_head?, Graph.membersMatching_true]

namespace QueryScope

variable {query : QueryScope} {source : Source} {graph : Graph} {accepts : Binding.Kind → Bool}

theorem lookup?_of_named {catalog : Catalog} {name : String} (h : catalog.named name = []) :
    catalog.lookup? graph name accepts = none := by
  simp [Catalog.lookup?, h]

/-- In a query with one source, a name of which nothing was declared means the source or a
    column of it. -/
theorem resolve?_column (hsources : query.sources = [source]) {name : String}
    (hundeclared : query.catalog.named name = []) (hname : name ≠ source.name graph) :
    query.resolve? graph name accepts = source.column? graph name accepts := by
  have hother : (source.name graph == name) = false := by simpa using Ne.symm hname
  rw [resolve?, lookup?_of_named hundeclared, source?, hsources]
  simp [hother]

theorem resolve?_source (hsources : query.sources = [source])
    (hundeclared : query.catalog.named (source.name graph) = [])
    (haccepts : accepts (graph.kind source.relation) = true) :
    query.resolve? graph (source.name graph) accepts = some source.relation := by
  rw [resolve?, lookup?_of_named hundeclared, source?, hsources]
  simp [haccepts]

end QueryScope

/-- The frame knows names: it is a body or a query. -/
def Frame.knowsNames (frame : Frame) : Bool :=
  !frame.catalogs.isEmpty

namespace Scope

variable {scope : Scope} {query : QueryScope} {source : Source} {name : String} {id : BindingId}

/-- The frames are asked first, then the root, then the schema. -/
theorem resolvePlain?_eq_or (scope : Scope) (localOnly : Bool) (name : String)
    (accepts : Binding.Kind → Bool) :
    scope.resolvePlain? localOnly name accepts =
      ((scope.frames.findSome? (·.resolve? scope.graph name accepts)).or
        (scope.root.catalog.lookup? scope.graph name accepts)).or
      (if localOnly then none else (scope.external? name).filter fun id =>
        accepts (scope.graph.kind id)) := by
  rw [resolvePlain?]
  split
  · next hdeclared => rw [hdeclared, Option.some_or]
  · next hnone => rw [hnone, Option.none_or]

/-- What the innermost level that knows names says of a name comes first. -/
theorem resolvePlain?_of_find? {frame : Frame} {accepts : Binding.Kind → Bool}
    (hframe : scope.frames.find? Frame.knowsNames = some frame) (localOnly : Bool)
    (hfound : frame.resolve? scope.graph name accepts = some id) :
    scope.resolvePlain? localOnly name accepts = some id := by
  have hlevel : (scope.frames.findSome? fun frame => frame.resolve? scope.graph name accepts) =
      some id := by
    obtain ⟨_, inner, outer, hframes, hinner⟩ := List.find?_eq_some_iff_append.mp hframe
    rw [hframes, List.findSome?_append, List.findSome?_eq_none_iff.mpr, Option.none_or,
      List.findSome?_cons, hfound]
    -- Further inside there are only levels that know no names.
    intro other hother
    have hnames := hinner other hother
    cases other with
    | lexical catalog owner => simp [Frame.knowsNames, Frame.catalogs] at hnames
    | select query => simp [Frame.knowsNames, Frame.catalogs] at hnames
    | _ => rfl
  rw [resolvePlain?_eq_or, hlevel, Option.some_or, Option.some_or]

/-- Under one segment a name means the latest member of what the segment means. -/
theorem resolveUnder?_of_owner {localOnly : Bool} {segment : String} {owner : BindingId}
    (howner : scope.resolvePlain? localOnly segment Binding.Kind.isContainer = some owner)
    (name : String) (accepts : Binding.Kind → Bool) :
    scope.resolveUnder? localOnly [segment] name accepts =
      (scope.graph.membersMatching owner name accepts).getLast? := by
  simp only [resolveUnder?, howner]
  exact scope.graph.latestChild?_eq_getLast? owner name accepts

section

variable (hquery : scope.frames.find? Frame.knowsNames = some (.select query))
  (hsources : query.sources = [source])

include hquery hsources

/-- In a query with one source, a plain name means the first member of the source
    that goes by it. -/
theorem resolvePlain?_column (hundeclared : query.catalog.named name = [])
    (hname : name ≠ source.name scope.graph)
    (hfirst : (scope.graph.membersNamed source.relation name).head? = some id) (localOnly : Bool) :
    scope.resolvePlain? localOnly name (fun _ => true) = some id := by
  refine resolvePlain?_of_find? hquery localOnly ?_
  rw [Frame.resolve?, QueryScope.resolve?_column hsources hundeclared hname,
    Source.column?_eq, hfirst]

/-- Under the name of the source, a name means the latest member of the source that goes by it. -/
theorem resolveUnder?_column (hreads : scope.ReadsTables)
    (hundeclared : query.catalog.named (source.name scope.graph) = []) (localOnly : Bool)
    (name : String) :
    scope.resolveUnder? localOnly [source.name scope.graph] name (fun _ => true) =
      (scope.graph.membersNamed source.relation name).getLast? := by
  have htable : (scope.graph.kind source.relation).isSource = true :=
    hreads _ (List.mem_of_find?_eq_some hquery) source (by simp [hsources])
  have hcontainer : (scope.graph.kind source.relation).isContainer = true := by
    revert htable
    cases scope.graph.kind source.relation <;>
      simp [Binding.Kind.isSource, Binding.Kind.isContainer]
  have howner : scope.resolvePlain? localOnly (source.name scope.graph) Binding.Kind.isContainer =
      some source.relation :=
    resolvePlain?_of_find? hquery localOnly
      (QueryScope.resolve?_source hsources hundeclared hcontainer)
  rw [resolveUnder?_of_owner howner, Graph.membersMatching_true]

end

end Scope

end Lineage
