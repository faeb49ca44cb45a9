import Lineage.Proofs.Graph.WellFormed
import Lineage.Proofs.Scope.Offers

/-!
# Well-formed scopes

In a well-formed scope the graph and all catalogs are well-formed, and every id that a level or the
schema holds is that of a binding. Whatever is done to a well-formed scope with ids that exist
leaves a well-formed scope, even if it fails, and gives ids that exist.

## Key results

- `Frame.WellFormed.receive`, `Frame.WellFormed.declare?`, `Frame.WellFormed.finish`: what a frame
  does
- `WellFormed.declare`, `WellFormed.receiveAll`, `WellFormed.unwind`, `WellFormed.flushElement`:
  declaring, sending, closing levels and ending an element
-/

namespace Lineage

/-! ### Frames -/

namespace Frame

/-- The catalog of the frame, if it has one. -/
def catalogs : Frame → List Catalog
  | lexical catalog _ => [catalog]
  | select query => [query.catalog]
  | _ => []

/-- All ids that the frame holds exist, and its catalog is well-formed. -/
structure WellFormed (graph : Graph) (frame : Frame) : Prop where
  ids : graph.Holds frame.ids
  catalogs : ∀ catalog ∈ frame.catalogs, catalog.WellFormed graph

variable {graph graph' : Graph} {frame after : Frame} {id : BindingId}

/-- A frame that knows no names yet. -/
theorem wellFormed_of_ids (hids : graph.Holds frame.ids)
    (hcatalogs : ∀ catalog ∈ frame.catalogs, catalog = .empty) : frame.WellFormed graph :=
  ⟨hids, fun catalog hcatalog => hcatalogs catalog hcatalog ▸ Catalog.wellFormed_empty graph⟩

theorem WellFormed.extend {commented : List BindingId} {before after : Graph}
    (h : frame.WellFormed before) (hextends : before.Extends commented after) :
    frame.WellFormed after :=
  ⟨h.ids.extend hextends, fun catalog hcatalog => (h.catalogs catalog hcatalog).extend hextends⟩

theorem WellFormed.grow {before after : Graph} (h : frame.WellFormed before)
    (hgrows : before.Grows after) : frame.WellFormed after :=
  h.extend (Graph.extends_of_grows hgrows)

theorem catalogs_taking (frame : Frame) (id : BindingId) :
    (frame.taking id).catalogs = frame.catalogs := by
  cases frame with
  | assignment target => cases target <;> rfl
  | select query =>
    simp only [taking, catalogs, QueryScope.addSource]
    split <;> rfl
  | _ => rfl

/-- A frame that takes a binding holds no other new id. -/
theorem ids_taking (frame : Frame) (id : BindingId) :
    (frame.taking id).ids ⊆ frame.ids ++ [id] := by
  cases frame with
  | assignment target => cases target <;> simp [taking, ids]
  | select query =>
    simp only [taking, ids, QueryScope.addSource]
    split <;> simp
  | chain head => simp [taking, ids]
  | _ => simp [taking, ids]

theorem WellFormed.taking (h : frame.WellFormed graph) (hid : graph.contains id = true) :
    (frame.taking id).WellFormed graph where
  ids := (h.ids.append (Graph.holds_singleton hid)).subset (frame.ids_taking id)
  catalogs := by
    rw [catalogs_taking]
    exact h.catalogs

/-- The parameter that an argument is meant for, or the routine, exists. -/
theorem contains_parameterFor? (h : graph.WellFormed) {routine : BindingId}
    (hroutine : graph.contains routine = true) (argument : BindingId) :
    graph.contains ((parameterFor? graph routine argument).getD routine) = true := by
  cases hfound : parameterFor? graph routine argument with
  | none => exact hroutine
  | some parameter =>
    have hmem : parameter ∈ (graph.children routine).filter fun child =>
      graph.kind child == .parameter := by
      simp only [parameterFor?] at hfound
      split at hfound <;> exact List.mem_of_find?_eq_some hfound
    exact h.children routine parameter (List.mem_filter.mp hmem).1

theorem wellFormed_passArgument (h : graph.WellFormed) {routine : BindingId}
    (hroutine : graph.contains routine = true) (argument : BindingId) :
    (passArgument graph routine argument).WellFormed := by
  have htarget := contains_parameterFor? h hroutine argument
  exact (h.addOutput argument htarget).addOutputs _
    ((Graph.Grows.refl.addOutput argument _).contains htarget)

theorem wellFormed_passToMember (h : graph.WellFormed) (owner id : BindingId) :
    (passToMember graph owner id).WellFormed := by
  obtain ⟨hgraph, hmember⟩ := h.childOrInsert owner (graph.name id) .field
  exact hgraph.addOutput id hmember

/-- A frame that takes a binding leaves a well-formed graph. -/
theorem WellFormed.graph_of_receive (hframe : frame.WellFormed graph) (hgraph : graph.WellFormed)
    (hid : graph.contains id = true) (h : frame.receive graph id = .ok (.consumed after graph')) :
    graph'.WellFormed := by
  cases connects_of_receive h with
  | nothing => exact hgraph
  | output htarget => exact hgraph.addOutput id (hframe.ids _ htarget)
  | child _ => exact hgraph.addChild _ hid
  | member _ => exact wellFormed_passToMember hgraph _ id
  | argument hroutine _ =>
    subst hroutine
    exact wellFormed_passArgument hgraph (hframe.ids _ (by simp [Frame.ids])) id

/-- A frame that takes a binding stays well-formed, and so does the graph. -/
theorem WellFormed.receive (hframe : frame.WellFormed graph) (hgraph : graph.WellFormed)
    (hid : graph.contains id = true) (h : frame.receive graph id = .ok (.consumed after graph')) :
    graph'.WellFormed ∧ after.WellFormed graph' := by
  refine ⟨hframe.graph_of_receive hgraph hid h, ?_⟩
  rw [(eq_taking_of_receive h).2]
  exact (hframe.taking hid).grow (grows_of_receive h)

/-- A frame that declares a binding stays well-formed, and so does the graph. -/
theorem WellFormed.declare? (hframe : frame.WellFormed graph) (hgraph : graph.WellFormed)
    (hid : graph.contains id = true) (h : frame.declare? graph id = some (after, graph')) :
    graph'.WellFormed ∧ after.WellFormed graph' := by
  have hgrows := grows_of_declare? h
  rcases declare?_cases h with ⟨catalog, owner, rfl, rfl, hchange⟩ | ⟨query, rfl, rfl, rfl⟩
  · have hnames := (hframe.catalogs catalog (by simp [Frame.catalogs])).add hid
    have hcatalog : (lexical (catalog.add graph id) owner).WellFormed graph :=
      ⟨hframe.ids, by simpa [Frame.catalogs] using hnames⟩
    -- Only some kinds become members of the owner; the others leave the graph as it is.
    rcases hchange with rfl | ⟨parent, _, rfl⟩
    · exact ⟨hgraph, hcatalog⟩
    · exact ⟨hgraph.addChild parent hid, hcatalog.grow hgrows⟩
  · have hnames := (hframe.catalogs query.catalog (by simp [Frame.catalogs])).add hid
    exact ⟨hgraph, hframe.ids, by simpa [Frame.catalogs] using hnames⟩

/-- What a frame reports when it closes exists. -/
theorem WellFormed.finish {reported : List BindingId} (h : frame.WellFormed graph)
    (hfinish : frame.finish graph = .ok reported) : graph.Holds reported := by
  have hids := h.ids
  cases frame with
  | multipleAssignment targets received => grind [Frame.finish, Graph.Holds, Frame.ids]
  | wrapper binding structural => grind [Frame.finish, Graph.Holds, Frame.ids]
  | chain head => cases head <;> grind [Frame.finish, Graph.Holds, Frame.ids]
  | _ => grind [Frame.finish, Graph.Holds, Frame.ids]

end Frame

/-! ### Scopes -/

namespace Scope

/-- The graph and all catalogs are well-formed, and all ids that a level or the
    schema holds exist. -/
structure WellFormed (scope : Scope) : Prop where
  graph : scope.graph.WellFormed
  globals : scope.root.catalog.WellFormed scope.graph
  external : scope.graph.Holds (scope.root.external.map Prod.snd)
  frames : ∀ frame ∈ scope.frames, frame.WellFormed scope.graph

/-- A step gives a binding that exists, in a well-formed scope. -/
def Yields (result : BindingId × Scope) : Prop :=
  result.2.WellFormed ∧ result.2.graph.contains result.1 = true

namespace WellFormed

variable {scope : Scope} (h : scope.WellFormed) {graph : Graph} {frames after : List Frame}
  {id : BindingId}

include h

/-- Other levels and a graph that has grown. -/
theorem replace (hgrows : scope.graph.Grows graph) (hgraph : graph.WellFormed)
    (hframes : ∀ frame ∈ frames, frame.WellFormed graph) :
    { scope with graph, frames }.WellFormed :=
  ⟨hgraph, h.globals.grow hgrows, h.external.grow hgrows, hframes⟩

theorem withGraph (hgrows : scope.graph.Grows graph) (hgraph : graph.WellFormed) :
    { scope with graph }.WellFormed :=
  h.replace hgrows hgraph fun frame hframe => (h.frames frame hframe).grow hgrows

theorem withFrames (hframes : ∀ frame ∈ frames, frame.WellFormed scope.graph) :
    { scope with frames }.WellFormed :=
  h.replace .refl h.graph hframes

/-! ### Levels -/

theorem push {frame : Frame} (hframe : frame.WellFormed scope.graph) :
    (scope.push frame).WellFormed :=
  h.withFrames fun other hother => by
    rcases List.mem_cons.mp hother with rfl | hmem
    · exact hframe
    · exact h.frames other hmem

theorem dropTo (height : Nat) : (scope.dropTo height).WellFormed :=
  h.withFrames fun frame hframe => h.frames frame (List.mem_of_mem_drop hframe)

/-! ### Graph -/

theorem add {binding : Binding} (hbinding : binding.WellFormed scope.graph) :
    Yields (scope.add binding) :=
  ⟨h.withGraph (.push binding .refl) (h.graph.push hbinding),
    scope.graph.contains_push_nextId binding⟩

theorem addChild (parent : BindingId) {child : BindingId}
    (hchild : scope.graph.contains child = true) : (scope.addChild parent child).WellFormed :=
  h.withGraph (.addChild parent child .refl) (h.graph.addChild parent hchild)

theorem addOutput (source : BindingId) {target : BindingId}
    (htarget : scope.graph.contains target = true) : (scope.addOutput source target).WellFormed :=
  h.withGraph (.addOutput source target .refl) (h.graph.addOutput source htarget)

theorem setComment (id : BindingId) (comment : String) :
    { scope with graph := scope.graph.setComment id comment }.WellFormed := by
  have hextends := scope.graph.extends_setComment id comment
  exact ⟨h.graph.setComment id comment, h.globals.extend hextends, h.external.extend hextends,
    fun frame hframe => (h.frames frame hframe).extend hextends⟩

theorem childOrInsert (parent : BindingId) (name : String) (kind : Binding.Kind) :
    Yields (scope.childOrInsert parent name kind) := by
  obtain ⟨hgraph, hchild⟩ := h.graph.childOrInsert parent name kind
  exact ⟨h.withGraph (Graph.grows_childOrInsert _ parent name kind) hgraph, hchild⟩

/-! ### Declaring -/

theorem declareGlobal (hid : scope.graph.contains id = true) :
    (scope.declareGlobal id).WellFormed :=
  { h with globals := h.globals.add hid }

omit h in
theorem declareAmong? {graph' : Graph} (hgraph : graph.WellFormed)
    (hframes : ∀ frame ∈ frames, frame.WellFormed graph) (hid : graph.contains id = true)
    (hdeclared : Scope.declareAmong? id graph frames = some (after, graph')) :
    graph'.WellFormed ∧ ∀ frame ∈ after, frame.WellFormed graph' := by
  have hgrows := grows_of_declareAmong? hdeclared
  obtain ⟨above, frame, taken, below, rfl, rfl, _, htaken⟩ := exists_of_declareAmong? hdeclared
  obtain ⟨hgraph', htop⟩ := (hframes frame (by simp)).declare? hgraph hid htaken
  exact ⟨hgraph', forall_mem_exchange hframes (fun _ hother => hother.grow hgrows) fun _ => htop⟩

theorem declare (hid : scope.graph.contains id = true) : (scope.declare id).WellFormed := by
  unfold Scope.declare
  split
  · next hdeclared =>
    obtain ⟨hgraph, hframes⟩ := declareAmong? h.graph h.frames hid hdeclared
    exact h.replace (grows_of_declareAmong? hdeclared) hgraph hframes
  · exact h.declareGlobal hid

theorem declareInnermost? {after : Scope} (hid : scope.graph.contains id = true)
    (hdeclared : scope.declareInnermost? id = some after) : after.WellFormed := by
  unfold Scope.declareInnermost? at hdeclared
  split at hdeclared
  · rw [← Option.some.inj hdeclared]
    exact h.declareGlobal hid
  · next frame rest hframes =>
    obtain ⟨⟨top, graph⟩, htop, rfl⟩ := Option.map_eq_some_iff.mp hdeclared
    obtain ⟨hframe, hrest⟩ := List.forall_mem_cons.mp (hframes ▸ h.frames)
    have hgrows := Frame.grows_of_declare? htop
    obtain ⟨hgraph, htop'⟩ := hframe.declare? h.graph hid htop
    exact h.replace hgrows hgraph
      (List.forall_mem_cons.mpr ⟨htop', fun other hother => (hrest other hother).grow hgrows⟩)

/-! ### Queries and their targets -/

omit h in
theorem changeNearestQuery? {change : QueryScope → Option QueryScope}
    (hframes : ∀ frame ∈ frames, frame.WellFormed graph)
    (hchange : ∀ query changed, change query = some changed →
      (Frame.select query).WellFormed graph → (Frame.select changed).WellFormed graph)
    (hchanged : Scope.changeNearestQuery? change frames = some after) :
    ∀ frame ∈ after, frame.WellFormed graph := by
  induction frames generalizing after with
  | nil => simp [Scope.changeNearestQuery?] at hchanged
  | cons frame rest ih =>
    obtain ⟨hframe, hrest⟩ := List.forall_mem_cons.mp hframes
    cases frame with
    | select query =>
      obtain ⟨changed, heq, rfl⟩ := Option.map_eq_some_iff.mp hchanged
      exact List.forall_mem_cons.mpr ⟨hchange query changed heq hframe, hrest⟩
    | _ =>
      obtain ⟨inner, hinner, rfl⟩ := Option.map_eq_some_iff.mp hchanged
      exact List.forall_mem_cons.mpr ⟨hframe, ih hrest hinner⟩

/-- Another name for a table. -/
theorem renameSource? (relation : BindingId) (aliasName : Option String) :
    ((scope.renameSource? relation aliasName).getD scope).WellFormed := by
  unfold Scope.renameSource?
  cases hchanged : Scope.changeNearestQuery? (·.rename? relation aliasName) scope.frames with
  | none => exact h
  | some frames =>
    refine h.withFrames
      (changeNearestQuery? h.frames (fun query changed hrename hquery => ?_) hchanged)
    obtain ⟨sources, hsources, rfl⟩ := Option.map_eq_some_iff.mp hrename
    -- Names of sources change, but not the tables that they stand for.
    have hids := hquery.ids
    rw [Frame.ids, ← relations_renameLast? hsources] at hids
    exact ⟨hids, hquery.catalogs⟩

theorem restartAssignment? (queries : Nat) :
    ((scope.restartAssignment? queries).getD scope).WellFormed := by
  unfold Scope.restartAssignment?
  cases hpending : scope.pendingAssignment? queries with
  | none => exact h
  | some pending =>
    obtain ⟨targets, received⟩ := pending
    refine h.withFrames fun frame hframe => ?_
    rcases List.mem_or_eq_of_mem_set hframe with hmem | rfl
    · exact h.frames frame hmem
    · -- The targets are those of the frame that stood there before.
      unfold Scope.pendingAssignment? at hpending
      split at hpending
      · split at hpending
        · next htop =>
          simp only [Option.some.injEq, Prod.mk.injEq] at hpending
          obtain ⟨rfl, rfl⟩ := hpending
          have hbefore := h.frames _ (List.mem_of_getElem? htop)
          exact ⟨hbefore.ids, hbefore.catalogs⟩
        · simp at hpending
      · simp at hpending

/-! ### Sending -/

omit h in
theorem receiveAmong {graph' : Graph} (hgraph : graph.WellFormed)
    (hframes : ∀ frame ∈ frames, frame.WellFormed graph) (hid : graph.contains id = true)
    (hsent : Scope.receiveAmong id graph frames = .ok (after, graph')) :
    graph'.WellFormed ∧ ∀ frame ∈ after, frame.WellFormed graph' := by
  have hgrows := grows_of_receiveAmong hsent
  rcases exists_of_receiveAmong hsent with
      ⟨rfl, rfl⟩ | ⟨above, frame, taken, below, rfl, rfl, hreceive⟩
  · exact ⟨hgraph, hframes⟩
  · -- The other levels stay as they are, but the graph around them may have grown.
    obtain ⟨hgraph', htop⟩ := (hframes frame (by simp)).receive hgraph hid hreceive
    exact ⟨hgraph', forall_mem_exchange hframes (fun _ hother => hother.grow hgrows) fun _ => htop⟩

theorem receive {after : Scope} (hid : scope.graph.contains id = true)
    (hsent : scope.receive id = .ok after) : after.WellFormed := by
  obtain ⟨_, _, hamong, rfl⟩ := receiveAmong_of_receive hsent
  obtain ⟨hgraph, hframes⟩ := receiveAmong h.graph h.frames hid hamong
  exact h.replace (grows_of_receiveAmong hamong) hgraph hframes

theorem receiveInnermost {after : Scope} (hid : scope.graph.contains id = true)
    (hsent : scope.receiveInnermost id = .ok (some after)) : after.WellFormed := by
  rcases exists_of_receiveInnermost hsent with
      rfl | ⟨frame, taken, rest, graph, hframes, hreceive, rfl⟩
  · exact h
  · obtain ⟨hframe, hrest⟩ := List.forall_mem_cons.mp (hframes ▸ h.frames)
    have hgrows := Frame.grows_of_receive hreceive
    obtain ⟨hgraph, htop⟩ := hframe.receive h.graph hid hreceive
    exact h.replace hgrows hgraph
      (List.forall_mem_cons.mpr ⟨htop, fun other hother => (hrest other hother).grow hgrows⟩)

theorem receiveAll {ids : List BindingId} (hids : scope.graph.Holds ids) :
    (Scope.receiveAll ids scope).2.WellFormed := by
  induction ids generalizing scope with
  | nil => exact h
  | cons id rest ih =>
    obtain ⟨hid, hrest⟩ := List.forall_mem_cons.mp hids
    rcases keeps_receive scope id with ⟨after, hsent, hkeeps⟩ | ⟨fault, hsent, _⟩
    · simp only [Scope.receiveAll, hsent]
      exact ih (h.receive hid hsent) (Graph.Holds.grow hrest hkeeps.above.grows)
    · simp only [Scope.receiveAll, hsent]
      exact h

/-! ### Closing levels -/

theorem pop : scope.pop.2.WellFormed := by
  unfold Scope.pop
  split
  · exact h
  · next frame rest hframes =>
    obtain ⟨hframe, hrest⟩ := List.forall_mem_cons.mp (hframes ▸ h.frames)
    have houter : { scope with frames := rest }.WellFormed := h.withFrames hrest
    cases hfinish : frame.finish scope.graph with
    | error error => exact houter
    | ok reported => exact houter.receiveAll (hframe.finish hfinish)

theorem unwind (height : Nat) (finish : Bool) : (scope.unwind height finish).2.WellFormed :=
  unwind_keeps pop (fun height h => h.dropTo height) h height finish

/-- Ending an element. -/
theorem flushElement (position : Nat) : (scope.flushElement position).2.WellFormed := by
  refine flushElement_keeps position ?_ (fun h => h.push ?_) h
  · intro pending rest hframes
    obtain ⟨hlist, hrest⟩ := List.forall_mem_cons.mp (hframes ▸ h.frames)
    have hgrows := grows_contribution scope.graph position pending
    -- The element's value is its only one, or else the new binding for all of them.
    have hvalue : (contribution scope.graph position pending).2.WellFormed ∧
        (contribution scope.graph position pending).2.contains
          (contribution scope.graph position pending).1 = true := by
      unfold contribution
      split
      · exact ⟨h.graph, hlist.ids _ (by simp [Frame.ids])⟩
      · have hnew := scope.graph.contains_push_nextId
          ((Binding.ofName s!"[{position}]" .aliased).withPosition position)
        have hbinding :=
          (Binding.wellFormed_ofName scope.graph s!"[{position}]" .aliased).withPosition position
        exact ⟨(h.graph.push hbinding).addOutputs _ hnew,
          (Graph.grows_addOutputs _ _ _).contains hnew⟩
    have haround :
        { scope with graph := (contribution scope.graph position pending).2, frames := rest
          }.WellFormed :=
      h.replace hgrows hvalue.1 fun other hother => (hrest other hother).grow hgrows
    exact ⟨haround, fun _ => haround.receive hvalue.2⟩
  · exact Frame.wellFormed_of_ids (Graph.holds_nil _) (by simp [Frame.catalogs])

end WellFormed

end Scope

end Lineage
