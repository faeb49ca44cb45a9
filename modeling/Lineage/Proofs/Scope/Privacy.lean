import Lineage.Proofs.Graph.Privacy
import Lineage.Proofs.Scope.Derivation
import Lineage.Proofs.Scope.Schema

/-!
# Levels that keep arguments and calls to themselves

In a discreet scope no name stands for an argument or a call: all that is declared, and all that
names can reach, is public. The level of an argument is the only one that holds it. What is done to
a discreet scope leaves it discreet and is calm, as long as no argument is sent outward. That
happens when the level of an argument closes, and is not treated here.

## Key results

- `Frame.Discreet.receive`, `Frame.Discreet.declare?`, `Frame.Discreet.finish`: what a frame does
- `Derives.calm`: derivations from public ids are calm, and lead to public ids
- `Discreet.receiveAll`, `Discreet.pop`, `Discreet.flushElement`: sending, closing a level and
  ending an element
-/

namespace Lineage

/-- The binding can be sent outward: it exists and is no argument. -/
structure Graph.Sendable (graph : Graph) (id : BindingId) : Prop where
  contains : graph.contains id = true
  kind : graph.kind id ≠ .argument

theorem Graph.Sendable.grow {before after : Graph} {id : BindingId} (h : before.Sendable id)
    (hgrows : before.Grows after) : after.Sendable id :=
  ⟨hgrows.contains h.contains, by rw [hgrows.kind h.contains]; exact h.kind⟩

theorem Graph.Public.sendable {graph : Graph} {id : BindingId} (h : graph.Public id) :
    graph.Sendable id :=
  ⟨h.contains, h.ne_argument⟩

/-! ### Frames -/

namespace Frame

variable {chained : Prop} {graph graph' before after : Graph} {frame : Frame} {id : BindingId}

/-- The argument whose members the frame gathers. -/
def held? : Frame → Option BindingId
  | wrapper binding true => some binding
  | _ => none

/-- The frame itself if it is that of a call, or gathers for a binding. Nothing changes
    such a frame. -/
def fixed? : Frame → Option Frame
  | wrapper binding structural => some (wrapper binding structural)
  | routineCall routine => some (routineCall routine)
  | _ => none

theorem eq_of_fixed? {fixed : Frame} (h : frame.fixed? = some fixed) : frame = fixed := by
  cases frame with
  | wrapper binding structural => exact Option.some.inj h
  | routineCall routine => exact Option.some.inj h
  | _ => simp [fixed?] at h

theorem held?_eq_bind (frame : Frame) : frame.held? = frame.fixed?.bind held? := by
  cases frame <;> rfl

@[simp] theorem fixed?_taking (frame : Frame) (id : BindingId) :
    (frame.taking id).fixed? = frame.fixed? := by
  cases frame with
  | assignment target => cases target <;> rfl
  | _ => rfl

@[simp] theorem fixed?_core (frame : Frame) : frame.core.fixed? = frame.fixed? := by
  cases frame <;> rfl

theorem fixed?_absorb (frame : Frame) (signal : Signal) :
    (frame.absorb signal).fixed? = frame.fixed? := by
  cases signal with
  | value id => exact fixed?_taking frame id
  | operator queries =>
    cases queries with
    | zero => cases frame <;> rfl
    | succ queries => rfl

/-- What the frame gathers for or has gathered is public, the argument of a `held?` frame and its
    members apart. Chains there are only where they are allowed. -/
def Guards (chained : Prop) (graph : Graph) : Frame → Prop
  | lexical _ owner => ∀ id ∈ owner, graph.Public id
  | wrapper binding structural =>
    graph.contains binding = true ∧ (structural = true ↔ graph.kind binding = .argument)
  | members owner structural => structural = false ∧ graph.Public owner
  | chain head => chained ∧ ∀ id ∈ head, graph.Public id
  | select query => ∀ source ∈ query.sources, graph.Public source.relation
  | selectList pending => ∀ id ∈ pending, graph.Sendable id
  | _ => True

/-- The frame keeps arguments and calls to itself: all that it declares is public. -/
structure Discreet (chained : Prop) (graph : Graph) (frame : Frame) : Prop where
  catalogs : ∀ catalog ∈ frame.catalogs, ∀ id ∈ catalog.order, graph.Public id
  guards : frame.Guards chained graph

/-- An ordinary frame that holds public ids and knows no names. -/
theorem discreet_of_ordinary (hids : ∀ id ∈ frame.ids, graph.Public id)
    (hcatalogs : ∀ catalog ∈ frame.catalogs, catalog = .empty)
    (hordinary : frame.Ordinary chained) : frame.Discreet chained graph := by
  refine ⟨fun catalog hcatalog id hid => ?_, ?_⟩
  · rw [hcatalogs catalog hcatalog] at hid
    cases hid
  · cases frame with
    | lexical catalog owner => exact fun id hid => hids id (Option.mem_toList.mpr hid)
    | wrapper binding structural =>
      obtain rfl : structural = false := hordinary
      have hpublic := hids binding (by simp [ids])
      exact ⟨hpublic.contains, by simpa using hpublic.ne_argument⟩
    | members owner structural => exact ⟨hordinary, hids owner (by simp [ids])⟩
    | chain head => exact ⟨hordinary, fun id hid => hids id (Option.mem_toList.mpr hid)⟩
    | select query => exact fun source hsource => hids _ (List.mem_map_of_mem hsource)
    | selectList pending => exact fun id hid => (hids id hid).sendable
    | _ => trivial

theorem held?_of_ordinary (h : frame.Ordinary chained) : frame.held? = none := by
  cases frame with
  | wrapper binding structural =>
    obtain rfl : structural = false := h
    rfl
  | _ => rfl

theorem Discreet.grow (h : frame.Discreet chained before) (hgrows : before.Grows after) :
    frame.Discreet chained after := by
  refine ⟨fun catalog hcatalog id hid => (h.catalogs catalog hcatalog id hid).grow hgrows, ?_⟩
  have hguards := h.guards
  cases frame with
  | lexical catalog owner => exact fun id hid => (hguards id hid).grow hgrows
  | wrapper binding structural =>
    refine ⟨hgrows.contains hguards.1, ?_⟩
    rw [hgrows.kind hguards.1]
    exact hguards.2
  | members owner structural => exact ⟨hguards.1, hguards.2.grow hgrows⟩
  | chain head => exact ⟨hguards.1, fun id hid => (hguards.2 id hid).grow hgrows⟩
  | select query => exact fun source hsource => (hguards source hsource).grow hgrows
  | selectList pending => exact fun id hid => (hguards id hid).grow hgrows
  | _ => trivial

/-- Tables and records are public. -/
theorem isPublic_of_isSource {kind : Binding.Kind} (h : kind.isSource = true) :
    kind.isPublic = true := by
  cases kind <;> first | rfl | cases h

/-- A frame that takes a binding guards what it has taken. -/
theorem Discreet.taking (h : frame.Discreet chained graph) (hid : graph.Sendable id)
    (hcallless : chained → graph.kind id ≠ .call) (hforwards : frame.forwards graph id = false) :
    (frame.taking id).Discreet chained graph := by
  refine ⟨?_, ?_⟩
  · rw [catalogs_taking]
    exact h.catalogs
  · have hguards := h.guards
    cases frame with
    | assignment target => cases target <;> trivial
    | chain head =>
      have hpublic : graph.Public id :=
        ⟨hid.contains, Graph.isPublic_of_ne hid.kind (hcallless hguards.1)⟩
      exact ⟨hguards.1, fun other hother => Option.some.inj hother ▸ hpublic⟩
    | select query =>
      -- A query passes on all but its sources, and what can be a source is public.
      have hsource : (graph.kind id).isSource = true := by simpa [forwards] using hforwards
      have hpublic : graph.Public id := ⟨hid.contains, isPublic_of_isSource hsource⟩
      intro source hmem
      simp only [QueryScope.addSource] at hmem
      split at hmem
      · exact hguards source hmem
      · rcases List.mem_append.mp hmem with hold | hnew
        · exact hguards source hold
        · rw [List.mem_singleton.mp hnew]
          exact hpublic
    | selectList pending =>
      intro other hother
      rcases List.mem_append.mp hother with hold | hnew
      · exact hguards other hold
      · rw [List.mem_singleton.mp hnew]
        exact hid
    | _ => exact hguards

/-- A frame that takes a binding does so calmly. -/
theorem Discreet.calm_receive {after : Frame} (h : frame.Discreet chained graph)
    (hid : graph.Sendable id) (hcallless : chained → graph.kind id ≠ .call)
    (hreceive : frame.receive graph id = .ok (.consumed after graph')) :
    graph.Calm frame.held?.toList graph' := by
  have hguards := h.guards
  cases connects_of_receive hreceive with
  | nothing => exact .refl
  | output _ => exact Graph.Calm.refl.addOutput _ hid.kind
  | child hframe =>
    rcases hframe with rfl | rfl | rfl
    · -- Only the level of an argument collects members, and arguments may have private ones.
      have hargument := hguards.2.mp rfl
      exact Graph.Calm.refl.addChild
        ⟨hid.contains, fun hkind => absurd hkind hid.kind, fun _ => hargument⟩
        fun _ => List.mem_singleton_self _
    · cases hguards.1
    · -- Where there are chains no call is sent, so what a chain links is public.
      have hpublic : graph.Public id :=
        ⟨hid.contains, Graph.isPublic_of_ne hid.kind (hcallless hguards.1)⟩
      exact Graph.Calm.refl.addChild hpublic.joins fun hargument =>
        absurd hargument (hguards.2 _ rfl).ne_argument
  | @member owner hframe =>
    subst hframe
    have hmember : graph.Calm [] (graph.childOrInsert owner (graph.name id) .field).2 :=
      .childOrInsert _ hguards.2 rfl
    exact hmember.addOutput _ (hid.grow hmember.grows).kind
  | argument _ hkind => exact absurd hkind hid.kind

/-- A frame that takes a binding stays discreet. -/
theorem Discreet.receive {after : Frame} (h : frame.Discreet chained graph)
    (hid : graph.Sendable id) (hcallless : chained → graph.kind id ≠ .call)
    (hreceive : frame.receive graph id = .ok (.consumed after graph')) :
    graph.Calm frame.held?.toList graph' ∧ after.Discreet chained graph' ∧
    after.held? = frame.held? := by
  have hcalm := h.calm_receive hid hcallless hreceive
  obtain ⟨hforwards, rfl⟩ := eq_taking_of_receive hreceive
  exact ⟨hcalm, (h.taking hid hcallless hforwards).grow hcalm.grows,
    by rw [held?_eq_bind, fixed?_taking, ← held?_eq_bind]⟩

/-- What a frame other than that of an argument reports when it closes can be sent on. -/
theorem Discreet.finish {reported : List BindingId} (h : frame.Discreet chained graph)
    (hheld : frame.held? = none) (hfinish : frame.finish graph = .ok reported) :
    ∀ id ∈ reported, graph.Sendable id := by
  have hguards := h.guards
  cases frame with
  | multipleAssignment targets received => grind [Frame.finish]
  | wrapper binding structural =>
    cases structural with
    | true => simp [held?] at hheld
    | false =>
      have hkind : graph.kind binding ≠ .argument := by simpa using hguards.2
      have hsendable : graph.Sendable binding := ⟨hguards.1, hkind⟩
      grind [Frame.finish]
  | chain head =>
    cases head with
    | none => grind [Frame.finish]
    | some head =>
      have hsendable := (hguards.2 head rfl).sendable
      grind [Frame.finish]
  | selectList pending =>
    have hpending : ∀ id ∈ pending, graph.Sendable id := hguards
    grind [Frame.finish]
  | _ => grind [Frame.finish]

theorem mem_order_of_add {catalog : Catalog} (h : ∀ other ∈ catalog.order, graph.Public other)
    (hid : graph.Public id) : ∀ other ∈ (catalog.add graph id).order, graph.Public other := by
  intro other hother
  rcases Catalog.mem_order_add.mp hother with hold | rfl
  · exact h other hold
  · exact hid

/-- A frame that declares a public binding does so calmly, and stays discreet. -/
theorem Discreet.declare? {after : Frame} (h : frame.Discreet chained graph) (hid : graph.Public id)
    (hdeclare : frame.declare? graph id = some (after, graph')) :
    graph.Calm [] graph' ∧ after.Discreet chained graph' ∧ after.held? = frame.held? := by
  rcases declare?_cases hdeclare with ⟨catalog, owner, rfl, rfl, hchange⟩ | ⟨query, rfl, rfl, rfl⟩
  · have hnames := mem_order_of_add (h.catalogs catalog (by simp [Frame.catalogs])) hid
    have hcatalog : (lexical (catalog.add graph id) owner).Discreet chained graph :=
      ⟨by simpa [Frame.catalogs] using hnames, h.guards⟩
    rcases hchange with rfl | ⟨parent, hparent, rfl⟩
    · exact ⟨.refl, hcatalog, rfl⟩
    · -- The owner of a body is public, so it is no argument and may get members.
      have hcalm : graph.Calm [] (graph.addChild parent id) :=
        Graph.Calm.refl.addChild hid.joins fun hargument =>
          absurd hargument (h.guards parent hparent).ne_argument
      exact ⟨hcalm, hcatalog.grow hcalm.grows, rfl⟩
  · have hcatalog := mem_order_of_add (h.catalogs query.catalog (by simp [Frame.catalogs])) hid
    exact ⟨.refl, ⟨by simpa [Frame.catalogs] using hcatalog, h.guards⟩, rfl⟩

end Frame

/-! ### Scopes -/

namespace Scope

variable {chained : Prop} {scope before middle after : Scope} {known ids : List BindingId}

/-- The open arguments, innermost first. -/
def held (scope : Scope) : List BindingId :=
  scope.frames.filterMap Frame.held?

/-- No name stands for an argument or a call. Where chains are allowed, there are no calls. -/
structure Discreet (chained : Prop) (scope : Scope) : Prop where
  isSealed : scope.graph.Sealed
  callless : chained → ∀ id, scope.graph.kind id ≠ .call
  globals : ∀ id ∈ scope.root.catalog.order, scope.graph.Public id
  external : ∀ id ∈ scope.root.external.map Prod.snd, scope.graph.Public id
  frames : ∀ frame ∈ scope.frames, frame.Discreet chained scope.graph

/-- The second scope is discreet and comes from the first one by steps that leave arguments alone,
    the members of open ones apart. -/
structure Calm (chained : Prop) (before after : Scope) : Prop where
  discreet : after.Discreet chained
  held : after.held = before.held
  graph : before.graph.Calm before.held after.graph

namespace Calm

theorem refl (h : scope.Discreet chained) : scope.Calm chained scope :=
  ⟨h, rfl, .refl⟩

theorem trans (hfirst : before.Calm chained middle) (hlast : middle.Calm chained after) :
    before.Calm chained after :=
  ⟨hlast.discreet, hlast.held.trans hfirst.held, hfirst.graph.trans (hfirst.held ▸ hlast.graph)⟩

end Calm

namespace Discreet

variable {graph : Graph} {frames : List Frame} {id : BindingId}

/-- Other levels and a graph that has grown. -/
theorem replace (h : scope.Discreet chained) (hgrows : scope.graph.Grows graph)
    (hsealed : graph.Sealed) (hcallless : chained → ∀ id, graph.kind id ≠ .call)
    (hframes : ∀ frame ∈ frames, frame.Discreet chained graph) :
    { scope with graph, frames }.Discreet chained where
  isSealed := hsealed
  callless := hcallless
  globals id hid := (h.globals id hid).grow hgrows
  external id hid := (h.external id hid).grow hgrows
  frames := hframes

/-- Other levels and a graph that comes from this one by calm steps. -/
theorem replaceCalm (h : scope.Discreet chained) {touched : List BindingId}
    (hcalm : scope.graph.Calm touched graph)
    (hframes : ∀ frame ∈ frames, frame.Discreet chained graph) :
    { scope with graph, frames }.Discreet chained := by
  refine h.replace hcalm.grows (hcalm.isSealed h.isSealed) (fun hchained id hkind => ?_) hframes
  have hold : scope.graph.contains id = true := hcalm.contains (by rw [hkind]; rfl)
  exact h.callless hchained id ((hcalm.grows.kind hold).symm.trans hkind)

theorem withGraph (h : scope.Discreet chained) (hcalm : scope.graph.Calm [] graph) :
    scope.Calm chained { scope with graph } :=
  ⟨h.replaceCalm hcalm fun frame hframe => (h.frames frame hframe).grow hcalm.grows, rfl,
    hcalm.mono (List.nil_subset _)⟩

theorem withFrames (h : scope.Discreet chained)
    (hframes : ∀ frame ∈ frames, frame.Discreet chained scope.graph)
    (hheld : frames.filterMap Frame.held? = scope.held) :
    scope.Calm chained { scope with frames } :=
  ⟨h.replaceCalm (.refl : scope.graph.Calm [] scope.graph) hframes, hheld, .refl⟩

/-- A level other than that of an argument opens. -/
theorem push (h : scope.Discreet chained) {frame : Frame}
    (hframe : frame.Discreet chained scope.graph) (hheld : frame.held? = none) :
    scope.Calm chained (scope.push frame) :=
  h.withFrames (List.forall_mem_cons.mpr ⟨hframe, h.frames⟩)
    (by rw [List.filterMap_cons, hheld]; rfl)

/-! ### Declaring -/

theorem declareGlobal (h : scope.Discreet chained) (hid : scope.graph.Public id) :
    scope.Calm chained (scope.declareGlobal id) :=
  ⟨{ h with globals := Frame.mem_order_of_add h.globals hid }, rfl, .refl⟩

theorem declareAmong? {graph' : Graph} {after : List Frame}
    (hframes : ∀ frame ∈ frames, frame.Discreet chained graph) (hid : graph.Public id)
    (hdeclared : Scope.declareAmong? id graph frames = some (after, graph')) :
    graph.Calm [] graph' ∧ (∀ frame ∈ after, frame.Discreet chained graph') ∧
      after.filterMap Frame.held? = frames.filterMap Frame.held? := by
  obtain ⟨above, frame, taken, below, rfl, rfl, _, htaken⟩ := exists_of_declareAmong? hdeclared
  obtain ⟨hcalm, htop, hheld⟩ := (hframes frame (by simp)).declare? hid htaken
  exact ⟨hcalm, forall_mem_exchange hframes (fun _ hother => hother.grow hcalm.grows) fun _ => htop,
    by simp only [List.filterMap_append, List.filterMap_cons, hheld]⟩

theorem declare (h : scope.Discreet chained) (hid : scope.graph.Public id) :
    scope.Calm chained (scope.declare id) := by
  unfold Scope.declare
  split
  · next hdeclared =>
    obtain ⟨hcalm, hframes, hheld⟩ := declareAmong? h.frames hid hdeclared
    exact ⟨h.replaceCalm hcalm hframes, hheld, hcalm.mono (List.nil_subset _)⟩
  · exact h.declareGlobal hid

/-! ### Queries and their targets -/

theorem changeNearestQuery? {change : QueryScope → Option QueryScope} {after : List Frame}
    (hframes : ∀ frame ∈ frames, frame.Discreet chained graph)
    (hchange : ∀ query changed, change query = some changed →
      (Frame.select query).Discreet chained graph → (Frame.select changed).Discreet chained graph)
    (hchanged : Scope.changeNearestQuery? change frames = some after) :
    (∀ frame ∈ after, frame.Discreet chained graph) ∧
      after.filterMap Frame.held? = frames.filterMap Frame.held? := by
  induction frames generalizing after with
  | nil => simp [Scope.changeNearestQuery?] at hchanged
  | cons frame rest ih =>
    obtain ⟨hframe, hrest⟩ := List.forall_mem_cons.mp hframes
    cases frame with
    | select query =>
      obtain ⟨changed, heq, rfl⟩ := Option.map_eq_some_iff.mp hchanged
      exact ⟨List.forall_mem_cons.mpr ⟨hchange query changed heq hframe, hrest⟩, rfl⟩
    | _ =>
      obtain ⟨inner, hinner, rfl⟩ := Option.map_eq_some_iff.mp hchanged
      obtain ⟨hinner', hheld⟩ := ih hrest hinner
      exact ⟨List.forall_mem_cons.mpr ⟨hframe, hinner'⟩,
        by rw [List.filterMap_cons, List.filterMap_cons, hheld]⟩

/-- Another name for a table. -/
theorem renameSource? (h : scope.Discreet chained) (relation : BindingId)
    (aliasName : Option String) :
    scope.Calm chained ((scope.renameSource? relation aliasName).getD scope) := by
  have hrenamed : ∀ query changed, query.rename? relation aliasName = some changed →
      (Frame.select query).Discreet chained scope.graph →
      (Frame.select changed).Discreet chained scope.graph := by
    intro query changed hrename hquery
    obtain ⟨sources, hsources, rfl⟩ := Option.map_eq_some_iff.mp hrename
    refine ⟨hquery.catalogs, fun source hsource => ?_⟩
    -- Names of sources change, but not the tables that they stand for.
    have hmem : source.relation ∈ query.sources.map (·.relation) := by
      rw [← relations_renameLast? hsources]
      exact List.mem_map_of_mem hsource
    obtain ⟨old, hold, hsame⟩ := List.mem_map.mp hmem
    exact hsame ▸ hquery.guards old hold
  unfold Scope.renameSource?
  cases hchanged : Scope.changeNearestQuery? (·.rename? relation aliasName) scope.frames with
  | none => exact .refl h
  | some frames =>
    obtain ⟨hframes, hheld⟩ := changeNearestQuery? h.frames hrenamed hchanged
    exact h.withFrames hframes hheld

theorem restartAssignment? (h : scope.Discreet chained) (queries : Nat) :
    scope.Calm chained ((scope.restartAssignment? queries).getD scope) := by
  unfold Scope.restartAssignment?
  cases hpending : scope.pendingAssignment? queries with
  | none => exact .refl h
  | some pending =>
    obtain ⟨targets, received⟩ := pending
    have hframe : scope.frames[queries]? = some (.multipleAssignment targets received) := by
      unfold Scope.pendingAssignment? at hpending
      split at hpending
      · split at hpending
        · next htop =>
          simp only [Option.some.injEq, Prod.mk.injEq] at hpending
          obtain ⟨rfl, rfl⟩ := hpending
          exact htop
        · simp at hpending
      · simp at hpending
    refine h.withFrames (fun frame hframe => ?_) ?_
    · rcases List.mem_or_eq_of_mem_set hframe with hmem | rfl
      · exact h.frames frame hmem
      · exact ⟨by simp [Frame.catalogs], trivial⟩
    · -- The frame that is replaced belongs to no argument, and neither does the new one.
      obtain ⟨front, back, hsplit, hlength⟩ : ∃ front back,
          scope.frames = front ++ .multipleAssignment targets received :: back ∧
          front.length = queries := by
        obtain ⟨hlt, hget⟩ := List.getElem?_eq_some_iff.mp hframe
        refine ⟨scope.frames.take queries, scope.frames.drop (queries + 1), ?_, ?_⟩
        · rw [← hget, List.getElem_cons_drop, List.take_append_drop]
        · rw [List.length_take]
          omega
      rw [held, hsplit, ← hlength, List.set_append_right _ _ (Nat.le_refl _), Nat.sub_self,
        List.set_cons_zero, List.filterMap_append, List.filterMap_append]
      rfl

/-! ### Sending -/

theorem receiveAmong {graph' : Graph} {after : List Frame}
    (hframes : ∀ frame ∈ frames, frame.Discreet chained graph) (hid : graph.Sendable id)
    (hcallless : chained → graph.kind id ≠ .call)
    (hsent : Scope.receiveAmong id graph frames = .ok (after, graph')) :
    graph.Calm (frames.filterMap Frame.held?) graph' ∧
    (∀ frame ∈ after, frame.Discreet chained graph') ∧
      after.filterMap Frame.held? = frames.filterMap Frame.held? := by
  rcases exists_of_receiveAmong hsent with
      ⟨rfl, rfl⟩ | ⟨above, frame, taken, below, rfl, rfl, hreceive⟩
  · exact ⟨.refl, hframes, rfl⟩
  · have hmem : frame ∈ above ++ frame :: below := by simp
    obtain ⟨hcalm, htop, hheld⟩ := (hframes frame hmem).receive hid hcallless hreceive
    refine ⟨hcalm.mono fun held hheld => ?_,
      forall_mem_exchange hframes (fun _ hother => hother.grow hcalm.grows) fun _ => htop,
      by simp only [List.filterMap_append, List.filterMap_cons, hheld]⟩
    exact List.mem_filterMap.mpr ⟨frame, hmem, Option.mem_toList.mp hheld⟩

theorem receive (h : scope.Discreet chained) (hid : scope.graph.Sendable id)
    (hsent : scope.receive id = .ok after) : scope.Calm chained after := by
  obtain ⟨_, _, hamong, rfl⟩ := receiveAmong_of_receive hsent
  obtain ⟨hcalm, hframes, hheld⟩ :=
    receiveAmong h.frames hid (fun hchained => h.callless hchained id) hamong
  exact ⟨h.replaceCalm hcalm hframes, hheld, hcalm⟩

theorem receiveAll (h : scope.Discreet chained) (hids : ∀ id ∈ ids, scope.graph.Sendable id)
    (hsent : Scope.receiveAll ids scope = (.ok (), after)) : scope.Calm chained after := by
  induction ids generalizing scope with
  | nil =>
    cases hsent
    exact .refl h
  | cons id rest ih =>
    obtain ⟨hid, hrest⟩ := List.forall_mem_cons.mp hids
    simp only [Scope.receiveAll] at hsent
    split at hsent
    · next middle hreceive =>
      have hcalm := h.receive hid hreceive
      exact hcalm.trans
        (ih hcalm.discreet (fun other hother => (hrest other hother).grow hcalm.graph.grows) hsent)
    · cases hsent

/-! ### Closing levels -/

/-- A level other than that of an argument closes. -/
theorem pop (h : scope.Discreet chained) {frame : Frame} {rest : List Frame}
    (hframes : scope.frames = frame :: rest) (hheld : frame.held? = none)
    (hpop : scope.pop = (.ok (), after)) : scope.Calm chained after := by
  obtain ⟨hframe, hrest⟩ := List.forall_mem_cons.mp (hframes ▸ h.frames)
  have houter : scope.Calm chained { scope with frames := rest } :=
    h.withFrames hrest (by rw [held, hframes, List.filterMap_cons, hheld])
  simp only [Scope.pop, hframes] at hpop
  split at hpop
  · next reported hfinish =>
      exact houter.trans (houter.discreet.receiveAll (hframe.finish hheld hfinish) hpop)
  · cases hpop

/-- Ending an element. -/
theorem flushElement (h : scope.Discreet chained) {position : Nat}
    (hflush : scope.flushElement position = (.ok (), after)) : scope.Calm chained after := by
  cases hframes : scope.frames with
  | nil => simp [Scope.flushElement, hframes] at hflush
  | cons frame rest =>
    cases frame with
    | selectList pending =>
      obtain ⟨hlist, hrest⟩ := List.forall_mem_cons.mp (hframes ▸ h.frames)
      have hpending : ∀ id ∈ pending, scope.graph.Sendable id := hlist.guards
      -- The element's value is its only one, or else the new binding for all of them.
      have hvalue : scope.graph.Calm [] (contribution scope.graph position pending).2 ∧
          (contribution scope.graph position pending).2.Sendable
            (contribution scope.graph position pending).1 := by
        unfold contribution
        split
        · exact ⟨.refl, hpending _ (by simp)⟩
        · have hpush : scope.graph.Calm []
              (scope.graph.push
                ((Binding.ofName s!"[{position}]" .aliased).withPosition position)) :=
            .push .refl ((Binding.fresh_ofName _ rfl).withPosition position)
          have hnew :
              (scope.graph.push
                ((Binding.ofName s!"[{position}]" .aliased).withPosition position)).Sendable
              scope.graph.nextId := ⟨Graph.contains_push_nextId _ _, fun hkind => by
                rw [Graph.kind, Graph.get_push_nextId] at hkind
                cases hkind⟩
          have hflows := hpush.trans (.addOutputs scope.graph.nextId fun value hvalue =>
            ((hpending value hvalue).grow hpush.grows).kind)
          exact ⟨hflows, hnew.grow (Graph.grows_addOutputs _ _ _)⟩
      have haround : scope.Calm chained
          { scope with
            graph := (contribution scope.graph position pending).2
            frames := rest } := by
        refine ⟨h.replaceCalm hvalue.1 fun frame hframe => (hrest frame hframe).grow hvalue.1.grows,
          ?_, hvalue.1.mono (List.nil_subset _)⟩
        rw [held, held, hframes]
        rfl
      rw [flushElement_eq position hframes] at hflush
      cases hsent : Scope.receive
        { scope with graph := (contribution scope.graph position pending).2, frames := rest }
          (contribution scope.graph position pending).1 with
      | error error =>
        simp only [hsent, reopenList] at hflush
        cases hflush
      | ok sent =>
        simp only [hsent, reopenList] at hflush
        cases hflush
        have hcalm := haround.trans (haround.discreet.receive hvalue.2 hsent)
        have hempty : (Frame.selectList []).Discreet chained sent.graph :=
          ⟨by simp [Frame.catalogs], by simp [Frame.Guards]⟩
        exact hcalm.trans (hcalm.discreet.push hempty rfl)
    | _ => simp [Scope.flushElement, hframes] at hflush

end Discreet

/-! ### Deriving -/

/-- What can be found in a discreet scope is public. -/
theorem Finds.isPublic {id : BindingId} (h : scope.Finds ids id) (hwell : scope.WellFormed)
    (hdiscreet : scope.Discreet chained) (hids : ∀ other ∈ ids, scope.graph.Public other) :
    scope.graph.Public id := by
  cases h with
  | declared hframe hcatalog hfound =>
    have hdeclared := (hwell.frames _ hframe).catalogs _ hcatalog
    exact (hdiscreet.frames _ hframe).catalogs _ hcatalog id (hdeclared.of_lookup? hfound).1
  | global hfound => exact hdiscreet.globals id (hwell.globals.of_lookup? hfound).1
  | external hfound => exact hdiscreet.external id hfound
  | source hframe hsource => exact (hdiscreet.frames _ hframe).guards _ hsource
  | head hframe => exact (hdiscreet.frames _ hframe).guards.2 id rfl
  | member howner hid => exact hdiscreet.isSealed.isPublic (hids _ howner) hid

/-- Derivations from public ids are calm and lead to public ids. -/
theorem Derives.calm (h : before.Derives known ids after) (hwell : before.WellFormed)
    (hdiscreet : before.Discreet chained) (hknown : ∀ id ∈ known, before.graph.Public id) :
    before.Calm chained after ∧ ∀ id ∈ ids, after.graph.Public id := by
  have hholds : before.graph.Holds known := fun id hid => (hknown id hid).contains
  -- Each step of the derivation starts from ids that are public so far.
  induction h with
  | start => exact ⟨.refl hdiscreet, hknown⟩
  | forget _ hfewer ih => exact ⟨ih.1, fun id hid => ih.2 id (hfewer hid)⟩
  | find hderives hfound ih =>
    have hpublic := hfound.isPublic (hderives.wellFormed hwell hholds).1 ih.1.discreet ih.2
    exact ⟨ih.1, List.forall_mem_cons.mpr ⟨hpublic, ih.2⟩⟩
  | @add ids after binding _ hfresh ih =>
    have hcalm : after.Calm chained (after.add binding).2 :=
      ih.1.discreet.withGraph (Graph.Calm.refl.push hfresh)
    have hnew : (after.add binding).2.graph.Public after.graph.nextId :=
      ⟨after.graph.contains_push_nextId binding, by
        show ((after.graph.push binding).kind after.graph.nextId).isPublic = true
        rw [Graph.kind, Graph.get_push_nextId]
        exact hfresh.isPublic⟩
    exact ⟨ih.1.trans hcalm,
      List.forall_mem_cons.mpr ⟨hnew, fun id hid => (ih.2 id hid).grow hcalm.graph.grows⟩⟩
  | @addChild ids after parent child _ hparent hchild ih =>
    have hcalm : after.Calm chained (after.addChild parent child) := ih.1.discreet.withGraph
      (Graph.Calm.refl.addChild (ih.2 child hchild).joins fun hkind =>
        absurd hkind (ih.2 parent hparent).ne_argument)
    exact ⟨ih.1.trans hcalm, fun id hid => (ih.2 id hid).grow hcalm.graph.grows⟩
  | @addOutput ids after source target _ hsource _ ih =>
    have hcalm : after.Calm chained (after.addOutput source target) := ih.1.discreet.withGraph
      (Graph.Calm.refl.addOutput target (ih.2 source hsource).ne_argument)
    exact ⟨ih.1.trans hcalm, fun id hid => (ih.2 id hid).grow hcalm.graph.grows⟩
  | declare _ hid ih =>
    have hcalm := ih.1.discreet.declare (ih.2 _ hid)
    exact ⟨ih.1.trans hcalm, fun id hid => (ih.2 id hid).grow hcalm.graph.grows⟩
  | declareGlobal _ hid ih => exact ⟨ih.1.trans (ih.1.discreet.declareGlobal (ih.2 _ hid)), ih.2⟩
  | renameSource relation aliasName _ ih =>
    refine ⟨ih.1.trans (ih.1.discreet.renameSource? relation aliasName), ?_⟩
    rw [graph_renameSource?]
    exact ih.2

/-! ### Calls and their arguments -/

theorem filterMap_held? (frames : List Frame) :
    frames.filterMap Frame.held? = (frames.map Frame.fixed?).filterMap (·.bind Frame.held?) := by
  rw [List.filterMap_map]
  congr 1
  funext frame
  exact frame.held?_eq_bind

/-- The levels of calls and arguments below stay as they are. -/
theorem Above.fixed {base : Nat} {offers : List Offer} (h : Above base before offers after) :
    (after.frames.map Frame.fixed?).rtake base = (before.frames.map Frame.fixed?).rtake base :=
  h.marks Frame.fixed?_absorb Frame.fixed?_core

/-- If as many arguments are open as before a level was opened, then this level is not that
    of an argument. -/
theorem Above.held?_eq_none {frame top : Frame} {rest : List Frame} {offers : List Offer}
    (h : Above scope.frames.length (scope.push frame) offers after)
    (hheld : after.held = scope.held) (hframes : after.frames = top :: rest)
    (hlength : rest.length = scope.frames.length) : top.held? = none := by
  have hfixed := h.fixed
  rw [hframes, List.map_cons, ← List.singleton_append,
    rtake_append [top.fixed?] (by rw [List.length_map, hlength]), push, List.map_cons,
    ← List.singleton_append, rtake_append [frame.fixed?] (List.length_map _)] at hfixed
  have hrest : rest.filterMap Frame.held? = scope.held := by
    rw [filterMap_held?, hfixed, ← filterMap_held?]
    rfl
  cases htop : top.held? with
  | none => rfl
  | some id =>
    -- Then there would be one open argument more.
    have hmore := congrArg List.length hheld
    rw [held, hframes, List.filterMap_cons, htop, hrest, List.length_cons] at hmore
    omega

namespace Discreet

/-- A call or an argument is added. -/
theorem addPrivate (h : scope.Discreet chained) {binding : Binding}
    (hchildren : binding.children = []) (hcall : chained → binding.kind ≠ .call) :
    (scope.add binding).2.Discreet chained := by
  have hgrows : scope.graph.Grows (scope.graph.push binding) := .push binding .refl
  refine h.replace hgrows (h.isSealed.push hchildren) (fun hchained id hkind => ?_)
      fun frame hframe =>
    (h.frames frame hframe).grow hgrows
  have hexists : (scope.graph.push binding).contains id = true :=
    Graph.contains_of_kind (by rw [hkind]; rfl)
  by_cases hold : scope.graph.contains id = true
  · exact h.callless hchained id ((hgrows.kind hold).symm.trans hkind)
  · rw [Graph.eq_nextId_of_push hexists hold, Graph.kind, Graph.get_push_nextId] at hkind
    exact hcall hchained hkind

/-- The level of an argument opens. -/
theorem openArgument (h : scope.Discreet chained) {argument : BindingId}
    (hkind : scope.graph.kind argument = .argument) :
    (scope.push (.wrapper argument true)).Discreet chained := by
  have hframe : (Frame.wrapper argument true).Discreet chained scope.graph :=
    ⟨by simp [Frame.catalogs], Graph.contains_of_argument hkind, by simp [hkind]⟩
  exact { h with frames := List.forall_mem_cons.mpr ⟨hframe, h.frames⟩ }

/-- The level of an argument closes, inside that of its call. -/
theorem closeArgument (h : scope.Discreet chained) {argument routine : BindingId}
    {rest : List Frame}
    (hframes : scope.frames = .wrapper argument true :: .routineCall (some routine) :: rest) :
    { scope with
      graph := Frame.passArgument scope.graph routine argument
      frames := .routineCall (some routine) :: rest }.Discreet chained := by
  have hgrows := scope.graph.grows_passArgument routine argument
  refine h.replace hgrows h.isSealed.passArgument (fun hchained id => ?_) fun frame hframe => ?_
  · rw [Graph.kind_passArgument]
    exact h.callless hchained id
  · have hmem : frame ∈ scope.frames := by
      rw [hframes]
      exact List.mem_cons_of_mem _ hframe
    exact (h.frames frame hmem).grow hgrows

end Discreet

/-- The level of an argument closes: the level around it, that of its call, passes the argument
    to the routine. -/
theorem pop_argument {argument routine : BindingId} {rest : List Frame}
    (hframes : scope.frames = .wrapper argument true :: .routineCall (some routine) :: rest)
    (hkind : scope.graph.kind argument = .argument) :
    scope.pop = (.ok (), { scope with
      graph := Frame.passArgument scope.graph routine argument
      frames := .routineCall (some routine) :: rest }) ∧
    scope.popOffers = [⟨scope.graph, .routineCall (some routine) :: rest, .value argument⟩] := by
  have hreceive : Scope.receive { scope with frames := .routineCall (some routine) :: rest }
      argument = .ok { scope with
        graph := Frame.passArgument scope.graph routine argument
        frames := .routineCall (some routine) :: rest } := by
    simp [Scope.receive, Scope.receiveAmong, Frame.receive, hkind, Except.map]
  have hfinish : (Frame.wrapper argument true).finish scope.graph = .ok [argument] := by
    simp [Frame.finish, hkind, Binding.Kind.isSignal]
  constructor
  · simp only [Scope.pop, hframes, hfinish, Scope.receiveAll, hreceive]
  · simp only [Scope.popOffers, hframes, hfinish, Scope.receiveOffers, hreceive]

/-! ### The scope of a schema -/

theorem calm_addColumns {owner : BindingId} (columns : List Column) {graph : Graph}
    (howner : graph.Public owner) :
    graph.Calm [] (columns.foldl (Relation.addColumn owner) graph) := by
  induction columns generalizing graph with
  | nil => exact .refl
  | cons column rest ih =>
    have hcolumn : graph.Calm [] (Relation.addColumn owner graph column) := by
      have hnew :=
        graph.contains_push_nextId
          { Binding.ofName column.name .column with comment := column.comment }
      refine .addChild (.push .refl ⟨⟨column.name, rfl⟩, rfl, rfl, rfl⟩)
        (Graph.Public.joins ⟨hnew, ?_⟩) fun hkind => ?_
      · rw [Graph.kind, Graph.get_push_nextId]
        rfl
      · exact absurd hkind (howner.grow (.push _ .refl)).ne_argument
    exact hcolumn.trans (ih (howner.grow hcolumn.grows))

theorem calm_instantiate (relation : Relation) (graph : Graph) :
    graph.Calm [] (relation.instantiate graph).2 := by
  have hpush : graph.Calm [] (graph.push { Binding.ofName relation.name .relation with
      comment := relation.comment
      types := [relation.type.tag] }) := .push .refl ⟨⟨relation.name, rfl⟩, rfl, rfl, rfl⟩
  refine hpush.trans (calm_addColumns relation.columns ⟨graph.contains_push_nextId _, ?_⟩)
  rw [Graph.kind, Graph.get_push_nextId]
  rfl

/-- The tables of a schema are public, and with them there are no arguments or calls. -/
theorem calm_ofSchema (schema : Schema) : Graph.empty.Calm [] (ofSchema schema).graph ∧
    ∀ id ∈ (ofSchema schema).root.external.map Prod.snd, (ofSchema schema).graph.Public id :=
  schema.instantiate_induction .empty
    (P := fun known graph => Graph.empty.Calm [] graph ∧ ∀ id ∈ known.map Prod.snd, graph.Public id)
    ⟨.refl, by simp⟩ fun known graph relation ⟨hgraph, hknown⟩ => by
      have hcalm := calm_instantiate relation graph
      obtain ⟨hcontains, _, hkind⟩ := relation.instantiate_spec graph
      refine ⟨hgraph.trans hcalm, fun id hid => ?_⟩
      rw [List.map_append, List.mem_append, List.map_singleton, List.mem_singleton] at hid
      rcases hid with hold | rfl
      · exact (hknown id hold).grow hcalm.grows
      · exact ⟨hcontains, by rw [hkind]; rfl⟩

theorem isPublic_ofSchema (schema : Schema) (id : BindingId) :
    ((ofSchema schema).graph.kind id).isPublic = true := by
  by_contra hnot
  have hold : Graph.empty.contains id = true :=
    (calm_ofSchema schema).1.contains (Bool.eq_false_iff.mpr hnot)
  simp [Graph.contains, Graph.size, Graph.empty] at hold

/-- The scope outside of everything is discreet. -/
theorem discreet_ofSchema (schema : Schema) : (ofSchema schema).Discreet chained where
  isSealed := (calm_ofSchema schema).1.isSealed Graph.sealed_empty
  callless _ id hkind := by
    have hpublic := isPublic_ofSchema schema id
    rw [hkind] at hpublic
    cases hpublic
  globals := by simp [ofSchema, Catalog.empty]
  external := (calm_ofSchema schema).2
  frames := by simp [ofSchema]

end Scope

end Lineage
