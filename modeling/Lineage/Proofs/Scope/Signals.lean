import Lineage.Proofs.Graph.Kinds
import Lineage.Scope.Signal

/-!
# Signals on their way through the levels

Two things travel outward through the levels of a scope: bindings, and the operators of queries,
which let a multiple assignment begin anew. Each level passes a signal on or keeps it, and only the
level that keeps it may change. `deliver` says this of a stack of levels at once, and the operations
that send signals are shown to do just what it says.

What a level has gathered is its `core`: the frame without the names that it knows.

## Key results

- `Frame.receive_cases`, `Frame.declare?_cases`: what can become of a binding that is offered to a
  frame, or declared
- `Scope.exists_of_receiveAmong`, `Scope.exists_of_declareAmong?`: which level takes it
- `Frame.connects_of_receive`: the ways in which a frame connects a binding that it takes
- `Frame.plain_of_receive`, `Scope.plain_of_receiveAmong`: what taking a binding adds to the graph
- `Scope.deliver_append`: a signal stops in the upper levels or reaches the lower ones
- `Scope.map_core_deliver`: delivering a signal depends on the cores alone
- `Scope.receiveAmong_cases`: sending a binding is delivering it
- `Scope.receiveAll_keeps`, `Scope.pop_keeps`, `Scope.unwind_keeps`: invariants of the operations
  that send bindings
-/

namespace Lineage

/-- What travels outward through the levels of a scope. -/
inductive Signal where
  /-- A produced binding. -/
  | value (id : BindingId)
  /-- An operator, which is meant for the level around the given number of queries. -/
  | operator (queries : Nat)
deriving DecidableEq, Repr

/-- The query without the names that it knows: the tables it reads from. -/
def QueryScope.core (query : QueryScope) : QueryScope :=
  ⟨.empty, query.sources.map fun source => ⟨source.relation, none⟩⟩

theorem QueryScope.core_addSource (query : QueryScope) (relation : BindingId) :
    (query.addSource relation).core = query.core.addSource relation := by
  have hany : (query.core.sources.any fun source => source.relation == relation) =
      query.sources.any fun source => source.relation == relation := by
    simp [core, List.any_map, Function.comp_def]
  unfold addSource
  rw [hany]
  split <;> simp [core]

namespace Frame

/-- The frame without the names that it knows: what it was made for, and what it has gathered. -/
def core : Frame → Frame
  | lexical _ owner => lexical .empty owner
  | select query => select query.core
  | frame => frame

/-- The frame passes a binding on to the level around it. -/
def forwards (frame : Frame) (graph : Graph) (id : BindingId) : Bool :=
  match frame with
  | lexical _ owner =>
    match graph.kind id with
    | .field => graph.name id != "delete"
    | .call => false
    | .result => owner.isNone
    | _ => true
  | routineCall _ => graph.kind id != .argument
  | select _ => !(graph.kind id).isSource
  | effectClause => (graph.kind id).isSource
  | _ => false

/-- The frame after a binding stopped here. A multiple assignment without a target left
    stays as it is. -/
def taking (frame : Frame) (id : BindingId) : Frame :=
  match frame with
  | assignment none => assignment (some id)
  | multipleAssignment targets received =>
    multipleAssignment targets (if received < targets.length then received + 1 else received)
  | chain _ => chain (some id)
  | select query => select (query.addSource id)
  | selectList pending => selectList (pending ++ [id])
  | _ => frame

/-- A multiple assignment whose targets all have a value waits for the next ones. -/
def restart : Frame → Frame
  | multipleAssignment targets received =>
    multipleAssignment targets (if received = targets.length then 0 else received)
  | frame => frame

variable (frame : Frame) {graph graph' : Graph} {id : BindingId} {after : Frame}

/-- What can become of a binding that is offered to a frame: it is passed on, it is taken, or it
    finds no target and the frame stays as it is. -/
theorem receive_cases (graph : Graph) (id : BindingId) :
    (frame.forwards graph id = true ∧ frame.receive graph id = .ok .forwarded) ∨
    (frame.forwards graph id = false ∧
      ∃ after, frame.receive graph id = .ok (.consumed (frame.taking id) after)) ∨
    (frame.forwards graph id = false ∧ frame.taking id = frame ∧
      ∃ fault, frame.receive graph id = .error (.mispaired fault)) := by
  cases frame with
  | lexical catalog owner =>
    -- A body decides by kind, and only two kinds need a further look.
    cases hkind : graph.kind id <;> simp [forwards, receive, taking, hkind]
    case field => by_cases hname : graph.name id = "delete" <;> simp [hname]
    case result => cases owner <;> simp
  | assignment target => cases target <;> simp [forwards, receive, taking]
  | multipleAssignment targets received =>
    by_cases hroom : received < targets.length
    · simp [forwards, receive, taking, hroom]
    · refine .inr (.inr ⟨rfl, by simp [taking, hroom], .surplus targets.length, ?_⟩)
      simp [receive, hroom]
  | chain head => cases head <;> simp [forwards, receive, taking]
  | routineCall routine =>
    by_cases hkind : graph.kind id = .argument
    · cases routine <;> simp [forwards, receive, taking, hkind]
    · simp [forwards, receive, hkind]
  | select query =>
    by_cases hsource : (graph.kind id).isSource = true <;> simp [forwards, receive, taking, hsource]
  | effectClause =>
    by_cases hsource : (graph.kind id).isSource = true <;> simp [forwards, receive, taking, hsource]
  | _ => simp [forwards, receive, taking]

/-- A frame that has taken a binding gathers it, and did not pass it on. -/
theorem eq_taking_of_receive {frame : Frame}
    (h : frame.receive graph id = .ok (.consumed after graph')) :
    frame.forwards graph id = false ∧ after = frame.taking id := by
  rcases frame.receive_cases graph id with ⟨_, hcase⟩ | ⟨hforwards, _, hcase⟩ | ⟨_, _, _, hcase⟩ <;>
    cases hcase.symm.trans h
  exact ⟨hforwards, rfl⟩

/-- The ids that the frame holds, those of its catalog apart. -/
def ids : Frame → List BindingId
  | lexical _ owner => owner.toList
  | assignment target => target.toList
  | multipleAssignment targets _ => targets
  | wrapper binding _ => [binding]
  | members owner _ => [owner]
  | chain head => head.toList
  | routineCall routine => routine.toList
  | select query => query.sources.map (·.relation)
  | selectList pending => pending
  | ignoreReturn | effectClause => []

/-- What becomes of the graph when a frame takes a binding. It stays as it is, or the binding flows
    into something that the frame holds, becomes a member of it, flows into its member of the same
    name, or is passed to a routine. -/
inductive Connects (frame : Frame) (graph : Graph) (id : BindingId) : Graph → Prop
  | nothing : Connects frame graph id graph
  | output {target : BindingId} (htarget : target ∈ frame.ids) :
      Connects frame graph id (graph.addOutput id target)
  | child {owner : BindingId}
      (hframe : frame = wrapper owner true ∨ frame = members owner true ∨
        frame = chain (some owner)) :
      Connects frame graph id (graph.addChild owner id)
  | member {owner : BindingId} (hframe : frame = members owner false) :
      Connects frame graph id (passToMember graph owner id)
  | argument {routine : BindingId} (hframe : frame = routineCall (some routine))
      (hkind : graph.kind id = .argument) : Connects frame graph id (passArgument graph routine id)

/-- A frame that takes a binding connects it. -/
theorem connects_of_receive {frame : Frame}
    (h : frame.receive graph id = .ok (.consumed after graph')) :
    frame.Connects graph id graph' := by
  -- One case for each kind of level, in the order of `receive`.
  cases frame with
  | lexical catalog owner =>
    simp only [receive] at h
    split at h
    · split at h <;> cases h
      exact .nothing
    · cases h
      exact .nothing
    · cases h
      exact .output (by simp [ids])
    · cases h
  | assignment target =>
    cases target with
    | none =>
      cases h
      exact .nothing
    | some target =>
      simp only [receive] at h
      split at h <;> cases h
      · exact .nothing
      · exact .output (by simp [ids])
  | multipleAssignment targets received =>
    cases htarget : targets[received]? with
    | none => simp [receive, htarget] at h
    | some target =>
      simp only [receive, htarget] at h
      cases h
      exact .output (List.mem_of_getElem? htarget)
  | wrapper binding structural =>
    cases structural <;> cases h
    · exact .output (by simp [ids])
    · exact .child (.inl rfl)
  | members owner structural =>
    cases structural <;> cases h
    · exact .member rfl
    · exact .child (.inr (.inl rfl))
  | chain head =>
    cases head with
    | none =>
      cases h
      exact .nothing
    | some head =>
      simp only [receive] at h
      split at h <;> cases h
      · exact .nothing
      · exact .child (.inr (.inr rfl))
  | routineCall routine =>
    simp only [receive] at h
    split at h
    · next hkind =>
      split at h <;> cases h
      · exact .argument rfl hkind
      · exact .nothing
    · cases h
  | select query | effectClause =>
    simp only [receive] at h
    split at h <;> cases h
    exact .nothing
  | _ =>
    cases h
    exact .nothing

/-- A frame that takes a binding adds at most a field. -/
theorem plain_of_receive {frame : Frame}
    (h : frame.receive graph id = .ok (.consumed after graph')) : graph.GrowsPlain graph' := by
  have hrefl : graph.GrowsPlain graph := .refl
  cases connects_of_receive h with
  | nothing => exact hrefl
  | output _ => exact hrefl.addOutput id _
  | child _ => exact hrefl.addChild _ id
  | member _ => exact Graph.growsBy_passToMember graph _ id (by decide)
  | argument _ _ => exact Graph.growsBy_passArgument graph _ id

theorem grows_of_receive {frame : Frame}
    (h : frame.receive graph id = .ok (.consumed after graph')) : graph.Grows graph' :=
  (plain_of_receive h).grows

/-! ### Words and cores -/

@[simp] theorem role_core : frame.core.role = frame.role := by
  cases frame <;> rfl

@[simp] theorem isSelect_core : frame.core.isSelect = frame.isSelect := by
  cases frame <;> rfl

@[simp] theorem forwards_core (graph : Graph) (id : BindingId) :
    frame.core.forwards graph id = frame.forwards graph id := by
  cases frame <;> rfl

@[simp] theorem role_taking (id : BindingId) : (frame.taking id).role = frame.role := by
  cases frame with
  | assignment target => cases target <;> rfl
  | _ => rfl

theorem core_taking (id : BindingId) : (frame.taking id).core = frame.core.taking id := by
  cases frame with
  | assignment target => cases target <;> rfl
  | select query => simp only [taking, core, QueryScope.core_addSource]
  | _ => rfl

@[simp] theorem role_restart : frame.restart.role = frame.role := by
  cases frame <;> rfl

theorem core_restart : frame.restart.core = frame.core.restart := by
  cases frame <;> rfl

/-- A query is behind the core of a query. -/
theorem exists_select_of_core {frames cores : List Frame} {core : QueryScope}
    (h : frames.map Frame.core = .select core :: cores) :
    ∃ query rest, frames = .select query :: rest ∧ query.core = core ∧
      rest.map Frame.core = cores := by
  rcases frames with _ | ⟨frame, rest⟩
  · simp at h
  · rw [List.map_cons, List.cons.injEq] at h
    cases frame with
    | select query => exact ⟨query, rest, rfl, Frame.select.inj h.1, h.2⟩
    | _ => simp [Frame.core] at h

/-- A frame that knows no names is its own core. -/
theorem exists_cons_of_core {frames cores : List Frame} {frame : Frame}
    (h : frames.map Frame.core = frame :: cores) (hlexical : frame.role ≠ "lexical")
    (hquery : frame.role ≠ "select") :
    ∃ rest, frames = frame :: rest ∧ rest.map Frame.core = cores := by
  rcases frames with _ | ⟨top, rest⟩
  · simp at h
  · rw [List.map_cons, List.cons.injEq] at h
    obtain ⟨rfl, hrest⟩ := h
    cases top with
    | lexical catalog owner => exact absurd rfl hlexical
    | select query => exact absurd rfl hquery
    | _ => exact ⟨rest, rfl, hrest⟩

/-! ### Signals at one frame -/

/-- The signal as the frame passes it on, or nothing if it stops here. -/
def pass? (frame : Frame) (graph : Graph) : Signal → Option Signal
  | .value id => if frame.forwards graph id then some (.value id) else none
  | .operator 0 => none
  | .operator (queries + 1) => if frame.isSelect then some (.operator queries) else none

/-- The frame after a signal stopped here. -/
def absorb (frame : Frame) : Signal → Frame
  | .value id => frame.taking id
  | .operator 0 => frame.restart
  | .operator (_ + 1) => frame

@[simp] theorem pass?_core (graph : Graph) (signal : Signal) :
    frame.core.pass? graph signal = frame.pass? graph signal := by
  cases signal with
  | value id => simp [pass?]
  | operator queries => cases queries <;> simp [pass?]

@[simp] theorem role_absorb (signal : Signal) : (frame.absorb signal).role = frame.role := by
  cases signal with
  | value id => simp [absorb]
  | operator queries => cases queries <;> simp [absorb]

theorem core_absorb (signal : Signal) : (frame.absorb signal).core = frame.core.absorb signal := by
  cases signal with
  | value id => exact core_taking frame id
  | operator queries =>
    cases queries with
    | zero => exact core_restart frame
    | succ queries => rfl

/-- Only bodies and queries take declarations: they enter the binding in their catalogs, and a body
    may make it a member of its owner. -/
theorem declare?_cases {frame : Frame} (h : frame.declare? graph id = some (after, graph')) :
    (∃ catalog owner, frame = lexical catalog owner ∧ after = lexical (catalog.add graph id) owner ∧
      (graph' = graph ∨ ∃ parent ∈ owner, graph' = graph.addChild parent id)) ∨
    ∃ query, frame = select query ∧
      after = select { query with catalog := query.catalog.add graph id } ∧ graph' = graph := by
  cases frame with
  | lexical catalog owner =>
    refine .inl ⟨catalog, owner, rfl, ?_⟩
    cases owner with
    | none => grind [declare?]
    | some owner =>
      simp only [declare?] at h
      split at h
      · cases h
      · split at h
        · cases h
          exact ⟨rfl, .inr ⟨owner, rfl, rfl⟩⟩
        · cases h
          exact ⟨rfl, .inl rfl⟩
  | select query =>
    refine .inr ⟨query, rfl, ?_⟩
    grind [declare?]
  | _ => simp [declare?] at h

/-- Declaring a binding leaves the core of the frame as it is. -/
theorem core_of_declare? {frame : Frame} (h : frame.declare? graph id = some (after, graph')) :
    after.core = frame.core := by
  rcases declare?_cases h with ⟨catalog, owner, rfl, rfl, _⟩ | ⟨query, rfl, rfl, _⟩ <;> rfl

/-- Declaring a binding may make it a member of the body's owner, and adds no binding. -/
theorem plain_of_declare? {frame : Frame} (h : frame.declare? graph id = some (after, graph')) :
    graph.GrowsPlain graph' := by
  rcases declare?_cases h with ⟨_, _, _, _, rfl | ⟨parent, _, rfl⟩⟩ | ⟨_, _, _, rfl⟩
  · exact .refl
  · exact .addChild parent id .refl
  · exact .refl

theorem grows_of_declare? {frame : Frame} (h : frame.declare? graph id = some (after, graph')) :
    graph.Grows graph' :=
  (plain_of_declare? h).grows

/-- A frame that cannot close lacks values. -/
theorem finish_error {frame : Frame} {error : Error} (h : frame.finish graph = .error error) :
    ∃ fault, error = .mispaired fault := by
  cases frame with
  | multipleAssignment targets received =>
    simp only [finish] at h
    split at h
    · simp at h
    · exact ⟨_, (Except.error.inj h).symm⟩
  | wrapper binding structural =>
    simp only [finish] at h
    split at h <;> simp at h
  | chain head => cases head <;> simp [finish] at h
  | _ => simp [finish] at h

end Frame

namespace Scope

/-! ### Signals at several levels -/

/-- The signal as several levels pass it on, innermost first, or nothing if it stops
    at one of them. -/
def passAll? (graph : Graph) : List Frame → Signal → Option Signal
  | [], signal => some signal
  | frame :: rest, signal => (frame.pass? graph signal).bind (passAll? graph rest)

/-- The levels after a signal: the first one that does not pass it on has taken it. -/
def deliver (graph : Graph) : Signal → List Frame → List Frame
  | _, [] => []
  | signal, frame :: rest =>
    match frame.pass? graph signal with
    | some signal => frame :: deliver graph signal rest
    | none => frame.absorb signal :: rest

variable (graph : Graph) {frames after : List Frame} {id : BindingId} {graph' : Graph}

/-- A signal stops in the upper levels or, if these pass it on, reaches the lower ones. -/
theorem deliver_append (signal : Signal) (above below : List Frame) :
    deliver graph signal (above ++ below) =
      match passAll? graph above signal with
      | some signal => above ++ deliver graph signal below
      | none => deliver graph signal above ++ below := by
  induction above generalizing signal with
  | nil => rfl
  | cons frame rest ih =>
    -- Whether the signal gets below depends on each level above, one after the other.
    simp only [List.cons_append, deliver, passAll?]
    cases hpass : frame.pass? graph signal with
    | none => simp
    | some passed =>
      simp only [Option.bind_some, ih passed]
      cases passAll? graph rest passed <;> rfl

theorem passAll?_append (signal : Signal) (above below : List Frame) :
    passAll? graph (above ++ below) signal =
      (passAll? graph above signal).bind (passAll? graph below) := by
  induction above generalizing signal with
  | nil => rfl
  | cons frame rest ih =>
    simp only [List.cons_append, passAll?]
    cases frame.pass? graph signal with
    | none => rfl
    | some passed => exact ih passed

@[simp] theorem length_deliver (signal : Signal) (frames : List Frame) :
    (deliver graph signal frames).length = frames.length := by
  induction frames generalizing signal with
  | nil => rfl
  | cons frame rest ih =>
    simp only [deliver]
    split <;> simp [ih]

/-- A signal leaves the levels with all that no frame loses by taking one. -/
theorem map_deliver {β : Type} {mark : Frame → β}
    (hmark : ∀ frame signal, mark (Frame.absorb frame signal) = mark frame) (graph : Graph)
    (signal : Signal) (frames : List Frame) :
    (deliver graph signal frames).map mark = frames.map mark := by
  induction frames generalizing signal with
  | nil => rfl
  | cons frame rest ih =>
    simp only [deliver]
    split <;> simp [ih, hmark]

/-- Where a signal stops, and what it changes there, depends on the cores alone. -/
theorem map_core_deliver (signal : Signal) (frames : List Frame) :
    (deliver graph signal frames).map Frame.core =
      deliver graph signal (frames.map Frame.core) := by
  induction frames generalizing signal with
  | nil => rfl
  | cons frame rest ih =>
    simp only [List.map_cons, deliver, Frame.pass?_core]
    split
    · simp only [List.map_cons, ih]
    · simp only [List.map_cons, Frame.core_absorb]

/-- Sending a binding outward delivers it, unless it finds no target; then all levels
    stay as they are. -/
theorem receiveAmong_cases (id : BindingId) (graph : Graph) (frames : List Frame) :
    (∃ after, receiveAmong id graph frames = .ok (deliver graph (.value id) frames, after)) ∨
    (deliver graph (.value id) frames = frames ∧
      ∃ fault, receiveAmong id graph frames = .error (.mispaired fault)) := by
  induction frames with
  | nil => exact .inl ⟨graph, rfl⟩
  | cons frame rest ih =>
    -- The frame passes the binding on, takes it, or has no target left for it.
    rcases frame.receive_cases graph id with
        ⟨hforwards, h⟩ | ⟨hforwards, after, h⟩ | ⟨hforwards, hsame, fault, h⟩
    · simp only [receiveAmong, deliver, h, Frame.pass?, hforwards, if_true]
      rcases ih with ⟨after, ih⟩ | ⟨hrest, fault, ih⟩
      · exact .inl ⟨after, by rw [ih]; rfl⟩
      · exact .inr ⟨by rw [hrest], fault, by rw [ih]; rfl⟩
    · refine .inl ⟨after, ?_⟩
      simp [receiveAmong, deliver, h, Frame.pass?, hforwards, Frame.absorb]
    · refine .inr ⟨?_, fault, by simp [receiveAmong, h]⟩
      simp [deliver, Frame.pass?, hforwards, Frame.absorb, hsame]

/-- A binding that is sent outward passes some levels and is taken by the next one, which alone
    changes, or it passes all levels. -/
theorem exists_of_receiveAmong {graph : Graph}
    (h : receiveAmong id graph frames = .ok (after, graph')) :
    (after = frames ∧ graph' = graph) ∨
    ∃ above frame taken below, frames = above ++ frame :: below ∧
      after = above ++ taken :: below ∧ frame.receive graph id = .ok (.consumed taken graph') := by
  induction frames generalizing after with
  | nil =>
    cases h
    exact .inl ⟨rfl, rfl⟩
  | cons frame rest ih =>
    simp only [receiveAmong] at h
    split at h
    · cases h
    · next taken graph hreceive =>
      cases h
      exact .inr ⟨[], frame, taken, rest, rfl, rfl, hreceive⟩
    · cases hrest : receiveAmong id graph rest with
      | error error => simp [hrest, Except.map] at h
      | ok inner =>
        rw [hrest] at h
        cases h
        -- The innermost level passed the binding on, so the taker is one of the others, if any.
        rcases ih hrest with
            ⟨hsame, hgraph⟩ | ⟨above, taker, taken, below, hframes, hafter, hreceive⟩
        · exact .inl ⟨congrArg (frame :: ·) hsame, hgraph⟩
        · exact .inr ⟨frame :: above, taker, taken, below, congrArg (frame :: ·) hframes,
            congrArg (frame :: ·) hafter, hreceive⟩

/-- A binding is declared at the first level that takes it, and no other level changes. -/
theorem exists_of_declareAmong? {graph : Graph}
    (h : declareAmong? id graph frames = some (after, graph')) :
    ∃ above frame taken below, frames = above ++ frame :: below ∧ after = above ++ taken :: below ∧
      (∀ passed ∈ above, passed.declare? graph id = none) ∧
      frame.declare? graph id = some (taken, graph') := by
  induction frames generalizing after with
  | nil => cases h
  | cons frame rest ih =>
    simp only [declareAmong?] at h
    split at h
    · next taken graph hdeclared =>
      cases h
      exact ⟨[], frame, taken, rest, rfl, rfl, by simp, hdeclared⟩
    · next hnone =>
      obtain ⟨⟨_, _⟩, hinner, heq⟩ := Option.map_eq_some_iff.mp h
      cases heq
      obtain ⟨above, taker, taken, below, rfl, rfl, hpassed, hdeclared⟩ := ih hinner
      exact ⟨frame :: above, taker, taken, below, rfl, rfl,
        List.forall_mem_cons.mpr ⟨hnone, hpassed⟩, hdeclared⟩

/-- The innermost level takes a binding that is offered to it alone, unless there are no levels. -/
theorem exists_of_receiveInnermost {scope after : Scope}
    (h : scope.receiveInnermost id = .ok (some after)) :
    after = scope ∨ ∃ frame taken rest graph, scope.frames = frame :: rest ∧
      frame.receive scope.graph id = .ok (.consumed taken graph) ∧
      after = { scope with frames := taken :: rest, graph } := by
  unfold receiveInnermost at h
  split at h
  · exact .inl (Option.some.inj (Except.ok.inj h)).symm
  · next frame rest hframes =>
    cases hreceive : frame.receive scope.graph id with
    | error error => simp [hreceive, Except.map] at h
    | ok delivery =>
      cases delivery with
      | forwarded => simp [hreceive, Except.map] at h
      | consumed taken graph =>
        rw [hreceive] at h
        cases h
        exact .inr ⟨frame, taken, rest, graph, hframes, hreceive, rfl⟩

/-- What all levels satisfy after one of them was exchanged. -/
theorem forall_mem_exchange {motive motive' : Frame → Prop} {above below : List Frame}
    {frame taken : Frame} (h : ∀ other ∈ above ++ frame :: below, motive other)
    (hothers : ∀ other, motive other → motive' other) (htaken : motive frame → motive' taken) :
    ∀ other ∈ above ++ taken :: below, motive' other := by
  simp only [List.forall_mem_append, List.forall_mem_cons] at h ⊢
  exact ⟨fun other hother => hothers other (h.1 other hother), htaken h.2.1,
    fun other hother => hothers other (h.2.2 other hother)⟩

/-- Sending a binding adds at most a field. -/
theorem plain_of_receiveAmong {graph : Graph}
    (h : receiveAmong id graph frames = .ok (after, graph')) : graph.GrowsPlain graph' := by
  rcases exists_of_receiveAmong h with ⟨_, rfl⟩ | ⟨_, _, _, _, _, _, hreceive⟩
  · exact .refl
  · exact Frame.plain_of_receive hreceive

theorem grows_of_receiveAmong {graph : Graph}
    (h : receiveAmong id graph frames = .ok (after, graph')) : graph.Grows graph' :=
  (plain_of_receiveAmong h).grows

/-- Sending a binding changes the frames and the graph, and nothing else of the scope. -/
theorem receiveAmong_of_receive {scope after : Scope} (h : scope.receive id = .ok after) :
    ∃ frames graph, receiveAmong id scope.graph scope.frames = .ok (frames, graph) ∧
      after = { scope with frames, graph } := by
  unfold receive at h
  cases hsent : receiveAmong id scope.graph scope.frames with
  | error error =>
    rw [hsent] at h
    cases h
  | ok result =>
    rw [hsent] at h
    cases h
    exact ⟨_, _, rfl, rfl⟩

/-- An operator restarts the multiple assignment that waits around the given number of queries, if
    all its targets have a value, and changes nothing else. -/
theorem deliver_operator (scope : Scope) (queries : Nat) :
    deliver graph (.operator queries) scope.frames =
      match scope.pendingAssignment? queries with
      | some (targets, received) =>
        if received = targets.length then scope.frames.set queries (.multipleAssignment targets 0)
        else scope.frames
      | none => scope.frames := by
  obtain ⟨_, _, frames⟩ := scope
  simp only [pendingAssignment?]
  induction queries generalizing frames with
  | zero =>
    cases frames with
    | nil => simp [deliver]
    | cons frame rest =>
      cases frame with
      | multipleAssignment targets received =>
        by_cases hfull : received = targets.length <;>
          simp [deliver, Frame.pass?, Frame.absorb, Frame.restart, hfull]
      | _ => simp [deliver, Frame.pass?, Frame.absorb, Frame.restart]
  | succ queries ih =>
    cases frames with
    | nil => simp [deliver]
    | cons frame rest =>
      -- An operator counts the queries that it passes; at any other frame it is lost.
      by_cases hselect : frame.isSelect = true
      · have hrest := ih rest
        simp only [deliver, Frame.pass?, hselect, if_true, List.take_succ_cons, List.all_cons,
          Bool.true_and, List.getElem?_cons_succ, List.set_cons_succ, hrest]
        split
        · split <;> rfl
        · rfl
      · simp [deliver, Frame.pass?, hselect, Frame.absorb]

/-! ### What the loops keep -/

section Loops

variable {motive : Scope → Prop} {scope : Scope}

/-- What sending one binding keeps, sending several keeps. -/
theorem receiveAll_keeps
    (hreceive : ∀ {scope after : Scope} {id : BindingId}, motive scope →
      scope.receive id = .ok after → motive after)
    (h : motive scope) (ids : List BindingId) : motive (receiveAll ids scope).2 := by
  induction ids generalizing scope with
  | nil => exact h
  | cons id rest ih =>
    simp only [receiveAll]
    split
    · next hsent => exact ih (hreceive h hsent)
    · exact h

/-- Closing a level keeps what dropping it and sending its values keeps. -/
theorem pop_keeps
    (hreceive : ∀ {scope after : Scope} {id : BindingId}, motive scope →
      scope.receive id = .ok after → motive after)
    (hleave : ∀ {frame : Frame} {rest : List Frame}, scope.frames = frame :: rest →
      motive { scope with frames := rest })
    (h : motive scope) : motive scope.pop.2 := by
  unfold pop
  split
  · exact h
  · next frame rest hframes =>
    cases frame.finish scope.graph with
    | error error => exact hleave hframes
    | ok reported => exact receiveAll_keeps hreceive (hleave hframes) reported

section Closing

variable (hpop : ∀ {scope : Scope}, motive scope → motive scope.pop.2)
  (hdrop : ∀ {scope : Scope} (height : Nat), motive scope → motive (scope.dropTo height))

include hpop hdrop

/-- What closing one level and dropping levels keep, closing several levels keeps, also if it
    fails midway. -/
theorem popAll_keeps (h : motive scope) (levels : Nat) : motive (popAll levels scope).2 := by
  induction levels generalizing scope with
  | zero => exact h
  | succ levels ih =>
    have hclosed := hpop h
    simp only [popAll]
    rcases hrun : scope.pop with ⟨error | ⟨⟩, after⟩ <;> rw [hrun] at hclosed
    · exact hdrop _ hclosed
    · exact ih hclosed

theorem unwind_keeps (h : motive scope) (height : Nat) (finish : Bool) :
    motive (scope.unwind height finish).2 := by
  cases finish with
  | false => exact hdrop height h
  | true => exact popAll_keeps hpop hdrop h _

end Closing

end Loops

end Scope

end Lineage
