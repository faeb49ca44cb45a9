import Lineage.Proofs.Walk.Privacy
import Lineage.Proofs.Walk.Visits

/-!
# Arguments go where they belong

The level of an argument stands right inside that of its call. When it closes, the argument is
offered to the level of the call, which binds it to the parameter that it is meant for. Only then
does an argument flow anywhere, and it gets no members afterwards. So whatever calls, queries and
chains it is made of, an argument ends with one output, which belongs to the routine of its own
call.

## Key results

- `Graph.meant_destination`: where the level of a call takes an argument
- `settles_argument`, `settles_arguments`, `settles_call`: the steps of a call
- `settling_visit`: a visit settles the arguments that are made in it
- `arguments_bound`: a whole run
-/

namespace Lineage

/-! ### Where an argument belongs -/

namespace Graph

variable {graph : Graph} {routine argument : BindingId}

/-- The parameter suits the argument: it has its position or, if the argument has none, its name. -/
structure Suits (graph : Graph) (argument parameter : BindingId) : Prop where
  kind : graph.kind parameter = .parameter
  position : ∀ position, (graph.get argument).position = some position →
    (graph.get parameter).position = some position
  name : (graph.get argument).position = none → graph.name parameter = graph.name argument

/-- Where an argument of a call of the routine belongs: to the first parameter of the routine that
    suits, or to the routine itself if there is none. -/
inductive Meant (graph : Graph) (routine argument : BindingId) : BindingId → Prop where
  | parameter {target : BindingId} {front back : List BindingId} :
      graph.children routine = front ++ target :: back → graph.Suits argument target →
        (∀ earlier ∈ front, ¬graph.Suits argument earlier) → Meant graph routine argument target
  | routine : (∀ child ∈ graph.children routine, ¬graph.Suits argument child) →
      Meant graph routine argument routine

/-- The parameter that is searched for is the first one that suits. -/
theorem exists_parameterFor?_eq :
    ∃ suits : BindingId → Bool, (∀ id, suits id = true ↔ graph.Suits argument id) ∧
    Frame.parameterFor? graph routine argument = (graph.children routine).find? suits := by
  unfold Frame.parameterFor?
  dsimp only
  -- An argument with a position looks for this position, and any other for its name.
  cases hposition : (graph.get argument).position with
  | some position =>
    refine ⟨_, fun id => ?_, List.find?_filter⟩
    simp only [decide_eq_true_eq, beq_iff_eq]
    refine ⟨fun ⟨hkind, hsame⟩ => ⟨hkind, fun place hplace => ?_, fun hnone => ?_⟩,
      fun h => ⟨h.kind, h.position _ hposition⟩⟩
    · rw [hsame, ← hposition, hplace]
    · rw [hnone] at hposition
      cases hposition
  | none =>
    refine ⟨_, fun id => ?_, List.find?_filter⟩
    simp only [decide_eq_true_eq, beq_iff_eq]
    refine ⟨fun ⟨hkind, hsame⟩ => ⟨hkind, fun place hplace => ?_, fun _ => hsame⟩,
      fun h => ⟨h.kind, h.name hposition⟩⟩
    rw [hplace] at hposition
    cases hposition

/-- The level of a call takes an argument where it belongs. -/
theorem meant_destination : graph.Meant routine argument (graph.destination routine argument) := by
  obtain ⟨suits, hsuits, hsearch⟩ := @exists_parameterFor?_eq graph routine argument
  unfold destination
  rw [hsearch]
  cases hfound : (graph.children routine).find? suits with
  | some target =>
    obtain ⟨htarget, front, back, hsplit, hfront⟩ := List.find?_eq_some_iff_append.mp hfound
    refine .parameter hsplit ((hsuits target).mp htarget) fun earlier hearlier hsuit => ?_
    have hnot := hfront earlier hearlier
    rw [(hsuits earlier).mpr hsuit] at hnot
    cases hnot
  | none =>
    refine .routine fun child hchild hsuit => ?_
    exact List.find?_eq_none.mp hfound child hchild ((hsuits child).mpr hsuit)

/-- An argument that is passed is bound. -/
theorem binds_passArgument (hsealed : graph.Sealed) (hkind : graph.kind argument = .argument)
    (hnone : graph.outputs argument = []) :
    (Frame.passArgument graph routine argument).Binds argument
      (graph.destination routine argument) where
  outputs := outputs_passArgument (contains_of_argument hkind) hnone fun hself =>
    hsealed.ne_argument hkind hself hkind
  children child hchild := by
    rw [children_passArgument] at hchild
    exact mem_outputs_passArgument hchild (hsealed argument child hchild).contains

end Graph

namespace Walk

variable {tree : Tree} {dialect : Dialect} {levels : Nat} {chained : Prop} {session after : Session}
  {routine argument target : BindingId} {depth : Nat} {few many : List (Event tree)}

/-- Among the events the level of an argument closes, inside that of a call of the routine which has
    the given number of levels around it. The argument was made for one of the items, and the target
    is where it belongs at this time. -/
def Closes (dialect : Dialect) (items : List (Node tree × Nat)) (routine : BindingId) (depth : Nat)
    (events : List (Event tree)) (argument target : BindingId) : Prop :=
  ∃ item position closing around, (item, position) ∈ items ∧
    (argumentBinding dialect item position).Extends (closing.get argument) ∧
    .offered ⟨closing, .routineCall (some routine) :: around, .value argument⟩ ∈ events ∧
    around.length = depth ∧ closing.Meant routine argument target

/-- The call, met in some state, resolves to a routine, and among the events the level of the
    argument closes. -/
def Called (dialect : Dialect) (call : Node tree) (before : Session) (events : List (Event tree))
    (argument target : BindingId) : Prop :=
  ∃ name routine, dialect.calledName? call = some name ∧ before.scope.resolve? name = some routine ∧
    Closes dialect (dialect.argumentsOf call).zipIdx routine before.scope.frames.length events
      argument target

/-- Among the events is the visit of a call, in which the argument is made for this call. -/
def Made (dialect : Dialect) (events : List (Event tree)) (argument target : BindingId) : Prop :=
  ∃ call before after, .visited call before (.ok (), after) ∈ events ∧
    visitHistory dialect tree.size call before ⊆ events ∧
    (dialect.rule? call.tag = some .callStatement ∨ dialect.rule? call.tag = some .functionCall) ∧
    before.scope.graph.contains argument = false ∧ after.scope.graph.contains argument = true ∧
    Called dialect call before (visitHistory dialect tree.size call before) argument target

theorem Closes.mono {items more : List (Node tree × Nat)}
    (h : Closes dialect items routine depth few argument target) (hitems : items ⊆ more)
    (hevents : few ⊆ many) : Closes dialect more routine depth many argument target := by
  obtain ⟨item, position, closing, around, hitem, hextends, hoffered, hdepth, hmeant⟩ := h
  exact ⟨item, position, closing, around, hitems hitem, hextends, hevents hoffered, hdepth, hmeant⟩

theorem Called.mono {call : Node tree} {before : Session}
    (h : Called dialect call before few argument target) (hevents : few ⊆ many) :
    Called dialect call before many argument target := by
  obtain ⟨name, routine, hname, hroutine, hcloses⟩ := h
  exact ⟨name, routine, hname, hroutine, hcloses.mono (List.Subset.refl _) hevents⟩

theorem Made.mono (hevents : few ⊆ many) (argument target : BindingId)
    (h : Made dialect few argument target) : Made dialect many argument target := by
  obtain ⟨call, before, after, hvisited, hwhole, hmade⟩ := h
  exact ⟨call, before, after, hevents hvisited, List.Subset.trans hwhole hevents, hmade⟩

/-! ### The levels of calls and arguments -/

/-- Nodes that end no level, visited in order, leave all levels. -/
theorem Disciplined.visits (h : Disciplined dialect tree levels) {nodes : List (Node tree)}
    (hstays : ∀ node ∈ nodes, dialect.closesArm node = false) (session : Session) :
    Run dialect session.scope.frames.length session.scope.frames.length session
      (eventsOfAll (visit dialect levels) (visitHistory dialect levels) nodes session)
      (nodes.forM (visit dialect levels) session) :=
  run_forM (fun node hnode state hlength => hlength ▸ h.stays node (hstays node hnode) state) rfl

/-- Where all levels are kept, those of calls and arguments stay as they are. -/
theorem fixed_of_run {events : List (Event tree)}
    (h : Run dialect session.scope.frames.length session.scope.frames.length session events
      ((.ok (), after) : Except Error Unit × Session)) :
    after.scope.frames.map Frame.fixed? = session.scope.frames.map Frame.fixed? := by
  have hlength : after.scope.frames.length = session.scope.frames.length := h.length (Nat.le_refl _)
  have hfixed := h.above.fixed
  rwa [rtake_eq_self (by rw [List.length_map, hlength]),
    rtake_eq_self (List.length_map _)] at hfixed

/-- A fixed frame at the top stays there. -/
theorem exists_of_fixed {frames others rest : List Frame} {frame : Frame}
    (h : frames.map Frame.fixed? = others.map Frame.fixed?) (hothers : others = frame :: rest)
    (hframe : frame.fixed? = some frame) :
    ∃ below, frames = frame :: below ∧ below.map Frame.fixed? = rest.map Frame.fixed? := by
  rw [hothers, List.map_cons, hframe] at h
  obtain ⟨top, below, rfl, htop, hbelow⟩ := List.map_eq_cons_iff.mp h
  exact ⟨below, by rw [Frame.eq_of_fixed? htop], hbelow⟩

/-! ### Arguments -/

/-- A new argument, and with it nothing else. -/
structure Starts (chained : Prop) (binding : Binding) (argument : BindingId)
    (before after : Session) : Prop where
  discreet : after.Discreet chained
  wellFormed : after.WellFormed
  frames : after.scope.frames = before.scope.frames
  grows : before.scope.graph.Grows after.scope.graph
  spares : Graph.Spares before.scope.held before.scope.graph after.scope.graph
  fresh : before.scope.graph.contains argument = false
  get : after.scope.graph.get argument = binding
  contains : ∀ id, after.scope.graph.contains id = true → id = argument ∨
    before.scope.graph.contains id = true

/-- The binding of an argument has no members and no outputs yet. -/
theorem argumentBinding_spec (dialect : Dialect) (item : Node tree) (position : Nat) :
    (argumentBinding dialect item position).kind = .argument ∧
    (argumentBinding dialect item position).children = [] ∧
      (argumentBinding dialect item position).outputs = [] ∧
      ∀ graph, (argumentBinding dialect item position).WellFormed graph := by
  unfold argumentBinding
  dsimp only
  split
  · exact ⟨rfl, rfl, rfl, fun graph => Binding.wellFormed_ofName graph _ .argument⟩
  · exact ⟨rfl, rfl, rfl, fun graph =>
      (Binding.wellFormed_ofName graph _ .argument).withPosition position⟩

theorem starts_add {binding : Binding} (hwell : session.WellFormed)
    (hdiscreet : session.Discreet chained) (hkind : binding.kind = .argument)
    (hchildren : binding.children = []) (hbinding : ∀ graph, binding.WellFormed graph) :
    Starts chained binding session.scope.graph.nextId session
      { session with scope := (session.scope.add binding).2 } where
  discreet :=
    ⟨hdiscreet.scope.addPrivate hchildren fun _ hcall => (by rw [hkind] at hcall; cases hcall),
    fun id hid => (hdiscreet.kept id hid).grow (.push binding .refl)⟩
  wellFormed := hwell.withScope (hwell.scope.add (hbinding _)).1 (.push binding .refl)
  frames := rfl
  grows := .push binding .refl
  spares := .push binding
  fresh := by
    rw [Bool.eq_false_iff, ne_eq, Graph.contains_iff]
    exact Nat.lt_irrefl _
  get := Graph.get_push_nextId _ binding
  contains id hid := by
    by_cases hold : session.scope.graph.contains id = true
    · exact .inr hold
    · exact .inl (Graph.eq_nextId_of_push hid hold)

namespace Starts

variable {binding : Binding} {argument : BindingId} {before after : Session}

theorem kind (h : Starts chained binding argument before after) (hkind : binding.kind = .argument) :
    after.scope.graph.kind argument = .argument := by
  rw [Graph.kind, h.get, hkind]

/-- The argument becomes a member of its call. -/
theorem addChild (h : Starts chained binding argument before after)
    (hkind : binding.kind = .argument) {call : BindingId}
    (hcall : after.scope.graph.kind call = .call) :
    Starts chained binding argument before
      { after with scope := after.scope.addChild call argument } := by
  have hnew := h.kind hkind
  have hgrows : after.scope.graph.Grows (after.scope.graph.addChild call argument) :=
    .addChild call argument .refl
  -- Arguments may join calls only.
  have hjoins : after.scope.graph.Joins call argument := by
    refine ⟨Graph.contains_of_argument hnew, fun _ => hcall, fun hkind' => ?_⟩
    rw [hnew] at hkind'
    cases hkind'
  -- A call is no argument, so no argument gets a member here.
  have hspares : Graph.Spares before.scope.held after.scope.graph
      (after.scope.graph.addChild call argument) := by
    refine .addChild fun hkind' => ?_
    rw [hcall] at hkind'
    cases hkind'
  refine ⟨⟨?_, fun id hid => (h.discreet.kept id hid).grow hgrows⟩, ?_, h.frames,
    h.grows.trans hgrows, h.spares.trans h.grows hspares, h.fresh, ?_, fun id hid =>
      h.contains id ?_⟩
  · refine h.discreet.scope.replace hgrows (h.discreet.scope.isSealed.addChild hjoins)
      (fun hchained id => ?_) fun frame hframe => (h.discreet.scope.frames frame hframe).grow hgrows
    rw [Graph.kind_addChild]
    exact h.discreet.scope.callless hchained id
  · exact h.wellFormed.withScope (h.wellFormed.scope.addChild call hjoins.contains) hgrows
  · have hne : argument ≠ call := fun hsame => by
      rw [← hsame, hnew] at hcall
      cases hcall
    exact (Graph.get_addChild_of_ne _ hne).trans h.get
  · simpa [Scope.addChild, Graph.contains_iff] using hid

end Starts

/-- What the steps for an argument do that succeed: they add the argument and visit its value on a
    level of its own. -/
theorem exists_of_argument {call : Option BindingId} {item : Node tree} {position : Nat}
    (hwell : session.WellFormed) (hdiscreet : session.Discreet chained)
    (hcall : ∀ id ∈ call, session.scope.graph.kind id = .call)
    (hrun : (Script.argument dialect call item position).run (visit dialect levels) session =
      (.ok (), after)) :
    ∃ argument started, Starts chained (argumentBinding dialect item position) argument
      session started ∧
      within (.wrapper argument true)
        ((dialect.argumentValue item).forM (visit dialect levels)) started = (.ok (), after) ∧
      (Script.argument dialect call item position).history (visit dialect levels)
        (visitHistory dialect levels)
          session =
        eventsWithin (.wrapper argument true)
          ((dialect.argumentValue item).forM (visit dialect levels))
          (eventsOfAll (visit dialect levels) (visitHistory dialect levels)
            (dialect.argumentValue item)) started := by
  obtain ⟨hkind, hchildren, _, hbinding⟩ := argumentBinding_spec dialect item position
  have hstarts := starts_add hwell hdiscreet hkind hchildren hbinding
  cases call with
  | none => exact ⟨_, _, hstarts, hrun, rfl⟩
  | some call =>
    have hold := hcall call rfl
    have hkept := (hstarts.grows.kind (Graph.contains_of_kind (by rw [hold]; rfl))).trans hold
    exact ⟨_, _, hstarts.addChild hkind hkept, hrun, rfl⟩

/-- The arguments that are made among the events, in a visit or for one of the items. -/
def Passes (dialect : Dialect) (items : List (Node tree × Nat)) (routine : BindingId) (depth : Nat)
    (events : List (Event tree)) (argument target : BindingId) : Prop :=
  Made dialect events argument target ∨ Closes dialect items routine depth events argument target

theorem Passes.mono {items more : List (Node tree × Nat)}
    (h : Passes dialect items routine depth few argument target) (hitems : items ⊆ more)
    (hevents : few ⊆ many) : Passes dialect more routine depth many argument target :=
  h.imp (Made.mono hevents argument target) fun hcloses => hcloses.mono hitems hevents

/-- The level of an argument is closed, and with it the argument is passed on. -/
theorem Settles.passArgument {made other : BindingId → BindingId → Prop} {binding : Binding}
    {id : BindingId} {started last : Session} {outer : List Frame}
    (hstarts : Starts chained binding id session started) (hkind : binding.kind = .argument)
    (hnone : binding.outputs = [])
    (hinner : Settles chained made
      { started with scope := started.scope.push (.wrapper id true) } last)
    (hframes : last.scope.frames = .wrapper id true :: .routineCall (some routine) :: outer)
    (hmade : ∀ argument target, made argument target → other argument target)
    (hself : other id (last.scope.graph.destination routine id)) :
    Settles chained other session { last with scope := { last.scope with
      graph := Frame.passArgument last.scope.graph routine id
      frames := .routineCall (some routine) :: outer } } := by
  have hnew := hstarts.kind hkind
  have hsealed := hinner.discreet.scope.isSealed
  have hkind' : last.scope.graph.kind id = .argument :=
    (hinner.grows.kind (Graph.contains_of_argument hnew)).trans hnew
  have hgrows := last.scope.graph.grows_passArgument routine id
  -- All arguments but this one are left alone.
  have hothers : ∀ other, last.scope.graph.kind other = .argument → other ≠ id →
      (Frame.passArgument last.scope.graph routine id).get other = last.scope.graph.get other :=
    fun other => Graph.get_passArgument_of_argument hsealed hkind'
  have hpushed : (started.scope.push (.wrapper id true)).held = id :: session.scope.held := by
    show id :: started.scope.frames.filterMap Frame.held? = _
    rw [hstarts.frames]
    rfl
  have hheld : last.scope.held = id :: session.scope.held := hinner.held.trans hpushed
  -- The steps inside may touch this argument besides those that were open before it.
  have hspared : Graph.Spares session.scope.held session.scope.graph last.scope.graph := by
    refine hstarts.spares.trans_of_fresh hstarts.grows hstarts.fresh
      (fun other hother _ => hinner.spares.outputs other hother) fun other hother hne hclosed => ?_
    refine hinner.spares.children other hother ?_
    rw [hpushed]
    exact List.not_mem_cons_of_ne_of_not_mem hne hclosed
  have hgrown := hstarts.grows.trans hinner.grows
  refine ⟨⟨hinner.discreet.scope.closeArgument hframes,
    fun other hother => (hinner.discreet.kept other hother).grow hgrows⟩, ?_, hgrown.trans hgrows,
    hspared.trans_of_fresh hgrown hstarts.fresh
      (fun other hother hne => congrArg Binding.outputs (hothers other hother hne))
      fun other hother hne _ => congrArg Binding.children (hothers other hother hne), ?_⟩
  · rw [Scope.held, hframes] at hheld
    exact List.tail_eq_of_cons_eq hheld
  · intro argument hargument hfresh
    rw [Graph.kind_passArgument] at hargument
    -- An argument that was made on the way is this one, or one made inside and settled there.
    by_cases hsame : argument = id
    · subst hsame
      refine ⟨_, hself, Graph.binds_passArgument hsealed hkind' ?_⟩
      rw [hinner.spares.outputs argument hnew]
      show (started.scope.graph.get argument).outputs = []
      rw [hstarts.get, hnone]
    · have hinside : started.scope.graph.contains argument = false := by
        refine Bool.eq_false_iff.mpr fun hstarted => ?_
        rcases hstarts.contains argument hstarted with rfl | hold
        · exact hsame rfl
        · rw [hold] at hfresh
          cases hfresh
      obtain ⟨target, htarget, hbinds⟩ := hinner.passed argument hargument hinside
      have hget := hothers argument hargument hsame
      exact ⟨target, hmade argument target htarget,
        hbinds.grow hgrows (congrArg Binding.outputs hget) (congrArg Binding.children hget)⟩

namespace Script.SettlesFrom

variable {α β : Type} {made other : List (Event tree) → BindingId → BindingId → Prop}
  {session : Session}

theorem imp {script : Script tree α} (h : script.SettlesFrom dialect levels chained made session)
    (hmade : ∀ events argument target, made events argument target → other events argument target) :
    script.SettlesFrom dialect levels chained other session :=
  fun value after hrun => (h value after hrun).imp fun argument target _ _ =>
    hmade _ argument target

/-- One script after the other. -/
theorem bind
    (hmono : ∀ few more : List (Event tree), few ⊆ more →
      ∀ argument target, made few argument target → made more argument target)
    (hdiscreet : session.Discreet chained) {first : Script tree α} {next : α → Script tree β}
    (hfirst : first.SettlesFrom dialect levels chained made session)
    (hnext : ∀ value middle, first.run (visit dialect levels) session = (.ok value, middle) →
      middle.Discreet chained →
      session.scope.graph.Grows middle.scope.graph →
      (next value).SettlesFrom dialect levels chained made middle) :
    (first >>= next).SettlesFrom dialect levels chained made session := by
  intro value after hrun
  obtain ⟨result, middle, hmiddle, hrest⟩ := Stateful.exists_of_bind hrun
  have hsettled := hfirst result middle hmiddle
  have hlater := hnext result middle hmiddle hsettled.discreet hsettled.grows value after hrest
  exact settles_bind hmono hdiscreet hmiddle hsettled hlater

end Script.SettlesFrom

/-- The level of an argument, opened inside that of a call, closes there, and the argument is
    offered to the call. -/
theorem exists_of_closeArgument (hdisciplined : Disciplined dialect tree levels)
    {nodes : List (Node tree)} {around : List Frame} {started last : Session}
    (hstays : ∀ below ∈ nodes, dialect.closesArm below = false)
    (hframes : started.scope.frames = .routineCall (some routine) :: around)
    (hvalue : nodes.forM (visit dialect levels)
      { started with scope := started.scope.push (.wrapper argument true) } = (.ok (), last))
    (hkind : last.scope.graph.kind argument = .argument)
    (hclose : attempt (·.unwind started.scope.height true) last = (.ok (), after)) :
    ∃ outer, last.scope.frames = .wrapper argument true :: .routineCall (some routine) :: outer ∧
      outer.length = around.length ∧
      after = { last with scope := { last.scope with
        graph := Frame.passArgument last.scope.graph routine argument
        frames := .routineCall (some routine) :: outer } } ∧
      .offered ⟨last.scope.graph, .routineCall (some routine) :: outer, .value argument⟩ ∈
        eventsWithin (.wrapper argument true) (nodes.forM (visit dialect levels))
          (eventsOfAll (visit dialect levels) (visitHistory dialect levels) nodes) started := by
  have hlevels :=
    hdisciplined.visits hstays { started with scope := started.scope.push (.wrapper argument true) }
  rw [hvalue] at hlevels
  -- The levels of arguments and calls are fixed: whatever is visited inside leaves both in place.
  obtain ⟨lower, hlast, hlower⟩ := exists_of_fixed (fixed_of_run hlevels) rfl rfl
  obtain ⟨outer, rfl, houter⟩ := exists_of_fixed hlower hframes rfl
  have hlength : outer.length = around.length := by simpa using congrArg List.length houter
  obtain ⟨hpop, hoffers⟩ := Scope.pop_argument hlast hkind
  -- So just one level is left to close.
  have hone : last.scope.height - started.scope.height = 1 := by
    simp only [Scope.height, hlast, hframes, List.length_cons, hlength]
    omega
  refine ⟨outer, hlast, hlength, ?_, ?_⟩
  · obtain ⟨scope, hunwind, rfl⟩ := exists_of_attempt hclose
    have hmax : max started.scope.height 1 = started.scope.height := by
      simp only [Scope.height]
      omega
    simp only [Scope.unwind, if_true, hmax, hone, popAll_one, hpop] at hunwind
    cases hunwind
    rfl
  · simp only [eventsWithin, hvalue, eventsAfter, hone, popAllOffers_one, hoffers]
    simp

/-- The innermost level is that of a call of the routine, with the given number of
    levels around it. -/
def Calling (routine : BindingId) (depth : Nat) (scope : Scope) : Prop :=
  ∃ around, scope.frames = .routineCall (some routine) :: around ∧ around.length = depth

theorem Calling.of_run {events : List (Event tree)} (h : Calling routine depth session.scope)
    (hrun : Run dialect session.scope.frames.length session.scope.frames.length session events
      ((.ok (), after) : Except Error Unit × Session)) : Calling routine depth after.scope := by
  obtain ⟨around, hframes, hdepth⟩ := h
  obtain ⟨below, hbelow, hfixed⟩ := exists_of_fixed (fixed_of_run hrun) hframes rfl
  exact ⟨below, hbelow, by simpa [hdepth] using congrArg List.length hfixed⟩

/-! ### Calls -/

/-- Calls stay calls. -/
theorem kind_of_grows {call : Option BindingId} {before after : Graph}
    (hcall : ∀ id ∈ call, before.kind id = .call) (hgrows : before.Grows after) :
    ∀ id ∈ call, after.kind id = .call := fun id hid =>
  (hgrows.kind (Graph.contains_of_kind (by rw [hcall id hid]; rfl))).trans (hcall id hid)

/-- A call is added, which is no argument. -/
theorem settles_addCall {made : BindingId → BindingId → Prop} (hcalls : ¬chained) (name : String)
    (hdiscreet : session.Discreet chained) :
    Settles chained made session
      { session with scope := (session.scope.add (.ofName name .call)).2 } where
  discreet := ⟨hdiscreet.scope.addPrivate rfl fun hchained => absurd hchained hcalls,
    fun id hid => (hdiscreet.kept id hid).grow (.push _ .refl)⟩
  held := rfl
  grows := .push _ .refl
  spares := .push _
  passed argument hkind hnew := by
    have hid :=
      Graph.eq_nextId_of_push (Graph.contains_of_argument hkind) (Bool.eq_false_iff.mp hnew)
    have hcall : (session.scope.graph.push (.ofName name .call)).kind argument = .call := by
      rw [hid, Graph.kind, Graph.get_push_nextId]
      rfl
    cases hcall.symm.trans hkind

theorem ok_of_require {α : Type} {found : Option α} {error : Error} {value : α}
    (h : Walk.require found error session = (.ok value, after)) :
    found = some value ∧ after = session := by
  cases found with
  | none => cases h
  | some value =>
    cases h
    exact ⟨rfl, rfl⟩

section

variable [dialect.Regular] {node : Node tree}
  (hself : Holds dialect node node)
  (hplain : ∀ below, Plain dialect node below →
    Settling dialect levels chained (Made dialect) below)
  {routine : BindingId} {depth : Nat} {session : Session} (hwell : session.WellFormed)
  (hdiscreet : session.Discreet chained) {call : Option BindingId} {name : QualifiedName}
  {statement : Bool}

include hself hplain hwell hdiscreet

/-- The level of an argument closes as it was opened, and the argument goes where it belongs. -/
theorem settles_argument {item : Node tree} (hitem : item ∈ dialect.argumentsOf node)
    (position : Nat) (hcall : ∀ id ∈ call, session.scope.graph.kind id = .call)
    (hcalling : Calling routine depth session.scope) :
    (Script.argument dialect call item position).SettlesFrom dialect levels chained
      (Passes dialect [(item, position)] routine depth) session := by
  intro _ after hrun
  have huses : (Script.argument dialect call item position).Uses (Plain dialect node)
      (Arms dialect node) false :=
    Script.uses_argument hself hitem
  have hvalues : ∀ below ∈ dialect.argumentValue item, Plain dialect node below :=
    (huses.2 ⟨0⟩).2 ()
  obtain ⟨hkind, _, hnone, _⟩ := argumentBinding_spec dialect item position
  obtain ⟨id, started, hstarts, hwithin, hhistory⟩ := exists_of_argument hwell hdiscreet hcall hrun
  have hnew := hstarts.kind hkind
  rw [hhistory]
  obtain ⟨last, hvalue, hclose⟩ := exists_of_within hwithin
  have hinside : ({ started with scope := started.scope.push (.wrapper id true) } :
      Session).Discreet chained :=
    ⟨hstarts.discreet.scope.openArgument hnew, hstarts.discreet.kept⟩
  have hwell' : ({ started with scope := started.scope.push (.wrapper id true) } :
      Session).WellFormed :=
    hstarts.wellFormed.withScope (hstarts.wellFormed.scope.push (Frame.wellFormed_of_ids
      (Graph.holds_singleton (Graph.contains_of_argument hnew)) (by simp [Frame.catalogs]))) .refl
  have hinner := settles_forM (fun _ _ hevents => Made.mono hevents)
    (fun below hbelow => hplain below (hvalues below hbelow)) hwell' hinside hvalue
  -- What is visited inside leaves the name, the kind and the position of the argument.
  have hextends : (started.scope.graph.get id).Extends (last.scope.graph.get id) :=
    (Graph.extends_of_grows hinner.grows).binding id (Graph.contains_of_argument hnew)
  rw [hstarts.get] at hextends
  obtain ⟨around, hframes, rfl⟩ := hcalling
  obtain ⟨outer, hlast, hlength, rfl, hoffered⟩ := exists_of_closeArgument
    (disciplined_visit dialect tree levels) (fun below hbelow => (hvalues below hbelow).stays)
    (hstarts.frames.trans hframes) hvalue (hextends.kind.trans hkind) hclose
  refine Settles.passArgument hstarts hkind hnone hinner hlast
    (fun argument target hmade => .inl ?_) (.inr ?_)
  · exact hmade.mono (List.subset_append_left _ _)
  · exact ⟨item, position, last.scope.graph, outer, List.mem_singleton_self _, hextends,
      hoffered, hlength, Graph.meant_destination⟩

/-- The arguments of a call, one after the other. -/
theorem settles_arguments {items : List (Node tree × Nat)}
    (hitems : ∀ item ∈ items, item.1 ∈ dialect.argumentsOf node)
    (hcall : ∀ id ∈ call, session.scope.graph.kind id = .call)
    (hcalling : Calling routine depth session.scope) :
    (Script.forEach items fun item => Script.argument dialect call item.1 item.2).SettlesFrom
      dialect levels chained (Passes dialect items routine depth) session := by
  induction items generalizing session with
  | nil =>
    rintro _ after ⟨⟩
    exact .refl hdiscreet
  | cons item rest ih =>
    obtain ⟨hitem, hrest⟩ := List.forall_mem_cons.mp hitems
    have hfirst := settles_argument hself hplain hwell hdiscreet hitem item.2 hcall hcalling
    refine .bind (fun _ _ hevents _ _ hpasses => hpasses.mono (List.Subset.refl _) hevents)
      hdiscreet (hfirst.imp fun _ _ _ hpasses => hpasses.mono (by simp) (List.Subset.refl _)) ?_
    intro _ middle hrun hdiscreet' hgrows
    have huses : (Script.argument dialect call item.1 item.2).Uses (Plain dialect node)
        (Arms dialect node) false :=
      Script.uses_argument hself hitem
    have hsound : (Script.argument dialect call item.1 item.2).Sound dialect levels
        [] fun _ => [] :=
      Script.sound_argument
        (fun below _ hbelow => wellFormed_visitMoments dialect levels below hbelow) item.1 item.2
    -- The state after the first argument is such as the others need.
    have hwell' := hsound.final hwell (Graph.holds_nil _)
    have hlevels := (disciplined_visit dialect tree levels).script huses session (by simp)
    rw [hrun] at hwell' hlevels
    have hothers :=
      ih hwell' hdiscreet' hrest (kind_of_grows hcall hgrows) (hcalling.of_run hlevels)
    exact hothers.imp fun _ _ _ hpasses =>
      hpasses.mono (List.subset_cons_self _ _) (List.Subset.refl _)

/-- What a call sends, and then its arguments. -/
theorem settles_sendArguments (hroutine : session.scope.graph.Public routine)
    (hcall : ∀ id ∈ call, session.scope.graph.kind id = .call)
    (hcalling : Calling routine depth session.scope) :
    (Script.send (call.getD routine) >>= fun _ =>
      Script.forEach (dialect.argumentsOf node).zipIdx fun item =>
      Script.argument dialect call item.1 item.2).SettlesFrom dialect levels chained
      (Passes dialect (dialect.argumentsOf node).zipIdx routine depth) session := by
  -- A statement sends its call and an expression the routine, and neither is an argument.
  have hsendable : session.scope.graph.Sendable (call.getD routine) := by
    cases call with
    | none => exact hroutine.sendable
    | some id =>
      have hkind := hcall id rfl
      exact ⟨Graph.contains_of_kind (by rw [Option.getD_some, hkind]; rfl),
        fun hsame => by cases hkind.symm.trans hsame⟩
  refine .bind (fun _ _ hevents _ _ hpasses => hpasses.mono (List.Subset.refl _) hevents)
    hdiscreet ?_ ?_
  · intro _ middle hrun
    rw [Script.run_send] at hrun
    obtain ⟨scope, hsent, rfl⟩ := exists_of_attempt hrun
    exact .of_scope hdiscreet (hdiscreet.scope.receiveAll (by simpa using hsendable) hsent)
  · intro _ middle hrun hdiscreet' hgrows
    have hlevels : Run dialect session.scope.frames.length session.scope.frames.length session
        ((Scope.receiveOffers [call.getD routine] session.scope).map .offered : List (Event tree))
        _ :=
      run_produce (call.getD routine) session
    rw [Script.run_send] at hrun
    rw [hrun] at hlevels
    have hcalling' := hcalling.of_run hlevels
    obtain ⟨scope, hsent, rfl⟩ := exists_of_attempt hrun
    have hscope := hwell.scope.receiveAll (Graph.holds_singleton hsendable.contains)
    rw [hsent] at hscope
    exact settles_arguments hself hplain (hwell.withScope hscope hgrows) hdiscreet'
      (fun item hitem => List.fst_mem_of_mem_zipIdx hitem) (kind_of_grows hcall hgrows) hcalling'

/-- The steps of a call on the level of the call. Where chains are allowed, calls
    have no bindings. -/
theorem settles_callSteps (hstatement : chained → statement = false)
    (hroutine : session.scope.graph.Public routine)
    (hcalling : Calling routine depth session.scope) :
    (Script.callSteps dialect routine name statement node).SettlesFrom dialect levels chained
      (Passes dialect (dialect.argumentsOf node).zipIdx routine depth) session := by
  cases statement with
  | false =>
    exact settles_sendArguments hself hplain hwell hdiscreet hroutine (fun _ hid => nomatch hid)
      hcalling
  | true =>
    refine .bind (fun _ _ hevents _ _ hpasses => hpasses.mono (List.Subset.refl _) hevents)
      hdiscreet ?_ ?_
    · rintro call middle ⟨⟩
      exact settles_addCall (fun hchained => Bool.noConfusion (hstatement hchained))
        name.display hdiscreet
    · rintro call middle ⟨⟩ hdiscreet' hgrows
      have hscope :=
        (hwell.scope.add (Binding.wellFormed_ofName session.scope.graph name.display .call)).1
      refine settles_sendArguments hself hplain (hwell.withScope hscope hgrows) hdiscreet'
        (hroutine.grow hgrows) ?_ hcalling
      rintro id ⟨⟩
      exact congrArg Binding.kind (Graph.get_push_nextId _ _)

/-- A call of a known routine. -/
theorem settles_callOf (hstatement : chained → statement = false)
    (hroutine : session.scope.graph.Public routine)
    (huses : (Script.callSteps dialect routine name statement node).Uses (Plain dialect node)
      (Arms dialect node) false) :
    (Script.callOf dialect routine name statement node).SettlesFrom dialect levels chained
      (Passes dialect (dialect.argumentsOf node).zipIdx routine session.scope.frames.length)
      session := by
  intro _ after hrun
  have hframe : (Frame.routineCall (some routine)).Discreet chained session.scope.graph :=
    ⟨by simp [Frame.catalogs], trivial⟩
  have hids : session.scope.graph.Holds (Frame.routineCall (some routine)).ids :=
    Graph.holds_singleton hroutine.contains
  have hinside : ({ session with scope := session.scope.push (.routineCall (some routine)) } :
      Session).WellFormed :=
    hwell.withScope
      (hwell.scope.push (Frame.wellFormed_of_ids hids (by simp [Frame.catalogs]))) .refl
  have hlevels := (disciplined_visit dialect tree levels).script huses
    { session with scope := session.scope.push (.routineCall (some routine)) } (by simp)
  rw [Script.callOf_eq] at hrun ⊢
  refine Settles.within hdiscreet hframe rfl (Nat.le_refl _) (hlevels.mono (Nat.le_succ _))
    (fun last hopen hlast => ?_) hrun
  have hsteps := settles_callSteps hself hplain hinside hopen hstatement hroutine
    ⟨session.scope.frames, rfl, rfl⟩ () last hlast
  exact hsteps.imp fun argument target _ _ hpasses =>
    hpasses.mono (List.Subset.refl _) (List.subset_append_left _ _)

/-- The steps of a call whose name has been looked up. The arguments of an unknown function are
    visited as they are. -/
theorem settles_callFound (hname : dialect.calledName? node = some name)
    (hstatement : chained → statement = false) :
    (Script.callFound dialect name statement node (session.scope.resolve? name)).SettlesFrom
      dialect levels chained (fun events argument target =>
        Made dialect events argument target ∨ Called dialect node session events argument target)
      session := by
  have hcall : (Script.call dialect statement node).Uses (Plain dialect node)
      (Arms dialect node) false :=
    Script.uses_call hself statement
  have huses : ∀ found, (Script.callFound dialect name statement node found).Uses
      (Plain dialect node) (Arms dialect node) false := (hcall.2 name).2
  cases hfound : session.scope.resolve? name with
  | some routine =>
    have hnone : ∀ id ∈ ([] : List BindingId), session.scope.graph.Public id :=
      fun _ hid => nomatch hid
    -- What a name means can be derived from what is known, and this is never private.
    have hpublic : session.scope.graph.Public routine :=
      (Scope.Derives.calm (Scope.derives_resolve hfound) hwell.scope hdiscreet.scope hnone).2
        routine List.mem_cons_self
    have hsettles := settles_callOf hself hplain hwell hdiscreet hstatement hpublic
      (huses (some routine))
    exact hsettles.imp fun _ _ _ hpasses => hpasses.imp_right fun hcloses =>
      ⟨name, routine, hname, hfound, hcloses⟩
  | none =>
    intro _ after hrun
    cases statement with
    | true => cases hrun
    | false =>
      have hvisits := settles_forM (fun _ _ hevents => Made.mono hevents)
        (fun below hbelow => hplain below (huses none below hbelow)) hwell hdiscreet hrun
      exact hvisits.imp fun _ _ _ _ hmade => .inl hmade

/-- A call. -/
theorem settles_call (hstatement : chained → statement = false) :
    (Script.call dialect statement node).SettlesFrom dialect levels chained
      (fun events argument target =>
        Made dialect events argument target ∨ Called dialect node session events argument target)
      session := by
  have hmono : ∀ few more : List (Event tree), few ⊆ more → ∀ argument target,
      Made dialect few argument target ∨ Called dialect node session few argument target →
      Made dialect more argument target ∨ Called dialect node session more argument target :=
    fun _ _ hevents argument target => Or.imp (Made.mono hevents argument target) fun hcalled =>
      hcalled.mono hevents
  rw [Script.call_eq]
  -- Neither looking at the name nor looking it up changes the state.
  refine .bind hmono hdiscreet (fun name same hrun => ?_) fun name same hrun _ _ => ?_
  · obtain ⟨_, rfl⟩ := ok_of_require hrun
    exact .refl hdiscreet
  · obtain ⟨hname, rfl⟩ := ok_of_require hrun
    refine .bind hmono hdiscreet (fun found same hread => ?_) fun found same hread _ _ => ?_
    · cases hread
      exact .refl hdiscreet
    · cases hread
      exact settles_callFound hself hplain hwell hdiscreet hname hstatement

end

/-! ### Visits -/

section

variable {node : Node tree}
  (hplain : ∀ below, Plain dialect node below →
    Settling dialect levels chained (Made dialect) below)
  {session : Session} (hwell : session.WellFormed) (hdiscreet : session.Discreet chained)

include hplain hwell hdiscreet

/-- The steps of the first operator between the arms of a query. -/
theorem settles_of_closesArm (hcloses : dialect.closesArm node = true) :
    (nodeScript dialect node).SettlesFrom dialect levels chained (Made dialect) session := by
  have hself := holds_of_closesArm hcloses
  -- The first operator leaves the level of its arm before it visits what is below it.
  have hcloseSound : (Script.closeArm : Script tree Unit).Sound dialect levels [] fun _ => [] :=
    .closeArm
  have hnextSound : (Script.nextArm 0 : Script tree Unit).Sound dialect levels [] fun _ => [] :=
    .nextArm 0
  rw [nodeScript_of_closesArm hcloses]
  refine .bind (fun _ _ hevents => Made.mono hevents) hdiscreet
    (fun _ closed hrun => settles_closeArm hdiscreet hrun) ?_
  intro _ closed hclose hdiscreet' _
  have hwell' := hcloseSound.final hwell (Graph.holds_nil _)
  rw [hclose] at hwell'
  refine .bind (fun _ _ hevents => Made.mono hevents) hdiscreet'
    (fun _ next hrun => settles_nextArm hdiscreet' hrun) ?_
  intro _ next hnext hdiscreet'' _ _ after hrun
  have hwell'' := hnextSound.final hwell' (Graph.holds_nil _)
  rw [hnext] at hwell''
  exact settles_forM (fun _ _ hevents => Made.mono hevents)
    (fun below hbelow => hplain below (hself.plain hbelow)) hwell'' hdiscreet'' hrun

/-- The steps of a node. -/
theorem settles_nodeScript [dialect.Regular]
    (hchains : ∀ tag, dialect.rule? tag = some .fieldChain → chained)
    (hcalls : chained → ∀ tag, dialect.rule? tag ≠ some .callStatement)
    (hpresent : node.isPresent = true)
    (harms : ∀ parts, Arms dialect node parts →
      ∀ part ∈ parts, Settling dialect levels chained (Made dialect) part) :
    (nodeScript dialect node).SettlesFrom dialect levels chained (fun events argument target =>
      Made dialect events argument target ∨
      (dialect.rule? node.tag = some .callStatement ∨ dialect.rule? node.tag = some .functionCall) ∧
        Called dialect node session events argument target) session := by
  by_cases hcloses : dialect.closesArm node = true
  · exact (settles_of_closesArm hplain hwell hdiscreet hcloses).imp fun _ _ _ hmade => .inl hmade
  by_cases hstatement : dialect.rule? node.tag = some .callStatement
  · have hscript : nodeScript dialect node = .call dialect true node := by
      rw [nodeScript, hstatement]
      rfl
    rw [hscript]
    exact (settles_call (holds_self (by simp [hstatement])) hplain hwell hdiscreet
      fun hchained => absurd hstatement (hcalls hchained _)).imp
      fun _ _ _ hmade => hmade.imp_right fun hcalled => ⟨.inl hstatement, hcalled⟩
  by_cases hfunction : dialect.rule? node.tag = some .functionCall
  · have hscript : nodeScript dialect node = .call dialect false node := by
      rw [nodeScript, hfunction]
      rfl
    rw [hscript]
    exact (settles_call (holds_self (by simp [hfunction])) hplain hwell hdiscreet fun _ => rfl).imp
      fun _ _ _ hmade => hmade.imp_right fun hcalled => ⟨.inr hfunction, hcalled⟩
  -- The scripts of all other nodes are honest.
  have huses := Script.uses_nodeScript hpresent (Bool.eq_false_iff.mpr hcloses)
    (Script.arms_queryParts)
  have hhonest : (nodeScript dialect node).Honest chained [] fun _ => [] := by
    unfold nodeScript
    cases hrule : dialect.rule? node.tag with
    | none => exact .visits _
    | some rule =>
      refine Script.honest_ofRule dialect node (fun hsame => ?_) (fun hsame => ?_) fun hsame => ?_
      · exact hstatement (hrule.trans (congrArg some hsame))
      · exact hfunction (hrule.trans (congrArg some hsame))
      · exact hchains _ (hrule.trans (congrArg some hsame))
  intro _ after hrun
  have hsettled := (Script.Honest.settles (fun _ _ hevents => Made.mono hevents) hhonest
    (disciplined_visit dialect tree levels) hplain harms huses hwell hdiscreet (by simp)
    (by simp) hrun).1
  exact hsettled.imp fun _ _ _ _ hmade => .inl hmade

end

/-- A visit settles the arguments that are made in it, by induction on the number of
    levels below. -/
theorem settling_visit [dialect.Regular]
    (hchains : ∀ tag, dialect.rule? tag = some .fieldChain → chained)
    (hcalls : chained → ∀ tag, dialect.rule? tag ≠ some .callStatement) {node : Node tree}
    (henough : Enough levels node) : Settling dialect levels chained (Made dialect) node := by
  induction levels generalizing node with
  | zero =>
    rintro session after _ hdiscreet ⟨⟩
    exact .refl hdiscreet
  | succ levels ih =>
    cases node with
    | absent =>
      rintro session after _ hdiscreet ⟨⟩
      exact .refl hdiscreet
    | present index =>
      intro session after hwell hdiscreet hrun
      have hplay := ok_of_located ((visit_present dialect levels index session).symm.trans hrun)
      -- The visit is noted in the state, but the scope is still the same.
      have hwell' : ({ session with visited := index :: session.visited } : Session).WellFormed :=
        ⟨hwell.scope, hwell.hoisted⟩
      have hdiscreet' : ({ session with visited := index :: session.visited } : Session).Discreet
          chained :=
        ⟨hdiscreet.scope, hdiscreet.kept⟩
      have hsettled := settles_nodeScript (fun below hbelow => ih (henough.beneath hbelow.beneath))
        hwell' hdiscreet' hchains hcalls rfl
        (fun parts hparts part hpart => ih (henough.beneath (hparts.beneath part hpart)))
        () after hplay
      have hsame := visitHistory_eq_visitHistory dialect henough
        (fun _ _ => Nat.le_add_left _ _ : Enough tree.size (.present index))
      refine Settles.imp ⟨hsettled.discreet, hsettled.held, hsettled.grows, hsettled.spares,
        hsettled.passed⟩ fun argument target hnew hcontains hmade => ?_
      rcases hmade with hmade | ⟨hrule, hcalled⟩
      · exact hmade.mono (List.subset_cons_self _ _)
      · refine ⟨.present index, session, after, ?_, by rw [hsame]; exact List.Subset.refl _, hrule,
          hnew, hcontains, ?_⟩
        · rw [visitHistory, hrun]
          exact List.mem_cons_self
        · rw [← hsame]
          exact hcalled.mono (List.subset_cons_self _ _)

/-- A dialect with chains has no call statements. -/
theorem callStatement_ne_of_fieldChain (grammar : Grammar) {tag other : String}
    (hchain : grammar.dialect.rule? tag = some .fieldChain) :
    grammar.dialect.rule? other ≠ some .callStatement := by
  have hlisted : (∀ entry ∈ grammar.dialect.rules, entry.2 ≠ .fieldChain) ∨
      ∀ entry ∈ grammar.dialect.rules, entry.2 ≠ .callStatement := by
    cases grammar <;> decide
  rcases hlisted with hnone | hnone
  · exact absurd rfl (hnone _ (Dialect.mem_rules_of_rule? hchain))
  · exact fun hcall => hnone _ (Dialect.mem_rules_of_rule? hcall) rfl

/-- What the offer of an argument to the level of its call makes of the graph. -/
theorem makes_passArgument {graph : Graph} {around : List Frame}
    (hkind : graph.kind argument = .argument) :
    Offer.Makes ⟨graph, .routineCall (some routine) :: around, .value argument⟩
      (Frame.passArgument graph routine argument) :=
  ⟨argument, _, rfl, by simp only [Scope.receiveAmong, Frame.receive, hkind]; rfl⟩

/-- If the analysis of a document succeeds, then every argument was made while a call was visited
    that resolves to a routine, for one of the items passed there. When the level of the argument
    closes, right inside that of this call, the argument belongs to the first parameter of the
    routine that suits or, if none does, to the routine itself. It flows there and nowhere else, and
    its members flow there, too, whatever calls it is made of or is part of. -/
theorem arguments_bound (document : Document) (grammar : Grammar) (schema : Schema)
    (analysis : Analysis)
    (h : analyze (Tree.ofDocument document) grammar.dialect schema = .ok analysis) :
    let tree := Tree.ofDocument document
    let dialect := grammar.dialect
    ∀ argument, analysis.graph.kind argument = .argument →
      ∃ (call : Node tree) (before after : Session) (name : QualifiedName) (routine : BindingId)
        (item : Node tree) (position : Nat) (closing : Graph) (around : List Frame)
        (target : BindingId),
        .visited call before (.ok (), after) ∈
          visitHistory dialect tree.size tree.root (.ofSchema schema) ∧
        (dialect.rule? call.tag = some .callStatement ∨
          dialect.rule? call.tag = some .functionCall) ∧
        dialect.calledName? call = some name ∧ before.scope.resolve? name = some routine ∧
        before.scope.graph.contains argument = false ∧ after.scope.graph.contains argument = true ∧
        (item, position) ∈ (dialect.argumentsOf call).zipIdx ∧
        analysis.graph.name argument = (argumentBinding dialect item position).name ∧
        (analysis.graph.get argument).position = (argumentBinding dialect item position).position ∧
        .offered ⟨closing, .routineCall (some routine) :: around, .value argument⟩ ∈
          visitHistory dialect tree.size call before ∧
        around.length = before.scope.frames.length ∧ closing.Grows analysis.graph ∧
        closing.Meant routine argument target ∧ analysis.graph.outputs argument = [target] ∧
        ∀ child ∈ analysis.graph.children argument, target ∈ analysis.graph.outputs child := by
  intro tree dialect argument hkind
  have henough : Enough tree.size tree.root := fun _ _ => Nat.le_add_left _ _
  have hlevels := (disciplined_visit dialect tree tree.size).stays tree.root
    (closesArm_root dialect) (.ofSchema schema)
  obtain ⟨last, hrun, rfl⟩ : ∃ last, visit dialect tree.size tree.root (.ofSchema schema) =
      (.ok (), last) ∧ Analysis.ofGraph last.scope.graph last.scope.globals = analysis := by
    unfold analyze visitTree at h
    rcases hrun : visit dialect tree.size tree.root (.ofSchema schema) with ⟨error | ⟨⟩, last⟩
    · rw [hrun] at h
      cases h
    · rw [hrun] at h
      exact ⟨last, rfl, Except.ok.inj h⟩
  have hsettled := settling_visit (fun tag hchain => Exists.intro tag hchain)
    (fun hchained _ => callStatement_ne_of_fieldChain grammar hchained.choose_spec) henough
    (.ofSchema schema) last (Session.wellFormed_ofSchema schema)
    (Session.discreet_ofSchema schema) hrun
  have hnew : (Session.ofSchema schema).scope.graph.contains argument = false := by
    refine Bool.eq_false_iff.mpr fun hold => ?_
    have hpublic : ((Session.ofSchema schema).scope.graph.kind argument).isPublic = true :=
      Scope.isPublic_ofSchema schema argument
    rw [(hsettled.grows.kind hold).symm.trans hkind] at hpublic
    cases hpublic
  obtain ⟨target, hmade, hbinds⟩ := hsettled.passed argument hkind hnew
  obtain ⟨call, before, after, hvisited, hwhole, hrule, hfresh, hmade, hcalled⟩ := hmade
  obtain ⟨name, routine, hname, hroutine, item, position, closing, around, hcloses⟩ := hcalled
  obtain ⟨hitem, hextends, hoffered, hdepth, hmeant⟩ := hcloses
  -- The offer of the argument belongs to the run, so what it makes of the graph stays.
  have hargument : closing.kind argument = .argument :=
    hextends.kind.trans (argumentBinding_spec dialect item position).1
  have hoffer : ⟨closing, .routineCall (some routine) :: around, .value argument⟩ ∈
      offersOf (visitHistory dialect tree.size tree.root (.ofSchema schema)) :=
    List.mem_filterMap.mpr ⟨_, hwhole hoffered, rfl⟩
  rw [hrun] at hlevels
  have hgrows : closing.Grows last.scope.graph :=
    (Graph.grows_passArgument closing routine argument).trans
    (hlevels.above.lasting _ hoffer _ (makes_passArgument hargument))
  have hlater :=
    (Graph.extends_of_grows hgrows).binding argument (Graph.contains_of_argument hargument)
  exact ⟨call, before, after, name, routine, item, position, closing, around, target, hvisited,
    hrule, hname, hroutine, hfresh, hmade, hitem, hlater.name.trans hextends.name,
    hlater.position.trans hextends.position, hoffered, hdepth, hgrows, hmeant, hbinds.outputs,
    hbinds.children⟩

/-- Two functions, and a call of the first one. Its argument is passed by name, to the second
    parameter, and is a call of the second function. -/
def nestedCalls : Document :=
  let function (routine : String) (parameters : List String) : Document :=
    .inner "function_body" (.identifier routine ::
      parameters.map fun parameter => .inner "parameter" [.identifier parameter])
  let called (tag routine : String) (argument : List Document) : Document :=
    .inner tag
      [.inner "routine_name" [.segment routine],
       .inner "function_argument" [.inner "argument" argument]]
  .inner "unit"
    [function "f" ["p", "r"], function "g" ["q"],
     called "call_statement" "f" [.identifier "R", called "function_call" "g" []]]

/-- In `nestedCalls` the argument of the outer call flows to the parameter of its name, and that of
    the inner call to the parameter at its position. -/
theorem arguments_bound_nestedCalls :
    let tree := Tree.ofDocument nestedCalls
    ∃ analysis, analyze tree Dialect.plsql .empty = .ok analysis ∧
      ([⟨6⟩, ⟨7⟩].map fun id => (analysis.graph.get id).position) = [none, some 0] ∧
      ∀ argument parameter, (argument, parameter) ∈ [(⟨6⟩, ⟨2⟩), (⟨7⟩, ⟨4⟩)] →
        analysis.graph.kind argument = .argument ∧ analysis.graph.outputs argument = [parameter] ∧
        ∃ (call : Node tree) (before after : Session) (routine : BindingId) (closing : Graph)
          (around : List Frame),
          .visited call before (.ok (), after) ∈
            visitHistory Dialect.plsql tree.size tree.root (.ofSchema .empty) ∧
          .offered ⟨closing, .routineCall (some routine) :: around, .value argument⟩ ∈
            visitHistory Dialect.plsql tree.size call before ∧
          around.length = before.scope.frames.length ∧
          closing.Meant routine argument parameter := by
  intro tree
  have hbindings : (analyze tree Dialect.plsql .empty).toOption.map (fun analysis =>
      ([⟨6⟩, ⟨7⟩].map analysis.graph.get).map fun binding =>
        (binding.kind, binding.position, binding.outputs)) =
      some [(.argument, none, [⟨2⟩]), (.argument, some 0, [⟨4⟩])] := by decide +kernel
  rcases hanalyze : analyze tree Dialect.plsql .empty with error | analysis <;>
    rw [hanalyze] at hbindings
  · cases hbindings
  simp only [Except.toOption, Option.map_some, List.map_cons, List.map_nil, Option.some.injEq,
    List.cons.injEq, Prod.mk.injEq, and_true] at hbindings
  obtain ⟨⟨houterKind, hnone, houter⟩, hinnerKind, hsome, hinner⟩ := hbindings
  have hpair : ∀ argument parameter, (argument, parameter) ∈ [(⟨6⟩, ⟨2⟩), (⟨7⟩, ⟨4⟩)] →
      analysis.graph.kind argument = .argument ∧ analysis.graph.outputs argument = [parameter] := by
    intro argument parameter hmem
    rcases List.mem_cons.mp hmem with heq | hmem
    · cases heq
      exact ⟨houterKind, houter⟩
    · cases List.mem_singleton.mp hmem
      exact ⟨hinnerKind, hinner⟩
  refine ⟨analysis, rfl, by simp [hnone, hsome], fun argument parameter hmem => ?_⟩
  obtain ⟨hkind, hflows⟩ := hpair argument parameter hmem
  obtain ⟨call, before, after, name, routine, item, position, closing, around, target,
      hvisited, _, _, _,
    _, _, _, _, _, hoffered, hdepth, _, hmeant, houtputs, _⟩ :=
    arguments_bound nestedCalls .plsql .empty _ hanalyze argument hkind
  obtain rfl : parameter = target := List.singleton_inj.mp (hflows.symm.trans houtputs)
  exact ⟨hkind, hflows, call, before, after, routine, closing, around, hvisited, hoffered, hdepth,
    hmeant⟩

end Walk

end Lineage
