import Lineage.Analyze
import Lineage.Proofs.Walk.Barriers

/-!
# The elements of a select list

A select list stands inside one query or several, around which a multiple assignment may wait for
values. When an element of the list ends, its value passes the queries and goes to the next target,
unless it is a table: then the innermost query takes it for one of its sources, and no target
receives it.

## Key results

- `kind_contribution`: what an element gives is a table only if this is its only value
- `flushElement_waiting`: what becomes of the value of an element
- `gather_ok`: what an element gathers, with an alias and without
- `waiting_firstElements`: after some elements at most as many targets have received a value
- `element_reaches_target`: the end of every element of a select list
- `tableElement_reaches_no_target`: an element whose value is a table is lost
-/

namespace Lineage

namespace Scope

/-- One query or several, `depth` in all, with a multiple assignment around them that has received a
    number of values, and levels with the given cores around this one. -/
def Waiting (targets : List BindingId) (received depth : Nat) (cores around : List Frame) : Prop :=
  ∃ query queries outer, around = .select query :: queries ++
  .multipleAssignment targets received :: outer ∧
    queries.length + 1 = depth ∧ (∀ frame ∈ queries, frame.isSelect = true) ∧
    outer.map Frame.core = cores

variable {targets pending : List BindingId} {received : Nat} {graph : Graph}

/-- Whether levels wait for values depends on their cores alone. -/
theorem Waiting.of_cores {depth : Nat} {cores around around' : List Frame}
    (h : Waiting targets received depth cores around)
    (hsame : around'.map Frame.core = around.map Frame.core) :
    Waiting targets received depth cores around' := by
  obtain ⟨query, queries, outer, rfl, hdepth, hselects, hcores⟩ := h
  obtain ⟨query', rest, rfl, _, hrest⟩ := Frame.exists_select_of_core hsame
  rw [List.append_eq, List.map_append, List.map_cons] at hrest
  obtain ⟨queries', last, rfl, hqueries, hlast⟩ := List.map_eq_append_iff.mp hrest
  obtain ⟨outer', rfl, houter⟩ :=
    Frame.exists_cons_of_core hlast (by simp [Frame.core, Frame.role])
      (by simp [Frame.core, Frame.role])
  refine ⟨query', queries', outer', rfl, ?_, fun frame hframe => ?_, houter.trans hcores⟩
  · have hlength := congrArg List.length hqueries
    rw [List.length_map, List.length_map] at hlength
    omega
  · -- The names that a query knows have no part in whether a frame is a query.
    have hcore : frame.core ∈ queries.map Frame.core := hqueries ▸ List.mem_map_of_mem hframe
    obtain ⟨other, hother, heq⟩ := List.mem_map.mp hcore
    rw [← Frame.isSelect_core, ← heq, Frame.isSelect_core]
    exact hselects other hother

/-- A value that is no table passes all queries and goes to the next target. -/
theorem receiveAmong_selects {id target : BindingId} {selects : List Frame} (outer : List Frame)
    (hselects : ∀ frame ∈ selects, frame.isSelect = true)
    (hsource : (graph.kind id).isSource = false) (htarget : targets[received]? = some target) :
    receiveAmong id graph (selects ++ .multipleAssignment targets received :: outer) =
      .ok (selects ++ .multipleAssignment targets (received + 1) :: outer,
        graph.addOutput id target) := by
  induction selects with
  | nil => simp [receiveAmong, Frame.receive, htarget]
  | cons frame rest ih =>
    have hrest := ih fun other hother => hselects other (List.mem_cons_of_mem _ hother)
    have hframe := hselects frame List.mem_cons_self
    cases frame with
    | select query =>
      simp only [List.cons_append, receiveAmong, Frame.receive, hsource, hrest]
      rfl
    | _ => simp [Frame.isSelect] at hframe

/-- The innermost query takes a table. -/
theorem receiveAmong_table {id : BindingId} (query : QueryScope) (rest : List Frame)
    (hsource : (graph.kind id).isSource = true) :
    receiveAmong id graph (.select query :: rest) =
      .ok (.select (query.addSource id) :: rest, graph) := by
  simp [receiveAmong, Frame.receive, hsource]

/-- What an element gives is a table only if this is its only value. -/
theorem kind_contribution {position : Nat}
    (h : ((contribution graph position pending).2.kind
      (contribution graph position pending).1).isSource = true) :
    pending = [(contribution graph position pending).1] ∧
    (contribution graph position pending).2 = graph := by
  unfold contribution at h ⊢
  split
  · exact ⟨rfl, rfl⟩
  · next hpending =>
    split at h
    · next single => exact absurd rfl (hpending single)
    · rw [Graph.kind_addOutputs, Graph.kind, Graph.get_push_nextId] at h
      simp [Binding.withPosition, Binding.ofName, Binding.Kind.isSource] at h

/-- The end of an element gives its value to the next target, or to the innermost query if
    it is a table. -/
theorem flushElement_waiting {scope : Scope} {query : QueryScope} {queries outer : List Frame}
    {target : BindingId} (position : Nat)
    (hframes : scope.frames =
      .selectList pending :: (.select query :: queries ++
        .multipleAssignment targets received :: outer))
    (hselects : ∀ frame ∈ queries, frame.isSelect = true)
    (htarget : targets[received]? = some target) :
    let value := (contribution scope.graph position pending).1
    let graph := (contribution scope.graph position pending).2
    scope.flushElement position = (.ok (),
      if (graph.kind value).isSource then
        { scope with frames := .selectList [] ::
            (.select (query.addSource value) :: queries ++
              .multipleAssignment targets received :: outer) }
      else
        { scope with
          graph := graph.addOutput value target
          frames := .selectList [] ::
            (.select query :: queries ++
              .multipleAssignment targets (received + 1) :: outer) }) := by
  intro value graph
  rw [flushElement_eq position hframes]
  simp only [receive]
  cases hsource : (graph.kind value).isSource with
  | true =>
    -- No binding was added for the position, so the graph is the one before.
    have hgraph : graph = scope.graph := (kind_contribution hsource).2
    rw [List.cons_append, receiveAmong_table query _ hsource]
    simp only [reopenList, Except.map, push, if_true, hgraph, List.cons_append]
  | false =>
    have hall : ∀ frame ∈ Frame.select query :: queries, frame.isSelect = true :=
      List.forall_mem_cons.mpr ⟨rfl, hselects⟩
    rw [receiveAmong_selects outer hall hsource htarget]
    rfl

/-- The end of an element leaves the levels around its list waiting, for at most one value less. -/
theorem waiting_flushElement {scope : Scope} {depth : Nat} {cores around : List Frame}
    (position : Nat) (hframes : scope.frames = .selectList pending :: around)
    (hwaiting : Waiting targets received depth cores around) (hroom : received < targets.length) :
    ∃ around' received', (scope.flushElement position).2.frames = .selectList [] :: around' ∧
      Waiting targets received' depth cores around' ∧ received ≤ received' ∧
      received' ≤ received + 1 := by
  obtain ⟨query, queries, outer, rfl, hdepth, hselects, hcores⟩ := hwaiting
  rw [flushElement_waiting position hframes hselects (List.getElem?_eq_getElem hroom)]
  dsimp only
  split
  · exact ⟨_, received, rfl, ⟨_, queries, outer, rfl, hdepth, hselects, hcores⟩, by omega, by omega⟩
  · exact ⟨_, received + 1, rfl, ⟨query, queries, outer, rfl, hdepth, hselects, hcores⟩,
      by omega, by omega⟩

/-- The innermost level has a role, and the levels around it have the given cores. -/
def Stands (role : String) (cores : List Frame) (scope : Scope) : Prop :=
  ∃ top below, scope.frames = top :: below ∧ top.role = role ∧ below.map Frame.core = cores

end Scope

namespace Walk

variable {tree : Tree} {dialect : Dialect} {session reached : Session} {cores : List Frame}

/-! ### What an element gathers -/

theorem stands_visit (dialect : Dialect) [dialect.Regular] {role : String} (levels : Nat)
    (node : Node tree) (hbarrier : role ∈ Frame.barriers) (h : session.scope.Stands role cores) :
    (visit dialect levels node session).2.scope.Stands role cores ∧
      session.scope.graph.Grows (visit dialect levels node session).2.scope.graph := by
  obtain ⟨top, below, hframes, rfl, rfl⟩ := h
  obtain ⟨offers, hkeeps⟩ := keeps_visit_of_barrier dialect levels node hframes hbarrier
  exact ⟨hkeeps.below_barrier hframes hbarrier, hkeeps.above.grows⟩

/-- Whatever is visited above a frame that takes everything, the levels below it
    keep their cores. -/
theorem stands_visits (dialect : Dialect) [dialect.Regular] {role : String} (levels : Nat)
    (nodes : List (Node tree)) (hbarrier : role ∈ Frame.barriers)
    (h : session.scope.Stands role cores) :
    (nodes.forM (visit dialect levels) session).2.scope.Stands role cores ∧
      session.scope.graph.Grows (nodes.forM (visit dialect levels) session).2.scope.graph := by
  induction nodes generalizing session with
  | nil => exact ⟨h, .refl⟩
  | cons node rest ih =>
    refine Stateful.state_bind (fun after : Session => after.scope.Stands role cores ∧
      session.scope.graph.Grows after.scope.graph) (stands_visit dialect levels node hbarrier h)
      (fun _ h => h) fun _ after hafter => ?_
    obtain ⟨hrest, hgrows⟩ := ih hafter.1
    exact ⟨hrest, hafter.2.trans hgrows⟩

/-- An assignment reports nothing when it closes. -/
theorem within_assignment {id : Option BindingId} {walk : Walk Unit}
    (hlength : cores.length = session.scope.frames.length)
    (hbody : (walk { session with scope := session.scope.push (.assignment id) }).2.scope.Stands
      "assignment" cores)
    (hok : within (.assignment id) walk session = (.ok (), reached)) :
    reached.scope.graph =
      (walk { session with scope := session.scope.push (.assignment id) }).2.scope.graph ∧
      reached.scope.frames.map Frame.core = cores := by
  simp only [within] at hok
  rcases hrun : walk { session with scope := session.scope.push (.assignment id) } with
      ⟨error | _, after⟩ <;>
    rw [hrun] at hok hbody
  · simp at hok
  obtain ⟨top, below, hframes : after.scope.frames = _, hrole, hcores⟩ := hbody
  -- The body leaves the assignment on top, so exactly this level is closed.
  have hcount : after.scope.height - max session.scope.height 1 = 1 := by
    have hbelow : below.length = session.scope.frames.length := by
      rw [← hlength, ← hcores, List.length_map]
    simp only [Scope.height, hframes, List.length_cons, hbelow]
    omega
  cases top with
  | assignment target =>
    simp only [attempt, Scope.unwind, if_true, hcount, popAll_one, Scope.pop, hframes, Frame.finish,
      Scope.receiveAll, Prod.mk.injEq] at hok
    rw [← hok.2]
    exact ⟨rfl, hcores⟩
  | _ => simp [Frame.role] at hrole

/-- A new binding is of its kind as long as the graph only grows. -/
theorem kind_declareNew (scope : Scope) (binding : Binding) (graph : Graph)
    (hgrows : (scope.declareNew binding).2.graph.Grows graph) :
    graph.kind (scope.declareNew binding).1 = binding.kind := by
  have hpush : (scope.graph.push binding).Grows graph := (Scope.grows_declare _ _).trans hgrows
  refine (hpush.kind (Graph.contains_push_nextId _ _)).trans ?_
  exact congrArg Binding.kind (Graph.get_push_nextId _ _)

/-- A binding that is declared and sent right inside a select list is all that the list has
    gathered then. -/
theorem declare_produce {around : List Frame}
    (hframes : session.scope.frames = .selectList [] :: around) (binding : Binding)
    (next : BindingId → Walk Unit) :
    ∃ id listed around', (declare binding >>= fun id => produce id >>= fun _ => next id) session =
      next id listed ∧
      listed.scope.frames = .selectList [id] :: around' ∧
        around'.map Frame.core = around.map Frame.core ∧
      ∀ graph, listed.scope.graph.Grows graph → graph.kind id = binding.kind := by
  obtain ⟨id, declared, hnew⟩ : ∃ id declared, session.scope.declareNew binding = (id, declared) :=
    ⟨_, _, rfl⟩
  have hlearns := session.scope.learns_declareNew binding
  have hkind := kind_declareNew session.scope binding
  rw [hnew] at hlearns hkind
  have hcores : declared.frames.map Frame.core = .selectList [] :: around.map Frame.core :=
    hlearns.cores.trans (by rw [Scope.cores, hframes]; rfl)
  obtain ⟨around', hdeclared, haround⟩ :=
    Frame.exists_cons_of_core hcores (by simp [Frame.role]) (by simp [Frame.role])
  have hdeclare : declare binding session = (.ok id, { session with scope := declared }) := by
    simp only [declare, onScope, hnew]
  have hproduce : produce id { session with scope := declared } =
      (.ok (),
        { session with scope := { declared with frames := .selectList [id] :: around' } }) := by
    simp [produce, attempt, Scope.receiveAll, Scope.receive, hdeclared, Scope.receiveAmong,
      Frame.receive, Except.map]
  refine ⟨id, { session with scope := { declared with frames := .selectList [id] :: around' } },
    around', ?_, rfl, haround, hkind⟩
  rw [Stateful.bind_ok hdeclare, Stateful.bind_ok hproduce]

/-- Where the list has a level of its own, an element leaves the levels around the list as they are.
    An element with an alias gathers its alias and nothing else. -/
theorem gather_ok [dialect.Regular] {item : Dialect.Element tree} {levels : Nat}
    {around : List Frame} (hframes : session.scope.frames = .selectList [] :: around)
    (hok : (Script.gather dialect item).run (visit dialect levels) session = (.ok (), reached)) :
    ∃ pending around', reached.scope.frames = .selectList pending :: around' ∧
      around'.map Frame.core = around.map Frame.core ∧
      (item.aliasNode.isPresent = true → ∃ id, pending = [id] ∧
        reached.scope.graph.kind id = .aliased) := by
  unfold Script.gather at hok
  split at hok
  · -- The alias is in the list before the expression, which is assigned to it, is visited.
    simp only [Script.run_bind, Script.run_quiet, Script.run_send, Script.run_within,
      Script.run_visits] at hok
    obtain ⟨id, listed, around', hlisted, hframes', haround, hkind⟩ := declare_produce hframes
      (.ofName (dialect.nameOf item.aliasNode) .aliased)
      fun id => within (.assignment (some id)) (item.expression.forM (visit dialect levels))
    rw [hlisted] at hok
    have hstands : (listed.scope.push (.assignment (some id))).Stands "assignment"
        (listed.scope.frames.map Frame.core) := ⟨_, _, rfl, rfl, rfl⟩
    obtain ⟨hbody, hgrows⟩ := stands_visits dialect levels item.expression
      (by simp [Frame.barriers])
      (show ({ listed with scope := _ } : Session).scope.Stands _ _ from hstands)
    obtain ⟨hgraph, hcores⟩ := within_assignment (by simp) hbody hok
    rw [hframes'] at hcores
    obtain ⟨around'', hreached, haround'⟩ :=
      Frame.exists_cons_of_core hcores (by simp [Frame.core, Frame.role])
        (by simp [Frame.core, Frame.role])
    exact ⟨[id], around'', hreached, haround'.trans haround, fun _ =>
      ⟨id, rfl, hkind _ (hgraph ▸ hgrows)⟩⟩
  · next hplain =>
    have hstands : session.scope.Stands "select-list" (around.map Frame.core) :=
      ⟨_, around, hframes, rfl, rfl⟩
    obtain ⟨⟨top, around', hafter, hrole, hcores⟩, _⟩ :=
      stands_visits dialect levels item.expression (by simp [Frame.barriers]) hstands
    have hreached : reached = (item.expression.forM (visit dialect levels) session).2 :=
      (congrArg Prod.snd hok).symm
    rw [← hreached] at hafter
    cases top with
    | selectList pending =>
      exact ⟨pending, around', hafter, hcores, fun halias => absurd halias hplain⟩
    | _ => simp [Frame.role] at hrole

/-! ### One element after the other -/

section

variable (dialect) (walk : Node tree → Walk Unit) (list : Node tree)

/-- The elements of a select list from the first on, as many as given. -/
def firstElements (count : Nat) : Walk Unit :=
  ((dialect.elements list).zipIdx.take count).forM fun (item, position) =>
    element dialect walk item position

/-- The elements of a select list before the position, and what the one at the position gathers.
    Only the end of that element is still missing. -/
def gatherUntil (position : Nat) : Walk Unit := do
  firstElements dialect walk list position
  (dialect.elements list)[position]?.toList.forM fun item => (Script.gather dialect item).run walk

/-- A select list is all its elements, on a level of their own. -/
theorem selectList_eq : selectList dialect walk list =
    within (.selectList []) (firstElements dialect walk list (dialect.elements list).length) := by
  rw [selectList, firstElements, List.take_of_length_le (by simp)]

theorem element_eq (item : Dialect.Element tree) (position : Nat) :
    element dialect walk item position =
      (Script.gather dialect item).run walk >>= fun _ => attempt (·.flushElement position) := by
  rw [← Script.run_element, Script.element, Script.run_bind]
  rfl

end

theorem firstElements_succ {walk : Node tree → Walk Unit} {list : Node tree}
    {item : Dialect.Element tree} {position : Nat}
    (hitem : (dialect.elements list)[position]? = some item) :
    firstElements dialect walk list (position + 1) =
      gatherUntil dialect walk list position >>= fun _ => attempt (·.flushElement position) := by
  have hpair : (dialect.elements list).zipIdx[position]? = some (item, position) := by
    simp [List.getElem?_zipIdx, hitem]
  have happend : firstElements dialect walk list (position + 1) =
      firstElements dialect walk list position >>= fun _ => element dialect walk item position := by
    simp only [firstElements, List.take_add_one, hpair, Option.toList_some]
    exact List.forM_append.trans (congrArg _ (funext fun _ => Script.forM_singleton _ _))
  simp only [happend, element_eq, gatherUntil, hitem, Option.toList_some,
    Script.forM_singleton, bind_assoc]

section

variable [dialect.Regular] {targets : List BindingId} {received depth levels : Nat}
  {cores around : List Frame} {list : Node tree}

/-- What an element gathers does not reach the levels around its list. -/
theorem waiting_gather {item : Dialect.Element tree}
    (hframes : session.scope.frames = .selectList [] :: around)
    (hwaiting : Scope.Waiting targets received depth cores around)
    (hok : (Script.gather dialect item).run (visit dialect levels) session = (.ok (), reached)) :
    ∃ pending around', reached.scope.frames = .selectList pending :: around' ∧
      Scope.Waiting targets received depth cores around' ∧
      (item.aliasNode.isPresent = true → ∃ id, pending = [id] ∧
        reached.scope.graph.kind id = .aliased) := by
  obtain ⟨pending, around', hframes', hcores, halias⟩ := gather_ok hframes hok
  exact ⟨pending, around', hframes', hwaiting.of_cores hcores, halias⟩

/-- After a number of elements at most as many targets have received a value. -/
theorem waiting_firstElements (hframes : session.scope.frames = .selectList [] :: around)
    (hwaiting : Scope.Waiting targets received depth cores around) {count : Nat}
    (hcount : count ≤ (dialect.elements list).length) (hroom : received + count ≤ targets.length)
    (hok : firstElements dialect (visit dialect levels) list count session = (.ok (), reached)) :
    ∃ around' received', reached.scope.frames = .selectList [] :: around' ∧
      Scope.Waiting targets received' depth cores around' ∧ received ≤ received' ∧
      received' ≤ received + count := by
  induction count generalizing reached with
  | zero =>
    simp only [firstElements, List.take_zero] at hok
    cases hok
    exact ⟨around, received, hframes, hwaiting, Nat.le_refl _, Nat.le_refl _⟩
  | succ count ih =>
    -- One more element: those before it, what it gathers, and its end. Only the end is seen around
    -- the list.
    have hitem := List.getElem?_eq_getElem hcount
    rw [firstElements_succ hitem] at hok
    obtain ⟨_, gathered, hgather, hflush⟩ := Stateful.exists_of_bind hok
    rw [gatherUntil, hitem, Option.toList_some, Script.forM_singleton] at hgather
    obtain ⟨_, middle, hfirst, hlast⟩ := Stateful.exists_of_bind hgather
    obtain ⟨_, received', hmiddle, hbefore, hle, hle'⟩ := ih (by omega) (by omega) hfirst
    obtain ⟨pending, _, hgathered, hopen, _⟩ := waiting_gather hmiddle hbefore hlast
    obtain ⟨around', received'', hfinal, hclosed, hstep, hstep'⟩ :=
      Scope.waiting_flushElement count hgathered hopen (by omega)
    have hreached : (gathered.scope.flushElement count).2 = reached.scope :=
      congrArg (fun outcome => outcome.2.scope) hflush
    exact ⟨around', received'', by rw [← hreached, hfinal], hclosed, by omega, by omega⟩

end

/-- The end of every element of a select list that stands in queries with a multiple assignment
    around them. The element has one value: what it gathered if this is a single binding, its alias
    if it has one, or else a binding named for its position that everything gathered flows into. If
    the value is no table, it flows into the next target, and one more value is received. If it is a
    table, which takes an element without an alias that gathered this table alone, the innermost
    query reads from it, no value is received, and the next target stays without one. -/
theorem element_reaches_target (document : Document) (grammar : Grammar) (levels : Nat)
    (list : Node (Tree.ofDocument document)) (session reached : Session) (query : QueryScope)
    (queries rest : List Frame) (targets : List BindingId) (received position : Nat)
    (item : Dialect.Element (Tree.ofDocument document))
    (hframes : session.scope.frames = .select query :: queries ++
      .multipleAssignment targets received :: rest)
    (hqueries : ∀ frame ∈ queries, frame.isSelect = true)
    (hroom : received + (grammar.dialect.elements list).length ≤ targets.length)
    (hitem : (grammar.dialect.elements list)[position]? = some item)
    (hreached : gatherUntil grammar.dialect (visit grammar.dialect levels) list position
      { session with scope := session.scope.push (.selectList []) } = (.ok (), reached)) :
    ∃ pending query' queries' received' target rest',
      reached.scope.frames = .selectList pending ::
        (.select query' :: queries' ++ .multipleAssignment targets received' :: rest') ∧
      queries'.length = queries.length ∧ (∀ frame ∈ queries', frame.isSelect = true) ∧
      rest'.map Frame.core = rest.map Frame.core ∧
      received ≤ received' ∧ received' ≤ received + position ∧ targets[received']? = some target ∧
      let value := (Scope.contribution reached.scope.graph position pending).1
      let graph := (Scope.contribution reached.scope.graph position pending).2
      (item.aliasNode.isPresent = true → pending = [value] ∧ graph.kind value = .aliased) ∧
      ((graph.kind value).isSource = true → item.aliasNode.isPresent = false ∧ pending = [value]) ∧
      firstElements grammar.dialect (visit grammar.dialect levels) list (position + 1)
          { session with scope := session.scope.push (.selectList []) } =
        (.ok (), { reached with
          scope :=
            if (graph.kind value).isSource then
              { reached.scope with
                frames := .selectList [] ::
                  (.select (query'.addSource value) :: queries' ++
                    .multipleAssignment targets received' :: rest') }
            else
              { reached.scope with
                graph := graph.addOutput value target
                frames := .selectList [] ::
                  (.select query' :: queries' ++
                    .multipleAssignment targets (received' + 1) :: rest') } }) := by
  have hposition : position < (grammar.dialect.elements list).length :=
    (List.getElem?_eq_some_iff.mp hitem).1
  have hfirst := hreached
  rw [gatherUntil, hitem, Option.toList_some, Script.forM_singleton] at hfirst
  obtain ⟨_, middle, hbefore, hgather⟩ := Stateful.exists_of_bind hfirst
  have hwaiting : Scope.Waiting targets received (queries.length + 1) (rest.map Frame.core)
      session.scope.frames :=
    ⟨query, queries, rest, hframes, rfl, hqueries, rfl⟩
  obtain ⟨_, received', hmiddle, hopen, hle, hle'⟩ :=
    waiting_firstElements rfl hwaiting (Nat.le_of_lt hposition) (by omega) hbefore
  obtain ⟨pending, _, hgathered, ⟨query', queries', rest', rfl, hlength, hqueries', hrest⟩,
      halias⟩ :=
    waiting_gather hmiddle hopen hgather
  have htarget := List.getElem?_eq_getElem (show received' < targets.length by omega)
  refine ⟨pending, query', queries', received', _, rest', hgathered, Nat.succ.inj hlength,
    hqueries', hrest, hle, hle', htarget, ?_, ?_, ?_⟩
  · intro hpresent
    obtain ⟨id, rfl, hkind⟩ := halias hpresent
    exact ⟨rfl, hkind⟩
  · intro hsource
    obtain ⟨hpending, _⟩ := Scope.kind_contribution hsource
    refine ⟨?_, hpending⟩
    -- An alias is no table.
    by_contra hpresent
    obtain ⟨id, rfl, hkind⟩ := halias (by simpa using hpresent)
    rw [Scope.contribution, hkind] at hsource
    simp [Binding.Kind.isSource] at hsource
  · rw [firstElements_succ hitem, Stateful.bind_ok hreached, attempt,
      Scope.flushElement_waiting position hgathered hqueries' htarget]

/-- A select list of two elements without an expression. -/
def twoElements : Document :=
  let element : Document := .inner "select_list_elements" []
  .inner "selected_list" [element, element]

/-- Inside two queries, the end of the second element of `twoElements` gives a value to the
    second target. -/
theorem element_reaches_target_twoElements :
    let tree := Tree.ofDocument twoElements
    let inside (session : Session) : Session := ((Operation.push (.select .empty)).run session).2
    let session := inside (inside (expecting [⟨1⟩, ⟨2⟩]))
    let list : Session := { session with scope := session.scope.push (.selectList []) }
    let reached := (gatherUntil Dialect.plsql (visit Dialect.plsql tree.size) tree.root 1 list).2
    Reachable (.oneTable "t" ["a", "b"]) session ∧
    selectList Dialect.plsql (visit Dialect.plsql tree.size) tree.root =
      within (.selectList [])
        (firstElements Dialect.plsql (visit Dialect.plsql tree.size) tree.root 2) ∧
    ∃ query' queries' rest',
      firstElements Dialect.plsql (visit Dialect.plsql tree.size) tree.root 2 list =
        (.ok (), { reached with
          scope := { reached.scope with
            graph := (Scope.contribution reached.scope.graph 1 []).2.addOutput
              (Scope.contribution reached.scope.graph 1 []).1 ⟨2⟩
            frames := .selectList [] ::
              (.select query' :: queries' ++ .multipleAssignment [⟨1⟩, ⟨2⟩] 2 :: rest') } }) := by
  intro tree inside session list reached
  have hexpecting : Reachable (.oneTable "t" ["a", "b"]) (expecting [⟨1⟩, ⟨2⟩]) :=
    reachable_expecting (by decide +kernel)
  refine ⟨hexpecting.query.query, selectList_eq .., ?_⟩
  have hok : (gatherUntil Dialect.plsql (visit Dialect.plsql tree.size) tree.root 1 list).1 =
      .ok () := by
    decide +kernel
  have hreached : reached.scope.frames =
      [.selectList [], .select .empty, .select .empty, .multipleAssignment [⟨1⟩, ⟨2⟩] 1] := rfl
  obtain ⟨pending, query', queries', received', target, rest', hframes, hlength, _, _, _, _,
      htarget, _, hsource, hclosed⟩ :=
    element_reaches_target twoElements .plsql tree.size tree.root session reached .empty
      [.select .empty] [] [⟨1⟩, ⟨2⟩] 0 1 _ rfl (by decide) (by decide +kernel) rfl
      (Prod.ext hok rfl)
  obtain ⟨second, rfl⟩ := List.length_eq_one_iff.mp hlength
  simp only [hreached, List.cons_append, List.nil_append, List.cons.injEq, Frame.selectList.injEq,
    Frame.multipleAssignment.injEq] at hframes
  obtain ⟨rfl, _, rfl, ⟨_, rfl⟩, rfl⟩ := hframes
  obtain rfl : ⟨2⟩ = target := Option.some.inj htarget
  rw [if_neg fun h => by simpa using (hsource h).2] at hclosed
  exact ⟨_, _, _, hclosed⟩

/-- The only level, if targets are pending there. Equality of levels is not decidable, since a level
    may hold names; this is. -/
theorem frames_eq_of_pending {scope : Scope} {targets : List BindingId} {received : Nat}
    (hone : scope.frames.length = 1)
    (hpending : scope.pendingAssignment? 0 = some (targets, received)) :
    scope.frames = [.multipleAssignment targets received] := by
  obtain ⟨frame, hframes⟩ := List.length_eq_one_iff.mp hone
  rw [Scope.pendingAssignment?, hframes] at hpending
  cases frame with
  | multipleAssignment targets' received' => simp_all
  | _ => simp at hpending

/-- A query that selects the table that it reads from. -/
def tableElement : Document :=
  .inner "query_block"
    [.inner "selected_list" [.inner "select_list_elements" [.segment "u"]],
     .inner "from_clause" [.source "u"]]

/-- The one element of `tableElement` gives no value to the one target around the query. -/
theorem tableElement_reaches_no_target :
    let tree := Tree.ofDocument tableElement
    Reachable (.oneTable "t" ["a", "b"]) (expecting [⟨1⟩]) ∧
    (visit Dialect.plsql tree.size tree.root (expecting [⟨1⟩])).1 = .ok () ∧
    (visit Dialect.plsql tree.size tree.root (expecting [⟨1⟩])).2.scope.frames =
      [.multipleAssignment [⟨1⟩] 0] := by
  exact ⟨reachable_expecting (by decide +kernel), by decide +kernel,
    frames_eq_of_pending (by decide +kernel) (by decide +kernel)⟩

end Walk

end Lineage
