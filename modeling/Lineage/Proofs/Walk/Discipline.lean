import Lineage.Analyze
import Lineage.Proofs.Walk.Reached

/-!
# The discipline of levels

Every visit leaves the levels that it found open, whether it succeeds or not, except for the visit
of the first operator between the arms of a query: it ends the level of the first arm, which is then
the innermost one.

## Key results

- `disciplined_visit`: what every visit leaves open, on every number of levels
- `visit_eq_visit`: with enough levels to go down, their number does not matter
- `visits_keep_levels`: the discipline of a whole run
-/

namespace Lineage

/-- A fault of the input is not worded like one of a rule out of place. -/
theorem ShapeFault.detail_not_mem {fault : ShapeFault} (h : fault.blamesInput = true) :
    fault.detail ∉ ["set operation outside a select", "cannot pop the root frame",
      "select-list element outside a select list"] := by
  cases fault with
  | unnamedDeclaration tag =>
    have hfirst : (ShapeFault.unnamedDeclaration tag).detail.toList.head? = some '<' := by
      simp [ShapeFault.detail, toString]
    intro hmem
    simp only [List.mem_cons, List.not_mem_nil, or_false] at hmem
    rcases hmem with htext | htext | htext <;> rw [htext] at hfirst <;> simp at hfirst
  | stated _ | rootPopped | elementOutsideList | operatorOutsideQuery =>
    simp [ShapeFault.blamesInput] at h
  | _ => simp [ShapeFault.detail]

namespace Walk

variable {tree : Tree} {dialect : Dialect} {levels : Nat} {session : Session}
  {index : Fin tree.size} {node : Node tree}

/-- Placing an error does not make it another one. -/
theorem exists_of_located_error {place : Location} {walk : Walk Unit} {error : Error}
    (h : (located place walk session).1 = .error error) :
    ∃ cause, (walk session).1 = .error cause ∧ error = cause.atLocation place := by
  unfold located at h
  rcases hrun : walk session with ⟨cause | ⟨⟩, after⟩
  · rw [hrun] at h
    exact ⟨cause, rfl, (Except.error.inj h).symm⟩
  · simp [hrun] at h

/-- Placing a mispairing does not make it another one. -/
theorem exists_located_of_error {place known : Location} {walk : Walk Unit} {fault : PairingFault}
    (h : (walk session).1 = .error (.pairing fault known)) :
    ∃ found, (located place walk session).1 = .error (.pairing fault found) := by
  unfold located
  rcases hrun : walk session with ⟨cause | ⟨⟩, after⟩
  · rw [hrun] at h
    rw [Except.error.inj h]
    exact ⟨_, rfl⟩
  · simp [hrun] at h

/-- The run of a visit, from the run of the node's steps. -/
theorem run_visit_of_steps {base left : Nat}
    (hfit : dialect.closesArm (Node.present index) = true →
      ∃ query rest, session.scope.frames = .select query :: rest)
    (hsteps : Run dialect base left { session with visited := index :: session.visited }
      ((nodeScript dialect (.present index)).history (visit dialect levels)
        (visitHistory dialect levels) { session with visited := index :: session.visited })
      ((nodeScript dialect (.present index)).run (visit dialect levels)
        { session with visited := index :: session.visited })) :
    Run dialect base left session (visitHistory dialect (levels + 1) (.present index) session)
      (visit dialect (levels + 1) (.present index) session) := by
  -- Placing an error changes neither the state nor who is to blame.
  rw [visit_present]
  refine ⟨?_, ?_, ?_, ?_, ?_⟩
  · rw [state_located]
    exact hsteps.above
  · rw [state_located]
    exact hsteps.words
  · intro error herror
    obtain ⟨cause, hcause, rfl⟩ := exists_of_located_error herror
    rw [Error.blamesInput_atLocation]
    exact hsteps.blames cause hcause
  · intro event hevent
    rcases List.mem_cons.mp hevent with rfl | hmem
    · exact hfit
    · exact hsteps.fit event hmem
  · intro offer hoffer fault hfault
    obtain ⟨place, hfailed⟩ := hsteps.heeds offer hoffer fault hfault
    exact exists_located_of_error hfailed

/-- A visit without levels to go down does nothing. -/
theorem run_visit_zero (node : Node tree) (session : Session) :
    Run dialect session.scope.frames.length session.scope.frames.length session
      (visitHistory dialect 0 node session) (visit dialect 0 node session) :=
  Run.of_learns .refl fun _ h => nomatch h

/-- What a visit leaves open: all levels, or all but the innermost one if the node ends it. -/
structure Disciplined (dialect : Dialect) (tree : Tree) (levels : Nat) : Prop where
  stays : ∀ node : Node tree, dialect.closesArm node = false → ∀ session : Session,
    Run dialect session.scope.frames.length session.scope.frames.length session
      (visitHistory dialect levels node session) (visit dialect levels node session)
  ends : ∀ node : Node tree, dialect.closesArm node = true → ∀ (session : Session) query rest,
    session.scope.frames = .select query :: rest → ∃ left ≤ rest.length + 1,
    (0 < levels → left = rest.length) ∧
      Run dialect rest.length left session (visitHistory dialect levels node session)
        (visit dialect levels node session)

/-- The parts of a query, visited on its level, leave all levels around it. -/
theorem Disciplined.parts (h : Disciplined dialect tree levels) {parts : List (Node tree)}
    (hpairwise : dialect.AtMostOneCloses parts)
    (session : Session) :
    ∃ left ≤ session.scope.frames.length + 1, Run dialect session.scope.frames.length left
      { session with scope := session.scope.push .query }
      (eventsOfAll (visit dialect levels) (visitHistory dialect levels) parts
        { session with scope := session.scope.push .query })
      (parts.forM (visit dialect levels) { session with scope := session.scope.push .query }) :=
  run_parts (fun part _ => h.stays part)
    (fun part _ hcloses session query rest hframes =>
      let ⟨left, hleft, _, hrun⟩ := h.ends part hcloses session query rest hframes
      ⟨left, hleft, hrun⟩) hpairwise { session with scope := session.scope.push .query } rfl

/-- A query leaves all levels around it, if the visits of its parts keep the discipline. -/
theorem Disciplined.query (h : Disciplined dialect tree levels) {parts : List (Node tree)}
    (hpairwise : dialect.AtMostOneCloses parts) (session : Session) :
    Run dialect session.scope.frames.length session.scope.frames.length session
      ((Script.query parts).history (visit dialect levels) (visitHistory dialect levels) session)
      ((Script.query parts).run (visit dialect levels) session) := by
  obtain ⟨left, hleft, hparts⟩ := h.parts hpairwise session
  exact Run.within hleft hparts

/-- A script that visits no parts of a query but those of a whole one leaves all levels. -/
theorem Disciplined.script (h : Disciplined dialect tree levels) {α : Type} {script : Script tree α}
    {listed : Bool} (huses : script.Uses (Plain dialect node) (Arms dialect node) listed)
    (session : Session) (hlisted : listed = true → listing session.scope) :
    Run dialect (Script.reach listed session.scope) session.scope.frames.length session
      (script.history (visit dialect levels) (visitHistory dialect levels) session)
      (script.run (visit dialect levels) session) := by
  have hbelow : ∀ below : Node tree, Plain dialect node below → _ :=
    fun below hplain => h.stays below hplain.stays
  -- The parts of a query are the only nodes that may end a level, so they need both halves of `h`.
  have hquery : ∀ parts : List (Node tree), Arms dialect node parts → _ :=
    fun parts hparts => h.query hparts.pairwise
  exact run_script hbelow hquery script huses session hlisted

/-- All visits keep the discipline, by induction on the number of levels below. -/
theorem disciplined_visit (dialect : Dialect) [dialect.Regular] (tree : Tree) (levels : Nat) :
    Disciplined dialect tree levels := by
  induction levels with
  | zero =>
    -- Without a level to go down a visit does nothing, so also a node that should end a level
    -- leaves it.
    refine ⟨fun node _ session => run_visit_zero node session, ?_⟩
    intro node _ session query rest hframes
    have hzero : Run dialect session.scope.frames.length session.scope.frames.length session
        (visitHistory dialect 0 node session) (visit dialect 0 node session) :=
      run_visit_zero node session
    rw [hframes, List.length_cons] at hzero
    exact ⟨rest.length + 1, Nat.le_refl _, fun h => absurd h (Nat.lt_irrefl 0),
      hzero.mono (Nat.le_succ _)⟩
  | succ levels ih =>
    constructor
    · intro node hcloses session
      cases node with
      | absent => exact Run.of_learns .refl fun _ h => nomatch h
      | present index =>
        refine run_visit_of_steps (by simp [hcloses]) ?_
        have huses := Script.uses_nodeScript rfl hcloses (Script.arms_queryParts)
        exact ih.script huses { session with visited := index :: session.visited } (by simp)
    · intro node hcloses session query rest hframes
      cases node with
      | absent => simp [Dialect.closesArm, Dialect.binds, Node.isPresent] at hcloses
      | present index =>
        refine ⟨rest.length, Nat.le_succ _, fun _ => rfl, ?_⟩
        refine run_visit_of_steps (fun _ => ⟨query, rest, hframes⟩) ?_
        -- The node ends the level itself. An operator is no query, so what it visits then ends no
        -- other.
        rw [nodeScript_of_closesArm hcloses]
        have hself := holds_of_closesArm hcloses
        refine run_closeArm ?_ hframes
        exact fun below hbelow => ih.stays below (hself.plain hbelow).stays

/-! ### Levels to go down -/

/-- The number of levels is enough for all nodes from the given one on. -/
def Enough (levels : Nat) (node : Node tree) : Prop :=
  ∀ index, node = .present index → tree.size ≤ index + levels

theorem Enough.beneath {below : Node tree} (h : Enough (levels + 1) node)
    (hbelow : node.Beneath below) : Enough levels below := by
  intro place hplace
  rcases hbelow with habsent | ⟨index, inner, hnode, hinner, hlt⟩
  · simp [habsent] at hplace
  · have hsize := h index hnode
    rw [hplace, Node.present.injEq] at hinner
    subst hinner
    omega

/-- With enough levels to go down, their number does not matter. -/
theorem visit_eq_visit (dialect : Dialect) [dialect.Regular] {few many : Nat}
    (hfew : Enough few node) (hmany : Enough many node) :
    visit dialect few node = visit dialect many node := by
  induction few generalizing many node with
  | zero =>
    cases node with
    | absent => cases many <;> rfl
    | present index =>
      have := hfew index rfl
      omega
  | succ few ih =>
    cases node with
    | absent => cases many <;> rfl
    | present index =>
      cases many with
      | zero =>
        have := hmany index rfl
        omega
      | succ many =>
        funext session
        rw [visit_present, visit_present]
        congr 1
        -- Both visits take the same steps; a node below has a greater index and needs one level
        -- less.
        refine Script.run_congr (fun below hbelow => ?_) (visits_nodeScript rfl)
        exact ih (hfew.beneath hbelow) (hmany.beneath hbelow)

/-- With enough levels to go down, a visit takes the steps of its node, and these visit nodes in
    the same way. -/
theorem visit_size [dialect.Regular] (index : Fin tree.size) (session : Session) :
    visit dialect tree.size (.present index) session =
      located (Node.present index).location
        ((nodeScript dialect (.present index)).run (visit dialect tree.size))
        { session with visited := index :: session.visited } := by
  have henough : Enough (tree.size + 1) (.present index) := fun _ _ => by omega
  rw [visit_eq_visit dialect (fun _ _ => Nat.le_add_left _ _) henough, visit_present]

/-- Every visit in a history is that of a present node, and with enough levels nothing below
    it is left out. -/
theorem visited_of_mem_history [dialect.Regular] {root : Node tree} {start : Session}
    (henough : Enough levels root) {before : Session} {outcome : Except Error Unit × Session}
    (h : .visited node before outcome ∈ visitHistory dialect levels root start) :
    node.isPresent = true ∧ outcome = visit dialect tree.size node before := by
  induction levels generalizing root start with
  | zero => simp [visitHistory] at h
  | succ levels ih =>
    cases root with
    | absent => simp [visitHistory] at h
    | present index =>
      rcases List.mem_cons.mp h with hself | hsteps
      · obtain ⟨rfl, rfl, rfl⟩ := Event.visited.inj hself
        refine ⟨rfl, congrFun (visit_eq_visit dialect henough fun _ _ => ?_) before⟩
        omega
      · obtain ⟨below, hbelow, state, hmem⟩ :=
          Script.exists_of_mem_history (visits_nodeScript rfl) hsteps
        exact ih (henough.beneath hbelow) hmem

/-! ### A whole run -/

theorem roles_eq (scope : Scope) : scope.roles = "root" :: scope.words.reverse := rfl

/-- A visited node leaves the words of all levels, or of all but a query's, which was
    the innermost. -/
theorem roles_visit [dialect.Regular] (hlevels : 0 < levels)
    (hfit : dialect.closesArm node = true →
      ∃ query rest, session.scope.frames = .select query :: rest) :
    if dialect.closesArm node then
      session.scope.roles = (visit dialect levels node session).2.scope.roles ++ ["select"]
    else (visit dialect levels node session).2.scope.roles = session.scope.roles := by
  have hdisciplined := disciplined_visit dialect tree levels
  cases hcloses : dialect.closesArm node with
  | false =>
    have hwords := (hdisciplined.stays node hcloses session).words
    rw [rtake_eq_self (Scope.length_words _)] at hwords
    simp [roles_eq, hwords]
  | true =>
    obtain ⟨query, rest, hframes⟩ := hfit hcloses
    obtain ⟨left, _, hleft, hrun⟩ := hdisciplined.ends node hcloses session query rest hframes
    have hbefore : session.scope.words = ["select"] ++ rest.map Frame.role := by
      rw [Scope.words, hframes]
      rfl
    have hwords := hrun.words
    rw [hleft hlevels, hbefore, rtake_append _ (List.length_map _)] at hwords
    simp [roles_eq, hwords, hbefore]

/-- The root of a document's tree ends no level. -/
theorem closesArm_root (dialect : Dialect) : dialect.closesArm tree.root = false := by
  refine Dialect.closesArm_of_parent ?_
  rw [Node.parent_root]
  rfl

/-- Every node that is visited when a document is analyzed leaves the levels that it found, except
    for the first operator between the arms of a query: it finds the level of the query innermost
    and ends it. A visit that fails leaves some of the outer levels. So in the end only the root is
    left, and no rule reports that it was applied out of place. The visits of the history are those
    that the run notes. -/
theorem visits_keep_levels (document : Document) (grammar : Grammar) (schema : Schema) :
    let tree := Tree.ofDocument document
    let dialect := grammar.dialect
    let history := visitHistory dialect tree.size tree.root (.ofSchema schema)
    (visitTree dialect tree (.ofSchema schema)).2.visited = (visitsOf history).reverse ∧
    (∀ node before result after, .visited node before (result, after) ∈ history →
        (result, after) = visit dialect tree.size node before ∧
        (result = .ok () →
          if dialect.closesArm node then before.scope.roles = after.scope.roles ++ ["select"]
          else after.scope.roles = before.scope.roles) ∧
        (∀ error, result = .error error → after.scope.roles <+: before.scope.roles)) ∧
    (visitTree dialect tree (.ofSchema schema)).2.scope.roles = ["root"] ∧
    ∀ fault location, analyze tree dialect schema = .error (.shape fault location) →
      fault.detail ∉ ["set operation outside a select", "cannot pop the root frame",
        "select-list element outside a select list"] := by
  intro tree dialect history
  have hrun := (disciplined_visit dialect tree tree.size).stays tree.root (closesArm_root dialect)
    (.ofSchema schema)
  refine ⟨?_, fun node before result after hvisited => ?_, ?_, fun fault location herror => ?_⟩
  · have hnotes := notes_visit dialect tree.size tree.root (.ofSchema schema)
    rwa [Notes, Session.ofSchema, List.append_nil] at hnotes
  · have henough : Enough tree.size tree.root := fun _ _ => Nat.le_add_left _ _
    obtain ⟨hpresent, houtcome⟩ := visited_of_mem_history henough hvisited
    have hsize : 0 < tree.size := by
      cases node with
      | absent => simp [Node.isPresent] at hpresent
      | present index => exact Nat.lt_of_le_of_lt (Nat.zero_le _) index.isLt
    have hroles := roles_visit hsize (hrun.fit _ hvisited)
    rw [← houtcome] at hroles
    refine ⟨houtcome, fun _ => hroles, fun _ _ => ?_⟩
    split at hroles
    · exact ⟨["select"], hroles.symm⟩
    · exact ⟨[], by rw [List.append_nil]; exact hroles⟩
  · have hwords := hrun.words
    rw [rtake_eq_self (Scope.length_words _)] at hwords
    rw [roles_eq]
    exact congrArg (fun words => "root" :: words.reverse) hwords
  · unfold analyze at herror
    rcases hvisit : visitTree dialect tree (.ofSchema schema) with ⟨cause | ⟨⟩, after⟩
    · rw [hvisit] at herror
      obtain rfl : cause = .shape fault location := Except.error.inj herror
      exact ShapeFault.detail_not_mem
        (hrun.blames (.shape fault location) (congrArg Prod.fst hvisit))
    · simp [hvisit] at herror

/-- A query whose second arm follows an operator. -/
def twoArms : Document :=
  .inner "query_block" [.inner "subquery_operation_part" []]

/-- The event is a visit that succeeds, of a node that ends a level. -/
def Event.ends {tree : Tree} (dialect : Dialect) : Event tree → Bool
  | .visited node _ (.ok (), _) => dialect.closesArm node
  | _ => false

/-- The operator of `twoArms` is visited, and finds and ends the level of the query. -/
theorem visits_keep_levels_twoArms :
    let tree := Tree.ofDocument twoArms
    ∃ node before after,
      .visited node before (.ok (), after) ∈
        visitHistory Dialect.plsql tree.size tree.root (.ofSchema .empty) ∧
      Dialect.plsql.closesArm node = true ∧
      before.scope.roles = after.scope.roles ++ ["select"] := by
  intro tree
  have hfound : (visitHistory Dialect.plsql tree.size tree.root (.ofSchema .empty)).any
      (Event.ends Dialect.plsql) = true := by decide +kernel
  obtain ⟨event, hmem, hevent⟩ := List.any_eq_true.mp hfound
  cases event with
  | offered offer => simp [Event.ends] at hevent
  | visited node before outcome =>
    obtain ⟨_ | ⟨⟩, after⟩ := outcome
    · simp [Event.ends] at hevent
    · simp only [Event.ends] at hevent
      have hroles :=
        ((visits_keep_levels twoArms .plsql .empty).2.1 node before _ after hmem).2.1 rfl
      simp only [Grammar.dialect, hevent] at hroles
      exact ⟨node, before, after, hmem, hevent, hroles⟩

end Walk

end Lineage
