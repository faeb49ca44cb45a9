import Lineage.Proofs.Scope.Schema
import Lineage.Proofs.Walk.Honest
import Lineage.Proofs.Walk.Invariants

/-!
# Runs stay well-formed

Started in a well-formed state, a run is in a well-formed state at every moment, whatever the tree
holds and whether or not it fails. The reason is that no rule makes up an id. `Sound` says of walks
and of scripts that they keep states well-formed and give ids that exist. Honest ones do. The
scripts of the rules for calls are not honest, but `Earnest` as all others.

## Key results

- `Honest.sound`, `Script.Earnest.sound`: honest walks and earnest scripts are sound
- `Script.earnest_ofRule`: the script of every rule is earnest
- `wellFormed_visitMoments`: all moments of a visit are well-formed
- `wellFormed_later`: all states of a run are well-formed, and come later than its start
-/

namespace Lineage

/-- The scope is well-formed, and routines declared ahead of their bodies exist. -/
structure Session.WellFormed (session : Session) : Prop where
  scope : session.scope.WellFormed
  hoisted : session.scope.graph.Holds (session.hoisted.map Prod.snd)

/-- All of the ids exist. -/
def Session.Knows (known : List BindingId) (session : Session) : Prop :=
  session.scope.graph.Holds known

theorem Session.wellFormed_ofSchema (schema : Schema) : (ofSchema schema).WellFormed :=
  ⟨Scope.wellFormed_ofSchema schema, Graph.holds_nil _⟩

/-- Another scope, whose graph has grown. -/
theorem Session.WellFormed.withScope {session : Session} (h : session.WellFormed) {scope : Scope}
    (hscope : scope.WellFormed) (hgrows : session.scope.graph.Grows scope.graph) :
    { session with scope }.WellFormed :=
  ⟨hscope, h.hoisted.grow hgrows⟩

namespace Walk

variable {α β ι : Type}

/-! ### Sound walks -/

/-- Where some ids are known to exist, the walk keeps the state well-formed and gives
    ids that exist. -/
structure Sound (known : List BindingId) (walk : Walk α) (given : α → List BindingId) : Prop where
  grows : ∀ session : Session, session.scope.graph.Grows (walk session).2.scope.graph
  wellFormed : ∀ session : Session, session.WellFormed → session.Knows known →
    (walk session).2.WellFormed
  gives : ∀ session : Session, session.WellFormed → session.Knows known →
    ∀ value after, walk session = (.ok value, after) → after.Knows (given value)

variable {known : List BindingId} {given : α → List BindingId}

/-- What is derived from ids that exist are ids that exist, and the state stays well-formed. -/
theorem wellFormed_of_derives {before after : Session} {ids : List BindingId}
    (h : before.Derives known ids after) (hwell : before.WellFormed) (hknown : before.Knows known) :
    after.WellFormed ∧ after.Knows ids := by
  obtain ⟨hscope, hids⟩ :=
    Scope.Derives.wellFormed h hwell.scope (Graph.Holds.append hknown hwell.hoisted)
  exact ⟨⟨hscope, hids.subset (List.subset_append_right _ _)⟩,
    hids.subset (List.subset_append_left _ _)⟩

/-- Honest walks are sound. -/
theorem Honest.sound {walk : Walk α} (h : Honest known walk given) : Sound known walk given := by
  have hderives : ∀ session : Session, ∃ ids, session.Derives known ids (walk session).2 ∧
      ∀ value, (walk session).1 = .ok value → given value = ids := by
    intro session
    rcases hrun : walk session with ⟨error | value, after⟩
    · exact ⟨[], h.leaves session error after hrun, by simp⟩
    · exact ⟨given value, h.gives session value after hrun,
        fun _ hvalue => by rw [Except.ok.inj hvalue]⟩
  refine ⟨fun session => ?_, fun session hwell hknown => ?_,
    fun session hwell hknown value after hrun => ?_⟩
  · obtain ⟨ids, hids, _⟩ := hderives session
    exact (Scope.Derives.learns hids).grows
  · obtain ⟨ids, hids, _⟩ := hderives session
    exact (wellFormed_of_derives hids hwell hknown).1
  · exact (wellFormed_of_derives (h.gives session value after hrun) hwell hknown).2

/-- A binding may be added that no name stands for. -/
theorem sound_add {binding : Binding} (hbinding : ∀ graph, binding.WellFormed graph) :
    Sound known (add binding) fun id => [id] where
  grows _ := .push binding .refl
  wellFormed session hwell _ :=
    hwell.withScope (hwell.scope.add (hbinding _)).1 (.push binding .refl)
  gives session hwell _ value after hrun := by
    cases hrun
    exact Graph.holds_singleton (hwell.scope.add (hbinding _)).2

/-! ### Sound scripts -/

namespace Script

variable {tree : Tree} (dialect : Dialect) (levels : Nat)

/-- Where some ids are known to exist, the script keeps the state well-formed at every moment and
    gives ids that exist. -/
def Sound (known : List BindingId) (script : Script tree α) (given : α → List BindingId) : Prop :=
  script.Upholds dialect levels Session.WellFormed (Session.Knows known) fun value session =>
    session.Knows (given value)

variable {dialect levels} {given : α → List BindingId}

namespace Sound

/-- Ids that exist stay. -/
theorem keeping {script : Script tree α} (h : script.Sound dialect levels known given) :
    script.Upholds dialect levels Session.WellFormed (Session.Knows known) fun value session =>
      session.Knows (given value ++ known) where
  moments := h.moments
  gives session hwell hknown value after hrun := by
    have hgrows := (script.trail (trail_visit dialect levels) session).grows
    rw [hrun] at hgrows
    exact Graph.Holds.append (h.gives session hwell hknown value after hrun)
      (Graph.Holds.grow hknown hgrows)

/-- The second script may use what the first one gives. -/
theorem bind {first : Script tree α} {next : α → Script tree β} {later : β → List BindingId}
    (hfirst : first.Sound dialect levels known given)
    (hnext : ∀ value, (next value).Sound dialect levels (given value ++ known) later) :
    (first >>= next).Sound dialect levels known later :=
  Upholds.bind hfirst.keeping hnext

theorem quiet {walk : Walk α} {hquiet : Quiet walk} (h : walk.Sound known given) :
    (Script.quiet walk hquiet : Script tree α).Sound dialect levels known given :=
  .of_step (fun _ => rfl) h.wellFormed h.gives

/-- A step that gives no ids. -/
theorem step {script : Script tree Unit}
    (hone : ∀ session, script.moments (visit dialect levels) (visitMoments dialect levels) session =
      [(script.run (visit dialect levels) session).2])
    (h : ∀ session, session.WellFormed → session.Knows known →
      (script.run (visit dialect levels) session).2.WellFormed) :
    script.Sound dialect levels known fun _ => [] :=
  .of_step hone h fun _ _ _ _ after _ => after.scope.graph.holds_nil

theorem send {id : BindingId} (hid : id ∈ known) :
    (Script.send id : Script tree Unit).Sound dialect levels known fun _ => [] :=
  step (fun _ => rfl) fun session hwell hknown =>
    hwell.withScope (hwell.scope.receiveAll (Graph.holds_singleton (hknown id hid)))
      (Scope.grows_receiveAll [id] session.scope)

theorem flush (position : Nat) :
    (Script.flush position : Script tree Unit).Sound dialect levels known fun _ => [] :=
  step (fun _ => rfl) fun _ hwell _ =>
    hwell.withScope (hwell.scope.flushElement position) (Scope.grows_flushElement _ position)

theorem closeArm : (Script.closeArm : Script tree Unit).Sound dialect levels known fun _ => [] := by
  refine step (fun _ => rfl) fun session hwell _ => ?_
  rw [run_closeArm, closeArm_eq]
  split
  · exact hwell.withScope hwell.scope.pop (Scope.grows_pop _)
  · exact hwell

theorem nextArm (queries : Nat) :
    (Script.nextArm queries : Script tree Unit).Sound dialect levels known fun _ => [] := by
  refine step (fun _ => rfl) fun session hwell _ => ?_
  have hgraph := graph_nextArm queries session
  have hscope : (Walk.nextArm queries session).2.scope.WellFormed := by
    rw [nextArm_eq]
    split
    · exact hwell.scope
    · split
      · exact hwell.scope.restartAssignment? queries
      · exact hwell.scope
  have hhoisted : (Walk.nextArm queries session).2.hoisted = session.hoisted := by
    rw [nextArm_eq]
    split
    · rfl
    · split <;> rfl
  refine ⟨hscope, ?_⟩
  rw [run_nextArm, hgraph, hhoisted]
  exact hwell.hoisted

/-- Steps on a level of their own, which starts without names and holds known ids only. -/
theorem within {frame : Frame} {body : Script tree Unit} (hids : frame.ids ⊆ known)
    (hcatalogs : ∀ catalog ∈ frame.catalogs, catalog = .empty)
    (hbody : body.Sound dialect levels known fun _ => []) :
    (Script.within frame body).Sound dialect levels known fun _ => [] := by
  refine Upholds.within (Session.Knows known) ?_ ?_ (hbody.imp (fun _ h => h) fun _ _ _ => trivial)
    fun _ _ _ _ after _ => after.scope.graph.holds_nil
  · exact fun height finish session hwell =>
      hwell.withScope (hwell.scope.unwind height finish) (Scope.grows_unwind _ height finish)
  · intro session hwell hknown
    have hframe : frame.WellFormed session.scope.graph :=
      Frame.wellFormed_of_ids (Graph.Holds.subset hknown hids) hcatalogs
    exact ⟨hwell.withScope (hwell.scope.push hframe) .refl, hknown⟩

end Sound

/-! ### The rules -/

/-- With the known ids at hand, the script sends no others, opens levels that hold no others and
    know no names, and its quiet steps are sound. -/
inductive Earnest : {α : Type} → List BindingId → Script tree α → (α → List BindingId) → Prop where
  | quiet {α : Type} {known : List BindingId} {walk : Walk α} {hquiet : Quiet walk}
      {given : α → List BindingId} :
      walk.Sound known given → Earnest known (.quiet walk hquiet) given
  | send {known : List BindingId} {id : BindingId} :
      id ∈ known → Earnest known (.send id) fun _ => []
  | flush {known : List BindingId} (position : Nat) : Earnest known (.flush position) fun _ => []
  | closeArm {known : List BindingId} : Earnest known .closeArm fun _ => []
  | nextArm {known : List BindingId} (queries : Nat) : Earnest known (.nextArm queries) fun _ => []
  | visits {known : List BindingId} (nodes : List (Node tree)) : Earnest known
      (.visits nodes) fun _ => []
  | query {known : List BindingId} (parts : List (Node tree)) : Earnest known
      (.query parts) fun _ => []
  | within {known : List BindingId} {frame : Frame} {body : Script tree Unit} :
      frame.ids ⊆ known → (∀ catalog ∈ frame.catalogs, catalog = .empty) →
      Earnest known body (fun _ => []) →
        Earnest known (.within frame body) fun _ => []
  | bind {α β : Type} {known : List BindingId} {first : Script tree α} {next : α → Script tree β}
      {given : α → List BindingId} {later : β → List BindingId} :
      Earnest known first given → (∀ value, Earnest (given value ++ known) (next value) later) →
        Earnest known (first >>= next) later

/-- Honest scripts are earnest. -/
theorem Honest.earnest {chained : Prop} {script : Script tree α}
    (h : script.Honest chained known given) : script.Earnest known given := by
  induction h with
  | quiet hwalk => exact .quiet hwalk.sound
  | send hid => exact .send hid
  | flush position => exact .flush position
  | closeArm => exact .closeArm
  | nextArm queries => exact .nextArm queries
  | visits nodes => exact .visits nodes
  | query parts => exact .query parts
  | within hids hcatalogs _ _ ih => exact .within hids hcatalogs ih
  | bind _ _ ihfirst ihnext => exact .bind ihfirst ihnext

theorem Earnest.pure {value : α} (h : given value ⊆ known) :
    (Pure.pure value : Script tree α).Earnest known given :=
  .quiet (Walk.Honest.pure h).sound

theorem Earnest.forEach {items : List ι} {steps : ι → Script tree Unit}
    (h : ∀ item ∈ items, (steps item).Earnest known fun _ => []) :
    (Script.forEach items steps).Earnest known fun _ => [] := by
  induction items with
  | nil => exact .pure (List.nil_subset _)
  | cons item rest ih =>
    exact (h item List.mem_cons_self).bind fun _ => ih fun other hother =>
      h other (List.mem_cons_of_mem _ hother)

/-- An argument becomes a member of its call. -/
theorem sound_memberOf (call : Option BindingId) {id : BindingId} (hid : id ∈ known) :
    Walk.Sound known (match call with
      | some call => changeScope (·.addChild call id)
      | none => Pure.pure ()) fun _ => [] := by
  cases call with
  | none => exact (Walk.Honest.pure (List.nil_subset _)).sound
  | some call =>
    exact ⟨fun _ => .addChild call id .refl,
      fun _ hwell hknown => hwell.withScope (hwell.scope.addChild call (hknown id hid))
        (.addChild call id .refl),
      fun _ _ _ _ after _ => after.scope.graph.holds_nil⟩

theorem earnest_argument {call : Option BindingId} (node : Node tree) (position : Nat) :
    (argument dialect call node position).Earnest known fun _ => [] := by
  have hbinding : ∀ graph, (argumentBinding dialect node position).WellFormed graph := by
    intro graph
    unfold argumentBinding
    dsimp only
    split
    · exact Binding.wellFormed_ofName graph _ .argument
    · exact (Binding.wellFormed_ofName graph _ .argument).withPosition position
  exact .bind (.quiet (sound_add hbinding)) fun id =>
    .bind (.quiet (sound_memberOf call (by simp))) fun _ =>
    .within (by simp [Frame.ids]) (by simp [Frame.catalogs]) (.visits _)

theorem earnest_callOf {routine : BindingId} (hroutine : routine ∈ known) (name : QualifiedName)
    (statement : Bool) (node : Node tree) :
    (callOf dialect routine name statement node).Earnest known fun _ => [] := by
  refine .within (by simpa [Frame.ids] using hroutine) (by simp [Frame.catalogs]) ?_
  have hrest : ∀ call : Option BindingId, (do
      Script.send (call.getD routine)
      Script.forEach (dialect.argumentsOf node).zipIdx fun item =>
        argument dialect call item.1 item.2 :
      Script tree Unit).Earnest (call.toList ++ known) fun _ => [] :=
    fun call => .bind (.send (by cases call <;> simp [hroutine])) fun _ =>
      .forEach fun item _ => earnest_argument item.1 item.2
  -- A statement adds a binding for the call, an expression none.
  cases statement with
  | true =>
    refine .bind (.bind (.quiet (sound_add fun graph => ?_)) fun id => .pure (by simp)) hrest
    exact Binding.wellFormed_ofName graph name.display .call
  | false => exact .bind (.pure (by simp)) hrest

theorem earnest_call (statement : Bool) (node : Node tree) :
    (call dialect statement node).Earnest known fun _ => [] := by
  have hname : Walk.Honest known (require (dialect.calledName? node) (.misshapen .unnamedCall))
      fun _ => [] :=
    .require fun _ _ => List.nil_subset _
  refine .bind (.quiet hname.sound) fun name =>
    .bind (.quiet (honest_resolve name).sound) fun found => ?_
  cases found with
  | some routine => exact earnest_callOf (by simp) name statement node
  | none =>
    cases statement with
    | true => exact .quiet (Walk.Honest.fail _).sound
    | false => exact .visits _

/-- The script of every rule is earnest. -/
theorem earnest_ofRule (node : Node tree) (rule : Rule) :
    (ofRule dialect node rule).Earnest known fun _ => [] := by
  by_cases hstatement : rule = .callStatement
  · subst hstatement
    exact earnest_call true node
  · by_cases hfunction : rule = .functionCall
    · subst hfunction
      exact earnest_call false node
    · exact (honest_ofRule dialect node hstatement hfunction fun _ => trivial).earnest

theorem earnest_nodeScript (node : Node tree) :
    (nodeScript dialect node).Earnest known fun _ => [] := by
  unfold nodeScript
  split
  · exact earnest_ofRule node _
  · exact .visits _

section

variable (hbelow : ∀ (node : Node tree) (session : Session), session.WellFormed →
  ∀ moment ∈ visitMoments dialect levels node session, moment.WellFormed)

include hbelow

theorem sound_visits (nodes : List (Node tree)) :
    (Script.visits nodes).Sound dialect levels known fun _ => [] := by
  refine (Upholds.visits (fun node _ session hwell _ => hbelow node session hwell) ?_).imp
    (fun _ hknown => hknown) fun _ session _ => session.scope.graph.holds_nil
  intro node _ session _ hknown after hrun
  have hgrows := (trail_visit dialect levels node session).grows
  rw [hrun] at hgrows
  exact Graph.Holds.grow hknown hgrows

/-- Earnest scripts are sound. -/
theorem Earnest.sound {script : Script tree α} (h : script.Earnest known given) :
    script.Sound dialect levels known given := by
  induction h with
  | quiet hwalk => exact .quiet hwalk
  | send hid => exact .send hid
  | flush position => exact .flush position
  | closeArm => exact .closeArm
  | nextArm queries => exact .nextArm queries
  | visits nodes => exact sound_visits hbelow nodes
  | query parts =>
    exact upholds_query (Sound.within (by simp [Frame.query, Frame.ids, QueryScope.empty])
      (by simp [Frame.query, Frame.catalogs, QueryScope.empty]) (sound_visits hbelow parts))
  | within hids hcatalogs _ ih => exact .within hids hcatalogs ih
  | bind _ _ ihfirst ihnext => exact .bind ihfirst ihnext

theorem Honest.sound {chained : Prop} {script : Script tree α}
    (h : script.Honest chained known given) : script.Sound dialect levels known given :=
  h.earnest.sound hbelow

theorem sound_argument {call : Option BindingId} (node : Node tree) (position : Nat) :
    (argument dialect call node position).Sound dialect levels known fun _ => [] :=
  (earnest_argument node position).sound hbelow

/-- The script of every rule is sound. -/
theorem sound_ofRule (node : Node tree) (rule : Rule) :
    (ofRule dialect node rule).Sound dialect levels known fun _ => [] :=
  (earnest_ofRule node rule).sound hbelow

end

end Script

/-- All moments of a visit that starts in a well-formed state are well-formed. -/
theorem wellFormed_visitMoments (dialect : Dialect) (levels : Nat) (node : Node tree)
    {session : Session} (h : session.WellFormed) :
    ∀ moment ∈ visitMoments dialect levels node session, moment.WellFormed := by
  induction levels generalizing node session with
  | zero => simp [visitMoments]
  | succ levels ih =>
    cases node with
    | absent => simp [visitMoments]
    | present index =>
      have hscript : (nodeScript dialect (.present index)).Sound dialect levels [] fun _ => [] :=
        (Script.earnest_nodeScript (.present index)).sound fun node session hwell => ih node hwell
      exact upholds_visit hscript ⟨h.scope, h.hoisted⟩ (Graph.holds_nil _)

/-- A visit leaves a well-formed state. -/
theorem wellFormed_visit (dialect : Dialect) (levels : Nat) (node : Node tree) {session : Session}
    (h : session.WellFormed) : (visit dialect levels node session).2.WellFormed := by
  rcases List.mem_cons.mp (trail_visit dialect levels node session).last_mem with hsame | hmem
  · rwa [hsame]
  · exact wellFormed_visitMoments dialect levels node h _ hmem

/-- Every state of a run is well-formed, and comes later than the start. -/
theorem wellFormed_later {dialect : Dialect} {schema : Schema} {state : Session} (root : Node tree)
    (hstate : state ∈ Session.ofSchema schema :: visitMoments dialect tree.size root
      (.ofSchema schema)) :
    state.WellFormed ∧ (Session.ofSchema schema).scope.Later state.scope := by
  rcases List.mem_cons.mp hstate with rfl | hmoment
  · exact ⟨Session.wellFormed_ofSchema schema, .refl⟩
  · have htrail := (trail_visit dialect tree.size root (.ofSchema schema)).pairwise
    exact ⟨wellFormed_visitMoments dialect tree.size root (Session.wellFormed_ofSchema schema)
      state hmoment, (List.pairwise_cons.mp htrail).1 state hmoment⟩

end Walk

end Lineage
