import Lineage.Proofs.Graph.Extension
import Lineage.Proofs.Scope.Privacy
import Lineage.Proofs.Walk.Discipline
import Lineage.Proofs.Walk.WellFormed

/-!
# Runs keep arguments to themselves

A run that succeeds leaves the arguments alone that it finds, except that those whose levels are
open may get members. The arguments that are made in it have come to their targets when it ends.
`Settles` says this of two states. Honest scripts settle if the visits of their nodes do: they make
no arguments themselves, and the levels that they close are not those of arguments.

## Key results

- `Settles.trans`: arguments that have come to their targets stay there
- `Settles.within`: a level other than that of an argument is opened and closed
- `settles_forM`, `settles_bind`, `settles_query`, `settles_within`: the ways to build scripts
- `Script.Honest.settles`: honest scripts
-/

namespace Lineage

namespace Graph

/-- What flows out of a binding still does so later. -/
theorem Grows.mem_outputs {before after : Graph} (h : before.Grows after) {id target : BindingId}
    (htarget : target ∈ before.outputs id) : target ∈ after.outputs id := by
  by_cases hid : before.contains id = true
  · exact ((extends_of_grows h).binding id hid).outputs.subset htarget
  · rw [outputs, get_of_not_contains hid] at htarget
    cases htarget

/-- The argument flows into the target and nowhere else, and each of its members
    flows there, too. -/
structure Binds (graph : Graph) (argument target : BindingId) : Prop where
  outputs : graph.outputs argument = [target]
  children : ∀ child ∈ graph.children argument, target ∈ graph.outputs child

/-- A bound argument stays bound if it gets no more outputs and no more members. -/
theorem Binds.grow {before after : Graph} {argument target : BindingId}
    (h : before.Binds argument target) (hgrows : before.Grows after)
    (houtputs : after.outputs argument = before.outputs argument)
    (hchildren : after.children argument = before.children argument) :
    after.Binds argument target where
  outputs := houtputs.trans h.outputs
  children child hchild := hgrows.mem_outputs (h.children child (hchildren ▸ hchild))

end Graph

/-- Open arguments exist. -/
theorem Scope.Discreet.contains_of_held {chained : Prop} {scope : Scope}
    (h : scope.Discreet chained) {id : BindingId} (hid : id ∈ scope.held) :
    scope.graph.contains id = true := by
  obtain ⟨frame, hframe, hheld⟩ := List.mem_filterMap.mp hid
  have hguards := (h.frames frame hframe).guards
  cases frame with
  | wrapper binding structural =>
    cases structural with
    | true => exact Option.some.inj hheld ▸ hguards.1
    | false => cases hheld
  | _ => cases hheld

/-- The scope is discreet, and routines declared ahead of their bodies are public. -/
structure Session.Discreet (chained : Prop) (session : Session) : Prop where
  scope : session.scope.Discreet chained
  kept : ∀ id ∈ session.kept, session.scope.graph.Public id

theorem Session.discreet_ofSchema {chained : Prop} (schema : Schema) :
    (ofSchema schema).Discreet chained :=
  ⟨Scope.discreet_ofSchema schema, fun _ hid => nomatch hid⟩

namespace Walk

variable {chained : Prop} {made : BindingId → BindingId → Prop}

/-- The second state comes from the first one by steps that leave its arguments alone, the members
    of open ones apart. As many arguments are open as before, and those that are new were made for
    their targets and are bound to them. -/
structure Settles (chained : Prop) (made : BindingId → BindingId → Prop) (before after : Session) :
    Prop where
  discreet : after.Discreet chained
  held : after.scope.held = before.scope.held
  grows : before.scope.graph.Grows after.scope.graph
  spares : Graph.Spares before.scope.held before.scope.graph after.scope.graph
  passed : ∀ argument, after.scope.graph.kind argument = .argument →
    before.scope.graph.contains argument = false →
    ∃ target, made argument target ∧ after.scope.graph.Binds argument target

namespace Settles

variable {before middle after : Session}

/-- Calm steps make no arguments. -/
theorem of_calm (hcalm : before.scope.Calm chained after.scope)
    (hkept : ∀ id ∈ after.kept, after.scope.graph.Public id) :
    Settles chained made before after where
  discreet := ⟨hcalm.discreet, hkept⟩
  held := hcalm.held
  grows := hcalm.graph.grows
  spares := hcalm.graph.spares
  passed argument hkind hnew := by
    have hold := hcalm.graph.contains (by rw [hkind]; rfl)
    rw [hold] at hnew
    cases hnew

/-- A calm step on the scope. -/
theorem of_scope (h : before.Discreet chained) {scope : Scope}
    (hcalm : before.scope.Calm chained scope) : Settles chained made before { before with scope } :=
  .of_calm hcalm fun id hid => (h.kept id hid).grow hcalm.graph.grows

theorem refl (h : before.Discreet chained) : Settles chained made before before :=
  .of_scope h (.refl h.scope)

/-- The arguments were made for their targets in some other way, too. -/
theorem imp {other : BindingId → BindingId → Prop} (h : Settles chained made before after)
    (hmade : ∀ argument target, before.scope.graph.contains argument = false →
      after.scope.graph.contains argument = true → made argument target → other argument target) :
    Settles chained other before after where
  discreet := h.discreet
  held := h.held
  grows := h.grows
  spares := h.spares
  passed argument hkind hnew := by
    obtain ⟨target, htarget, hbinds⟩ := h.passed argument hkind hnew
    exact ⟨target, hmade argument target hnew (Graph.contains_of_argument hkind) htarget, hbinds⟩

/-- What the first steps have settled is left alone by the later ones: the arguments that they made
    are not open. -/
theorem trans (hdiscreet : before.Discreet chained) (hfirst : Settles chained made before middle)
    (hlast : Settles chained made middle after) : Settles chained made before after where
  discreet := hlast.discreet
  held := hlast.held.trans hfirst.held
  grows := hfirst.grows.trans hlast.grows
  spares := hfirst.spares.trans hfirst.grows (hfirst.held ▸ hlast.spares)
  passed argument hkind hnew := by
    by_cases hmiddle : middle.scope.graph.contains argument = true
    · have hkind' : middle.scope.graph.kind argument = .argument :=
        (hlast.grows.kind hmiddle).symm.trans hkind
      obtain ⟨target, htarget, hbinds⟩ := hfirst.passed argument hkind' hnew
      have hclosed : argument ∉ middle.scope.held := by
        rw [hfirst.held]
        intro hheld
        rw [hdiscreet.scope.contains_of_held hheld] at hnew
        cases hnew
      exact ⟨target, htarget, hbinds.grow hlast.grows (hlast.spares.outputs argument hkind')
        (hlast.spares.children argument hkind' hclosed)⟩
    · exact hlast.passed argument hkind (Bool.eq_false_iff.mpr hmiddle)

end Settles

/-! ### Levels -/

section

variable {tree : Tree} {dialect : Dialect} {levels : Nat} {session after : Session}

/-- A level other than that of an argument is opened and closed. -/
theorem Settles.within {frame : Frame} {walk : Walk Unit} {events : List (Event tree)} {left : Nat}
    (hdiscreet : session.Discreet chained) (hframe : frame.Discreet chained session.scope.graph)
    (hheld : frame.held? = none) (hleft : left ≤ session.scope.frames.length + 1)
    (hlevels : Run dialect session.scope.frames.length left
      { session with scope := session.scope.push frame } events
      (walk { session with scope := session.scope.push frame }))
    (hbody : ∀ last,
      ({ session with scope := session.scope.push frame } : Session).Discreet chained →
      walk { session with scope := session.scope.push frame } = (.ok (), last) →
        Settles chained made { session with scope := session.scope.push frame } last)
    (hrun : Walk.within frame walk session = (.ok (), after)) :
    Settles chained made session after := by
  obtain ⟨last, hinner, hclose⟩ := exists_of_within hrun
  have hopen : Settles chained made session { session with scope := session.scope.push frame } :=
    .of_scope hdiscreet (hdiscreet.scope.push hframe hheld)
  have hsteps := hopen.trans hdiscreet (hbody last hopen.discreet hinner)
  rw [hinner] at hlevels
  have hlength : last.scope.frames.length = left :=
    hlevels.length (by simpa [Scope.push] using hleft)
  have hfits : session.scope.frames.length ≤ last.scope.frames.length := hlevels.above.fits_after
  obtain ⟨scope, hunwind, rfl⟩ := exists_of_attempt hclose
  have hmax : max session.scope.height 1 = session.scope.frames.length + 1 := by
    simp only [Scope.height]
    omega
  simp only [Scope.unwind, if_true, hmax] at hunwind
  rcases popAll_cases hfits (by omega) with ⟨_, hcount⟩ | ⟨top, rest, hframes, hrest, hcount⟩
  · rw [hcount] at hunwind
    cases hunwind
    exact hsteps
  · rw [hcount, popAll_one] at hunwind
    -- As many arguments are open as before the level was opened, so its frame is not that of an
    -- argument.
    have htop : top.held? = none := hlevels.above.held?_eq_none hsteps.held hframes hrest
    exact hsteps.trans hdiscreet
      (.of_scope hsteps.discreet (hsteps.discreet.scope.pop hframes htop hunwind))

theorem settles_nextArm {queries : Nat} (h : session.Discreet chained)
    (hrun : nextArm queries session = (.ok (), after)) : Settles chained made session after := by
  rw [nextArm_eq] at hrun
  split at hrun
  · cases hrun
    exact .refl h
  · split at hrun
    · cases hrun
      exact .of_scope h (h.scope.restartAssignment? queries)
    · cases hrun

theorem settles_closeArm (h : session.Discreet chained)
    (hrun : closeArm session = (.ok (), after)) : Settles chained made session after := by
  rw [closeArm_eq] at hrun
  split at hrun
  · next hframes =>
    obtain ⟨scope, hpop, rfl⟩ := exists_of_attempt hrun
    exact .of_scope h (h.scope.pop hframes rfl hpop)
  · cases hrun

end

/-! ### Scripts -/

section

variable {tree : Tree} {dialect : Dialect} {levels : Nat} {made : List (Event tree) → BindingId →
  BindingId → Prop}

/-- A visit of the node that succeeds settles the arguments that are made in it. -/
def Settling (dialect : Dialect) (levels : Nat) (chained : Prop)
    (made : List (Event tree) → BindingId → BindingId → Prop) (node : Node tree) : Prop :=
  ∀ session after, session.WellFormed → session.Discreet chained →
    visit dialect levels node session = (.ok (), after) →
    Settles chained (made (visitHistory dialect levels node session)) session after

/-- If the script succeeds when it starts in the given state, then it settles the arguments that are
    made in its run. -/
def Script.SettlesFrom {α : Type} (dialect : Dialect) (levels : Nat) (chained : Prop)
    (made : List (Event tree) → BindingId → BindingId → Prop) (script : Script tree α)
    (session : Session) : Prop :=
  ∀ value after, script.run (visit dialect levels) session = (.ok value, after) →
    Settles chained
      (made (script.history (visit dialect levels) (visitHistory dialect levels) session))
      session after

variable (hmono : ∀ few more : List (Event tree), few ⊆ more →
  ∀ argument target, made few argument target → made more argument target)
  {session after : Session} {α : Type} {node : Node tree}

include hmono

/-- Nodes visited in order. -/
theorem settles_forM {nodes : List (Node tree)}
    (hbelow : ∀ node ∈ nodes, Settling dialect levels chained made node)
    (hwell : session.WellFormed) (hdiscreet : session.Discreet chained)
    (hrun : nodes.forM (visit dialect levels) session = (.ok (), after)) :
    Settles chained
      (made (eventsOfAll (visit dialect levels) (visitHistory dialect levels) nodes session))
      session after := by
  induction nodes generalizing session with
  | nil =>
    cases hrun
    exact .refl hdiscreet
  | cons node rest ih =>
    obtain ⟨hnode, hrest⟩ := List.forall_mem_cons.mp hbelow
    obtain ⟨⟨⟩, middle, hfirst, hothers⟩ := Stateful.exists_of_bind hrun
    have hwell' := wellFormed_visit dialect levels node hwell
    rw [hfirst] at hwell'
    have hsettled := hnode session middle hwell hdiscreet hfirst
    simp only [eventsOfAll, hfirst, eventsAfter]
    refine .trans hdiscreet (hsettled.imp fun argument target _ _ =>
      hmono _ _ (List.subset_append_left _ _) argument target) ?_
    exact (ih hrest hwell' hsettled.discreet hothers).imp fun argument target _ _ =>
      hmono _ _ (List.subset_append_right _ _) argument target

/-- One script after the other. -/
theorem settles_bind {β : Type} {first : Script tree α} {next : α → Script tree β} {result : α}
    {middle : Session} (hdiscreet : session.Discreet chained)
    (hrun : first.run (visit dialect levels) session = (.ok result, middle))
    (hfirst : Settles chained
      (made (first.history (visit dialect levels) (visitHistory dialect levels) session))
      session middle)
    (hnext : Settles chained
      (made ((next result).history (visit dialect levels) (visitHistory dialect levels) middle))
      middle after) :
    Settles chained
      (made ((first >>= next).history (visit dialect levels) (visitHistory dialect levels) session))
      session after := by
  rw [Script.history_bind, hrun]
  refine .trans hdiscreet (hfirst.imp fun argument target _ _ => ?_)
    (hnext.imp fun argument target _ _ => ?_)
  · exact hmono _ _ (List.subset_append_left _ _) argument target
  · exact hmono _ _ (List.subset_append_right _ _) argument target

/-- The parts of a query, on a level that the operator between its arms may close. -/
theorem settles_query {parts : List (Node tree)} (hdisciplined : Disciplined dialect tree levels)
    (harms : Arms dialect node parts)
    (hparts : ∀ part ∈ parts, Settling dialect levels chained made part)
    (hwell : session.WellFormed) (hdiscreet : session.Discreet chained) :
    (Script.query parts).SettlesFrom dialect levels chained made session := by
  intro _ after hrun
  obtain ⟨left, hleft, hlevels⟩ := hdisciplined.parts harms.pairwise session
  have hids : Frame.query.ids = [] := rfl
  have hcatalogs : ∀ catalog ∈ Frame.query.catalogs, catalog = .empty := by
    simp [Frame.query, Frame.catalogs, QueryScope.empty]
  have hframe : Frame.query.Discreet chained session.scope.graph :=
    Frame.discreet_of_ordinary (by simp [hids]) hcatalogs trivial
  have hinside : ({ session with scope := session.scope.push .query } : Session).WellFormed :=
    hwell.withScope
      (hwell.scope.push (Frame.wellFormed_of_ids (hids ▸ Graph.holds_nil _) hcatalogs)) .refl
  refine Settles.within hdiscreet hframe rfl hleft hlevels (fun last hopen hlast => ?_) hrun
  exact (settles_forM hmono hparts hinside hopen hlast).imp fun argument target _ _ =>
    hmono _ _ (List.subset_append_left _ _) argument target

/-- A script on an ordinary level that knows public ids alone. -/
theorem settles_within {frame : Frame} {body : Script tree Unit}
    (hdisciplined : Disciplined dialect tree levels)
    (huses : body.Uses (Plain dialect node) (Arms dialect node) (isSelectList frame))
    (hwell : session.WellFormed) (hdiscreet : session.Discreet chained)
    (hids : ∀ id ∈ frame.ids, session.scope.graph.Public id)
    (hcatalogs : ∀ catalog ∈ frame.catalogs, catalog = .empty) (hordinary : frame.Ordinary chained)
    (hbody : ({ session with scope := session.scope.push frame } : Session).WellFormed →
      ({ session with scope := session.scope.push frame } : Session).Discreet chained →
      body.SettlesFrom dialect levels chained made
        { session with scope := session.scope.push frame }) :
    (Script.within frame body).SettlesFrom dialect levels chained made session := by
  intro _ after hrun
  have hframe : frame.Discreet chained session.scope.graph :=
    Frame.discreet_of_ordinary hids hcatalogs hordinary
  have hholds : session.scope.graph.Holds frame.ids := fun id hid => (hids id hid).contains
  have hinside : ({ session with scope := session.scope.push frame } : Session).WellFormed :=
    hwell.withScope (hwell.scope.push (Frame.wellFormed_of_ids hholds hcatalogs)) .refl
  -- Elements reopen the level of their list; the levels around it are touched through offers alone.
  have hreach : session.scope.frames.length ≤
      Script.reach (isSelectList frame) (session.scope.push frame) := by
    cases isSelectList frame <;> simp [Script.reach, Scope.push]
  have hlevels :=
    (hdisciplined.script huses { session with scope := session.scope.push frame } listing_push).mono
      hreach
  refine Settles.within hdiscreet hframe (Frame.held?_of_ordinary hordinary) (Nat.le_refl _) hlevels
    (fun last hopen hlast => ?_) hrun
  exact (hbody hinside hopen () last hlast).imp fun argument target _ _ =>
    hmono _ _ (List.subset_append_left _ _) argument target

omit hmono in
/-- What an honest script leaves for the one after it: a well-formed state and the same levels. -/
theorem Script.Honest.leaves {known : List BindingId} {script : Script tree α}
    {given : α → List BindingId} (h : script.Honest chained known given)
    (hdisciplined : Disciplined dialect tree levels) {listed : Bool}
    (huses : script.Uses (Plain dialect node) (Arms dialect node) listed) {value : α}
    (hwell : session.WellFormed) (hknown : session.scope.graph.Holds known)
    (hlisted : listed = true → listing session.scope)
    (hrun : script.run (visit dialect levels) session = (.ok value, after)) :
    after.WellFormed ∧ (listed = true → listing after.scope) := by
  have hafter := (Script.Honest.sound
    (fun below _ hbelow => wellFormed_visitMoments dialect levels below hbelow) h).final
    hwell hknown
  have hwords := (hdisciplined.script huses session hlisted).words
  rw [hrun] at hafter hwords
  rw [rtake_eq_self (Scope.length_words _)] at hwords
  refine ⟨hafter, fun hlist => ?_⟩
  have hlisting := hlisted hlist
  rwa [listing, ← hwords] at hlisting

/-- Honest scripts settle, and the ids that they give are public. -/
theorem Script.Honest.settles {known : List BindingId} {script : Script tree α}
    {given : α → List BindingId} (h : script.Honest chained known given)
    (hdisciplined : Disciplined dialect tree levels)
    (hplain : ∀ below, Plain dialect node below → Settling dialect levels chained made below)
    (harms : ∀ parts, Arms dialect node parts →
      ∀ part ∈ parts, Settling dialect levels chained made part) :
    ∀ {listed : Bool}, script.Uses (Plain dialect node) (Arms dialect node) listed →
      ∀ {session after : Session} {value : α},
      session.WellFormed → session.Discreet chained →
      (∀ id ∈ known, session.scope.graph.Public id) →
      (listed = true → listing session.scope) →
        script.run (visit dialect levels) session = (.ok value, after) →
        Settles chained
          (made (script.history (visit dialect levels) (visitHistory dialect levels) session))
          session after ∧
        ∀ id ∈ given value, after.scope.graph.Public id := by
  -- By induction on how the script is built from honest steps; what becomes of the levels is known
  -- already.
  induction h with
  | quiet hwalk =>
    intro listed _ session after value hwell hdiscreet hknown _ hrun
    have hderives := hwalk.gives session value after hrun
    obtain ⟨hcalm, hpublic⟩ := Scope.Derives.calm hderives hwell.scope hdiscreet.scope
      (List.forall_mem_append.mpr ⟨hknown, hdiscreet.kept⟩)
    obtain ⟨hgiven, hkept⟩ := List.forall_mem_append.mp hpublic
    exact ⟨.of_calm hcalm hkept, hgiven⟩
  | send hid =>
    intro listed _ session after value _ hdiscreet hknown _ hrun
    rw [run_send] at hrun
    obtain ⟨scope, hsent, rfl⟩ := exists_of_attempt hrun
    have hsendable := (hknown _ hid).sendable
    exact ⟨.of_scope hdiscreet (hdiscreet.scope.receiveAll (by simpa using hsendable) hsent),
      fun _ hmem => nomatch hmem⟩
  | flush position =>
    intro listed _ session after value _ hdiscreet _ _ hrun
    obtain ⟨scope, hflush, rfl⟩ := exists_of_attempt hrun
    exact ⟨.of_scope hdiscreet (hdiscreet.scope.flushElement hflush), fun _ hmem => nomatch hmem⟩
  | closeArm => exact fun huses => huses.elim
  | nextArm queries =>
    intro listed _ session after value _ hdiscreet _ _ hrun
    exact ⟨settles_nextArm hdiscreet hrun, fun _ hmem => nomatch hmem⟩
  | visits nodes =>
    intro listed huses session after value hwell hdiscreet _ _ hrun
    exact ⟨settles_forM hmono (fun below hbelow => hplain below (huses below hbelow)) hwell
      hdiscreet hrun, fun _ hmem => nomatch hmem⟩
  | query parts =>
    intro listed huses session after value hwell hdiscreet _ _ hrun
    exact ⟨settles_query hmono hdisciplined huses (harms parts huses) hwell hdiscreet () after hrun,
      fun _ hmem => nomatch hmem⟩
  | @within known frame body hids hcatalogs hordinary _ ih =>
    intro listed huses session after value hwell hdiscreet hknown _ hrun
    refine ⟨settles_within hmono hdisciplined huses hwell hdiscreet
      (fun id hid => hknown id (hids hid)) hcatalogs hordinary
      (fun hinside hopen _ last hlast => ?_) () after hrun, fun _ hmem => nomatch hmem⟩
    exact (ih huses hinside hopen hknown listing_push hlast).1
  | @bind α β known first next given later hfirst _ ihfirst ihnext =>
    intro listed huses session after value hwell hdiscreet hknown hlisted hrun
    obtain ⟨result, middle, hmiddle, hrest⟩ := Stateful.exists_of_bind hrun
    obtain ⟨hsettled, hgiven⟩ := ihfirst huses.1 hwell hdiscreet hknown hlisted hmiddle
    obtain ⟨hwell', hlisted'⟩ := hfirst.leaves hdisciplined huses.1 hwell
      (fun id hid => (hknown id hid).contains) hlisted hmiddle
    have hpublic : ∀ id ∈ given result ++ known, middle.scope.graph.Public id :=
      List.forall_mem_append.mpr ⟨hgiven, fun id hid => (hknown id hid).grow hsettled.grows⟩
    obtain ⟨hlater, hvalue⟩ :=
      ihnext result (huses.2 result) hwell' hsettled.discreet hpublic hlisted' hrest
    exact ⟨settles_bind hmono hdiscreet hmiddle hsettled hlater, hvalue⟩

end

end Walk

end Lineage
