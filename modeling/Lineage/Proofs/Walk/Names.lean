import Lineage.Proofs.Scope.Names
import Lineage.Proofs.Walk.Discipline

/-!
# The names that a query leaves behind

What is declared inside a query goes to the level of the query, and is forgotten with it. This holds
of all parts of a query without an operator between its arms. The first such operator ends the
level, so what comes after it is visited on the levels around the query, and the names that it
declares stay there.

## Key results

- `secluded_visit`: visits do not declare names at the levels around a body or a query
- `known_query`: a query without an operator between its arms leaves all names around it
- `query_names_stay`: what becomes of the names around a query, with operators and without
-/

namespace Lineage.Walk

variable {tree : Tree} {dialect : Dialect} {levels : Nat} {α : Type}
  {before session after : Session} {nodes : List (Node tree)} {base : Nat}

/-! ### Steps that declare nothing -/

@[simp] theorem scope_claimInto (node : Node tree) (session : Session) :
    (claimInto dialect node session).2.scope = session.scope := by
  unfold claimInto
  dsimp only
  split
  · rfl
  · split <;> rfl

theorem session_existing (node : Node tree) (session : Session) :
    (existing dialect node session).2 = session := by
  unfold existing
  split
  · simp only [Bind.bind, Walk.read, Stateful.read]
    cases session.scope.resolve? (QualifiedName.parse (dialect.nameOf node)).restricted <;> rfl
  · rfl

theorem session_existings (nodes : List (Node tree)) (session : Session) :
    (nodes.mapM (existing dialect) session).2 = session := by
  induction nodes generalizing session with
  | nil => rfl
  | cons node rest ih =>
    rw [List.mapM_cons]
    refine Stateful.state_bind (· = session) (session_existing node session)
      (fun _ h => h) fun id after hafter => ?_
    exact Stateful.state_bind (· = session) ((ih after).trans hafter) (fun _ h => h) fun _ _ h => h

/-- An operator changes neither the names nor the words of the levels. -/
theorem known_nextArm (queries : Nat) (session : Session) :
    (nextArm queries session).2.scope.known = session.scope.known ∧
      (nextArm queries session).2.scope.words = session.scope.words := by
  rw [nextArm_eq]
  split
  · exact ⟨rfl, rfl⟩
  · split
    · exact ⟨session.scope.known_restartAssignment? queries,
        session.scope.words_restartAssignment? queries⟩
    · exact ⟨rfl, rfl⟩

/-- What the first operator between the arms of a query does before it visits its own arm. -/
def endArm : Walk Unit := do
  closeArm
  nextArm 0

theorem run_endArm (walk : Node tree → Walk Unit) (nodes : List (Node tree)) :
    Script.run walk (do
      Script.closeArm
      Script.nextArm 0
      Script.visits nodes) = endArm >>= fun _ => nodes.forM walk := by
  rw [endArm, bind_assoc]
  rfl

/-- Ending the first arm forgets the names of the query, and leaves the levels around it
    and their names. -/
theorem known_endArm {words : List String} (h : session.scope.words = "select" :: words) :
    (endArm session).2.scope.known = session.scope.known.drop 1 ∧
    (endArm session).2.scope.words = words := by
  obtain ⟨query, rest, hframes, hrest⟩ := exists_select_of_words h
  have hclose : closeArm session = attempt Scope.pop session := by rw [closeArm_eq, hframes]
  have hknown : (closeArm session).2.scope.known = session.scope.known.drop 1 := by
    rw [hclose]
    exact session.scope.known_pop
  have hwords : (closeArm session).2.scope.words = words := by
    rw [hclose, ← hrest]
    exact (Scope.above_pop hframes).2
  refine Stateful.state_bind (fun after : Session => after.scope.known =
    session.scope.known.drop 1 ∧
    after.scope.words = words) ⟨hknown, hwords⟩ (fun _ h => h) fun _ after hafter => ?_
  obtain ⟨hknown', hwords'⟩ := known_nextArm 0 after
  exact ⟨hknown'.trans hafter.1, hwords'.trans hafter.2⟩

/-! ### Levels around a body or a query -/

/-- The lowest `base` levels know the same names in both states. -/
def KeepsNames (base : Nat) (before after : Session) : Prop :=
  after.scope.known.rtake base = before.scope.known.rtake base

theorem KeepsNames.trans {middle : Session} (hfirst : KeepsNames base before middle)
    (hlast : KeepsNames base middle after) : KeepsNames base before after :=
  Eq.trans hlast hfirst

/-- Leaving levels above the lowest `base` ones. -/
theorem keepsNames_of_drop {count : Nat} (h : after.scope.known = before.scope.known.drop count)
    (hbase : base ≤ after.scope.frames.length) : KeepsNames base before after := by
  rw [← Scope.length_known, h] at hbase
  rw [KeepsNames, h, ← rtake_append_of_le (before.scope.known.take count) _ hbase,
    List.take_append_drop]

/-- Steps on a level of their own keep the names that the steps keep, if the levels
    around it are left. -/
theorem keepsNames_within {frame : Frame} {walk : Walk Unit}
    (hbase : base ≤ session.scope.frames.length)
    (hbody : KeepsNames base { session with scope := session.scope.push frame }
      (walk { session with scope := session.scope.push frame }).2)
    (hlength : (within frame walk session).2.scope.frames.length = session.scope.frames.length) :
    KeepsNames base session (within frame walk session).2 := by
  have hpush : KeepsNames base session { session with scope := session.scope.push frame } :=
    rtake_append_of_le [frame.catalogs] session.scope.known
      (by rw [Scope.length_known]; exact hbase)
  refine (hpush.trans hbody).trans ?_
  rw [← hlength] at hbase
  revert hbase
  simp only [within]
  rcases walk { session with scope := session.scope.push frame } with ⟨error | ⟨⟩, after⟩
  · exact fun hbase => keepsNames_of_drop (after.scope.known_dropTo _) hbase
  · exact fun hbase => keepsNames_of_drop (after.scope.known_unwind _ true) hbase

/-- Nodes visited in order keep names if each of them does. -/
theorem keepsNames_forM {walk : Node tree → Walk Unit} (words : List String)
    (hkeeps : ∀ node ∈ nodes, ∀ session : Session, session.scope.words = words →
      KeepsNames base session (walk node session).2 ∧ (walk node session).2.scope.words = words)
    (hwords : session.scope.words = words) :
    KeepsNames base session (nodes.forM walk session).2 := by
  induction nodes generalizing session with
  | nil => rfl
  | cons node rest ih =>
    refine Stateful.state_bind (fun after => KeepsNames base session after ∧
      after.scope.words = words)
      (hkeeps node List.mem_cons_self session hwords) (fun _ h => h.1) fun _ after hafter => ?_
    exact hafter.1.trans
      (ih (fun other hother => hkeeps other (List.mem_cons_of_mem _ hother)) hafter.2)

/-- What visits declare does not reach the levels around a body or a query. A node that ends the
    level of a query needs another body or query further out. -/
structure Secluded (dialect : Dialect) (tree : Tree) (levels : Nat) : Prop where
  stays : ∀ node : Node tree, dialect.closesArm node = false → ∀ (session : Session) (base : Nat),
    Scope.Covers base session.scope.words →
    KeepsNames base session (visit dialect levels node session).2
  ends : ∀ node : Node tree, dialect.closesArm node = true →
    ∀ (session : Session) (words : List String),
    session.scope.words = "select" :: words → ∀ base, Scope.Covers base words →
      KeepsNames base session (visit dialect levels node session).2

/-- A script keeps the names around a body or a query, if so do the visits and queries
    that it uses. -/
theorem keepsNames_script {allowed : Node tree → Prop} {arms : List (Node tree) → Prop}
    (hdisciplined : ∀ node, allowed node → dialect.closesArm node = false)
    (hvisits : Disciplined dialect tree levels) (hsecluded : Secluded dialect tree levels)
    (hpairwise : ∀ parts, arms parts → dialect.AtMostOneCloses parts)
    (harms : ∀ parts, arms parts → ∀ (session : Session) (base : Nat),
      Scope.Covers base session.scope.words →
      KeepsNames base session ((Script.query parts).run (visit dialect levels) session).2)
    (script : Script tree α) {listed : Bool} (huses : script.Uses allowed arms listed)
    (session : Session) (hlisted : listed = true → listing session.scope)
    (hcovered : Scope.Covers base session.scope.words) :
    KeepsNames base session (script.run (visit dialect levels) session).2 := by
  -- The discipline tells how many levels each part of the script leaves, and that they keep their
  -- words.
  have hrun : ∀ {α : Type} (script : Script tree α) {listed : Bool},
      script.Uses allowed arms listed → ∀ session : Session,
      (listed = true → listing session.scope) →
        (script.run (visit dialect levels) session).2.scope.words = session.scope.words := by
    intro α script listed huses session hlisted
    have hrun : Run dialect (Script.reach listed session.scope) session.scope.frames.length session
        (script.history (visit dialect levels) (visitHistory dialect levels) session)
        (script.run (visit dialect levels) session) :=
      run_script (fun node hnode => hvisits.stays node (hdisciplined node hnode))
        (fun parts hparts => hvisits.query (hpairwise parts hparts)) script huses session hlisted
    rw [hrun.words, rtake_eq_self (Scope.length_words _)]
  induction script generalizing listed session with
  | quiet walk h => exact Scope.known_of_learns hcovered (h.learns session)
  | send id => exact congrArg (List.rtake · base) (Scope.known_receiveAll [id] session.scope)
  | flush position => exact congrArg (List.rtake · base) (session.scope.known_flushElement position)
  | closeArm => exact huses.elim
  | nextArm queries => exact congrArg (List.rtake · base) (known_nextArm queries session).1
  | visits nodes =>
    refine keepsNames_forM session.scope.words (fun node hnode before hbefore => ?_) rfl
    have hstays := hdisciplined node (huses node hnode)
    have hwords := (hvisits.stays node hstays before).words
    rw [rtake_eq_self (Scope.length_words _), hbefore] at hwords
    exact ⟨hsecluded.stays node hstays before base (hbefore ▸ hcovered), hwords⟩
  | query parts => exact harms parts huses session base hcovered
  | within frame body ih =>
    refine keepsNames_within (by rw [← Scope.length_words]; exact Nat.le_of_lt hcovered.lt) ?_ ?_
    · exact ih huses { session with scope := session.scope.push frame } listing_push
        (hcovered.cons frame.role)
    · have hwords := hrun (Script.within frame body) huses session hlisted
      simpa using congrArg List.length hwords
  | andThen first next ihfirst ihnext =>
    have hfirst := ihfirst huses.1 session hlisted hcovered
    have hwords := hrun first huses.1 session hlisted
    refine Stateful.state_bind (fun after => KeepsNames base session after ∧
      after.scope.words = session.scope.words)
      ⟨hfirst, hwords⟩ (fun _ h => h.1) fun value after hafter => ?_
    obtain ⟨hkept, hwords⟩ := hafter
    refine hkept.trans (ihnext value (huses.2 value) after (fun h => ?_) (hwords ▸ hcovered))
    have := hlisted h
    rwa [listing, ← hwords] at this

/-- The parts of a query keep the names around a body or a query further out, also after one of them
    has ended the query's own level. -/
theorem keepsNames_parts (hvisits : Disciplined dialect tree levels)
    (hsecluded : Secluded dialect tree levels) {parts : List (Node tree)}
    (hpairwise : dialect.AtMostOneCloses parts) {words : List String}
    (hwords : session.scope.words = "select" :: words) (hcovers : Scope.Covers base words) :
    KeepsNames base session (parts.forM (visit dialect levels) session).2 := by
  induction parts generalizing session with
  | nil => rfl
  | cons node others ih =>
    obtain ⟨hfirst, hothers⟩ := List.pairwise_cons.mp hpairwise
    cases hcloses : dialect.closesArm node with
    | false =>
      have hnode := hsecluded.stays node hcloses session base (hwords ▸ hcovers.cons "select")
      have hafter := (hvisits.stays node hcloses session).words
      rw [rtake_eq_self (Scope.length_words _), hwords] at hafter
      exact Stateful.state_bind (fun after => KeepsNames base session after ∧
        after.scope.words = "select" :: words)
        ⟨hnode, hafter⟩ (fun _ h => h.1) fun _ after hafter => hafter.1.trans (ih hothers hafter.2)
    | true =>
      have hnode := hsecluded.ends node hcloses session words hwords base hcovers
      obtain ⟨query, rest, hframes, hrest⟩ := exists_select_of_words hwords
      obtain ⟨left, hleft, _, hends⟩ := hvisits.ends node hcloses session query rest hframes
      -- Whether or not the level of the query is left, the levels around it cover what they
      -- covered.
      have hcovers' : Scope.Covers base (visit dialect levels node session).2.scope.words := by
        have hlength : words.length = rest.length := by rw [← hrest, List.length_map]
        have hfits := hends.above.fits_after
        rw [hends.length (by rw [hframes]; exact hleft)] at hfits
        rw [hends.words, hwords]
        by_cases hended : left = rest.length
        · have hsplit : "select" :: words = ["select"] ++ words := rfl
          rw [hended, hsplit, rtake_append ["select"] hlength]
          exact hcovers
        · rw [rtake_eq_self (by rw [List.length_cons]; omega)]
          exact hcovers.cons "select"
      refine Stateful.state_bind (fun after => KeepsNames base session after ∧
        Scope.Covers base after.scope.words)
        ⟨hnode, hcovers'⟩ (fun _ h => h.1) fun _ after hafter => ?_
      refine hafter.1.trans
        (keepsNames_forM after.scope.words (fun other hother before hbefore => ?_) rfl)
      -- No second part ends a level, so each of the others keeps the words.
      have hstays : dialect.closesArm other = false :=
        Bool.eq_false_iff.mpr fun hother' => hfirst other hother ⟨hcloses, hother'⟩
      have hkeeps := (hvisits.stays other hstays before).words
      rw [rtake_eq_self (Scope.length_words _), hbefore] at hkeeps
      exact ⟨hsecluded.stays other hstays before base (hbefore ▸ hafter.2), hkeeps⟩

/-- A query keeps the names around a body or a query that stands around it. -/
theorem keepsNames_query (hvisits : Disciplined dialect tree levels)
    (hsecluded : Secluded dialect tree levels) {parts : List (Node tree)}
    (hpairwise : dialect.AtMostOneCloses parts)
    (hcovers : Scope.Covers base session.scope.words) :
    KeepsNames base session ((Script.query parts).run (visit dialect levels) session).2 := by
  refine keepsNames_within (by rw [← Scope.length_words]; exact Nat.le_of_lt hcovers.lt) ?_ ?_
  · exact keepsNames_parts hvisits hsecluded hpairwise rfl hcovers
  · exact (hvisits.query hpairwise session).length (Nat.le_refl _)

/-- All visits keep the names around bodies and queries, by induction on the number of
    levels below. -/
theorem secluded_visit (dialect : Dialect) [dialect.Regular] (tree : Tree) (levels : Nat) :
    Secluded dialect tree levels := by
  induction levels with
  | zero => exact ⟨fun _ _ _ _ _ => rfl, fun _ _ _ _ _ _ _ => rfl⟩
  | succ levels ih =>
    have hvisits := disciplined_visit dialect tree levels
    constructor
    · intro node hcloses session base hcovers
      cases node with
      | absent => rfl
      | present index =>
        have huses := Script.uses_nodeScript rfl hcloses (Script.arms_queryParts)
        rw [visit_present, state_located]
        exact keepsNames_script (fun below hplain => hplain.stays) hvisits ih
          (fun parts hparts => hparts.pairwise)
          (fun parts hparts session base => keepsNames_query hvisits ih hparts.pairwise) _ huses
          { session with visited := index :: session.visited } (by simp) hcovers
    · intro node hcloses session words hwords base hcovers
      cases node with
      | absent => rfl
      | present index =>
        rw [visit_present, state_located, nodeScript_of_closesArm hcloses]
        rw [run_endArm]
        have hself := holds_of_closesArm hcloses
        set noted : Session := { session with visited := index :: session.visited }
        obtain ⟨hknown, hafter⟩ : (endArm noted).2.scope.known = session.scope.known.drop 1 ∧
          (endArm noted).2.scope.words = words := known_endArm hwords
        -- Ending the arm takes its own names away and leaves those around it.
        have hend : KeepsNames base session (endArm noted).2 := by
          refine keepsNames_of_drop hknown ?_
          rw [← Scope.length_words, hafter]
          exact Nat.le_of_lt hcovers.lt
        refine Stateful.state_bind (fun after => KeepsNames base session after ∧
          after.scope.words = words) ⟨hend, hafter⟩ (fun _ h => h.1) fun _ after hafter => ?_
        refine hafter.1.trans
          (keepsNames_forM words (fun below hbelow before hbefore => ?_) hafter.2)
        have hstays := (hself.plain hbelow).stays
        have hkeeps := (hvisits.stays below hstays before).words
        rw [rtake_eq_self (Scope.length_words _), hbefore] at hkeeps
        exact ⟨ih.stays below hstays before base (hbefore ▸ hcovers), hkeeps⟩

/-! ### Queries -/

/-- The two states know the same names at all levels, if they have as many levels as
    the names kept. -/
theorem KeepsNames.known_eq (h : KeepsNames before.scope.frames.length before after)
    (hlength : after.scope.frames.length = before.scope.frames.length) :
    after.scope.known = before.scope.known := by
  rwa [KeepsNames, rtake_eq_self (Scope.length_known _),
    rtake_eq_self (by rw [Scope.length_known, hlength])] at h

/-- Nodes that do not end the level of a query leave all levels. -/
theorem words_forM (hvisits : Disciplined dialect tree levels)
    (hplain : ∀ node ∈ nodes, dialect.closesArm node = false) (session : Session) :
    (nodes.forM (visit dialect levels) session).2.scope.words = session.scope.words := by
  have hrun : Run dialect session.scope.frames.length session.scope.frames.length session
      (eventsOfAll (visit dialect levels) (visitHistory dialect levels) nodes session)
      (nodes.forM (visit dialect levels) session) := by
    refine run_forM (fun node hnode before hbefore => ?_) rfl
    rw [← hbefore]
    exact hvisits.stays node (hplain node hnode) before
  rw [hrun.words, rtake_eq_self (Scope.length_words _)]

section

variable (hvisits : Disciplined dialect tree levels) (hsecluded : Secluded dialect tree levels)

include hvisits hsecluded

/-- Parts that do not end the level of their query leave the names around it, and the level. -/
theorem keepsNames_plainParts {parts : List (Node tree)}
    (hplain : ∀ part ∈ parts, dialect.closesArm part = false) {session : Session}
    {words : List String} (hwords : session.scope.words = "select" :: words) :
    KeepsNames words.length session (parts.forM (visit dialect levels) session).2 ∧
      (parts.forM (visit dialect levels) session).2.scope.words = "select" :: words := by
  constructor
  · refine keepsNames_forM ("select" :: words) (fun part hpart before hbefore => ?_) hwords
    have hkeeps := (hvisits.stays part (hplain part hpart) before).words
    rw [rtake_eq_self (Scope.length_words _), hbefore] at hkeeps
    refine ⟨hsecluded.stays part (hplain part hpart) before _ ?_, hkeeps⟩
    rw [hbefore]
    exact Scope.covers_cons (.inr rfl) words
  · rw [words_forM hvisits hplain, hwords]

/-- A query without an operator between its arms leaves all names around it. -/
theorem known_query {parts : List (Node tree)}
    (hplain : ∀ part ∈ parts, dialect.closesArm part = false) (session : Session) :
    ((Script.query parts).run (visit dialect levels) session).2.scope.known =
      session.scope.known := by
  have hpairwise : dialect.AtMostOneCloses parts :=
    List.pairwise_of_forall_mem_list fun first hfirst _ _ hboth => by
      simp [hplain first hfirst] at hboth
  have hlength := (hvisits.query hpairwise session).length (Nat.le_refl _)
  refine KeepsNames.known_eq (keepsNames_within (Nat.le_refl _) ?_ hlength) hlength
  rw [← Scope.length_words]
  exact (keepsNames_plainParts hvisits hsecluded hplain rfl).1

end

/-- Steps on a level of their own that succeed succeed inside, and the levels that are left
    keep their names. -/
theorem exists_known_of_within {frame : Frame} {walk : Walk Unit}
    (h : within frame walk session = (.ok (), after)) :
    ∃ last, walk { session with scope := session.scope.push frame } = (.ok (), last) ∧
      after.scope.known =
        last.scope.known.drop (last.scope.words.length - session.scope.words.length) := by
  obtain ⟨last, hrun, hclosed⟩ := exists_of_within h
  refine ⟨last, hrun, ?_⟩
  have hlevels : last.scope.height - max session.scope.height 1 =
      last.scope.words.length - session.scope.words.length := by
    rw [Scope.height, Scope.height, Scope.length_words, Scope.length_words]
    omega
  have hscope : after.scope = (last.scope.unwind session.scope.height true).2 :=
    (congrArg (·.2.scope) hclosed).symm
  rw [hscope, Scope.known_unwind, hlevels]

/-- Nodes in two groups, visited one after the other. -/
theorem forM_append (walk : Node tree → Walk Unit) (front back : List (Node tree)) :
    (front ++ back).forM walk = front.forM walk >>= fun _ => back.forM walk :=
  List.forM_append

/-- What comes after the first operator between the arms of a query is visited on the levels around
    the query, which know at that time what they knew before it. -/
theorem exists_endArm [dialect.Regular] {front back : List (Node tree)} {operator : Node tree}
    (hcloses : dialect.closesArm operator = true)
    (hpairwise : dialect.AtMostOneCloses (front ++ operator :: back))
    (hrun : (Script.query (front ++ operator :: back)).run (visit dialect tree.size) session =
      (.ok (), after)) :
    ∃ middle last, middle.scope.known = session.scope.known ∧
      (operator.children ++ back).forM (visit dialect tree.size) middle = (.ok (), last) ∧
      after.scope.known = last.scope.known := by
  have hvisits := disciplined_visit dialect tree tree.size
  have hsecluded := secluded_visit dialect tree tree.size
  obtain ⟨_, hrest, hapart⟩ := List.pairwise_append.mp hpairwise
  have hfront : ∀ part ∈ front, dialect.closesArm part = false := fun part hpart =>
    Bool.eq_false_iff.mpr fun hpart' =>
      hapart part hpart operator List.mem_cons_self ⟨hpart', hcloses⟩
  -- The parts in front of the operator are visited on the query's own level.
  obtain ⟨last, hparts, hclosed⟩ := exists_known_of_within hrun
  rw [forM_append] at hparts
  obtain ⟨⟨⟩, inner, hinner, hparts⟩ := Stateful.exists_of_bind hparts
  obtain ⟨hkept, hwords⟩ := keepsNames_plainParts hvisits hsecluded hfront
    (show ({ session with scope := session.scope.push .query } : Session).scope.words =
      "select" :: session.scope.words from rfl)
  rw [hinner] at hkept hwords
  -- The operator ends this level, and visits its children like the parts that follow it.
  obtain ⟨⟨⟩, outer, houter, hback⟩ := Stateful.exists_of_bind hparts
  cases operator with
  | absent => simp [Dialect.closesArm, Dialect.binds, Node.isPresent] at hcloses
  | present index =>
    rw [visit_size, nodeScript_of_closesArm hcloses, run_endArm] at houter
    obtain ⟨⟨⟩, middle, hmiddle, hchildren⟩ := Stateful.exists_of_bind (ok_of_located houter)
    obtain ⟨hknown, hwords'⟩ := known_endArm
      (show ({ inner with visited := index :: inner.visited } : Session).scope.words =
        "select" :: session.scope.words from hwords)
    rw [hmiddle] at hknown hwords'
    have hlater : ((Node.present index).children ++ back).forM (visit dialect tree.size) middle =
        (.ok (), last) := by
      rw [forM_append]
      exact (Stateful.bind_ok hchildren).trans hback
    refine ⟨middle, last, ?_, hlater, ?_⟩
    · have hlength : inner.scope.known.length - session.scope.words.length = 1 := by
        rw [Scope.length_known, ← Scope.length_words, hwords, List.length_cons]
        omega
      rw [hknown, ← hlength]
      exact Eq.trans hkept
        (rtake_append [Frame.query.catalogs] (by rw [List.length_map, Scope.length_words]))
    · -- What comes after the operator leaves all levels, so there is nothing left to close.
      have hplain : ∀ part ∈ (Node.present index).children ++ back,
          dialect.closesArm part = false := by
        intro part hpart
        rcases List.mem_append.mp hpart with hchild | hpart
        · exact ((holds_of_closesArm hcloses).plain hchild).stays
        · exact Bool.eq_false_iff.mpr fun hpart' =>
            (List.pairwise_cons.mp hrest).1 part hpart ⟨hcloses, hpart'⟩
      have hkeeps := words_forM hvisits hplain middle
      rw [hlater, hwords'] at hkeeps
      rw [hclosed, hkeeps, Nat.sub_self, List.drop_zero]

/-- A query with targets keeps no names of its own for them, so a query leaves the names that
    its parts leave. -/
theorem exists_query (hvisits : Disciplined dialect tree levels) {node : Node tree}
    (hpairwise : dialect.AtMostOneCloses (dialect.queryParts node))
    (h : (Script.select dialect node).run (visit dialect levels) session = (.ok (), after)) :
    ∃ start last, start.scope.catalogs = session.scope.catalogs ∧
      (Script.query (dialect.queryParts node)).run (visit dialect levels) start = (.ok (), last) ∧
      after.scope.catalogs = last.scope.catalogs := by
  obtain ⟨clause, start, hclaim, hrest⟩ := Stateful.exists_of_bind h
  have hstart : start.scope = session.scope :=
    (congrArg (·.2.scope) hclaim).symm.trans (scope_claimInto node session)
  cases clause with
  | none => exact ⟨start, after, by rw [hstart], hrest, rfl⟩
  | some clause =>
    obtain ⟨targets, same, htargets, hquery⟩ := Stateful.exists_of_bind hrest
    obtain rfl : same = start := (congrArg (·.2) htargets).symm.trans (session_existings _ start)
    obtain ⟨last, hlast, hclosed⟩ := exists_known_of_within hquery
    refine ⟨_, last, ?_, hlast, ?_⟩
    · show same.scope.catalogs = session.scope.catalogs
      rw [hstart]
    · -- The level of the targets, which is left last, has no names.
      have hwords := (hvisits.query hpairwise
        { same with scope := same.scope.push (.multipleAssignment targets 0) }).words
      rw [rtake_eq_self (Scope.length_words _)] at hwords
      have hlevels : last.scope.words = "multiple-assignment" :: same.scope.words := by
        rw [← (congrArg (·.2.scope.words) hlast)]
        exact hwords
      rw [Scope.catalogs, hclosed, hlevels, List.length_cons, Nat.add_sub_cancel_left]
      exact (Scope.catalogs_of_targets hlevels).symm

/-- Visiting the node declares nothing around it: it is a query, and so is everything that comes
    after an operator between its arms, up to nodes without a rule. -/
inductive Sealed (dialect : Dialect) : Node tree → Prop where
  | query {node : Node tree} (hselect : dialect.binds node .select = true)
      (hplain : ∀ part ∈ dialect.queryParts node, dialect.closesArm part = false) :
        Sealed dialect node
  | union {node operator : Node tree} {front back : List (Node tree)}
      (hselect : dialect.binds node .select = true) (hparts : dialect.queryParts node = front ++
        operator :: back) (hcloses : dialect.closesArm operator = true)
      (hlater : ∀ part ∈ operator.children ++ back, Sealed dialect part) : Sealed dialect node
  | plain {node : Node tree} (hrule : dialect.rule? node.tag = none)
      (hchildren : ∀ child ∈ node.children, Sealed dialect child) : Sealed dialect node

theorem visit_absent (session : Session) :
    visit dialect levels (.absent : Node tree) session = (.ok (), session) := by
  cases levels <;> rfl

/-- Nodes in order leave the names around them if each of them does. -/
theorem catalogs_forM {walk : Node tree → Walk Unit}
    (hkeeps : ∀ node ∈ nodes, ∀ session after : Session, walk node session = (.ok (), after) →
      after.scope.catalogs = session.scope.catalogs)
    (h : nodes.forM walk session = (.ok (), after)) :
    after.scope.catalogs = session.scope.catalogs := by
  induction nodes generalizing session with
  | nil =>
    cases h
    rfl
  | cons node rest ih =>
    obtain ⟨⟨⟩, middle, hnode, hrest⟩ := Stateful.exists_of_bind h
    rw [ih (fun other hother => hkeeps other (List.mem_cons_of_mem _ hother)) hrest]
    exact hkeeps node List.mem_cons_self session middle hnode

section

variable [dialect.Regular] {session after : Session}
  {node : Node tree}

/-- The steps of a query that is visited. -/
theorem exists_query_of_visit (hselect : dialect.binds node .select = true)
    (h : visit dialect tree.size node session = (.ok (), after)) :
    ∃ start last, start.scope.catalogs = session.scope.catalogs ∧
      (Script.query (dialect.queryParts node)).run (visit dialect tree.size) start =
        (.ok (), last) ∧
      after.scope.catalogs = last.scope.catalogs := by
  obtain ⟨hpresent, hrule⟩ : node.isPresent = true ∧ dialect.rule? node.tag = some .select := by
    simpa [Dialect.binds] using hselect
  have harms : Arms dialect node (dialect.queryParts node) := Script.arms_queryParts
  cases node with
  | absent => cases hpresent
  | present index =>
    rw [visit_size, nodeScript, hrule] at h
    have hsteps : (Script.select dialect (.present index)).run (visit dialect tree.size)
        { session with visited := index :: session.visited } = (.ok (), after) := ok_of_located h
    have hquery := exists_query (disciplined_visit dialect tree tree.size) harms.pairwise hsteps
    exact hquery

/-- A query without an operator between its arms leaves the names around it. -/
theorem catalogs_of_plainQuery (hselect : dialect.binds node .select = true)
    (hplain : ∀ part ∈ dialect.queryParts node, dialect.closesArm part = false)
    (h : visit dialect tree.size node session = (.ok (), after)) :
    after.scope.catalogs = session.scope.catalogs := by
  obtain ⟨start, last, hstart, hrun, hlast⟩ := exists_query_of_visit hselect h
  have hknown := known_query (disciplined_visit dialect tree tree.size)
    (secluded_visit dialect tree tree.size) hplain start
  rw [hrun] at hknown
  rw [hlast, ← hstart, Scope.catalogs, hknown]
  rfl

/-- A query with an operator between its arms leaves the names that come of what it visits after
    the operator. -/
theorem exists_later {operator : Node tree} {front back : List (Node tree)}
    (hselect : dialect.binds node .select = true)
    (hparts : dialect.queryParts node = front ++ operator :: back)
    (hcloses : dialect.closesArm operator = true)
    (h : visit dialect tree.size node session = (.ok (), after)) :
    ∃ middle last, middle.scope.catalogs = session.scope.catalogs ∧
      (operator.children ++ back).forM (visit dialect tree.size) middle = (.ok (), last) ∧
      after.scope.catalogs = last.scope.catalogs := by
  obtain ⟨start, ended, hstart, hrun, hended⟩ := exists_query_of_visit hselect h
  have harms : Arms dialect node (dialect.queryParts node) := Script.arms_queryParts
  rw [hparts] at harms hrun
  obtain ⟨middle, last, hmiddle, hlater, hlast⟩ := exists_endArm hcloses harms.pairwise hrun
  refine ⟨middle, last, ?_, hlater, ?_⟩
  · rw [← hstart, Scope.catalogs, hmiddle]
    rfl
  · rw [hended, Scope.catalogs, hlast]
    rfl

/-- A sealed node leaves the names around it. -/
theorem Sealed.catalogs_visit (hsealed : Sealed dialect node)
    (h : visit dialect tree.size node session = (.ok (), after)) :
    after.scope.catalogs = session.scope.catalogs := by
  induction hsealed generalizing session after with
  | query hselect hplain => exact catalogs_of_plainQuery hselect hplain h
  | union hselect hparts hcloses _ ih =>
    obtain ⟨middle, last, hmiddle, hlater, hlast⟩ := exists_later hselect hparts hcloses h
    rw [hlast, ← hmiddle]
    exact catalogs_forM (fun part hpart session after => ih part hpart) hlater
  | @plain node hrule _ ih =>
    cases node with
    | absent =>
      rw [visit_absent] at h
      cases h
      rfl
    | present index =>
      rw [visit_size, nodeScript, hrule] at h
      -- A node without a rule does nothing but visit its children.
      have hsteps : (Node.present index).children.forM (visit dialect tree.size)
          { session with visited := index :: session.visited } = (.ok (), after) := ok_of_located h
      have hkeeps := catalogs_forM (fun child hchild _ _ => ih child hchild) hsteps
      exact hkeeps

end

/-- Of every query that is visited in a run, the names that it leaves to the bodies and queries
    around it are those that come of what it visits after the first operator between its arms, and
    they go to the innermost of these levels. A query without such an operator leaves all of them as
    they were, and so does one that visits only queries of this kind after the operator. -/
theorem query_names_stay (document : Document) (grammar : Grammar) (schema : Schema) :
    let tree := Tree.ofDocument document
    let dialect := grammar.dialect
    ∀ node before after,
      .visited node before (.ok (), after) ∈
        visitHistory dialect tree.size tree.root (.ofSchema schema) →
      dialect.binds node .select = true →
        ((∀ part ∈ dialect.queryParts node, dialect.closesArm part = false) →
          after.scope.catalogs = before.scope.catalogs) ∧
        (∀ front operator back, dialect.queryParts node = front ++ operator :: back →
          dialect.closesArm operator = true →
            ∃ middle last, middle.scope.catalogs = before.scope.catalogs ∧
              (operator.children ++ back).forM (visit dialect tree.size) middle = (.ok (), last) ∧
              after.scope.catalogs = last.scope.catalogs) ∧
        (Sealed dialect node → after.scope.catalogs = before.scope.catalogs) ∧
        ∀ base, Scope.Covers base before.scope.words →
          after.scope.known.rtake base = before.scope.known.rtake base := by
  intro tree dialect node before after hvisited hselect
  obtain ⟨_, houtcome⟩ := visited_of_mem_history (fun _ _ => Nat.le_add_left _ _) hvisited
  have hstays : dialect.closesArm node = false := by
    cases hcloses : dialect.closesArm node with
    | false => rfl
    | true => exact absurd hselect (by simp [(holds_of_closesArm hcloses).noQuery])
  refine ⟨fun hplain => catalogs_of_plainQuery hselect hplain houtcome.symm,
    fun front operator back hparts hcloses => exists_later hselect hparts hcloses houtcome.symm,
    fun hsealed => hsealed.catalogs_visit houtcome.symm, fun base hcovers => ?_⟩
  have hkeeps := (secluded_visit dialect tree tree.size).stays node hstays before base hcovers
  rwa [← houtcome] at hkeeps

/-- A loop around a query of two arms, with more clauses after its operator. -/
def unionLoop (clauses : List Document) : Document :=
  let elements : Document := .inner "selected_list" [.inner "select_list_elements" []]
  .inner "loop_statement"
    [.inner "query_block"
      (elements :: .inner "subquery_operation_part" [.inner "query_block" [elements]] :: clauses)]

/-- The state in which the loop visits its query. -/
def loopBody : Session :=
  { Session.ofSchema .empty with
    scope := (Scope.ofSchema .empty).push (.body none)
    visited := [0] }

/-- A query of two arms in a loop leaves the names of the loop. -/
theorem query_names_stay_unionLoop :
    let tree := Tree.ofDocument (unionLoop [])
    ∃ node before after,
      .visited node before (.ok (), after) ∈
        visitHistory Dialect.plsql tree.size tree.root (.ofSchema .empty) ∧
      (Dialect.plsql.queryParts node).any Dialect.plsql.closesArm = true ∧
      before.scope.words = ["lexical"] ∧ after.scope.catalogs = before.scope.catalogs := by
  intro tree
  let query : Node tree := .present ⟨1, by decide⟩
  have hvisited : .visited query loopBody (visit Dialect.plsql 7 query loopBody) ∈
      visitHistory Dialect.plsql tree.size tree.root (.ofSchema .empty) :=
    List.mem_cons_of_mem _ (List.mem_append_left _ (List.mem_append_left _ List.mem_cons_self))
  have hok : (visit Dialect.plsql 7 query loopBody).1 = .ok () := by decide +kernel
  rcases hrun : visit Dialect.plsql 7 query loopBody with ⟨error | ⟨⟩, after⟩ <;> rw [hrun]
      at hok hvisited
  · cases hok
  have hsealed : Sealed Dialect.plsql query := by
    -- The operator is the last part, and its only child is the second arm.
    have hparts : Dialect.plsql.queryParts query =
        [.absent, .absent, .present ⟨2, by decide⟩] ++ .present ⟨4, by decide⟩ :: [] := by
          decide +kernel
    have hchildren : (Node.present ⟨4, by decide⟩ : Node tree).children ++ [] =
        [.present ⟨5, by decide⟩] := by
      decide +kernel
    refine .union (by decide) hparts (by decide +kernel) fun part hpart => ?_
    rw [hchildren, List.mem_singleton] at hpart
    rw [hpart]
    exact .query (by decide) (by decide +kernel)
  have hstays :=
    query_names_stay (unionLoop []) .plsql .empty query loopBody after hvisited (by decide)
  exact ⟨query, loopBody, after, hvisited, by decide +kernel, by decide, hstays.2.2.1 hsealed⟩

/-- The same query, with its rows ordered by a name that nothing declares, leaves this
    name to the loop. -/
theorem orderedUnion_declares_in_loop :
    let tree := Tree.ofDocument (unionLoop [.inner "order_by_clause" [.segment "z"]])
    ∃ node before after,
      .visited node before (.ok (), after) ∈
        visitHistory Dialect.plsql tree.size tree.root (.ofSchema .empty) ∧
      Dialect.plsql.binds node .select = true ∧ before.scope.words = ["lexical"] ∧
      before.scope.catalogs.map Catalog.order = [[]] ∧
      after.scope.catalogs.map Catalog.order = [[⟨2⟩]] := by
  intro tree
  let query : Node tree := .present ⟨1, by decide⟩
  have hvisited : .visited query loopBody (visit Dialect.plsql 9 query loopBody) ∈
      visitHistory Dialect.plsql tree.size tree.root (.ofSchema .empty) :=
    List.mem_cons_of_mem _ (List.mem_append_left _ (List.mem_append_left _ List.mem_cons_self))
  have hok : (visit Dialect.plsql 9 query loopBody).1 = .ok () := by decide +kernel
  rw [← Prod.eta (visit Dialect.plsql 9 query loopBody), hok] at hvisited
  exact ⟨query, loopBody, _, hvisited, by decide, by decide, by decide, by decide +kernel⟩

end Lineage.Walk
