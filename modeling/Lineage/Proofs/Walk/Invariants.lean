import Lineage.Proofs.Walk.Moments

/-!
# Invariants of a run

To show that something holds at every moment of a run, one shows what each kind of step keeps.
`Upholds` says that a script keeps an invariant at all its moments, given what holds when it starts
(`pre`), and tells what holds when it ends (`post`).

## Key results

- `Upholds.bind`, `Upholds.forEach`: scripts in a row
- `Upholds.within`: steps on a level of their own
- `Upholds.visits`: nodes visited in order
- `upholds_visit`: a visit keeps what the script of its node keeps
-/

namespace Lineage.Walk

variable {tree : Tree} {α β ι : Type} {dialect : Dialect} {levels : Nat} {inv pre : Session → Prop}

namespace Script

/-- Started where the invariant and `pre` hold, the script keeps the invariant at every moment, and
    if it succeeds, `post` holds of what it gives and the state it leaves. -/
structure Upholds (dialect : Dialect) (levels : Nat) (inv pre : Session → Prop)
    (script : Script tree α) (post : α → Session → Prop) : Prop where
  moments : ∀ session, inv session → pre session →
    ∀ moment ∈ script.moments (visit dialect levels) (visitMoments dialect levels) session,
      inv moment
  gives : ∀ session, inv session → pre session →
    ∀ value after, script.run (visit dialect levels) session = (.ok value, after) → post value after

namespace Upholds

variable {script : Script tree α} {post : α → Session → Prop}

/-- The invariant holds in the state that the script leaves. -/
theorem final (h : script.Upholds dialect levels inv pre post) {session : Session}
    (hinv : inv session) (hpre : pre session) :
    inv (script.run (visit dialect levels) session).2 := by
  have hlast := (script.trail (trail_visit dialect levels) session).last_mem
  rcases List.mem_cons.mp hlast with hsame | hmem
  · rwa [hsame]
  · exact h.moments session hinv hpre _ hmem

/-- A script of one step. -/
theorem of_step
    (hone : ∀ session, script.moments (visit dialect levels) (visitMoments dialect levels) session =
      [(script.run (visit dialect levels) session).2])
    (hinv : ∀ session, inv session → pre session →
      inv (script.run (visit dialect levels) session).2)
    (hpost : ∀ session, inv session → pre session → ∀ value after,
      script.run (visit dialect levels) session = (.ok value, after) → post value after) :
    script.Upholds dialect levels inv pre post where
  moments session hstart hpre moment hmoment := by
    rw [hone, List.mem_singleton] at hmoment
    rw [hmoment]
    exact hinv session hstart hpre
  gives := hpost

/-- Two scripts in a row. -/
theorem bind {first : Script tree α} {next : α → Script tree β} {mid : α → Session → Prop}
    {post : β → Session → Prop} (hfirst : first.Upholds dialect levels inv pre mid)
    (hnext : ∀ value, (next value).Upholds dialect levels inv (mid value) post) :
    (first >>= next).Upholds dialect levels inv pre post where
  moments session hinv hpre moment hmoment := by
    have hfinal := hfirst.final hinv hpre
    rcases List.mem_append.mp hmoment with hmem | hmem
    · exact hfirst.moments session hinv hpre moment hmem
    · rcases hrun : first.run (visit dialect levels) session with ⟨error | value, after⟩
      · simp [hrun, momentsAfter] at hmem
      · rw [hrun] at hmem hfinal
        exact (hnext value).moments after hfinal (hfirst.gives session hinv hpre value after hrun)
          moment hmem
  gives session hinv hpre value last hlast := by
    have hfinal := hfirst.final hinv hpre
    obtain ⟨result, after, hrun, hrest⟩ := Stateful.exists_of_bind hlast
    rw [hrun] at hfinal
    exact (hnext result).gives after hfinal (hfirst.gives session hinv hpre result after hrun)
      value last hrest

/-- More is known when the script starts, and less is asked for when it ends. -/
theorem imp {strong : Session → Prop} {weak : α → Session → Prop}
    (h : script.Upholds dialect levels inv pre post)
    (hpre : ∀ session, strong session → pre session)
    (hpost : ∀ value session, post value session → weak value session) :
    script.Upholds dialect levels inv strong weak where
  moments session hinv hstrong := h.moments session hinv (hpre session hstrong)
  gives session hinv hstrong value after hrun :=
    hpost value after (h.gives session hinv (hpre session hstrong) value after hrun)

theorem pure (value : α) (hpost : ∀ session, pre session → post value session) :
    (Pure.pure value : Script tree α).Upholds dialect levels inv pre post := by
  refine of_step (fun _ => rfl) (fun _ hinv _ => hinv) fun session _ hpre result after hrun => ?_
  have hsame : (Except.ok value, session) = ((.ok result, after) : Except Error α × Session) := hrun
  cases hsame
  exact hpost session hpre

/-- The same steps for one item after the other. -/
theorem forEach {items : List ι} {steps : ι → Script tree Unit}
    (h : ∀ item ∈ items, (steps item).Upholds dialect levels inv pre fun _ => pre) :
    (Script.forEach items steps).Upholds dialect levels inv pre fun _ => pre := by
  induction items with
  | nil => exact pure () fun _ hpre => hpre
  | cons item rest ih =>
    exact (h item List.mem_cons_self).bind fun _ => ih fun other hother =>
      h other (List.mem_cons_of_mem _ hother)

/-- A node visited before others. -/
theorem visits_cons {node : Node tree} {rest : List (Node tree)} {mid : Session → Prop}
    {post : Unit → Session → Prop}
    (hmoments : ∀ session, inv session → pre session →
      ∀ moment ∈ visitMoments dialect levels node session, inv moment)
    (hgives : ∀ session, inv session → pre session →
      ∀ after, visit dialect levels node session = (.ok (), after) → mid after)
    (hrest : (Script.visits rest).Upholds dialect levels inv mid post) :
    (Script.visits (node :: rest)).Upholds dialect levels inv pre post := by
  -- The state after a visit is one of its moments, or the state before it.
  have hfinal : ∀ session, inv session → pre session →
      inv (visit dialect levels node session).2 := by
    intro session hinv hpre
    rcases List.mem_cons.mp (trail_visit dialect levels node session).last_mem with hsame | hmem
    · rwa [hsame]
    · exact hmoments session hinv hpre _ hmem
  constructor
  · intro session hinv hpre moment hmoment
    rcases List.mem_append.mp hmoment with hmem | hmem
    · exact hmoments session hinv hpre moment hmem
    · have hafter := hfinal session hinv hpre
      rcases hrun : visit dialect levels node session with ⟨error | ⟨⟩, after⟩
      · simp [hrun, momentsAfter] at hmem
      · rw [hrun] at hmem hafter
        exact hrest.moments after hafter (hgives session hinv hpre after hrun) moment hmem
  · intro session hinv hpre value last hlast
    have hafter := hfinal session hinv hpre
    obtain ⟨⟨⟩, after, hrun, hothers⟩ := Stateful.exists_of_bind hlast
    rw [hrun] at hafter
    exact hrest.gives after hafter (hgives session hinv hpre after hrun) value last hothers

/-- Nodes visited in order. -/
theorem visits {nodes : List (Node tree)}
    (hmoments : ∀ node ∈ nodes, ∀ session, inv session → pre session →
      ∀ moment ∈ visitMoments dialect levels node session, inv moment)
    (hkeeps : ∀ node ∈ nodes, ∀ session, inv session → pre session →
      ∀ after, visit dialect levels node session = (.ok (), after) → pre after) :
    (Script.visits nodes).Upholds dialect levels inv pre fun _ => pre := by
  induction nodes with
  | nil =>
    refine ⟨fun _ _ _ moment hmoment => ?_, fun session _ hpre value after hrun => ?_⟩
    · simp [Script.moments, momentsOfAll] at hmoment
    · have hsame : (Except.ok (), session) = ((.ok value, after) : Except Error Unit × Session) :=
        hrun
      cases hsame
      exact hpre
  | cons node rest ih =>
    exact visits_cons (hmoments node List.mem_cons_self) (hkeeps node List.mem_cons_self)
      (ih (fun other hother => hmoments other (List.mem_cons_of_mem _ hother))
        fun other hother => hkeeps other (List.mem_cons_of_mem _ hother))

/-- Steps on a level of their own, if closing and leaving levels keeps the invariant. -/
theorem within {frame : Frame} {body : Script tree Unit} (inside : Session → Prop)
    {post : Unit → Session → Prop}
    (hclose : ∀ height finish session, inv session →
      inv { session with scope := (session.scope.unwind height finish).2 })
    (hpush : ∀ session, inv session → pre session →
      inv { session with scope := session.scope.push frame } ∧
        inside { session with scope := session.scope.push frame })
    (hbody : body.Upholds dialect levels inv inside fun _ _ => True)
    (hpost : ∀ session, inv session → pre session → ∀ value after,
      (Script.within frame body).run (visit dialect levels) session = (.ok value, after) →
      post value after) :
    (Script.within frame body).Upholds dialect levels inv pre post where
  moments session hinv hpre moment hmoment := by
    obtain ⟨hopen, hinside⟩ := hpush session hinv hpre
    have hfinal := hbody.final hopen hinside
    rcases List.mem_append.mp hmoment with hmem | hmem
    · rcases List.mem_cons.mp hmem with rfl | hbelow
      · exact hopen
      · exact hbody.moments _ hopen hinside moment hbelow
    · -- The last moment is the one after the level, closed or dropped as the body succeeded or not.
      rw [List.mem_singleton.mp hmem]
      simp only [Walk.within]
      rcases hrun : body.run (visit dialect levels)
          { session with scope := session.scope.push frame } with
        ⟨error | ⟨⟩, after⟩ <;> rw [hrun] at hfinal
      · exact hclose session.scope.height false after hfinal
      · exact hclose session.scope.height true after hfinal
  gives := hpost

end Upholds

/-- The parts of a query are visited on a level of their own. -/
theorem upholds_query {parts : List (Node tree)} {post : Unit → Session → Prop}
    (h : (Script.within .query (.visits parts)).Upholds dialect levels inv pre post) :
    (Script.query parts).Upholds dialect levels inv pre post :=
  ⟨h.moments, h.gives⟩

end Script

/-- A visit keeps an invariant if noting the node and the steps of its script do. -/
theorem upholds_visit {index : Fin tree.size} {post : Unit → Session → Prop} {session : Session}
    (h : (nodeScript dialect (.present index)).Upholds dialect levels inv pre post)
    (hinv : inv { session with visited := index :: session.visited })
    (hpre : pre { session with visited := index :: session.visited }) :
    ∀ moment ∈ visitMoments dialect (levels + 1) (.present index) session, inv moment := by
  intro moment hmoment
  rcases List.mem_cons.mp hmoment with rfl | hmem
  · exact hinv
  · exact h.moments _ hinv hpre moment hmem

end Lineage.Walk
