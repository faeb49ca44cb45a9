import Mathlib.Data.List.Perm.Basic
import Mathlib.Logic.Relation
import Mathlib.Order.Lattice.Nat
import Lineage.Analysis.Closure
import Lineage.Proofs.Graph.Kinds
import Lineage.Proofs.Graph.WellFormed

/-!
# Closures are exact

The search from a binding keeps what it has followed, what waits in the queue, and what it has not
seen. `Search` says how these three stand to each other and to the distances from the start: what
was found comes in the order of distance, and the queue holds bindings of two neighbouring distances
only. A step keeps this, so in the end everything that can be reached has been found.

## Key results

- `Search.step`, `Search.exists_reach`: one step of the search, and the whole search
- `closure_reach`: the search lists what can be reached, each binding once and the nearest first
- `closures_exact`: what a value flows into, what flows into it, and how the two agree
- `inflow_eq_reach_incoming`: a search along the inverted flows finds the same
-/

namespace Lineage

/-- The value of the first binding flows into the second one. -/
def Graph.Flows (graph : Graph) (source target : BindingId) : Prop :=
  target ∈ graph.outputs source

namespace Analysis

/-! ### Distances -/

/-- One binding leads to another in the given number of steps. -/
def Steps (leads : BindingId → BindingId → Prop) : Nat → BindingId → BindingId → Prop
  | 0, start, id => start = id
  | count + 1, start, id => ∃ middle, Steps leads count start middle ∧ leads middle id

/-- The number of steps on a shortest way from one binding to another. -/
noncomputable def distance (leads : BindingId → BindingId → Prop) (start id : BindingId) : Nat :=
  sInf {count | Steps leads count start id}

variable {leads : BindingId → BindingId → Prop} {start id : BindingId} {count : Nat}

theorem distance_le (h : Steps leads count start id) : distance leads start id ≤ count :=
  Nat.sInf_le h

theorem steps_distance (h : ∃ count, Steps leads count start id) :
    Steps leads (distance leads start id) start id :=
  Nat.sInf_mem (s := {count | Steps leads count start id}) h

theorem distance_self (start : BindingId) : distance leads start start = 0 :=
  Nat.le_zero.mp (distance_le rfl)

theorem transGen_of_steps (h : Steps leads (count + 1) start id) :
    Relation.TransGen leads start id := by
  induction count generalizing id with
  | zero =>
    obtain ⟨_, rfl, hlead⟩ := h
    exact .single hlead
  | succ count ih =>
    obtain ⟨middle, hsteps, hlead⟩ := h
    exact (ih hsteps).tail hlead

/-! ### Taking bindings out of those not seen -/

section

variable (ids unseen : List BindingId)

/-- What is taken and what is left make up what was there. -/
theorem perm_take : ((take ids unseen).1 ++ (take ids unseen).2).Perm unseen := by
  induction ids generalizing unseen with
  | nil => exact .refl _
  | cons id rest ih =>
    simp only [take]
    split
    · next hmem => exact ((ih (unseen.erase id)).cons id).trans (List.perm_cons_erase hmem).symm
    · exact ih unseen

theorem mem_of_mem_take (h : id ∈ (take ids unseen).1) : id ∈ ids := by
  induction ids generalizing unseen with
  | nil => exact h
  | cons first rest ih =>
    simp only [take] at h
    split at h
    · rcases List.mem_cons.mp h with rfl | hrest
      · exact List.mem_cons_self
      · exact List.mem_cons_of_mem _ (ih _ hrest)
    · exact List.mem_cons_of_mem _ (ih _ h)

end

/-- What is listed is not left. -/
theorem not_mem_left {ids unseen : List BindingId} (hnodup : unseen.Nodup) (h : id ∈ ids) :
    id ∉ (take ids unseen).2 := by
  induction ids generalizing unseen with
  | nil => exact absurd h List.not_mem_nil
  | cons first rest ih =>
    -- What is left later was there before.
    have hleft : ∀ {others}, id ∉ others → id ∉ (take rest others).2 := fun hnot hmem =>
      hnot ((perm_take rest _).mem_iff.mp (List.mem_append_right _ hmem))
    simp only [take]
    rcases List.mem_cons.mp h with rfl | hrest
    · split
      · exact hleft hnodup.not_mem_erase
      · next hnot => exact hleft hnot
    · split
      · exact ih (hnodup.erase first) hrest
      · exact ih hnodup hrest

/-! ### The search -/

/-- The second binding is one of those that follow the first one. -/
abbrev Follows (next : BindingId → List BindingId) (near far : BindingId) : Prop :=
  far ∈ next near

/-- A search from the start has followed all steps from the bindings in `followed`, those in the
    queue wait, and those in `unseen` have not been found yet. -/
structure Search (next : BindingId → List BindingId) (start : BindingId)
    (followed queue unseen : List BindingId) : Prop where
  begun : start ∈ followed ++ queue
  nodup : (followed ++ queue).Nodup
  nodup_unseen : unseen.Nodup
  apart : ∀ id ∈ unseen, id ∉ followed ++ queue
  covered : ∀ id, ∀ other ∈ next id, other ∈ unseen ∨ other ∈ followed ++ queue
  reached : ∀ id ∈ followed ++ queue, ∃ count, Steps (Follows next) count start id
  closed : ∀ id ∈ followed, ∀ other ∈ next id, other ∈ followed ++ queue
  sorted : (followed ++ queue).Pairwise fun near far =>
    distance (Follows next) start near ≤ distance (Follows next) start far
  narrow : ∀ first ∈ queue.head?, ∀ far ∈ queue,
    distance (Follows next) start far ≤ distance (Follows next) start first + 1

namespace Search

variable {next : BindingId → List BindingId} {followed queue unseen : List BindingId}
  {current : BindingId}

/-- A search begins with its start in the queue. -/
theorem initial {all : List BindingId} (hnodup : all.Nodup)
    (hinside : ∀ id, ∀ other ∈ next id, other ∈ all) :
    Search next start [] [start] (all.erase start) where
  begun := List.mem_singleton_self start
  nodup := List.nodup_singleton start
  nodup_unseen := hnodup.erase start
  apart id hid hsame := hnodup.not_mem_erase (List.mem_singleton.mp hsame ▸ hid)
  covered id other hother := by
    by_cases hsame : other = start
    · exact .inr (List.mem_singleton.mpr hsame)
    · exact .inl ((List.mem_erase_of_ne hsame).mpr (hinside id other hother))
  reached id hid := ⟨0, (List.mem_singleton.mp hid).symm⟩
  closed _ hid := absurd hid List.not_mem_nil
  sorted := List.pairwise_singleton _ _
  narrow first hfirst far hfar := by
    obtain rfl : start = first := Option.some.inj hfirst
    rw [List.mem_singleton.mp hfar]
    exact Nat.le_succ _

section

variable (h : Search next start followed (current :: queue) unseen)

include h

/-- What waits is no nearer than the first that waits. -/
theorem distance_le_of_mem (hid : id ∈ current :: queue) :
    distance (Follows next) start current ≤ distance (Follows next) start id := by
  rcases List.mem_cons.mp hid with rfl | hrest
  · exact Nat.le_refl _
  · exact (List.pairwise_cons.mp (List.pairwise_append.mp h.sorted).2.1).1 id hrest

/-- What was found is at most one step further than the first that waits. -/
theorem distance_le_succ (hid : id ∈ followed ++ current :: queue) :
    distance (Follows next) start id ≤ distance (Follows next) start current + 1 := by
  rcases List.mem_append.mp hid with hmem | hwaits
  · have hle := (List.pairwise_append.mp h.sorted).2.2 id hmem current List.mem_cons_self
    omega
  · exact h.narrow current rfl id hwaits

/-- What is nearer than the first that waits has been followed. -/
theorem mem_followed (hsteps : Steps (Follows next) count start id)
    (hlt : count < distance (Follows next) start current) : id ∈ followed := by
  induction count generalizing id with
  | zero =>
    rcases List.mem_append.mp h.begun with hmem | hwaits
    · exact hsteps ▸ hmem
    · have hle := h.distance_le_of_mem hwaits
      rw [distance_self] at hle
      omega
  | succ count ih =>
    have hnear := distance_le hsteps
    obtain ⟨middle, hbefore, hlead⟩ := hsteps
    have hmiddle : middle ∈ followed := ih hbefore (by omega)
    rcases List.mem_append.mp (h.closed middle hmiddle id hlead) with hmem | hwaits
    · exact hmem
    · have hle := h.distance_le_of_mem hwaits
      omega

/-- What is found first from the first that waits is one step further away. -/
theorem distance_of_found (hid : id ∈ next current) (hunseen : id ∈ unseen) :
    distance (Follows next) start id =
      distance (Follows next) start current + 1 := by
  have hcurrent := steps_distance (h.reached current (List.mem_append_right _ List.mem_cons_self))
  have hway : Steps (Follows next)
      (distance (Follows next) start current + 1) start id := ⟨current, hcurrent, hid⟩
  refine Nat.le_antisymm (distance_le hway) (Nat.not_lt.mp fun hlt => h.apart id hunseen ?_)
  -- On a shorter way the last binding before this one has been followed, so this one would have
  -- been seen.
  have hshort := steps_distance ⟨_, hway⟩
  generalize distance (Follows next) start id = count at hshort hlt
  cases count with
  | zero => exact hshort ▸ h.begun
  | succ count =>
    obtain ⟨middle, hbefore, hlead⟩ := hshort
    exact h.closed middle (h.mem_followed hbefore (by omega)) id hlead

/-- Following the first that waits keeps the order of the search. -/
theorem step : Search next start (followed ++ [current]) (queue ++ (take (next current) unseen).1)
    (take (next current) unseen).2 := by
  -- What is seen from the followed one moves from the unseen to the end of the queue.
  have hperm := perm_take (next current) unseen
  have hfound : ∀ id ∈ (take (next current) unseen).1, id ∈ next current ∧ id ∈ unseen :=
    fun id hid => ⟨mem_of_mem_take _ _ hid, hperm.mem_iff.mp (List.mem_append_left _ hid)⟩
  have hleft : ∀ id ∈ (take (next current) unseen).2, id ∈ unseen := fun id hid =>
    hperm.mem_iff.mp (List.mem_append_right _ hid)
  have hboth := List.nodup_append.mp (hperm.nodup_iff.mpr h.nodup_unseen)
  have hseen : followed ++ [current] ++ (queue ++ (take (next current) unseen).1) =
      followed ++ current :: queue ++ (take (next current) unseen).1 := by simp
  have hnew : ∀ id ∈ (take (next current) unseen).1, distance (Follows next) start id =
      distance (Follows next) start current + 1 := fun id hid =>
    h.distance_of_found (hfound id hid).1 (hfound id hid).2
  constructor
  case begun => rw [hseen]; exact List.mem_append_left _ h.begun
  case nodup =>
    rw [hseen, List.nodup_append]
    refine ⟨h.nodup, hboth.1, fun old hmem new hnewer hsame => ?_⟩
    exact h.apart new (hfound new hnewer).2 (hsame ▸ hmem)
  case nodup_unseen => exact hboth.2.1
  case apart =>
    intro id hid
    rw [hseen, List.mem_append, not_or]
    exact ⟨h.apart id (hleft id hid), fun hmem => hboth.2.2 id hmem id hid rfl⟩
  case covered =>
    intro id other hother
    rw [hseen, List.mem_append]
    rcases h.covered id other hother with hunseen | hmem
    · rcases List.mem_append.mp (hperm.mem_iff.mpr hunseen) with htaken | hrest
      · exact .inr (.inr htaken)
      · exact .inl hrest
    · exact .inr (.inl hmem)
  case reached =>
    intro id hid
    rw [hseen] at hid
    rcases List.mem_append.mp hid with hmem | htaken
    · exact h.reached id hmem
    · obtain ⟨count, hsteps⟩ := h.reached current (List.mem_append_right _ List.mem_cons_self)
      exact ⟨count + 1, current, hsteps, (hfound id htaken).1⟩
  -- Of the followed ones only the last is new, and all that it leads to is now in the queue.
  case closed =>
    intro id hid other hother
    rw [hseen, List.mem_append]
    rcases List.mem_append.mp hid with hmem | hcurrent
    · exact .inl (h.closed id hmem other hother)
    · obtain rfl := List.mem_singleton.mp hcurrent
      rcases h.covered id other hother with hunseen | hmem
      · rcases List.mem_append.mp (hperm.mem_iff.mpr hunseen) with htaken | hrest
        · exact .inr htaken
        · exact absurd hrest (not_mem_left h.nodup_unseen hother)
      · exact .inl hmem
  case sorted =>
    rw [hseen, List.pairwise_append]
    refine ⟨h.sorted, List.pairwise_of_forall_mem_list fun near hnear far hfar => ?_,
      fun near hnear far hfar => ?_⟩
    · rw [hnew near hnear, hnew far hfar]
    · rw [hnew far hfar]
      exact h.distance_le_succ hnear
  case narrow =>
    intro first hfirst far hfar
    have hfirst : first ∈ queue ++ (take (next current) unseen).1 := List.mem_of_mem_head? hfirst
    -- Everything in the new queue is as far away as the followed one, or one step further.
    have hbound : distance (Follows next) start current ≤
        distance (Follows next) start first := by
      rcases List.mem_append.mp hfirst with hmem | htaken
      · exact h.distance_le_of_mem (List.mem_cons_of_mem _ hmem)
      · rw [hnew first htaken]
        exact Nat.le_succ _
    rcases List.mem_append.mp hfar with hmem | htaken
    · have hle := h.distance_le_succ (List.mem_append_right _ (List.mem_cons_of_mem _ hmem))
      omega
    · rw [hnew far htaken]
      omega

end

/-- The search ends when nothing waits any more; it has then followed all it has found. -/
theorem exists_reach (h : Search next start followed queue unseen) :
    ∃ left, Search next start (followed ++ queue ++ reach next unseen queue) [] left := by
  fun_induction reach next unseen queue generalizing followed with
  | case1 unseen => exact ⟨unseen, by simpa using h⟩
  | case2 unseen current queue found =>
    rename_i ih
    obtain ⟨left, hleft⟩ := ih h.step
    exact ⟨left, by simpa using hleft⟩

end Search

/-! ### Closures -/

/-- The list holds what can be reached from a binding, itself apart: each binding once, and the
    nearest first. -/
structure Closure (leads : BindingId → BindingId → Prop) (start : BindingId)
    (found : List BindingId) : Prop where
  nodup : found.Nodup
  mem_iff : ∀ id, id ∈ found ↔ id ≠ start ∧ Relation.TransGen leads start id
  nearest : found.Pairwise fun near far => distance leads start near ≤ distance leads start far

/-- A search among all bindings that steps lead to gives a closure. -/
theorem closure_reach {next : BindingId → List BindingId} {all : List BindingId}
    (hnodup : all.Nodup) (hinside : ∀ id, ∀ other ∈ next id, other ∈ all) (start : BindingId) :
    Closure (Follows next) start (reach next (all.erase start) [start]) := by
  have hbegin : Search next start [] [start] (all.erase start) := .initial hnodup hinside
  -- The search is over when nothing waits, and its invariant then says what the closure needs.
  obtain ⟨left, hsearch⟩ := hbegin.exists_reach
  have hseen : [] ++ [start] ++ reach next (all.erase start) [start] ++ [] =
      start :: reach next (all.erase start) [start] := by simp
  have hnodup := hsearch.nodup
  have hsorted := hsearch.sorted
  have hclosed := hsearch.closed
  have hreached := hsearch.reached
  rw [hseen] at hnodup hsorted hreached
  simp only [List.nil_append, List.append_nil, List.singleton_append] at hclosed
  obtain ⟨hstart, hfound⟩ := List.nodup_cons.mp hnodup
  refine ⟨hfound, fun id => ⟨fun hid => ?_, fun hid => ?_⟩, (List.pairwise_cons.mp hsorted).2⟩
  · have hne : id ≠ start := fun hsame => hstart (hsame ▸ hid)
    obtain ⟨count, hsteps⟩ := hreached id (List.mem_cons_of_mem _ hid)
    cases count with
    | zero => exact absurd hsteps.symm hne
    | succ count => exact ⟨hne, transGen_of_steps hsteps⟩
  · obtain ⟨hne, hway⟩ := hid
    have hmem : id ∈ start :: reach next (all.erase start) [start] := by
      clear hne
      -- All that was found was also followed, so a way never leaves what was found.
      induction hway with
      | single hlead => exact hclosed start List.mem_cons_self _ hlead
      | tail _ hlead ih => exact hclosed _ ih _ hlead
    exact (List.mem_cons.mp hmem).resolve_left hne

theorem mem_sourcesOf {graph : Graph} {source target : BindingId} :
    source ∈ graph.sourcesOf target ↔ graph.Flows source target := by
  simp only [Graph.sourcesOf, Graph.Flows, List.mem_filter, List.contains_iff_mem,
    and_iff_right_iff_imp, Graph.mem_ids]
  intro hflows
  by_contra hnot
  rw [Graph.outputs, Graph.get_of_not_contains hnot] at hflows
  exact List.not_mem_nil hflows

/-- In a graph whose flows lead to bindings of the graph, the bindings that a value flows into are
    those that some flows in a row lead to, and the bindings that flow into it are those from which
    some flows in a row lead to it. Both are listed once, the nearest first, without the binding
    itself, and one binding is downstream of another if and only if that one is upstream of it. -/
theorem closures_exact (analysis : Analysis)
    (hinside : ∀ id, analysis.graph.Holds (analysis.graph.outputs id)) :
    (∀ id, Closure analysis.graph.Flows id (analysis.outflow id)) ∧
    (∀ id, Closure (Function.swap analysis.graph.Flows) id (analysis.inflow id)) ∧
    ∀ source target, source ≠ target →
      (target ∈ analysis.outflow source ↔ source ∈ analysis.inflow target) := by
  have hout : ∀ id, Closure analysis.graph.Flows id (analysis.outflow id) := fun id =>
    closure_reach analysis.graph.nodup_ids
      (fun source target htarget => Graph.mem_ids.mpr (hinside source target htarget)) id
  have hin : ∀ id, Closure (Function.swap analysis.graph.Flows) id (analysis.inflow id) := by
    intro id
    have hleads : Function.swap analysis.graph.Flows = Follows analysis.graph.sourcesOf := by
      funext target source
      exact propext mem_sourcesOf.symm
    rw [hleads]
    exact closure_reach analysis.graph.nodup_ids
      (fun _ _ hsource => (List.mem_filter.mp hsource).1) id
  refine ⟨hout, hin, fun source target hne => ?_⟩
  rw [(hout source).mem_iff, (hin target).mem_iff, Relation.transGen_swap]
  exact and_congr_left fun _ => ⟨fun _ => hne, fun _ => hne.symm⟩

/-- A binding that flows into itself and into the second of two that flow into each other. -/
def roundabout : Analysis :=
  .ofGraph ⟨#[{ Binding.blank with outputs := [⟨0⟩, ⟨1⟩] }, { Binding.blank with outputs := [⟨2⟩] },
    { Binding.blank with outputs := [⟨1⟩] }]⟩ []

/-- The flows of `roundabout` stay in its graph. What its first binding flows into holds the last
    one, but not the first one itself, and it is upstream of the last one. -/
theorem closures_exact_roundabout :
    (∀ id, roundabout.graph.Holds (roundabout.graph.outputs id)) ∧
    ⟨2⟩ ∈ roundabout.outflow ⟨0⟩ ∧ ⟨0⟩ ∉ roundabout.outflow ⟨0⟩ ∧ ⟨0⟩ ∈ roundabout.inflow ⟨2⟩ := by
  have hinside : ∀ id, roundabout.graph.Holds (roundabout.graph.outputs id) := by
    intro id
    by_cases hcontains : roundabout.graph.contains id = true
    · have hall : ∀ id ∈ roundabout.graph.ids, ∀ target ∈ roundabout.graph.outputs id,
          roundabout.graph.contains target = true := by decide
      exact hall id (Graph.mem_ids.mpr hcontains)
    · rw [Graph.outputs, Graph.get_of_not_contains hcontains]
      exact Graph.holds_nil _
  obtain ⟨hout, -, hdual⟩ := closures_exact roundabout hinside
  have hfirst : roundabout.graph.Flows ⟨0⟩ ⟨1⟩ := by
    simp [roundabout, Graph.Flows, Graph.outputs, Graph.get, ofGraph]
  have hsecond : roundabout.graph.Flows ⟨1⟩ ⟨2⟩ := by
    simp [roundabout, Graph.Flows, Graph.outputs, Graph.get, ofGraph]
  have hlast : ⟨2⟩ ∈ roundabout.outflow ⟨0⟩ :=
    ((hout ⟨0⟩).mem_iff ⟨2⟩).mpr ⟨by decide, (Relation.TransGen.single hfirst).tail hsecond⟩
  exact ⟨hinside, hlast, fun hself => (((hout ⟨0⟩).mem_iff ⟨0⟩).mp hself).1 rfl,
    (hdual ⟨0⟩ ⟨2⟩ (by decide)).mp hlast⟩

/-! ### The flows, inverted -/

section

variable (analysis : Analysis) (target : BindingId) {unseen : List BindingId}

/-- The sources of the flows into a binding, in the order of the flows. -/
def incoming : List BindingId :=
  (analysis.edges.filter (·.2 == target)).map (·.1)

theorem incoming_eq : analysis.incoming target = analysis.graph.ids.flatMap fun source =>
    List.replicate ((analysis.graph.outputs source).count target) source := by
  simp [incoming, edges, List.filter_flatMap, List.map_flatMap, List.filter_map, Function.comp_def,
    List.count_eq_length_filter]

theorem take_replicate_append_of_not_mem (h : id ∉ unseen) (count : Nat) (rest : List BindingId) :
    take (List.replicate count id ++ rest) unseen = take rest unseen := by
  induction count with
  | zero => rfl
  | succ count ih => rw [List.replicate_succ, List.cons_append, take, if_neg h, ih]

/-- A binding with several flows into another one is taken once, as among the sources. -/
theorem take_incoming (hnodup : unseen.Nodup) :
    take (analysis.incoming target) unseen = take (analysis.graph.sourcesOf target) unseen := by
  rw [incoming_eq, Graph.sourcesOf]
  induction analysis.graph.ids generalizing unseen with
  | nil => rfl
  | cons source rest ih =>
    rw [List.flatMap_cons, List.filter_cons]
    cases hcount : (analysis.graph.outputs source).count target with
    | zero =>
      rw [if_neg (by simpa [List.count_eq_zero] using hcount)]
      exact ih hnodup
    | succ count =>
      have hmem : target ∈ analysis.graph.outputs source := List.count_pos_iff.mp (by omega)
      rw [if_pos (by simpa using hmem), List.replicate_succ, List.cons_append, take, take]
      split
      · rw [take_replicate_append_of_not_mem hnodup.not_mem_erase, ih (hnodup.erase source)]
      · next hnot => rw [take_replicate_append_of_not_mem hnot, ih hnodup]

/-- Where two kinds of steps take the same, searches along them find the same. -/
theorem reach_congr {next other : BindingId → List BindingId}
    (h : ∀ id unseen, unseen.Nodup → take (next id) unseen = take (other id) unseen)
    (hnodup : unseen.Nodup) (queue : List BindingId) :
    reach next unseen queue = reach other unseen queue := by
  fun_induction reach next unseen queue with
  | case1 => rw [reach]
  | case2 unseen current queue found ih =>
    have hleft : found.2.Nodup := ((perm_take _ _).nodup_iff.mpr hnodup).of_append_right
    have hsame : found = take (other current) unseen := h current unseen hnodup
    rw [ih hleft, reach, hsame]

/-- What flows into a binding is what a search along the inverted flows finds, in the same order. -/
theorem inflow_eq_reach_incoming :
    analysis.inflow target = reach analysis.incoming (analysis.graph.ids.erase target) [target] :=
  (reach_congr (fun id _ hnodup => take_incoming analysis id hnodup)
    (analysis.graph.nodup_ids.erase target) [target]).symm

end

end Analysis

end Lineage
