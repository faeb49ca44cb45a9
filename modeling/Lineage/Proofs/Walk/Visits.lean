import Mathlib.Data.List.Nodup
import Lineage.Proofs.Walk.Discipline
import Lineage.Proofs.Walk.Regions

/-!
# Every node is visited once

The steps of a node work in parts of the tree that do not meet. So what happens while a node is
visited is one stretch of the history: all nodes visited in it lie below the node, and no node of
the subtree is visited before or after it.

## Key results

- `visitHistory_eq_visitHistory`: with enough levels to go down, their number does not matter for
  the history
- `Once.append`: events in two regions that do not meet
- `Script.once`, `once_visit`: the run of a script, and a visit, meet no part of the tree twice
- `nodes_visited_once`: a whole run
-/

namespace Lineage.Walk

variable {tree : Tree} {dialect : Dialect} {levels : Nat}

/-! ### Histories do not depend on the number of levels -/

theorem eventsOfAll_congr {walk walk' : Node tree → Walk Unit}
    {inner inner' : Node tree → Session → List (Event tree)} {nodes : List (Node tree)}
    (hwalk : ∀ node ∈ nodes, walk node = walk' node)
    (hinner : ∀ node ∈ nodes, inner node = inner' node) :
    eventsOfAll walk inner nodes = eventsOfAll walk' inner' nodes := by
  induction nodes with
  | nil => rfl
  | cons node rest ih =>
    have hrest := ih (fun other hother => hwalk other (List.mem_cons_of_mem _ hother))
      fun other hother => hinner other (List.mem_cons_of_mem _ hother)
    funext session
    simp only [eventsOfAll, hrest, hwalk node List.mem_cons_self, hinner node List.mem_cons_self]

/-- The history of a script depends on the nodes that it may visit, and on no others. -/
theorem Script.history_congr {α : Type} {walk walk' : Node tree → Walk Unit}
    {inner inner' : Node tree → Session → List (Event tree)} {allowed : Node tree → Prop}
    (hwalk : ∀ node, allowed node → walk node = walk' node)
    (hinner : ∀ node, allowed node → inner node = inner' node) {script : Script tree α}
    (hvisits : script.Visits allowed) :
    script.history walk inner = script.history walk' inner' := by
  -- A history also depends on how the nodes are visited, since an error ends it.
  induction script with
  | visits nodes =>
    exact eventsOfAll_congr (fun node hnode => hwalk node (hvisits node hnode))
      fun node hnode => hinner node (hvisits node hnode)
  | query parts =>
    have hparts := forM_congr fun part hpart => hwalk part (hvisits part hpart)
    have hevents := eventsOfAll_congr (fun part hpart => hwalk part (hvisits part hpart))
      fun part hpart => hinner part (hvisits part hpart)
    funext session
    simp only [history, hparts, hevents]
  | within frame body ih =>
    have hbody : body.run walk = body.run walk' := run_congr hwalk hvisits
    funext session
    simp only [history, ih hvisits, hbody]
  | andThen first next ihfirst ihnext =>
    have hnext : ∀ value, (next value).history walk inner = (next value).history walk' inner' :=
      fun value => ihnext value (hvisits.2 value)
    funext session
    simp only [history, ihfirst hvisits.1, run_congr hwalk hvisits.1, hnext]
  | _ => rfl

/-- With enough levels to go down, their number does not matter for what happens. -/
theorem visitHistory_eq_visitHistory (dialect : Dialect) [dialect.Regular] {few many : Nat}
    {node : Node tree} (hfew : Enough few node) (hmany : Enough many node) :
    visitHistory dialect few node = visitHistory dialect many node := by
  -- By induction on the fewer levels; a present node needs one, so neither number is zero there.
  induction few generalizing many node with
  | zero =>
    cases node with
    | absent => cases many <;> rfl
    | present index =>
      have := hfew index rfl
      omega
  | succ few ih =>
    cases node with
    | absent => cases many <;> rfl
    | present index =>
      cases many with
      | zero =>
        have := hmany index rfl
        omega
      | succ many =>
        have hvisits : (nodeScript dialect (.present index)).Visits _ := visits_nodeScript rfl
        -- The steps visit nodes further down, for which one level less is enough in both runs.
        have hsteps := Script.history_congr
          (fun below hbelow => visit_eq_visit dialect (hfew.beneath hbelow) (hmany.beneath hbelow))
          (fun below hbelow => ih (hfew.beneath hbelow) (hmany.beneath hbelow)) hvisits
        funext session
        simp only [visitHistory, visit_eq_visit dialect hfew hmany, hsteps]

/-! ### The nodes among some events -/

/-- The nodes that are visited among some events, in order. -/
def nodesOf (events : List (Event tree)) : List (Node tree) :=
  events.filterMap fun event =>
    match event with
    | .visited node _ _ => some node
    | .offered _ => none

@[simp] theorem nodesOf_append (events more : List (Event tree)) :
    nodesOf (events ++ more) = nodesOf events ++ nodesOf more :=
  List.filterMap_append

@[simp] theorem nodesOf_offered (offers : List Offer) :
    nodesOf (offers.map .offered : List (Event tree)) = [] := by
  simp [nodesOf, List.filterMap_map]

theorem mem_nodesOf {events : List (Event tree)} {node : Node tree} :
    node ∈ nodesOf events ↔ ∃ before outcome, .visited node before outcome ∈ events := by
  simp only [nodesOf, List.mem_filterMap]
  constructor
  · rintro ⟨event, hevent, hnode⟩
    cases event with
    | visited found before outcome =>
      obtain rfl := Option.some.inj hnode
      exact ⟨before, outcome, hevent⟩
    | offered offer => cases hnode
  · rintro ⟨before, outcome, hevent⟩
    exact ⟨_, hevent, rfl⟩

theorem visitsOf_eq (events : List (Event tree)) :
    visitsOf events = (nodesOf events).filterMap Node.index? := by
  rw [visitsOf, nodesOf, List.filterMap_filterMap]
  congr 1
  funext event
  cases event <;> rfl

/-! ### Events that meet no part of the tree twice -/

/-- The events are about nodes of the region. No node is visited twice, and what happens
    while a node is visited is one stretch of the events, outside of which no node of its
    subtree is visited. -/
structure Once (dialect : Dialect) (region : Set (Node tree)) (events : List (Event tree)) :
    Prop where
  inside : ∀ node ∈ nodesOf events, node.span ⊆ region
  own : ∀ node ∈ nodesOf events, node ∈ node.span
  nodup : (nodesOf events).Nodup
  stretch : ∀ node before outcome, .visited node before outcome ∈ events →
    ∃ front back, events = front ++ visitHistory dialect tree.size node before ++ back ∧
      ∀ other ∈ nodesOf (front ++ back), other ∉ node.span

namespace Once

variable {region front back : Set (Node tree)} {events first second : List (Event tree)}

/-- Events without visits. -/
theorem of_quiet (h : nodesOf events = []) : Once dialect region events := by
  have hnone : ∀ node, node ∉ nodesOf events := fun node hnode => by rw [h] at hnode; cases hnode
  refine ⟨fun node hnode => absurd hnode (hnone node), fun node hnode => absurd hnode (hnone node),
    by rw [h]; exact .nil, fun node before outcome hvisited =>
      absurd (mem_nodesOf.mpr ⟨before, outcome, hvisited⟩) (hnone node)⟩

/-- Events in two regions that do not meet. -/
theorem append (hfirst : Once dialect front first) (hsecond : Once dialect back second)
    (hapart : Disjoint front back) (hfront : front ⊆ region) (hback : back ⊆ region) :
    Once dialect region (first ++ second) := by
  -- A node that is visited lies in its own subtree, so the regions keep the visited nodes apart.
  have hinFront : ∀ node ∈ nodesOf first, node ∈ front := fun node hnode =>
    hfirst.inside node hnode (hfirst.own node hnode)
  have hinBack : ∀ node ∈ nodesOf second, node ∈ back := fun node hnode =>
    hsecond.inside node hnode (hsecond.own node hnode)
  constructor
  case inside =>
    intro node hnode
    rw [nodesOf_append] at hnode
    rcases List.mem_append.mp hnode with hmem | hmem
    · exact (hfirst.inside node hmem).trans hfront
    · exact (hsecond.inside node hmem).trans hback
  case own =>
    intro node hnode
    rw [nodesOf_append] at hnode
    rcases List.mem_append.mp hnode with hmem | hmem
    · exact hfirst.own node hmem
    · exact hsecond.own node hmem
  case nodup =>
    rw [nodesOf_append, List.nodup_append]
    refine ⟨hfirst.nodup, hsecond.nodup, fun node hnode other hother hsame => ?_⟩
    exact Set.disjoint_left.mp hapart (hinFront node hnode) (hsame ▸ hinBack other hother)
  case stretch =>
    intro node before outcome hvisited
    rcases List.mem_append.mp hvisited with hmem | hmem
    -- The stretch of the node in its own part stays one, with the other part before or after it.
    · obtain ⟨earlier, later, hsplit, hothers⟩ := hfirst.stretch node before outcome hmem
      refine ⟨earlier, later ++ second, by rw [hsplit]; simp, fun other hother => ?_⟩
      rw [← List.append_assoc, nodesOf_append] at hother
      rcases List.mem_append.mp hother with hin | hin
      · exact hothers other hin
      · -- The subtree of a node of the first events lies in their region.
        have hspan := hfirst.inside node (mem_nodesOf.mpr ⟨before, outcome, hmem⟩)
        exact fun hsub => Set.disjoint_left.mp hapart (hspan hsub) (hinBack other hin)
    · obtain ⟨earlier, later, hsplit, hothers⟩ := hsecond.stretch node before outcome hmem
      refine ⟨first ++ earlier, later, by rw [hsplit]; simp, fun other hother => ?_⟩
      rw [List.append_assoc, nodesOf_append] at hother
      rcases List.mem_append.mp hother with hin | hin
      · have hspan := hsecond.inside node (mem_nodesOf.mpr ⟨before, outcome, hmem⟩)
        exact fun hsub => Set.disjoint_left.mp hapart (hinFront other hin) (hspan hsub)
      · exact hothers other hin

/-- The visit of a node, and events below it that are all that happens while it is visited. -/
theorem cons {node : Node tree} {session : Session} {outcome : Except Error Unit × Session}
    (hpresent : node ∈ node.span) (habove : node ∉ node.below) (h : Once dialect node.below events)
    (hwhole : .visited node session outcome :: events =
      visitHistory dialect tree.size node session) :
    Once dialect node.span (.visited node session outcome :: events) := by
  have hnodes : nodesOf (.visited node session outcome :: events) = node :: nodesOf events := rfl
  have hbelow : ∀ other ∈ nodesOf events, node ∉ other.span := fun other hother hnode =>
    habove (h.inside other hother hnode)
  constructor
  case inside =>
    rw [hnodes, List.forall_mem_cons]
    exact ⟨subset_rfl, fun other hother => (h.inside other hother).trans node.below_subset_span⟩
  case own =>
    rw [hnodes, List.forall_mem_cons]
    exact ⟨hpresent, h.own⟩
  case nodup =>
    rw [hnodes, List.nodup_cons]
    exact ⟨fun hmem => hbelow node hmem hpresent, h.nodup⟩
  case stretch =>
    intro other before result hvisited
    rcases List.mem_cons.mp hvisited with hsame | hmem
    -- The stretch of the node itself is everything, by assumption.
    · obtain ⟨rfl, rfl, rfl⟩ := Event.visited.inj hsame
      exact ⟨[], [], by rw [hwhole]; simp, fun _ hmem => absurd hmem List.not_mem_nil⟩
    · obtain ⟨earlier, later, hsplit, hothers⟩ := h.stretch other before result hmem
      -- Outside of the stretch of a node below there is one more visit, of a node above it.
      refine ⟨.visited node session outcome :: earlier, later, by rw [hsplit]; rfl, ?_⟩
      show ∀ found ∈ node :: nodesOf (earlier ++ later), found ∉ other.span
      exact List.forall_mem_cons.mpr
        ⟨hbelow other (mem_nodesOf.mpr ⟨before, result, hmem⟩), hothers⟩

/-- What happens after a walk, if anything does. -/
theorem after {α : Type} {outcome : Except Error α × Session}
    {next : α → Session → List (Event tree)}
    (h : ∀ value session, outcome = (.ok value, session) →
      Once dialect region (next value session)) :
    Once dialect region (eventsAfter outcome next) := by
  rcases outcome with ⟨error | value, session⟩
  · exact of_quiet rfl
  · exact h value session rfl

/-- Events on a level of their own. -/
theorem within {frame : Frame} {walk : Walk Unit} {inner : Session → List (Event tree)}
    {session : Session}
    (h : Once dialect region (inner { session with scope := session.scope.push frame })) :
    Once dialect region (eventsWithin frame walk inner session) := by
  -- Closing the level sends bindings outward and visits nothing, so its region is empty.
  have hclose : Once dialect (∅ : Set (Node tree))
      (eventsAfter (walk { session with scope := session.scope.push frame }) fun _ after =>
        (after.scope.popAllOffers (after.scope.height - session.scope.height)).map .offered) :=
    after fun _ _ _ => of_quiet (nodesOf_offered _)
  exact h.append hclose (Set.disjoint_empty _) subset_rfl (Set.empty_subset _)

end Once

section

variable {walk : Node tree → Walk Unit} {inner : Node tree → Session → List (Event tree)}
  {allowed : Node tree → Prop} {region : Set (Node tree)}

/-- Nodes whose subtrees do not meet, visited in order. -/
theorem once_eventsOfAll
    (hinner : ∀ node, allowed node → ∀ session, Once dialect node.span (inner node session))
    {nodes : List (Node tree)} (hallowed : ∀ node ∈ nodes, allowed node)
    (hsplit : Split region nodes) (session : Session) :
    Once dialect region (eventsOfAll walk inner nodes session) := by
  -- The rest is visited in the region that the subtrees of the rest make up.
  induction nodes generalizing region session with
  | nil => exact .of_quiet rfl
  | cons node rest ih =>
    obtain ⟨hnode, hrest⟩ := List.forall_mem_cons.mp hallowed
    have hothers : Once dialect (Node.spans rest) (eventsAfter (walk node session) _) :=
      .after fun _ after _ => ih hrest hsplit.tail.tight after
    exact (hinner node hnode session).append hothers hsplit.disjoint_spans
      (hsplit.inside node List.mem_cons_self) hsplit.tail.spans_subset

/-- The run of a script meets no part of the tree twice, if the visits of its nodes do not. -/
theorem Script.once
    (hinner : ∀ node, allowed node → ∀ session, Once dialect node.span (inner node session))
    {α : Type} {script : Script tree α} (hvisits : script.Visits allowed)
    (hsplits : script.Splits region) (session : Session) :
    Once dialect region (script.history walk inner session) := by
  -- By induction on the script; `Splits` gives a region for each of two parts in a row.
  induction script generalizing region session with
  | quiet walk hquiet => exact .of_quiet rfl
  | send id => exact .of_quiet (nodesOf_offered _)
  | flush position => exact .of_quiet (nodesOf_offered _)
  | closeArm =>
    simp only [history]
    split
    · exact .of_quiet (nodesOf_offered _)
    · exact .of_quiet rfl
  | nextArm queries => exact .of_quiet rfl
  | visits nodes => exact once_eventsOfAll hinner hvisits hsplits session
  | query parts => exact .within (once_eventsOfAll hinner hvisits hsplits _)
  | within frame body ih => exact .within (ih hvisits hsplits _)
  | andThen first next ihfirst ihnext =>
    obtain ⟨front, back, hfront, hback, hapart, hfirst, hnext⟩ := hsplits
    have hlater : Once dialect back (eventsAfter (first.run walk session) _) :=
      .after fun value after _ => ihnext value (hvisits.2 value) (hnext value) after
    exact (ihfirst hvisits.1 hfirst session).append hlater hapart hfront hback

end

section

variable [dialect.Regular]
  (hclauses : dialect.vocabulary.queries.withClause ≠ dialect.vocabulary.queries.fromClause)

include hclauses

/-- The steps of a node stay below it and meet no part of the tree twice, if the visits of the nodes
    below do not. -/
theorem once_nodeScript {index : Fin tree.size} (henough : Enough (levels + 1) (Node.present index))
    (hvisit : ∀ below : Node tree, Enough levels below → ∀ session,
      Once dialect below.span (visitHistory dialect levels below session))
    (session : Session) :
    Once dialect (Node.present index).below
      ((nodeScript dialect (.present index)).history (visit dialect levels)
        (visitHistory dialect levels) session) := by
  have hvisits : (nodeScript dialect (.present index)).Visits _ := visits_nodeScript rfl
  exact Script.once (fun below hbelow => hvisit below (henough.beneath hbelow)) hvisits
    (Script.splits_nodeScript hclauses) session

/-- A visit with enough levels to go down meets no part of the tree twice. -/
theorem once_visit {node : Node tree} (henough : Enough levels node) (session : Session) :
    Once dialect node.span (visitHistory dialect levels node session) := by
  induction levels generalizing node session with
  | zero => exact .of_quiet rfl
  | succ levels ih =>
    cases node with
    | absent => exact .of_quiet rfl
    | present index =>
      have hsteps := once_nodeScript hclauses henough (fun _ => ih)
        { session with visited := index :: session.visited }
      -- `Once` speaks of histories with as many levels as there are nodes.
      have hwhole := visitHistory_eq_visitHistory dialect henough
        (fun place _ => Nat.le_add_left tree.size place)
      exact hsteps.cons (Node.mem_subtree_self index) (Node.not_mem_descendants_self _)
        (congrFun hwhole session)

/-- The nodes that are visited by the steps of a node lie below it. -/
theorem mem_descendants_of_mem_history {index : Fin tree.size}
    (henough : Enough (levels + 1) (Node.present index)) {session : Session} {below : Node tree}
    (h : below ∈ nodesOf ((nodeScript dialect (.present index)).history (visit dialect levels)
      (visitHistory dialect levels) session)) : below ∈ (Node.present index).descendants := by
  have honce := once_nodeScript hclauses henough
    (fun _ hbelow => once_visit hclauses hbelow) session
  exact honce.inside below h (honce.own below h)

/-- What happens while a node is visited: the visit itself, and then visits of nodes below it. -/
theorem exists_visitHistory (index : Fin tree.size) (session : Session) :
    ∃ inner, visitHistory dialect tree.size (.present index) session =
        .visited (.present index) session
          (visit dialect tree.size (.present index) session) :: inner ∧
      ∀ below ∈ nodesOf inner, below ∈ (Node.present index).descendants := by
  have hsize : 0 < tree.size := Nat.lt_of_le_of_lt (Nat.zero_le _) index.isLt
  -- A tree with a node has a level to go down, so the history begins with the visit.
  obtain ⟨levels, hlevels⟩ := Nat.exists_eq_add_of_lt hsize
  have henough : Enough (0 + levels + 1) (Node.present index) :=
    fun place _ => hlevels ▸ Nat.le_add_left _ _
  rw [hlevels]
  exact ⟨_, rfl, fun below => mem_descendants_of_mem_history hclauses henough⟩

end

/-! ### A whole run -/

theorem index?_injective {node other : Node tree} {index : Nat} (h : node.index? = some index)
    (hother : other.index? = some index) : node = other := by
  cases node with
  | absent => cases h
  | present place =>
    cases other with
    | absent => cases hother
    | present place' =>
      have hsame : place.val = place'.val := (Option.some.inj h).trans (Option.some.inj hother).symm
      rw [Fin.ext hsame]

/-- When a document is analyzed, every node is visited at most once. What happens while a node is
    visited is one stretch of the run: it begins with the visit of the node, then all visits are of
    nodes below it, and outside of the stretch no node of its subtree is visited. So the visits come
    to an end, however many levels they may go down. -/
theorem nodes_visited_once (document : Document) (grammar : Grammar) (schema : Schema) :
    let tree := Tree.ofDocument document
    let dialect := grammar.dialect
    let history := visitHistory dialect tree.size tree.root (.ofSchema schema)
    (visitTree dialect tree (.ofSchema schema)).2.visited = (visitsOf history).reverse ∧
    (visitTree dialect tree (.ofSchema schema)).2.visited.Nodup ∧
    (∀ node before outcome, .visited node before outcome ∈ history →
      outcome = visit dialect tree.size node before ∧
      ∃ front inner back, history = front ++ .visited node before outcome :: inner ++ back ∧
        visitHistory dialect tree.size node before = .visited node before outcome :: inner ∧
        (∀ below ∈ nodesOf inner, below ∈ node.descendants) ∧
        ∀ other ∈ nodesOf (front ++ back), other ∉ node.subtree) ∧
    ∀ levels, tree.size ≤ levels → visit dialect levels tree.root = visitTree dialect tree := by
  intro tree dialect history
  have hclauses : dialect.vocabulary.queries.withClause ≠
      dialect.vocabulary.queries.fromClause := by
    cases grammar <;> decide
  have henough : Enough tree.size tree.root := fun _ _ => Nat.le_add_left _ _
  have honce : Once dialect tree.root.span history := once_visit hclauses henough _
  have hnotes : (visitTree dialect tree (.ofSchema schema)).2.visited =
      (visitsOf history).reverse := by
    have hnotes := notes_visit dialect tree.size tree.root (.ofSchema schema)
    rwa [Notes, Session.ofSchema, List.append_nil] at hnotes
  refine ⟨hnotes, ?_, fun node before outcome hvisited => ?_, fun levels hlevels => ?_⟩
  · rw [hnotes, List.nodup_reverse, visitsOf_eq]
    -- Different nodes have different indexes.
    refine honce.nodup.filterMap fun first second index hfirst hsecond => ?_
    exact index?_injective hfirst hsecond
  · obtain ⟨hpresent, houtcome⟩ := visited_of_mem_history henough hvisited
    obtain ⟨front, back, hsplit, hothers⟩ := honce.stretch node before outcome hvisited
    cases node with
    | absent => cases hpresent
    | present index =>
      obtain ⟨inner, hinner, hbelow⟩ := exists_visitHistory hclauses index before
      rw [← houtcome] at hinner
      exact ⟨houtcome, front, inner, back, hinner ▸ hsplit, hinner, hbelow, hothers⟩
  · exact visit_eq_visit dialect (fun _ _ => Nat.le_trans hlevels (Nat.le_add_left _ _)) henough

end Lineage.Walk
