import Mathlib.Data.List.Infix
import Lineage.Proofs.Dialect.Operators
import Lineage.Proofs.Scope.References
import Lineage.Proofs.Tree.Navigation
import Lineage.Proofs.Walk.Exits
import Lineage.Proofs.Walk.Spellings

/-!
# Names one after the other

The segments of a dotted name are siblings, and each of them is visited on its own. Only the last
one acts: it looks back at those before it, follows them from member to member, and sends out what
it comes to. So a run of names sends out one binding, whatever its length.

## Key results

- `qualifiersOf_next`, `qualifiersOf_of_previous`: what qualifies a node, from sibling to sibling
- `forM_visit_of_chain`: of adjacent names only the last one acts
- `name_runs_send_one_member`: what a run of names stands for, and what it sends out
-/

namespace Lineage

/-- Only a node that its parent lists has a next sibling. -/
theorem Node.listed_of_next {tree : Tree} {node : Node tree} (h : node.next.isPresent = true) :
    node ∈ node.parent.children := by
  by_contra hnot
  have hdropped : node.parent.children.dropWhile (· ≠ node) = [] := by
    rw [List.dropWhile_eq_nil_iff]
    intro other hother
    simpa using fun hsame : other = node => hnot (hsame ▸ hother)
  rw [next, later, hdropped] at h
  cases h

/-! ### Names and what qualifies them -/

namespace Dialect

variable {tree : Tree} {node : Node tree}

theorem rule?_plsql_eq_identifier_iff (tag : String) :
    plsql.rule? tag = some .identifier ↔ tag = "id_expression" := by
  constructor
  · intro h
    have hlisted : ∀ entry ∈ plsql.rules, entry.2 = .identifier → entry.1 = "id_expression" := by
      decide
    exact hlisted _ (mem_rules_of_rule? h) rfl
  · rintro rfl
    decide

/-- Names are what qualifies names. -/
theorem binds_plsql_identifier (node : Node tree) :
    plsql.binds node .identifier = plsql.qualifies node := by
  have hqualifies : plsql.qualifies node = node.has "id_expression" := by simp [qualifies, plsql]
  rw [Bool.eq_iff_iff, hqualifies, binds, Node.has, Bool.and_eq_true, Bool.and_eq_true,
    beq_iff_eq, beq_iff_eq, rule?_plsql_eq_identifier_iff]

/-- The name that a segment refers to is its text. -/
theorem nameOf_of_qualifies (h : plsql.qualifies node = true) : plsql.nameOf node = node.text := by
  have hpart : node.has plsql.vocabulary.names.part = true := by simpa [qualifies, plsql] using h
  rw [nameOf]
  exact if_pos hpart

/-- Nothing qualifies a node if the sibling right before it does not. -/
theorem qualifiersOf_of_previous {dialect : Dialect} (h : dialect.qualifies node.previous = false) :
    dialect.qualifiersOf node = [] := by
  rw [qualifiersOf]
  rcases List.eq_nil_or_concat node.earlier with hearlier | ⟨front, other, hearlier⟩
  · rw [hearlier]
    rfl
  · have hprevious : node.previous = other := by simp [Node.previous, hearlier, Node.last]
    rw [hprevious] at h
    simp [hearlier, h]

/-- What qualifies a node qualifies the next one too, and so does the node. -/
theorem qualifiersOf_next {dialect : Dialect} (hnext : node.next.isPresent = true)
    (h : dialect.qualifies node = true) :
    dialect.qualifiersOf node.next = dialect.qualifiersOf node ++ [node] := by
  simp [qualifiersOf, Node.earlier_next (Node.listed_of_next hnext) hnext, h]

end Dialect

namespace Walk

variable {tree : Tree} {node first : Node tree} {rest : List (Node tree)} {dialect : Dialect}

/-! ### One name -/

theorem identifier_of_qualifies (h : dialect.qualifies node.next = true) (session : Session) :
    identifier dialect node session = (.ok (), session) := by
  rw [identifier, if_pos h]
  rfl

theorem identifier_of_not_qualifies (h : dialect.qualifies node.next = false) (session : Session) :
    let named :=
      session.scope.dottedReference ((dialect.qualifiersOf node).map dialect.nameOf) node.text
    identifier dialect node session = produce named.1 { session with scope := named.2 } := by
  rw [identifier, if_neg (by rw [h]; exact Bool.false_ne_true)]
  rfl

/-- A visited name is noted, and then acts as a name. -/
theorem visit_of_binds (h : dialect.binds node .identifier = true) (levels : Nat)
    (session : Session) :
    visit dialect (levels + 1) node session =
      located node.location (identifier dialect node)
        { session with visited := node.index?.toList ++ session.visited } := by
  cases node with
  | absent => cases h
  | present index =>
    have hrule : dialect.rule? (Node.present index).tag = some .identifier := by
      simpa [Dialect.binds] using h
    simp only [visit, hrule]
    rfl

/-! ### Names one after the other -/

/-- A run of adjacent names that no further name extends on either side. -/
structure NameRun (first : Node tree) (rest : List (Node tree)) : Prop where
  names : ∀ node ∈ first :: rest, Dialect.plsql.binds node .identifier = true
  adjacent : (first :: rest).IsChain fun node other => node.next = other
  starts : Dialect.plsql.binds first.previous .identifier = false
  ends : Dialect.plsql.binds (rest.getLastD first).next .identifier = false

/-- Of adjacent names only the last one acts. -/
theorem forM_visit_of_chain
    (hnames : ∀ node ∈ first :: rest, Dialect.plsql.binds node .identifier = true)
    (hadjacent : (first :: rest).IsChain fun node other => node.next = other) (levels : Nat)
    (session : Session) :
    (first :: rest).forM (visit .plsql (levels + 1)) session =
      located (rest.getLastD first).location (identifier .plsql (rest.getLastD first))
        { session with visited := ((first :: rest).filterMap Node.index?).reverse ++
          session.visited } := by
  -- A name before another one does nothing but be noted, which changes the state from which the
  -- others start.
  induction rest generalizing first session with
  | nil =>
    have hvisit := visit_of_binds (hnames first List.mem_cons_self) levels session
    have hone : [first].forM (visit .plsql (levels + 1)) = visit .plsql (levels + 1) first :=
      bind_pure_unit
    rw [hone, hvisit]
    cases first <;> rfl
  | cons second rest ih =>
    obtain ⟨hnext, hadjacent⟩ := List.isChain_cons_cons.mp hadjacent
    have hsecond : Dialect.plsql.qualifies first.next = true := by
      rw [hnext, ← Dialect.binds_plsql_identifier]
      exact hnames second (List.mem_cons_of_mem _ List.mem_cons_self)
    have hsilent : visit .plsql (levels + 1) first session =
        (.ok (), { session with visited := first.index?.toList ++ session.visited }) := by
      rw [visit_of_binds (hnames first List.mem_cons_self), located,
        identifier_of_qualifies hsecond]
    have hothers := ih (fun node hnode => hnames node (List.mem_cons_of_mem _ hnode)) hadjacent
      { session with visited := first.index?.toList ++ session.visited }
    have hvisited : ((first :: second :: rest).filterMap Node.index?).reverse =
        ((second :: rest).filterMap Node.index?).reverse ++ first.index?.toList := by
      rw [List.filterMap_cons]
      cases first <;> simp [Node.index?]
    rw [hvisited, List.append_assoc, List.getLastD_cons]
    exact (Stateful.bind_ok hsilent).trans hothers

/-- What qualifies the last of adjacent names: what qualifies the first one, and the names
    before the last. -/
theorem qualifiersOf_getLastD
    (hnames : ∀ node ∈ first :: rest, Dialect.plsql.binds node .identifier = true)
    (hadjacent : (first :: rest).IsChain fun node other => node.next = other) :
    Dialect.plsql.qualifiersOf (rest.getLastD first) =
      Dialect.plsql.qualifiersOf first ++ (first :: rest).dropLast := by
  induction rest generalizing first with
  | nil => simp
  | cons second rest ih =>
    obtain ⟨hnext, hadjacent⟩ := List.isChain_cons_cons.mp hadjacent
    have hfirst := hnames first List.mem_cons_self
    have hsecond := hnames second (List.mem_cons_of_mem _ List.mem_cons_self)
    rw [Dialect.binds_plsql_identifier] at hfirst
    rw [Dialect.binds, Bool.and_eq_true, ← hnext] at hsecond
    have hstep := Dialect.qualifiersOf_next hsecond.1 hfirst
    rw [List.getLastD_cons, ih (fun node hnode => hnames node (List.mem_cons_of_mem _ hnode))
      hadjacent, ← hnext, hstep]
    simp

namespace NameRun

variable (h : NameRun first rest)

include h

/-- Only the last name of a run acts, and it goes by the names of all segments. -/
theorem forM_visit (levels : Nat) (session : Session) :
    let last := rest.getLastD first
    let named := session.scope.dottedReference ((first :: rest).dropLast.map Node.text) last.text
    (first :: rest).forM (visit .plsql (levels + 1)) session =
      located last.location (produce named.1)
        { session with
          scope := named.2
          visited := ((first :: rest).filterMap Node.index?).reverse ++ session.visited } := by
  intro last named
  -- Nothing qualifies the first name, so what qualifies the last one are the names of the run
  -- before it.
  have hqualifiers : (Dialect.plsql.qualifiersOf last).map Dialect.plsql.nameOf =
      (first :: rest).dropLast.map Node.text := by
    have hstarts := h.starts
    rw [Dialect.binds_plsql_identifier] at hstarts
    rw [qualifiersOf_getLastD h.names h.adjacent, Dialect.qualifiersOf_of_previous hstarts,
      List.nil_append]
    refine List.map_congr_left fun node hnode => Dialect.nameOf_of_qualifies ?_
    rw [← Dialect.binds_plsql_identifier]
    exact h.names node (List.mem_of_mem_dropLast hnode)
  have hends := h.ends
  rw [Dialect.binds_plsql_identifier] at hends
  rw [forM_visit_of_chain h.names h.adjacent, located, identifier_of_not_qualifies hends,
    hqualifiers]
  rfl

end NameRun

/-- The segments stand for a chain of members, which ends with what the dotted name stands for. -/
theorem standsFor_dottedReference {scope : Scope} (h : scope.WellFormed) (first : Node tree)
    (rest : List (Node tree)) :
    let named :=
      scope.dottedReference ((first :: rest).dropLast.map Node.text) (rest.getLastD first).text
    ∃ head, scope.StandsFor named.2 first.text (rest.map Node.text) head named.1 := by
  rcases List.eq_nil_or_concat rest with rfl | ⟨front, last, rfl⟩
  · exact ⟨_, Scope.standsFor_reference scope first.text⟩
  · refine ⟨(scope.referenceHead first.text).1, ?_⟩
    have hchain := h.standsFor_memberChain first.text ((front ++ [last]).map Node.text)
    simpa [Scope.dottedReference, List.dropLast_cons_of_ne_nil, List.getLastD_concat] using hchain

/-- A run of adjacent names acts as one: its segments stand for a chain of members, and what is sent
    outward is the last one, once. Before that the levels learn names at most, and the graph grows.
    A name that is looked up again stands for the same and changes nothing. -/
theorem name_runs_send_one_member {schema : Schema} {session : Session}
    (h : Reachable schema session) {document : Document} {first : Node (Tree.ofDocument document)}
    {rest : List (Node (Tree.ofDocument document))} (hrun : NameRun first rest) (levels : Nat) :
    (∃ scope head last, session.scope.StandsFor scope first.text (rest.map Node.text) head last ∧
      session.scope.Learns scope ∧
      (first :: rest).forM (visit .plsql (levels + 1)) session =
        located (rest.getLastD first).location (produce last)
          { session with
            scope
            visited := ((first :: rest).filterMap Node.index?).reverse ++ session.visited }) ∧
      ∀ name other, fold other = fold name →
        (session.scope.reference name).2.reference other = session.scope.reference name := by
  have hwell := h.wellFormed.scope
  obtain ⟨head, hstands⟩ := standsFor_dottedReference hwell first rest
  exact ⟨⟨_, head, _, hstands, Scope.learns_dottedReference _ _ _,
    hrun.forM_visit levels session⟩, fun _ _ hsame => hwell.reference_reference hsame⟩

/-- A name of three segments. -/
def threeSegments : Document :=
  .inner "general_element" [.segment "Sales", .segment "Orders", .segment "Id"]

/-- The first two segments of `threeSegments` are known, and the third one is sent outward as a
    member of the second. -/
theorem name_runs_send_one_member_threeSegments :
    let tree := Tree.ofDocument threeSegments
    NameRun (tree.root.childAt 0) [tree.root.childAt 1, tree.root.childAt 2] ∧
      ∃ session, Reachable .empty session ∧ session.scope.resolve? (.ofName "sales") = some ⟨0⟩ ∧
        ∃ scope last, session.scope.graph.MemberPath scope.graph ⟨0⟩ ["orders", "id"] last ∧
          tree.root.children.forM (visit .plsql 1) session =
            located ⟨"id_expression", none, none⟩ (produce last)
              { session with scope, visited := [3, 2, 1] ++ session.visited } := by
  intro tree
  obtain ⟨session, hsession, hnest⟩ := exists_nest "sales" ["orders"]
  have hrun : NameRun (tree.root.childAt 0) [tree.root.childAt 1, tree.root.childAt 2] :=
    ⟨by decide +kernel, by decide +kernel, by decide +kernel, by decide +kernel⟩
  have hresolve : session.scope.resolve? (.ofName "sales") = some ⟨0⟩ :=
    (hnest.resolve?_eq_some_iff [] (fold "sales") ⟨0⟩).mpr ⟨by decide +kernel, rfl⟩
  have hsegments : tree.root.children =
      [tree.root.childAt 0, tree.root.childAt 1, tree.root.childAt 2] := by
    decide +kernel
  have hfirst : (tree.root.childAt 0).text = "sales" := by decide +kernel
  have hrest : [tree.root.childAt 1, tree.root.childAt 2].map Node.text = ["orders", "id"] := by
    decide +kernel
  obtain ⟨⟨scope, head, last, hstands, -, hvisit⟩, -⟩ := name_runs_send_one_member hsession hrun 0
  rw [hfirst, hrest] at hstands
  obtain rfl := hstands.resolved _ hresolve
  refine ⟨hrun, session, hsession, hresolve, scope, last, hstands.path, ?_⟩
  rw [hsegments, hvisit]
  rfl

end Walk

end Lineage
