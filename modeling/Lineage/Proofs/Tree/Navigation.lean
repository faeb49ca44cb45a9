import Mathlib.Data.List.Nodup
import Mathlib.Logic.Function.Iterate
import Lineage.Proofs.Tree.Preorder

/-!
# The ways between the nodes of a tree

A node is not told its place among its siblings: it is found again in the child list of its parent.
Nodes above it are found by going from parent to parent. In a tree made from a document every node
but the root is listed by its parent, once, so all these ways fit together: what stands before a
node and what stands after it make up the list of its parent, a step to a sibling can be taken back,
and going up ends at the root.

## Key results

- `Tree.listed`: every node but the root is listed by its parent
- `Node.children_parent`: the list of the parent, around the node
- `Node.previous_next`, `Node.next_previous`: steps sideways can be taken back
- `Node.getElem?_ancestors`: the nodes above are those that going up leads to, and all of them
- `Node.mem_ancestors_iff_mem_descendants`: the nodes above a node are those that it is below
- `Node.mem_takeWhile_ancestors_iff`: the nodes between a node and one above it
- `Node.nearest_ancestor`: the nearest node above with a tag
- `Tree.ofDocument_navigable`: all these in every tree made from a document
-/

namespace Lineage

namespace Node

variable {tree : Tree} {node found above : Node tree}

@[simp] theorem isPresent_present (index : Fin tree.size) : (present index).isPresent = true := rfl

/-- The root is the node with the index zero. -/
theorem root_eq_present (hsize : 0 < tree.size) : tree.root = present ⟨0, hsize⟩ := by
  simp [Tree.root, ofIndex, hsize]

/-- Along the child lists one comes only to nodes that are listed. -/
theorem listed_of_mem_gatherWithin {levels : Nat}
    (h : found ∈ gatherWithin (fun node => [node]) levels node) :
    found = node ∨ ∃ lister : Node tree, found ∈ lister.children := by
  induction levels generalizing node with
  | zero => simp [gatherWithin] at h
  | succ levels ih =>
    rw [gatherWithin, List.singleton_append, List.mem_cons, List.mem_flatMap] at h
    rcases h with rfl | ⟨child, hchild, hfound⟩
    · exact .inl rfl
    · rcases ih hfound with rfl | hlisted
      · exact .inr ⟨node, hchild⟩
      · exact .inr hlisted

end Node

/-- Every node but the root is listed by its parent, since the child lists lead from the root
    to all nodes. -/
theorem Tree.listed (tree : Tree) (node : Node tree) (hpresent : node.isPresent = true)
    (hroot : node ≠ tree.root) : node ∈ node.parent.children := by
  obtain ⟨document, rfl⟩ := tree.exists_document
  cases node with
  | absent => cases hpresent
  | present index =>
    have hsize : 0 < (Tree.ofDocument document).size :=
      Nat.lt_of_le_of_lt (Nat.zero_le _) index.isLt
    have hgathered : Node.present index ∈
        (Tree.ofDocument document).root.gather fun node => [node] := by
      rw [Node.root_eq_present hsize, Tree.gather_present, ← List.map_eq_flatMap, ← Node.subtree,
        ← Node.root_eq_present hsize]
      exact Node.mem_subtree_root index
    rcases Node.listed_of_mem_gatherWithin hgathered with hsame | ⟨lister, hlister⟩
    · exact absurd hsame hroot
    · rwa [Node.parent_of_mem_children hlister]

namespace Node

variable {tree : Tree} {node found above : Node tree}

/-! ### Sideways -/

section Sideways

variable (hlisted : node ∈ node.parent.children)

include hlisted

/-- The list of the parent is what stands before the node, the node, and what stands after it. -/
theorem children_parent : node.parent.children = node.earlier ++ node :: node.later := by
  obtain ⟨front, back, hsplit⟩ := List.append_of_mem hlisted
  rw [earlier_of_children_eq hsplit, later_of_children_eq hsplit]
  exact hsplit

/-- The siblings are all that the parent lists but for the node. -/
theorem siblings_eq_filter : node.siblings = node.parent.children.filter (· ≠ node) := by
  have hsplit := children_parent hlisted
  have hnodup := nodup_children node.parent
  rw [hsplit, List.nodup_middle, List.nodup_cons, List.mem_append, not_or] at hnodup
  have hkeep : ∀ {nodes : List (Node tree)}, node ∉ nodes → nodes.filter (· ≠ node) = nodes := by
    intro nodes hnot
    rw [List.filter_eq_self]
    intro other hother
    simpa using fun hsame : other = node => hnot (hsame ▸ hother)
  rw [siblings, hsplit, List.filter_append, List.filter_cons_of_neg (by simp), hkeep hnodup.1.1,
    hkeep hnodup.1.2]

/-- The next sibling, if there is one, comes first among the later ones. -/
theorem next_spec : (node.next = absent ∧ node.later = []) ∨
    (node.next.isPresent = true ∧ ∃ rest, node.later = node.next :: rest) := by
  cases hlater : node.later with
  | nil => exact .inl ⟨by rw [next, hlater]; rfl, rfl⟩
  | cons other rest =>
    have hnext : node.next = other := by rw [next, hlater]; rfl
    have hchild : other ∈ node.parent.children := by
      rw [children_parent hlisted, hlater]
      simp
    obtain ⟨_, inner, _, hother, _, _⟩ := exists_of_mem_children hchild
    exact .inr ⟨by rw [hnext, hother]; rfl, rest, by rw [hnext]⟩

/-- The previous sibling, if there is one, comes last among the earlier ones. -/
theorem previous_spec : (node.previous = absent ∧ node.earlier = []) ∨
    (node.previous.isPresent = true ∧ ∃ front, node.earlier = front ++ [node.previous]) := by
  rcases List.eq_nil_or_concat node.earlier with hearlier | ⟨front, other, hearlier⟩
  · exact .inl ⟨by rw [previous, hearlier]; rfl, hearlier⟩
  · have hprevious : node.previous = other := by simp [previous, hearlier, last]
    have hchild : other ∈ node.parent.children := by
      rw [children_parent hlisted, hearlier]
      simp
    obtain ⟨_, inner, _, hother, _, _⟩ := exists_of_mem_children hchild
    exact .inr ⟨by rw [hprevious, hother]; rfl, front,
      by rw [hearlier, hprevious, List.concat_eq_append]⟩

/-- What stands before the next sibling. -/
theorem earlier_next (h : node.next.isPresent = true) :
    node.next.earlier = node.earlier ++ [node] := by
  rcases next_spec hlisted with ⟨habsent, _⟩ | ⟨_, rest, hlater⟩
  · rw [habsent] at h
    cases h
  · -- The same list, now read around the next node.
    have hsplit : node.parent.children = (node.earlier ++ [node]) ++ node.next :: rest := by
      rw [children_parent hlisted, hlater]
      simp
    exact earlier_of_children_eq hsplit

/-- A step to the next sibling can be taken back. -/
theorem previous_next (h : node.next.isPresent = true) : node.next.previous = node := by
  rw [previous, earlier_next hlisted h]
  simp [last]

/-- A step to the previous sibling can be taken back. -/
theorem next_previous (h : node.previous.isPresent = true) : node.previous.next = node := by
  rcases previous_spec hlisted with ⟨habsent, _⟩ | ⟨_, front, hearlier⟩
  · rw [habsent] at h
    cases h
  · have hsplit : node.parent.children = front ++ node.previous :: (node :: node.later) := by
      rw [children_parent hlisted, hearlier]
      simp
    rw [next, later_of_children_eq hsplit]
    rfl

end Sideways

/-- Without a parent there are no siblings. -/
theorem siblings_of_parent_absent (h : node.parent = absent) : node.siblings = [] := by
  simp [siblings, earlier, later, h, children_absent]

/-! ### Up -/

section Up

/-- A parent comes before the node. -/
theorem parent_lt {index outer : Fin tree.size} (h : (present index).parent = present outer) :
    outer < index := by
  have hroot : present index ≠ tree.root := by
    intro hsame
    rw [hsame, parent_root] at h
    cases h
  obtain ⟨_, _, hparent, hinner, hlt, _⟩ :=
    exists_of_mem_children (tree.listed (present index) rfl hroot)
  obtain rfl := present.inj (h.symm.trans hparent)
  obtain rfl := present.inj hinner
  exact hlt

/-- Going up from a node ends, after no more steps than there are nodes before it and itself. -/
theorem exists_iterate_parent_eq_absent {bound : Nat}
    (h : ∀ index, node = present index → index.val < bound) :
    ∃ steps ≤ bound, parent^[steps] node = absent := by
  induction bound generalizing node with
  | zero =>
    cases node with
    | absent => exact ⟨0, Nat.le_refl _, rfl⟩
    | present index => exact absurd (h index rfl) (Nat.not_lt_zero _)
  | succ bound ih =>
    cases node with
    | absent => exact ⟨0, Nat.zero_le _, rfl⟩
    | present index =>
      have hindex := h index rfl
      obtain ⟨steps, hle, hend⟩ := @ih (present index).parent fun outer houter => by
        have hlt := parent_lt houter
        omega
      exact ⟨steps + 1, by omega, hend⟩

/-- With enough steps to go up, their number does not matter. -/
theorem ancestorsWithin_eq {steps more : Nat}
    (hsteps : ∀ index, node = present index → index.val ≤ steps)
    (hmore : ∀ index, node = present index → index.val ≤ more) :
    ancestorsWithin steps node = ancestorsWithin more node := by
  induction steps generalizing node more with
  | zero =>
    -- Only the first node may be left, which has no parent.
    have hparent : node.parent = absent := by
      cases hparent : node.parent with
      | absent => rfl
      | present outer =>
        cases node with
        | absent => cases hparent
        | present index =>
          have hlt := parent_lt hparent
          have hindex := hsteps index rfl
          omega
    cases more <;> simp [ancestorsWithin, hparent, isPresent]
  | succ steps ih =>
    cases hparent : node.parent with
    | absent => cases more <;> simp [ancestorsWithin, hparent, isPresent]
    | present outer =>
      cases node with
      | absent => cases hparent
      | present index =>
        have hlt := parent_lt hparent
        have hfirst := hsteps index rfl
        have hsecond := hmore index rfl
        obtain ⟨more, rfl⟩ : ∃ fewer, more = fewer + 1 := Nat.exists_eq_succ_of_ne_zero (by omega)
        have hrest : ancestorsWithin steps (present outer) = ancestorsWithin more (present outer) :=
          ih (fun found hfound => by cases hfound; omega)
            (fun found hfound => by cases hfound; omega)
        rw [ancestorsWithin, ancestorsWithin, hparent, hrest]

/-- Going up one step at a time. -/
theorem ancestors_eq (node : Node tree) :
    node.ancestors = if node.parent.isPresent then node.parent ::
      node.parent.ancestors else [] := by
  cases node with
  | absent =>
    rw [ancestors, parent_absent]
    cases tree.size <;> rfl
  | present index =>
    obtain ⟨size, hsize⟩ : ∃ size, tree.size = size + 1 :=
      Nat.exists_eq_succ_of_ne_zero (Nat.ne_of_gt (Nat.lt_of_le_of_lt (Nat.zero_le _) index.isLt))
    -- Indexes fall on the way up, so there are steps enough for the whole way, and one fewer is
    -- enough too.
    have hrest : ancestorsWithin size (present index).parent =
        ancestorsWithin (size + 1) (present index).parent := by
      apply ancestorsWithin_eq
      · intro outer houter
        have hlt := parent_lt houter
        have hindex := index.isLt
        omega
      · intro outer _
        have houter := outer.isLt
        omega
    rw [ancestors, ancestors, hsize, ancestorsWithin, hrest]

/-- The nodes above are those that going up leads to, until there is none. -/
theorem getElem?_ancestors (node : Node tree) (steps : Nat) :
    node.ancestors[steps]? =
      if (parent^[steps + 1] node).isPresent then some (parent^[steps + 1] node) else none := by
  induction steps generalizing node with
  | zero =>
    rw [ancestors_eq]
    split <;> simp_all
  | succ steps ih =>
    rw [ancestors_eq, Function.iterate_succ_apply]
    cases hparent : node.parent with
    | absent => simp [isPresent, Function.iterate_fixed parent_absent]
    | present outer => simp [isPresent, ih]

theorem mem_ancestors_iff :
    above ∈ node.ancestors ↔ above.isPresent = true ∧ ∃ steps, parent^[steps + 1] node = above := by
  rw [List.mem_iff_getElem?]
  constructor
  · rintro ⟨steps, hget⟩
    rw [getElem?_ancestors] at hget
    split at hget
    · next hpresent => exact ⟨Option.some.inj hget ▸ hpresent, steps, Option.some.inj hget⟩
    · cases hget
  · rintro ⟨hpresent, steps, rfl⟩
    exact ⟨steps, by rw [getElem?_ancestors, if_pos hpresent]⟩

end Up

/-- Going up from a node that the child lists lead to leads back. -/
theorem exists_iterate_of_mem_gatherWithin {levels : Nat}
    (h : found ∈ gatherWithin (fun node => [node]) levels node) :
    found = node ∨ ∃ steps, parent^[steps + 1] found = node := by
  induction levels generalizing node with
  | zero => simp [gatherWithin] at h
  | succ levels ih =>
    rw [gatherWithin, List.singleton_append, List.mem_cons, List.mem_flatMap] at h
    rcases h with rfl | ⟨child, hchild, hfound⟩
    · exact .inl rfl
    · have hparent := parent_of_mem_children hchild
      rcases ih hfound with rfl | ⟨steps, hsteps⟩
      · exact .inr ⟨0, hparent⟩
      · exact .inr ⟨steps + 1, by rw [Function.iterate_succ_apply', hsteps, hparent]⟩

/-- Where going up leads to a node, one started below it. -/
theorem mem_descendants_of_iterate {steps : Nat} (hpresent : above.isPresent = true)
    (h : parent^[steps + 1] found = above) : found ∈ above.descendants := by
  -- What has a parent is present and is not the root, so the parent lists it.
  have hlists : ∀ {child : Node tree}, child.parent.isPresent = true →
      child ∈ child.parent.children := by
    intro child hparent
    refine tree.listed child ?_ ?_
    · cases child with
      | absent => cases hparent
      | present index => rfl
    · rintro rfl
      rw [parent_root] at hparent
      cases hparent
  have hbelow : ∀ {child : Node tree}, child.parent.isPresent = true →
      child.subtree ⊆ child.parent.descendants :=
    fun hparent => subtree_subset_of_mem_children (hlists hparent)
  -- The last step up is the one from a child, which is below by induction.
  induction steps generalizing above with
  | zero =>
    have hparent : found.parent.isPresent = true := by
      rw [show found.parent = above from h]; exact hpresent
    cases found with
    | absent => cases hparent
    | present index => exact h ▸ hbelow hparent (mem_subtree_self index)
  | succ steps ih =>
    rw [Function.iterate_succ_apply'] at h
    subst h
    have hchild : (parent^[steps + 1] found).isPresent = true := by
      cases hstep : parent^[steps + 1] found with
      | absent =>
        rw [hstep] at hpresent
        cases hpresent
      | present index => rfl
    exact hbelow hpresent (mem_subtree_of_mem_descendants (ih hchild rfl))

/-- The node is the nearest one above with the tag: the first with the tag that going up leads to,
    and nothing if going up leads to none. -/
def Nearest (node : Node tree) (tag : String) (found : Node tree) : Prop :=
  (∃ steps, found = parent^[steps + 1] node ∧ found.has tag = true ∧
    ∀ fewer < steps, (parent^[fewer + 1] node).has tag = false) ∨
  (found = absent ∧ ∀ steps, (parent^[steps + 1] node).has tag = false)

theorem isPresent_of_has {tag : String} (h : node.has tag = true) : node.isPresent = true :=
  (Bool.and_eq_true_iff.mp h).1

theorem nearest_ancestor (node : Node tree) (tag : String) :
    node.Nearest tag (node.ancestor tag) := by
  -- A node that going up leads to and that carries the tag is listed among the nodes above, at that
  -- place.
  have hlists : ∀ steps, (parent^[steps + 1] node).has tag = true →
      node.ancestors[steps]? = some (parent^[steps + 1] node) := by
    intro steps htag
    rw [getElem?_ancestors, if_pos (isPresent_of_has htag)]
  have hfirst : node.ancestor tag = (node.ancestors.find? (·.has tag)).getD absent := by
    rw [ancestor, first, List.head?_filter]
  cases hfind : node.ancestors.find? (·.has tag) with
  | none =>
    refine .inr ⟨by rw [hfirst, hfind]; rfl, fun steps => Bool.eq_false_iff.mpr fun htag => ?_⟩
    exact List.find?_eq_none.mp hfind _ (List.mem_of_getElem? (hlists steps htag)) htag
  | some found =>
    obtain ⟨htag, steps, hlt, hget, hbefore⟩ := List.find?_eq_some_iff_getElem.mp hfind
    have hplace : node.ancestors[steps]? = some found := by rw [List.getElem?_eq_getElem hlt, hget]
    have hreached : parent^[steps + 1] node = found := by
      rw [getElem?_ancestors] at hplace
      split at hplace
      · exact Option.some.inj hplace
      · cases hplace
    have hsame : node.ancestor tag = found := by rw [hfirst, hfind]; rfl
    refine .inl ⟨steps, hsame.trans hreached.symm, hsame ▸ htag, fun fewer hfewer =>
      Bool.eq_false_iff.mpr fun hearly => ?_⟩
    have hlisted := hlists fewer hearly
    rw [List.getElem?_eq_getElem (Nat.lt_trans hfewer hlt), Option.some.injEq] at hlisted
    have hnot := hbefore fewer hfewer
    rw [hlisted, hearly] at hnot
    cases hnot

/-- The nodes above a node are those that it is below. -/
theorem mem_ancestors_iff_mem_descendants {found above : Node tree} :
    above ∈ found.ancestors ↔ found ∈ above.descendants := by
  rw [mem_ancestors_iff]
  constructor
  · rintro ⟨hpresent, steps, hsteps⟩
    exact mem_descendants_of_iterate hpresent hsteps
  · intro hbelow
    cases above with
    | absent => simp [descendants, subtree] at hbelow
    | present index =>
      -- What is gathered below a node is reached by going down, so going up leads back.
      have hgathered : found ∈ (present index).gather fun node => [node] := by
        rw [Tree.gather_present, ← List.map_eq_flatMap]
        exact mem_subtree_of_mem_descendants hbelow
      rcases exists_iterate_of_mem_gatherWithin hgathered with rfl | hsteps
      · exact absurd hbelow (not_mem_descendants_self _)
      · exact ⟨rfl, hsteps⟩

/-- No two nodes are below each other. -/
theorem not_mem_descendants_of_mem (h : found ∈ above.descendants) : above ∉ found.descendants := by
  intro hback
  obtain ⟨index, inner, rfl, rfl, hlt, _⟩ := mem_descendants_iff.mp h
  obtain ⟨_, _, hfirst, hsecond, hgt, _⟩ := mem_descendants_iff.mp hback
  cases hfirst
  cases hsecond
  omega

/-- Among the nodes above a node, those before a given one are those between the two. -/
theorem mem_takeWhile_ancestors_iff {between : Node tree} (h : found ∈ above.descendants) :
    between ∈ found.ancestors.takeWhile (· ≠ above) ↔ found ∈ between.descendants ∧
    between ∈ above.descendants := by
  obtain ⟨hpresent, steps, hsteps⟩ := mem_ancestors_iff.mp (mem_ancestors_iff_mem_descendants.mpr h)
  rw [← mem_ancestors_iff_mem_descendants]
  -- By induction on the number of steps up to the given node.
  induction steps generalizing found with
  | zero =>
    obtain rfl : found.parent = above := hsteps
    rw [ancestors_eq, if_pos hpresent]
    simp only [ne_eq, decide_not, List.takeWhile_cons, decide_true, Bool.not_true,
      Bool.false_eq_true, if_false, List.not_mem_nil, List.mem_cons, false_iff, not_and]
    rintro (rfl | hfurther)
    · exact not_mem_descendants_self _
    · exact not_mem_descendants_of_mem (mem_ancestors_iff_mem_descendants.mp hfurther)
  | succ steps ih =>
    have hparent : found.parent ∈ above.descendants := mem_descendants_of_iterate hpresent hsteps
    have hne : found.parent ≠ above := by
      rintro rfl
      exact not_mem_descendants_self _ hparent
    have hsome : found.parent.isPresent = true := by
      obtain ⟨_, inner, _, hinner, _⟩ := mem_descendants_iff.mp hparent
      rw [hinner]
      rfl
    have hfurther := ih hparent hsteps
    rw [ancestors_eq, if_pos hsome, List.takeWhile_cons, if_pos (by simpa using hne), List.mem_cons,
      List.mem_cons]
    constructor
    · rintro (rfl | hmem)
      · exact ⟨.inl rfl, hparent⟩
      · exact ⟨.inr (hfurther.mp hmem).1, (hfurther.mp hmem).2⟩
    · rintro ⟨rfl | habove, hbetween⟩
      · exact .inl rfl
      · exact .inr (hfurther.mpr ⟨habove, hbetween⟩)

/-- What the child list of the parent tells about a node: which nodes stand before and after
    it, that the previous and the next one are those nearest to it, and that steps to them can
    be taken back. -/
structure Placed (node : Node tree) : Prop where
  list : node.parent.children = node.earlier ++ [node] ++ node.later
  siblings : node.siblings = node.parent.children.filter (· ≠ node)
  next : (node.next = absent ∧ node.later = []) ∨
    (node.next.isPresent = true ∧ ∃ rest, node.later = node.next :: rest)
  previous : (node.previous = absent ∧ node.earlier = []) ∨
    (node.previous.isPresent = true ∧ ∃ front, node.earlier = front ++ [node.previous])
  previous_next : node.next.isPresent = true → node.next.previous = node
  next_previous : node.previous.isPresent = true → node.previous.next = node

end Node

/-- In every tree made from a document the ways between nodes fit together. Every node but the root
    has its place in the child list of its parent; going up from any node ends after no more steps
    than the tree has nodes, and leads to the nearest node with a tag; and neither the root nor
    nothing has siblings. -/
theorem Tree.ofDocument_navigable (document : Document) :
    let tree := Tree.ofDocument document
    (∀ node : Node tree, node.isPresent = true → node ≠ tree.root → node.Placed) ∧
    (∀ (node : Node tree) (tag : String), node.Nearest tag (node.ancestor tag)) ∧
    (∀ node : Node tree, ∃ steps ≤ tree.size, Node.parent^[steps] node = .absent) ∧
    tree.root.siblings = [] ∧ (.absent : Node tree).siblings = [] := by
  intro tree
  refine ⟨fun node hpresent hroot => ?_, Node.nearest_ancestor, fun node => ?_, ?_, ?_⟩
  · have hlist := tree.listed node hpresent hroot
    constructor
    case list => rw [Node.children_parent hlist, List.append_assoc, List.singleton_append]
    case siblings => exact Node.siblings_eq_filter hlist
    case next => exact Node.next_spec hlist
    case previous => exact Node.previous_spec hlist
    case previous_next => exact Node.previous_next hlist
    case next_previous => exact Node.next_previous hlist
  · exact Node.exists_iterate_parent_eq_absent fun index _ => index.isLt
  · exact Node.siblings_of_parent_absent (Node.parent_root)
  · exact Node.siblings_of_parent_absent Node.parent_absent

/-- A root with three leaves, of which the first and the last carry the same tag and text. -/
def Document.threeLeaves : Document :=
  let leaf (tag : String) : Document := .node ⟨tag, some "x", none, none⟩ []
  .node ⟨"top", none, none, none⟩ [leaf "a", leaf "b", leaf "a"]

/-- The second leaf stands between the two others, though these cannot be told apart but by
    their places. -/
theorem Tree.ofDocument_navigable_threeLeaves :
    let tree := Tree.ofDocument .threeLeaves
    let node (index : Nat) : Node tree := .ofIndex tree index
    (node 2).isPresent = true ∧ node 2 ≠ tree.root ∧ (node 2).Placed ∧
    (node 2).siblings = [node 1, node 3] ∧
      (node 2).next = node 3 ∧ (node 3).previous = node 2 ∧ (node 2).Nearest "top" tree.root := by
  intro tree node
  have hpresent : (node 2).isPresent = true := by decide +kernel
  have hroot : node 2 ≠ tree.root := by decide +kernel
  have hnext : (node 2).next = node 3 := by decide +kernel
  have habove : (node 2).ancestor "top" = tree.root := by decide +kernel
  obtain ⟨hplaced, hnearest, _⟩ := Tree.ofDocument_navigable .threeLeaves
  have hplace := hplaced (node 2) hpresent hroot
  refine ⟨hpresent, hroot, hplace, by decide +kernel, hnext, ?_, habove ▸ hnearest (node 2) "top"⟩
  exact hnext ▸ hplace.previous_next (by rw [hnext]; decide +kernel)

end Lineage
