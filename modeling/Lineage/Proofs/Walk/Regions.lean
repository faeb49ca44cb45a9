import Mathlib.Data.List.Pairwise
import Mathlib.Data.Set.BooleanAlgebra
import Mathlib.Order.CompletePartialOrder
import Lineage.Proofs.Tree.Spans
import Lineage.Proofs.Walk.Script

/-!
# The parts of a tree that steps work on

The steps of a rule visit nodes whose subtrees do not meet, so no node is visited twice, and what
one step does in its part of the tree another one does not see. `Splits` says this of a script: it
works in a region of the tree, and where one part of the script follows another, they work in
regions that do not meet.

## Key results

- `Split`: nodes whose subtrees lie in a region and do not meet
- `Script.splits_nodeScript`: the steps of a node work below the node, and visit every part of it at
  most once
-/

namespace Lineage

namespace Node

variable {tree : Tree}

/-- The nodes below a node, as a region. -/
def below (node : Node tree) : Set (Node tree) :=
  {found | found ∈ node.descendants}

/-- A node and the nodes below it, as a region. -/
def span (node : Node tree) : Set (Node tree) :=
  {found | found ∈ node.subtree}

/-- Several nodes and the nodes below them, as a region. -/
def spans (nodes : List (Node tree)) : Set (Node tree) :=
  {found | ∃ node ∈ nodes, found ∈ node.span}

@[simp] theorem span_absent : (absent : Node tree).span = ∅ := by
  simp [span, subtree]

theorem below_subset_span (node : Node tree) : node.below ⊆ node.span :=
  fun _ h => mem_subtree_of_mem_descendants h

/-! ### The siblings after a node -/

/-- A child and the siblings after it, among the children of the node. -/
theorem cons_later_sublist {node below : Node tree} (h : below ∈ node.children) :
    (below :: below.later).Sublist node.children := by
  obtain ⟨front, back, hsplit⟩ := List.append_of_mem h
  rw [later_of_children_eq hsplit, hsplit]
  exact List.sublist_append_right _ _

/-- Going on to the next sibling from each of the last children of a node. -/
theorem map_next_of_children_eq {node below : Node tree} {front back : List (Node tree)}
    (h : node.children = front ++ below :: back) : (below :: back).map next = back ++ [absent] := by
  induction back generalizing front below with
  | nil => simp [next, later_of_children_eq h, first]
  | cons other back ih =>
    have hrest : node.children = (front ++ [below]) ++ other :: back := by rw [h]; simp
    rw [List.map_cons, ih hrest, next, later_of_children_eq h]
    rfl

end Node

namespace Walk

variable {tree : Tree}

/-! ### Nodes in a region -/

/-- The subtrees of the nodes lie in the region and do not meet. -/
structure Split (region : Set (Node tree)) (nodes : List (Node tree)) : Prop where
  inside : ∀ node ∈ nodes, node.span ⊆ region
  apart : nodes.Pairwise fun first second => Disjoint first.span second.span

namespace Split

variable {region larger : Set (Node tree)} {node first : Node tree}
  {nodes rest fewer : List (Node tree)}

theorem mono (h : Split region nodes) (hlarger : region ⊆ larger) : Split larger nodes :=
  ⟨fun node hnode => (h.inside node hnode).trans hlarger, h.apart⟩

theorem sublist (h : Split region nodes) (hfewer : fewer.Sublist nodes) : Split region fewer :=
  ⟨fun node hnode => h.inside node (hfewer.mem hnode), h.apart.sublist hfewer⟩

theorem nil : Split region [] :=
  ⟨fun _ h => absurd h List.not_mem_nil, .nil⟩

theorem singleton (h : node.span ⊆ region) : Split region [node] :=
  ⟨fun _ hother => List.mem_singleton.mp hother ▸ h, List.pairwise_singleton _ _⟩

theorem spans_subset (h : Split region nodes) : Node.spans nodes ⊆ region := by
  rintro found ⟨node, hnode, hfound⟩
  exact h.inside node hnode hfound

/-- The nodes split the region that they span. -/
theorem tight (h : Split region nodes) : Split (Node.spans nodes) nodes :=
  ⟨fun node hnode _ hfound => ⟨node, hnode, hfound⟩, h.apart⟩

theorem tail (h : Split region (first :: rest)) : Split region rest :=
  h.sublist (List.sublist_cons_self first rest)

/-- The first node does not meet the others. -/
theorem disjoint_spans (h : Split region (first :: rest)) :
    Disjoint first.span (Node.spans rest) := by
  rw [Set.disjoint_left]
  rintro found hfirst ⟨other, hother, hfound⟩
  exact Set.disjoint_left.mp ((List.pairwise_cons.mp h.apart).1 other hother) hfirst hfound

/-- A node that is in no other node's way may be added, or nothing. -/
theorem cons (hfirst : first.span ⊆ region)
    (hapart : ∀ other ∈ rest, Disjoint first.span other.span) (hrest : Split region rest) :
    Split region (first :: rest) :=
  ⟨List.forall_mem_cons.mpr ⟨hfirst, hrest.inside⟩, List.pairwise_cons.mpr ⟨hapart, hrest.apart⟩⟩

end Split

section

variable (node : Node tree)

/-- The children of a node split what is below it. -/
theorem split_children : Split node.below node.children where
  inside _ hchild := fun _ hfound => Node.subtree_subset_of_mem_children hchild hfound
  apart := (Node.disjoint_children node).imp Set.disjoint_left.mpr

/-- Two different children do not meet. -/
theorem disjoint_of_mem_children {node first second : Node tree} (hfirst : first ∈ node.children)
    (hsecond : second ∈ node.children) (hne : first ≠ second) :
    Disjoint first.span second.span := by
  have hsymm : Std.Symm fun first second : Node tree => Disjoint first.span second.span :=
    ⟨fun _ _ h => h.symm⟩
  exact (split_children node).apart.forall hfirst hsecond hne

/-- What is below a child is below its parent. -/
theorem span_subset_below {node below : Node tree} (h : below = .absent ∨ below ∈ node.children) :
    below.span ⊆ node.below := by
  rcases h with rfl | hmem
  · rw [Node.span_absent]
    exact Set.empty_subset _
  · exact (split_children node).inside _ hmem

theorem span_child (tag : String) : (node.child tag).span ⊆ node.below :=
  span_subset_below ((Node.child_cases node tag).imp_right And.left)

theorem below_child (tag : String) : (node.child tag).below ⊆ node.below :=
  (Node.below_subset_span _).trans (span_child node tag)

theorem below_path (tags : List String) : (node.path tags).below ⊆ node.below := by
  induction tags generalizing node with
  | nil => exact subset_rfl
  | cons tag rest ih => exact (ih (node.child tag)).trans (below_child node tag)

/-- A child and the siblings after it. -/
theorem split_later {node first : Node tree} (hfirst : first = .absent ∨ first ∈ node.children) :
    Split node.below (first :: first.later) := by
  rcases hfirst with rfl | hmem
  · exact .singleton (span_subset_below (.inl rfl))
  · exact (split_children node).sublist (Node.cons_later_sublist hmem)

/-- The next siblings of all children. -/
theorem split_nexts : Split node.below (node.children.map Node.next) := by
  have hchildren := split_children node
  cases hsplit : node.children with
  | nil => exact .nil
  | cons first rest =>
    rw [Node.map_next_of_children_eq (List.nil_append (first :: rest) ▸ hsplit)]
    -- The next siblings are all children but the first, and no node at the end.
    rw [hsplit] at hchildren
    refine ⟨fun other hother => ?_,
      List.pairwise_append.mpr ⟨hchildren.tail.apart, List.pairwise_singleton _ _, ?_⟩⟩
    · rcases List.mem_append.mp hother with hmem | hlast
      · exact hchildren.tail.inside other hmem
      · rw [List.mem_singleton.mp hlast]
        exact span_subset_below (.inl rfl)
    · intro other _ last hlast
      rw [List.mem_singleton.mp hlast, Node.span_absent]
      exact disjoint_bot_right

/-- The parts of a query. -/
theorem split_queryParts {dialect : Dialect}
    (hclauses : dialect.vocabulary.queries.withClause ≠ dialect.vocabulary.queries.fromClause) :
    Split node.below (dialect.queryParts node) := by
  have hbody : Split node.below (dialect.queryBody node) :=
    (split_children node).sublist List.filter_sublist
  -- A child with the tag of a clause is not part of the body.
  have hapart : ∀ tag, tag = dialect.vocabulary.queries.withClause ∨
      tag = dialect.vocabulary.queries.fromClause →
      ∀ other ∈ dialect.queryBody node, Disjoint (node.child tag).span other.span := by
    intro tag htag other hother
    obtain ⟨hmem, hkept⟩ := List.mem_filter.mp hother
    rcases Node.child_cases node tag with habsent | ⟨hchild, hhas⟩
    · rw [habsent, Node.span_absent]
      exact disjoint_bot_left
    · refine disjoint_of_mem_children hchild hmem fun hsame => ?_
      rw [hsame] at hhas
      rcases htag with rfl | rfl <;> simp [hhas] at hkept
  have hfrom := Split.cons (span_child node _) (hapart _ (.inr rfl)) hbody
  refine hfrom.cons (span_child node _) fun other hother => ?_
  rcases List.mem_cons.mp hother with rfl | hother
  · rcases Node.child_cases node dialect.vocabulary.queries.withClause with
        habsent | ⟨hwith, hhasWith⟩
    · rw [habsent, Node.span_absent]
      exact disjoint_bot_left
    rcases Node.child_cases node dialect.vocabulary.queries.fromClause with
        habsent | ⟨hfrom, hhasFrom⟩
    · rw [habsent, Node.span_absent]
      exact disjoint_bot_right
    refine disjoint_of_mem_children hwith hfrom fun hsame => hclauses ?_
    rw [← Node.tag_of_has hhasWith, hsame, Node.tag_of_has hhasFrom]
  · exact hapart _ (.inl rfl) other hother

end

/-! ### Scripts in a region -/

namespace Script

/-- The script works in the region. Where one part of it follows another, they work in regions that
    do not meet, and the nodes that it visits in a row have subtrees that do not meet. -/
def Splits : {α : Type} → Script tree α → Set (Node tree) → Prop
  | _, quiet _ _, _ => True
  | _, send _, _ => True
  | _, flush _, _ => True
  | _, closeArm, _ => True
  | _, nextArm _, _ => True
  | _, visits nodes, region => Split region nodes
  | _, query parts, region => Split region parts
  | _, within _ body, region => body.Splits region
  | _, andThen first next, region =>
    ∃ front back, front ⊆ region ∧ back ⊆ region ∧ Disjoint front back ∧
      first.Splits front ∧ ∀ value, (next value).Splits back

variable {α β ι : Type} {region : Set (Node tree)} {dialect : Dialect} {node : Node tree}

/-- A first part that visits nothing. -/
theorem splits_after {first : Script tree α} {next : α → Script tree β} (hfirst : first.Splits ∅)
    (hnext : ∀ value, (next value).Splits region) : (first >>= next).Splits region :=
  ⟨∅, region, Set.empty_subset _, subset_rfl, Set.empty_disjoint _, hfirst, hnext⟩

/-- A last part that visits nothing. -/
theorem splits_before {first : Script tree α} {next : α → Script tree β}
    (hfirst : first.Splits region) (hnext : ∀ value, (next value).Splits ∅) :
    (first >>= next).Splits region :=
  ⟨region, ∅, subset_rfl, Set.empty_subset _, Set.disjoint_empty _, hfirst, hnext⟩

/-- The steps for several items, each of which has a part of the region for itself. -/
theorem splits_forEach {items : List ι} {steps : ι → Script tree Unit} (part : ι → Set (Node tree))
    (hinside : ∀ item ∈ items, part item ⊆ region)
    (hsteps : ∀ item ∈ items, (steps item).Splits (part item))
    (hapart : items.Pairwise fun first second => Disjoint (part first) (part second)) :
    (forEach items steps).Splits region := by
  induction items generalizing region with
  | nil => trivial
  | cons item rest ih =>
    obtain ⟨hitem, hrest⟩ := List.pairwise_cons.mp hapart
    -- One part is that of the first item, the other one is made of the parts of the rest.
    refine ⟨part item, {found | ∃ other ∈ rest, found ∈ part other},
      hinside item List.mem_cons_self, ?_, ?_, hsteps item List.mem_cons_self, fun _ => ?_⟩
    · rintro found ⟨other, hother, hfound⟩
      exact hinside other (List.mem_cons_of_mem _ hother) hfound
    · rw [Set.disjoint_left]
      rintro found hfirst ⟨other, hother, hfound⟩
      exact Set.disjoint_left.mp (hitem other hother) hfirst hfound
    · exact ih (fun other hother found hfound => ⟨other, hother, hfound⟩)
        (fun other hother => hsteps other (List.mem_cons_of_mem _ hother)) hrest

/-- The steps for items that are made from other items. -/
theorem forEach_map {κ : Type} (items : List κ) (make : κ → ι) (steps : ι → Script tree Unit) :
    forEach (items.map make) steps = forEach items fun item => steps (make item) := by
  induction items with
  | nil => rfl
  | cons item rest ih => simp only [List.map_cons, forEach, ih]

/-- The steps for several nodes, each of which works below its own. -/
theorem splits_forEach_of_split {items : List ι} {steps : ι → Script tree Unit}
    (holder : ι → Node tree) (hsplit : Split region (items.map holder))
    (hsteps : ∀ item ∈ items, (steps item).Splits (holder item).span) :
    (forEach items steps).Splits region := by
  have hapart := hsplit.apart
  rw [List.pairwise_map] at hapart
  exact splits_forEach (fun item => (holder item).span)
    (fun item hitem => hsplit.inside _ (List.mem_map_of_mem hitem)) hsteps hapart

theorem splits_within {frame : Frame} {body : Script tree Unit} (h : body.Splits region) :
    (within frame body).Splits region := h

theorem splits_identifier : (identifier dialect node).Splits region := by
  unfold identifier
  split
  · trivial
  · exact splits_after trivial fun _ => trivial

theorem splits_tableName : (tableName dialect node).Splits region := by
  simp only [tableName]
  split
  · refine splits_after trivial fun _ => splits_after trivial fun _ => ?_
    split <;> trivial
  · trivial

theorem splits_setOperation (h : Split region node.children) :
    (setOperation dialect node).Splits region := by
  unfold setOperation
  dsimp only
  split
  · split
    · exact splits_after trivial fun _ => splits_after trivial fun _ => h
    · exact splits_after trivial fun _ => h
  · exact splits_after trivial fun _ => h

theorem splits_namedQuery {query : Dialect.NamedQuery tree} (h : Split region query.body) :
    (namedQuery dialect query).Splits region := by
  unfold namedQuery
  split
  · exact splits_after trivial fun _ => splits_before h fun _ => trivial
  · trivial

theorem splits_element {item : Dialect.Element tree} {position : Nat}
    (h : Split region item.expression) : (element dialect item position).Splits region := by
  refine splits_before ?_ fun _ => trivial
  unfold gather
  split
  · exact splits_after trivial fun _ => splits_after trivial fun _ => h
  · exact h

theorem splits_insertValues {values : List (Node tree)} {columns : List BindingId} {table : String}
    (h : Split region values) : (insertValues values columns table).Splits region := by
  unfold insertValues
  split
  · next hlength =>
    refine splits_forEach_of_split Prod.fst ?_ fun item _ => Split.singleton subset_rfl
    rw [List.map_fst_zip (by omega)]
    exact h
  · trivial

theorem splits_varDeclaration : (varDeclaration dialect node).Splits node.below := by
  refine splits_after trivial fun _ => splits_after trivial fun _ => ?_
  simp only
  split
  · exact (split_children _).mono (below_child node _)
  · trivial

/-- The arguments of a call. -/
theorem split_arguments : Split node.below (dialect.argumentsOf node) :=
  ((split_children _).sublist List.filter_sublist).mono (below_path node _)

theorem splits_argument (call : Option BindingId) (argument : Node tree) (position : Nat) :
    (Script.argument dialect call argument position).Splits argument.span := by
  refine splits_after trivial fun _ => splits_after trivial fun _ => ?_
  have hvalue : Split argument.below (dialect.argumentValue argument) :=
    (split_children argument).sublist List.filter_sublist
  exact hvalue.mono argument.below_subset_span

theorem splits_call (statement : Bool) : (call dialect statement node).Splits node.below := by
  have hsplit : Split node.below (dialect.argumentsOf node) := split_arguments
  refine splits_after trivial fun name => splits_after trivial fun found => ?_
  cases found with
  | some routine =>
    have harguments : ∀ call, (forEach (dialect.argumentsOf node).zipIdx fun item =>
        Script.argument dialect call item.1 item.2).Splits node.below := by
      refine fun call => splits_forEach_of_split Prod.fst ?_ fun item _ => splits_argument call _ _
      rw [List.zipIdx_map_fst]
      exact hsplit
    have hcall : (callOf dialect routine name statement node).Splits node.below := by
      cases statement
      · exact splits_after trivial fun call => splits_after trivial fun _ => harguments call
      · exact splits_after (splits_after trivial fun _ => trivial) fun call =>
          splits_after trivial fun _ => harguments call
    exact hcall
  | none =>
    cases statement
    · exact hsplit
    · trivial

theorem splits_fieldSuffix : (fieldSuffix dialect node).Splits node.below := by
  simp only [fieldSuffix]
  split
  · exact splits_after trivial fun _ => trivial
  · exact split_children node

theorem splits_conditional : (conditional node).Splits node.below := by
  have hsplit := split_later (Node.childAt_cases node 0)
  exact ⟨_, _, hsplit.inside _ List.mem_cons_self, hsplit.tail.spans_subset, hsplit.disjoint_spans,
    .singleton subset_rfl, fun _ => hsplit.tail.tight⟩

/-- Rows that come from a first node flow into a record, and the siblings after that node follow. -/
theorem splits_overRows {record header : Node tree} {sources : List (Node tree)}
    (hheader : header = .absent ∨ header ∈ node.children) (hsources : Split header.span sources) :
    (if record.isPresent then (do
      let id ← quiet _ (quiet_declare (.ofName (dialect.nameOf record) .record))
      within (.assignment (some id)) (visits sources)
      visits header.later)
    else quiet _ (.fail (.misshapen .loopWithoutRecord) rfl) : Script tree Unit).Splits
    node.below := by
  have hsplit := split_later hheader
  split
  · exact splits_after trivial fun _ => ⟨_, _, hsplit.inside _ List.mem_cons_self,
      hsplit.tail.spans_subset, hsplit.disjoint_spans, hsources, fun _ => hsplit.tail.tight⟩
  · trivial

theorem splits_loop : (loop dialect node).Splits node.below := by
  simp only [loop, Splits, Dialect.loopParts]
  -- In one dialect a loop over rows has a header of its own, in the other the second child is it.
  cases dialect.vocabulary.statements.loopHeader with
  | some tag =>
    have hheader := (Node.child_cases node tag).imp_right And.left
    have hsources := (split_later (Node.childAt_cases (node.child tag) 0)).tail.mono
      (Node.below_subset_span _)
    simp only
    by_cases hpresent : (node.child tag).isPresent = true
    · simp only [hpresent, if_true]
      exact splits_overRows hheader hsources
    · simp only [hpresent]
      exact split_children node
  | none => exact splits_overRows (Node.childAt_cases node 1) (.singleton subset_rfl)

/-- Each named subquery has a part of the clause for itself. -/
theorem splits_namedQueries :
    (forEach (dialect.namedQueries node) (namedQuery dialect)).Splits node.below := by
  simp only [Dialect.namedQueries]
  cases dialect.vocabulary.queries.withEntry with
  | some tag =>
    simp only
    rw [forEach_map]
    -- Each subquery has an entry, whose children it is made of.
    refine splits_forEach_of_split id ?_ fun entry _ => splits_namedQuery ?_
    · rw [List.map_id]
      exact (split_children node).sublist List.filter_sublist
    · exact ((split_children entry).sublist List.filter_sublist).mono entry.below_subset_span
  | none =>
    simp only
    rw [forEach_map]
    -- Names and subqueries alternate, so each subquery is the next sibling of its name.
    refine splits_forEach_of_split Node.next ?_ fun name _ =>
      splits_namedQuery (.singleton subset_rfl)
    exact (split_nexts node).sublist (List.filter_sublist.map Node.next)

/-- Each element of a select list has a part of the list for itself. -/
theorem splits_selectList : (selectList dialect node).Splits node.below := by
  show (forEach (dialect.elements node).zipIdx fun item => element dialect item.1 item.2).Splits
      node.below
  have hchildren := split_children node
  simp only [Dialect.elements]
  cases dialect.vocabulary.queries.element with
  | some tag =>
    simp only
    rw [List.zipIdx_map, forEach_map]
    refine splits_forEach_of_split Prod.fst ?_ fun item _ => splits_element ?_
    · rw [List.zipIdx_map_fst]
      exact hchildren.sublist List.filter_sublist
    · exact ((split_children item.1).sublist List.filter_sublist).mono item.1.below_subset_span
  | none =>
    simp only
    rw [List.zipIdx_map, forEach_map]
    refine splits_forEach_of_split Prod.fst ?_ fun item _ => splits_element (.singleton subset_rfl)
    rw [List.zipIdx_map_fst]
    exact hchildren.sublist List.filter_sublist

theorem splits_insert : (insert dialect node).Splits node.below := by
  have hvalues : ∀ values, (dialect.insertParts node).values = some values →
      Split node.below values := by
    intro values hlisted
    simp only [Dialect.insertParts, Option.ite_none_right_eq_some, Option.some.injEq] at hlisted
    rw [← hlisted.2]
    have hholder := (below_path (node.child dialect.vocabulary.inserts.values)
      dialect.vocabulary.inserts.valuesPath).trans (below_child node _)
    exact ((split_children _).sublist List.filter_sublist).mono hholder
  simp only [insert]
  split
  · refine splits_after trivial fun table => splits_after trivial fun columns => ?_
    split
    · next values hlisted => exact splits_insertValues (hvalues values hlisted)
    · split
      · exact .singleton (span_child node _)
      · trivial
  · trivial

/-- The body of a package. -/
theorem split_packageBody : Split node.below (dialect.packageBody node) := by
  simp only [Dialect.packageBody]
  split
  · have hheader :=
      (Node.child_cases node dialect.vocabulary.declarations.packageName).imp_right And.left
    exact (split_later hheader).tail.sublist List.filter_sublist
  · exact (split_children node).sublist List.filter_sublist

/-- The body of a routine. -/
theorem split_routineBody : Split node.below (dialect.routineBody node) :=
  (split_children node).sublist List.filter_sublist

/-- The steps of a rule work below its node, and visit every part of it at most once. -/
theorem splits_ofRule
    (hclauses : dialect.vocabulary.queries.withClause ≠ dialect.vocabulary.queries.fromClause)
    (rule : Rule) : (ofRule dialect node rule).Splits node.below := by
  have hchildren := split_children node
  cases rule with
  | skip => trivial
  | package =>
    exact splits_after trivial fun _ => splits_after trivial fun _ =>
      splits_within (splits_after trivial fun _ => split_packageBody)
  | routine =>
    exact splits_after trivial fun _ => splits_after trivial fun _ =>
      splits_within (splits_after trivial fun _ => split_routineBody)
  | varDeclaration => exact splits_varDeclaration
  | cursor =>
    exact splits_after trivial fun _ => splits_after trivial fun _ => splits_after trivial fun _ =>
      splits_within (splits_after trivial fun _ => .singleton (span_child node _))
  | callStatement => exact splits_call true
  | functionCall => exact splits_call false
  | identifier => exact splits_identifier
  | reference => exact splits_after trivial fun _ => trivial
  | fieldChain => exact hchildren
  | fieldSuffix => exact splits_fieldSuffix
  | returnStatement => exact splits_after trivial fun _ => hchildren
  | assignment => exact hchildren
  | fetch => trivial
  | conditional => exact splits_conditional
  | loop => exact splits_loop
  | select =>
    have hparts := split_queryParts node hclauses
    refine splits_after trivial fun claimed => ?_
    cases claimed with
    | none => exact hparts
    | some clause => exact splits_after trivial fun _ => hparts
  | withClause => exact splits_namedQueries
  | selectList => exact splits_selectList
  | insert => exact splits_insert
  | tableName => exact splits_tableName
  | effect => exact hchildren
  | setOperation => exact splits_setOperation hchildren

/-- The steps of a node work below it, and visit every part of it at most once. -/
theorem splits_nodeScript
    (hclauses : dialect.vocabulary.queries.withClause ≠ dialect.vocabulary.queries.fromClause) :
    (nodeScript dialect node).Splits node.below := by
  unfold nodeScript
  split
  · exact splits_ofRule hclauses _
  · exact split_children node

end Script

end Walk

end Lineage
