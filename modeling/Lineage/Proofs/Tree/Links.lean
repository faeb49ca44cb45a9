import Lineage.Tree.Node

/-!
# Links between the nodes of a tree

A tree is linked: a node comes before its children, its children are listed in
ascending order, and each of them names it as its parent. The steps of `Node` rest on these links.

## Key results

- `Tree.linked`: every tree is linked
- `Node.parent_of_mem_children`: a child's parent is the node that lists it
- `Node.Beneath`: the order in which a walk goes down, and how steps keep to it
- `Node.earlier_of_children_eq`, `Node.later_of_children_eq`: the siblings of a node are those
  listed before and after it
-/

namespace Lineage

/-! ### Documents -/

namespace Document

/-- A node with nothing but a tag and children. -/
def inner (tag : String) (children : List Document) : Document :=
  .node ⟨tag, none, none, none⟩ children

/-- A segment of a name. -/
def segment (text : String) : Document :=
  .node ⟨"id_expression", some text, none, none⟩ []

/-- The name in a declaration. -/
def identifier (text : String) : Document :=
  .inner "identifier" [.segment text]

/-- A table where a query names its sources. -/
def source (table : String) : Document :=
  .inner "dml_table_expression_clause" [.inner "tableview_name" [.segment table]]

end Document

/-! ### Links -/

/-- The entries of consecutive nodes, the first of which has the index `start`, are linked
    among each other. -/
def Entry.Linked (start : Nat) (entries : List Entry) : Prop :=
  ∀ place entry, entries[place]? = some entry →
    entry.children.Pairwise (· < ·) ∧
    ∀ child ∈ entry.children, start + place < child ∧
      ∃ below, entries[child - start]? = some below ∧ below.parent = some (start + place)

namespace Entry

theorem linked_nil (start : Nat) : Linked start [] := by
  intro place entry h
  simp at h

/-- Linked entries stay linked when linked entries of later nodes follow them. -/
theorem Linked.append {start : Nat} {front back : List Entry} (hfront : Linked start front)
    (hback : Linked (start + front.length) back) : Linked start (front ++ back) := by
  intro place entry h
  -- Links lead from an entry to later ones of the same part, so the parts can be taken one by one.
  by_cases hplace : place < front.length
  · rw [List.getElem?_append_left hplace] at h
    obtain ⟨hsorted, hchildren⟩ := hfront place entry h
    refine ⟨hsorted, fun child hchild => ?_⟩
    obtain ⟨hlt, below, hbelow, hparent⟩ := hchildren child hchild
    have hin : child - start < front.length := (List.getElem?_eq_some_iff.mp hbelow).1
    exact ⟨hlt, below, by rw [List.getElem?_append_left hin]; exact hbelow, hparent⟩
  · rw [List.getElem?_append_right (by omega)] at h
    obtain ⟨hsorted, hchildren⟩ := hback _ entry h
    refine ⟨hsorted, fun child hchild => ?_⟩
    obtain ⟨hlt, below, hbelow, hparent⟩ := hchildren child hchild
    have hshift : child - (start + front.length) = child - start - front.length := by omega
    refine ⟨by omega, below, ?_, by rw [hparent]; congr 1; omega⟩
    rw [List.getElem?_append_right (by omega), ← hshift]
    exact hbelow

/-- A node may be put in front of linked entries if these hold its children in order. -/
theorem Linked.cons {start : Nat} {entry : Entry} {rest : List Entry}
    (hsorted : entry.children.Pairwise (· < ·))
    (hchildren : ∀ child ∈ entry.children, start < child ∧
      ∃ below, rest[child - (start + 1)]? = some below ∧ below.parent = some start)
    (hrest : Linked (start + 1) rest) : Linked start (entry :: rest) := by
  intro place found h
  cases place with
  | zero =>
    obtain rfl : entry = found := by simpa using h
    refine ⟨hsorted, fun child hchild => ?_⟩
    obtain ⟨hlt, below, hbelow, hparent⟩ := hchildren child hchild
    have hsucc : child - start = (child - (start + 1)) + 1 := by omega
    exact ⟨by omega, below, by rw [hsucc, List.getElem?_cons_succ]; exact hbelow, hparent⟩
  | succ place =>
    -- All others were linked before, with places that count from the next index.
    rw [List.getElem?_cons_succ] at h
    obtain ⟨hinner, hbelow⟩ := hrest place found h
    refine ⟨hinner, fun child hchild => ?_⟩
    obtain ⟨hlt, below, hget, hparent⟩ := hbelow child hchild
    have hsucc : child - start = (child - (start + 1)) + 1 := by omega
    refine ⟨by omega, below, by rw [hsucc, List.getElem?_cons_succ]; exact hget, ?_⟩
    rw [hparent]; congr 1; omega

end Entry

namespace Document

mutual
/-- A document has as many entries as nodes. -/
theorem length_entries (parent : Option Nat) (index : Nat) :
    ∀ document : Document, (document.entries parent index).length = document.size
  | node label children => by
    simp only [entries, size, List.length_cons]
    rw [length_entriesOfAll index (index + 1) children]

theorem length_entriesOfAll (parent index : Nat) :
    ∀ documents : List Document, (entriesOfAll parent index documents).length = sizeOfAll documents
  | [] => by simp [entriesOfAll, sizeOfAll]
  | document :: rest => by
    simp only [entriesOfAll, sizeOfAll, List.length_append]
    rw [length_entries (some parent) index document,
      length_entriesOfAll parent (index + document.size) rest]
end

theorem size_pos (document : Document) : 0 < document.size := by
  cases document
  simp [size]

/-- The first entry of a document is that of its root. -/
theorem entries_parent (parent : Option Nat) (index : Nat) (document : Document) :
    ∃ entry rest, document.entries parent index = entry :: rest ∧ entry.parent = parent := by
  cases document
  simp [entries]

theorem le_of_mem_indexesFrom {index child : Nat} {documents : List Document}
    (h : child ∈ indexesFrom index documents) : index ≤ child := by
  induction documents generalizing index with
  | nil => simp [indexesFrom] at h
  | cons document rest ih =>
    simp only [indexesFrom, List.mem_cons] at h
    rcases h with rfl | h
    · exact Nat.le_refl _
    · have := ih h
      omega

/-- Consecutive documents get ascending indexes. -/
theorem pairwise_indexesFrom (index : Nat) (documents : List Document) :
    (indexesFrom index documents).Pairwise (· < ·) := by
  induction documents generalizing index with
  | nil => simp [indexesFrom]
  | cons document rest ih =>
    simp only [indexesFrom, List.pairwise_cons]
    refine ⟨fun child hchild => ?_, ih _⟩
    have := le_of_mem_indexesFrom hchild
    have := document.size_pos
    omega

/-- At the index of each of several documents stands its root, which names the common parent. -/
theorem parent_of_mem_indexesFrom {parent index child : Nat} {documents : List Document}
    (h : child ∈ indexesFrom index documents) :
    ∃ below, (entriesOfAll parent index documents)[child - index]? = some below ∧
      below.parent = some parent := by
  induction documents generalizing index with
  | nil => simp [indexesFrom] at h
  | cons document rest ih =>
    simp only [indexesFrom, List.mem_cons] at h
    simp only [entriesOfAll]
    rcases h with rfl | h
    · obtain ⟨entry, others, heq, hparent⟩ := entries_parent (some parent) child document
      refine ⟨entry, ?_, hparent⟩
      rw [heq]; simp
    · obtain ⟨below, hbelow, hparent⟩ := ih h
      have hle := le_of_mem_indexesFrom h
      have hlen := length_entries (some parent) index document
      refine ⟨below, ?_, hparent⟩
      rw [List.getElem?_append_right (by omega), hlen]
      rw [show child - index - document.size = child - (index + document.size) by omega]
      exact hbelow

mutual
/-- The entries of a document are linked. -/
theorem linked_entries (parent : Option Nat) (index : Nat) :
    ∀ document : Document, Entry.Linked index (document.entries parent index)
  | node label children => by
    simp only [entries]
    refine Entry.Linked.cons (pairwise_indexesFrom _ _) (fun child hchild => ?_)
      (linked_entriesOfAll index (index + 1) children)
    have hle := le_of_mem_indexesFrom hchild
    exact ⟨by omega, parent_of_mem_indexesFrom hchild⟩

theorem linked_entriesOfAll (parent index : Nat) :
    ∀ documents : List Document, Entry.Linked index (entriesOfAll parent index documents)
  | [] => by simp only [entriesOfAll]; exact Entry.linked_nil _
  | document :: rest => by
    simp only [entriesOfAll]
    refine Entry.Linked.append (linked_entries (some parent) index document) ?_
    rw [length_entries (some parent) index document]
    exact linked_entriesOfAll parent (index + document.size) rest
end

end Document

/-- The links of a tree: a node is listed before its children, which it lists in order and which
    name it as their parent; the first node has no parent. -/
structure Tree.Linked (tree : Tree) : Prop where
  ordered : ∀ index : Fin tree.size, (tree.entry index).children.Pairwise (· < ·)
  child : ∀ index : Fin tree.size, ∀ below ∈ (tree.entry index).children, index.val < below ∧
    ∃ valid : below < tree.size, (tree.entry ⟨below, valid⟩).parent = some index.val
  root : ∀ index : Fin tree.size, index.val = 0 → (tree.entry index).parent = none

theorem Tree.getElem?_entries {tree : Tree} (index : Fin tree.size) :
    tree.entries.toList[index.val]? = some (tree.entry index) := by
  have valid : index.val < tree.entries.size := index.isLt
  rw [Array.getElem?_toList, Array.getElem?_eq_getElem valid]
  rfl

theorem Tree.exists_document (tree : Tree) : ∃ document, tree = ofDocument document := by
  obtain ⟨_, document, rfl⟩ := tree
  exact ⟨document, rfl⟩

/-- Every tree is linked. -/
theorem Tree.linked (tree : Tree) : tree.Linked := by
  obtain ⟨document, rfl⟩ := tree.exists_document
  have hlinked := Document.linked_entries none 0 document
  refine ⟨fun index => ?_, fun index below hbelow => ?_, fun index hzero => ?_⟩
  · exact (hlinked index _ (Tree.getElem?_entries index)).1
  · obtain ⟨hlt, entry, hentry, hparent⟩ :=
      (hlinked index _ (Tree.getElem?_entries index)).2 below hbelow
    rw [Nat.sub_zero] at hentry
    obtain ⟨valid, hget⟩ := List.getElem?_eq_some_iff.mp hentry
    refine ⟨by omega, by simpa [Tree.size, Tree.ofDocument] using valid, ?_⟩
    rw [Nat.zero_add] at hparent
    rw [← hparent, ← hget]
    rfl
  · -- The first entry is that of the document itself, which has no parent.
    obtain ⟨entry, rest, heq, hparent⟩ := Document.entries_parent none 0 document
    have hfirst : (Tree.ofDocument document).entries.toList[index.val]? = some entry := by
      simp only [Tree.ofDocument, heq, hzero, List.getElem?_cons_zero]
    rw [Tree.getElem?_entries index] at hfirst
    rw [Option.some.inj hfirst]
    exact hparent

namespace Node

variable {tree : Tree} {node below : Node tree}

/-- What holds of all nodes of a tree can be checked node by node. -/
instance {p : Node tree → Prop} [DecidablePred p] : Decidable (∀ node, p node) :=
  decidable_of_iff (p absent ∧ ∀ index, p (present index))
    ⟨fun h node => by cases node with
      | absent => exact h.1
      | present index => exact h.2 index,
    fun h => ⟨h absent, fun index => h (present index)⟩⟩

/-! ### Down -/

theorem children_absent : (absent : Node tree).children = [] := rfl

theorem parent_absent : (absent : Node tree).parent = absent := rfl

/-- A child is a present node after its parent, which it names. -/
theorem exists_of_mem_children (h : below ∈ node.children) :
    ∃ index inner, node = present index ∧ below = present inner ∧ index < inner ∧
      below.parent = node := by
  cases node with
  | absent => simp [children_absent] at h
  | present index =>
    simp only [children, entry?, List.mem_map] at h
    obtain ⟨place, hplace, rfl⟩ := h
    obtain ⟨hlt, valid, hparent⟩ := tree.linked.child index place hplace
    have hof : ofIndex tree place = present ⟨place, valid⟩ := by simp [ofIndex, valid]
    refine ⟨index, ⟨place, valid⟩, rfl, hof, hlt, ?_⟩
    rw [hof]
    simp only [parent, entry?, Option.bind_some, hparent]
    simp [ofIndex, index.isLt]

/-- A child's parent is the node that lists it. -/
theorem parent_of_mem_children (h : below ∈ node.children) : below.parent = node := by
  obtain ⟨_, _, _, _, _, hparent⟩ := exists_of_mem_children h
  exact hparent

/-- No child is listed twice. -/
theorem nodup_children (node : Node tree) : node.children.Nodup := by
  cases node with
  | absent => simp [children_absent]
  | present index =>
    simp only [children, entry?, List.Nodup, List.pairwise_map]
    refine (tree.linked.ordered index).imp_of_mem fun {first second} hfirst hsecond hlt heq => ?_
    obtain ⟨_, validFirst, _⟩ := tree.linked.child index first hfirst
    obtain ⟨_, validSecond, _⟩ := tree.linked.child index second hsecond
    simp only [ofIndex, validFirst, validSecond, dif_pos, present.injEq, Fin.mk.injEq] at heq
    omega

/-- The root of a document's tree has no parent. -/
theorem parent_root : tree.root.parent = absent := by
  by_cases hsize : 0 < tree.size
  · have hroot : tree.root = present ⟨0, hsize⟩ := by simp [Tree.root, ofIndex, hsize]
    rw [hroot]
    simp only [parent, entry?, Option.bind_some, tree.linked.root ⟨0, hsize⟩ rfl]
  · have hroot : tree.root = absent := by simp [Tree.root, ofIndex, hsize]
    rw [hroot, parent_absent]

theorem mem_children_of_mem_childrenTagged {tag : String} (h : below ∈ node.childrenTagged tag) :
    below ∈ node.children :=
  (List.mem_filter.mp h).1

/-- The first of several nodes is one of them or nothing. -/
theorem first_mem_or_absent (nodes : List (Node tree)) :
    first nodes ∈ nodes ∨ first nodes = absent := by
  cases nodes with
  | nil => exact .inr rfl
  | cons node rest => exact .inl List.mem_cons_self

/-- A tagged child is nothing or a child that carries the tag. -/
theorem child_cases (node : Node tree) (tag : String) :
    node.child tag = absent ∨
    (node.child tag ∈ node.children ∧ (node.child tag).has tag = true) := by
  rcases first_mem_or_absent (node.childrenTagged tag) with h | h
  · exact .inr (List.mem_filter.mp h)
  · exact .inl h

theorem childAt_cases (node : Node tree) (place : Nat) :
    node.childAt place = absent ∨ node.childAt place ∈ node.children := by
  unfold childAt
  cases h : node.children[place]? with
  | none => exact .inl rfl
  | some below => exact .inr (List.mem_of_getElem? h)

/-- Later siblings are children of the parent. -/
theorem mem_children_of_mem_later {other : Node tree} (h : other ∈ node.later) :
    other ∈ node.parent.children :=
  (List.dropWhile_sublist _).mem (List.mem_of_mem_tail h)

theorem next_cases (node : Node tree) : node.next = absent ∨ node.next ∈ node.parent.children := by
  rcases first_mem_or_absent node.later with h | h
  · exact .inr (mem_children_of_mem_later h)
  · exact .inl h

/-- A node that carries a tag has this tag. -/
theorem tag_of_has {tag : String} (h : node.has tag = true) : node.tag = tag := by
  simp only [has, Bool.and_eq_true, beq_iff_eq] at h
  exact h.2

/-! ### The order of a walk -/

/-- The second node is nothing or comes after the first. -/
def Beneath (node below : Node tree) : Prop :=
  below = absent ∨ ∃ index inner, node = present index ∧ below = present inner ∧ index < inner

theorem Beneath.absent (node : Node tree) : Beneath node absent := .inl rfl

theorem beneath_of_mem_children (h : below ∈ node.children) : Beneath node below := by
  obtain ⟨index, inner, hnode, hbelow, hlt, _⟩ := exists_of_mem_children h
  exact .inr ⟨index, inner, hnode, hbelow, hlt⟩

/-- What is listed by a node further down is further down as well. -/
theorem Beneath.children {middle : Node tree} (hmiddle : Beneath node middle)
    (h : below ∈ middle.children) : Beneath node below := by
  obtain ⟨index, inner, hnode, hbelow, hlt, _⟩ := exists_of_mem_children h
  rcases hmiddle with rfl | ⟨outer, place, rfl, hplace, hfirst⟩
  · simp [children_absent] at h
  · obtain rfl : place = index := by simpa [hplace] using hnode
    exact .inr ⟨outer, inner, rfl, hbelow, by omega⟩

theorem beneath_child (node : Node tree) (tag : String) : Beneath node (node.child tag) := by
  rcases child_cases node tag with h | ⟨h, _⟩
  · rw [h]; exact .absent node
  · exact beneath_of_mem_children h

/-! ### Sideways -/

/-- The earlier siblings of a node are those listed before it. -/
theorem earlier_of_children_eq {front back : List (Node tree)}
    (h : node.children = front ++ below :: back) : below.earlier = front := by
  have hmem : below ∈ node.children := by rw [h]; simp
  have hnodup := nodup_children node
  rw [h, List.nodup_append] at hnodup
  have hfront : ∀ other ∈ front, other ≠ below :=
    fun other hother => hnodup.2.2 other hother below List.mem_cons_self
  unfold earlier
  rw [parent_of_mem_children hmem, if_pos (by simpa using hmem), h]
  rw [List.takeWhile_append_of_pos (by simpa using hfront)]
  simp

/-- What follows the first occurrence of something in a list. -/
private theorem dropWhile_eq_cons {α : Type} [DecidableEq α] {item : α} {front back : List α}
    (h : item ∉ front) : (front ++ item :: back).dropWhile (· ≠ item) = item :: back := by
  induction front with
  | nil => simp
  | cons first rest ih =>
    rw [List.mem_cons, not_or] at h
    have hskip : (first ≠ item) := fun hsame => h.1 hsame.symm
    simpa [List.dropWhile_cons, hskip] using ih h.2

/-- The later siblings of a node are those listed after it. -/
theorem later_of_children_eq {front back : List (Node tree)}
    (h : node.children = front ++ below :: back) : below.later = back := by
  have hmem : below ∈ node.children := by rw [h]; simp
  have hnodup := nodup_children node
  rw [h, List.nodup_append] at hnodup
  have hfront : below ∉ front := fun hin => hnodup.2.2 below hin below List.mem_cons_self rfl
  rw [later, parent_of_mem_children hmem, h, dropWhile_eq_cons hfront, List.tail_cons]

end Node

end Lineage
