import Mathlib.Data.List.Basic
import Lineage.Proofs.Tree.Links

/-!
# The spans of the nodes of a tree

The nodes below a node are those that follow it, up to its extent. In a tree made from a document
these spans nest: that of a child lies inside that of its parent, and those of two children do not
meet. So two steps that go down to different children work on different parts of the tree.

## Key results

- `Tree.nested`: the spans of every tree nest
- `Node.subtree_subset_of_mem_children`: what is below a child is below its parent
- `Node.disjoint_children`: nothing is below two children of one node
- `Node.mem_subtree_root`: every node is below the root or is the root
-/

namespace Lineage

/-- The spans of consecutive nodes, the first of which has the index `start`, nest. -/
def Entry.Nested (start : Nat) (entries : List Entry) : Prop :=
  ∀ place entry, entries[place]? = some entry →
    (0 < entry.extent ∧ place + entry.extent ≤ entries.length) ∧
    (∀ child ∈ entry.children, start ≤ child ∧
      ∃ below, entries[child - start]? = some below ∧
        child + below.extent ≤ start + place + entry.extent) ∧
    entry.children.Pairwise fun first second => start ≤ first ∧
      ∃ below, entries[first - start]? = some below ∧ first + below.extent ≤ second

namespace Entry

theorem nested_nil (start : Nat) : Nested start [] := by
  intro place entry h
  simp at h

/-- A lookup in the front part of a list. -/
private theorem getElem?_front {front back : List Entry} {place : Nat} {entry : Entry}
    (h : front[place]? = some entry) : (front ++ back)[place]? = some entry := by
  rw [List.getElem?_append_left (List.getElem?_eq_some_iff.mp h).1]
  exact h

/-- Spans of nodes stay nested when nested spans of later nodes follow them. -/
theorem Nested.append {start : Nat} {front back : List Entry} (hfront : Nested start front)
    (hback : Nested (start + front.length) back) : Nested start (front ++ back) := by
  intro place entry h
  by_cases hplace : place < front.length
  · rw [List.getElem?_append_left hplace] at h
    obtain ⟨⟨hown, hfits⟩, hinside, hapart⟩ := hfront place entry h
    refine ⟨⟨hown, by rw [List.length_append]; omega⟩, fun child hchild => ?_,
      hapart.imp fun hpair => ?_⟩
    · obtain ⟨hle, below, hbelow, hspan⟩ := hinside child hchild
      exact ⟨hle, below, getElem?_front hbelow, hspan⟩
    · obtain ⟨hle, below, hbelow, hspan⟩ := hpair
      exact ⟨hle, below, getElem?_front hbelow, hspan⟩
  · rw [List.getElem?_append_right (by omega)] at h
    obtain ⟨⟨hown, hfits⟩, hinside, hapart⟩ := hback _ entry h
    -- A node of the back part is found behind the front part.
    have hshift : ∀ child below, start + front.length ≤ child →
        back[child - (start + front.length)]? = some below →
        (front ++ back)[child - start]? = some below := by
      intro child below hle hbelow
      rw [List.getElem?_append_right (by omega), show child - start - front.length =
        child - (start + front.length) by omega]
      exact hbelow
    refine ⟨⟨hown, by rw [List.length_append]; omega⟩, fun child hchild => ?_,
      hapart.imp fun hpair => ?_⟩
    · obtain ⟨hle, below, hbelow, hspan⟩ := hinside child hchild
      exact ⟨by omega, below, hshift child below hle hbelow, by omega⟩
    · obtain ⟨hle, below, hbelow, hspan⟩ := hpair
      exact ⟨by omega, below, hshift _ below hle hbelow, hspan⟩

/-- A node may be put in front of nodes whose spans nest if these are all inside its span. -/
theorem Nested.cons {start : Nat} {entry : Entry} {rest : List Entry}
    (hextent : entry.extent = rest.length + 1)
    (hinside : ∀ child ∈ entry.children, start + 1 ≤ child ∧
      ∃ below, rest[child - (start + 1)]? = some below ∧
        child + below.extent ≤ start + 1 + rest.length)
    (hapart : entry.children.Pairwise fun first second => start + 1 ≤ first ∧
      ∃ below, rest[first - (start + 1)]? = some below ∧ first + below.extent ≤ second)
    (hrest : Nested (start + 1) rest) : Nested start (entry :: rest) := by
  -- In front of the others the new entry moves all places by one.
  have hshift : ∀ child below, start + 1 ≤ child → rest[child - (start + 1)]? = some below →
      (entry :: rest)[child - start]? = some below := by
    intro child below hle hbelow
    rw [show child - start = (child - (start + 1)) + 1 by omega, List.getElem?_cons_succ]
    exact hbelow
  intro place found h
  cases place with
  | zero =>
    obtain rfl : entry = found := by simpa using h
    refine ⟨by rw [List.length_cons]; omega, fun child hchild => ?_, hapart.imp fun hpair => ?_⟩
    · obtain ⟨hle, below, hbelow, hspan⟩ := hinside child hchild
      exact ⟨by omega, below, hshift child below hle hbelow, by omega⟩
    · obtain ⟨hle, below, hbelow, hspan⟩ := hpair
      exact ⟨by omega, below, hshift _ below hle hbelow, hspan⟩
  | succ place =>
    rw [List.getElem?_cons_succ] at h
    obtain ⟨⟨hown, hfits⟩, hinner, hpairs⟩ := hrest place found h
    refine ⟨⟨hown, by rw [List.length_cons]; omega⟩, fun child hchild => ?_,
      hpairs.imp fun hpair => ?_⟩
    · obtain ⟨hle, below, hbelow, hspan⟩ := hinner child hchild
      exact ⟨by omega, below, hshift child below hle hbelow, by omega⟩
    · obtain ⟨hle, below, hbelow, hspan⟩ := hpair
      exact ⟨by omega, below, hshift _ below hle hbelow, hspan⟩

end Entry

namespace Document

/-- The first entry of a document spans all of it. -/
theorem entries_extent (parent : Option Nat) (index : Nat) (document : Document) :
    ∃ entry rest, document.entries parent index = entry :: rest ∧ entry.extent = document.size := by
  cases document
  simp [entries, size]

/-- At the index of each of several documents stands its root, whose span ends with the
    last of them. -/
theorem extent_of_mem_indexesFrom {parent index child : Nat} {documents : List Document}
    (h : child ∈ indexesFrom index documents) :
    ∃ below, (entriesOfAll parent index documents)[child - index]? = some below ∧
      child + below.extent ≤ index + sizeOfAll documents := by
  induction documents generalizing index with
  | nil => simp [indexesFrom] at h
  | cons document rest ih =>
    simp only [indexesFrom, List.mem_cons] at h
    simp only [entriesOfAll, sizeOfAll]
    rcases h with rfl | h
    · obtain ⟨entry, others, heq, hextent⟩ := entries_extent (some parent) child document
      refine ⟨entry, ?_, by omega⟩
      rw [heq]
      simp
    · obtain ⟨below, hbelow, hspan⟩ := ih h
      have hle := le_of_mem_indexesFrom h
      have hlength := length_entries (some parent) index document
      refine ⟨below, ?_, by omega⟩
      rw [List.getElem?_append_right (by omega), hlength,
        show child - index - document.size = child - (index + document.size) by omega]
      exact hbelow

/-- The spans of several documents follow each other. -/
theorem pairwise_extents (parent index : Nat) (documents : List Document) :
    (indexesFrom index documents).Pairwise fun first second => index ≤ first ∧
      ∃ below, (entriesOfAll parent index documents)[first - index]? = some below ∧
        first + below.extent ≤ second := by
  induction documents generalizing index with
  | nil => simp [indexesFrom]
  | cons document rest ih =>
    have hlength := length_entries (some parent) index document
    simp only [indexesFrom, entriesOfAll, List.pairwise_cons]
    refine ⟨fun second hsecond => ?_, (ih (index + document.size)).imp fun hpair => ?_⟩
    · -- The first span ends where the next document begins, and no later index comes before that.
      obtain ⟨entry, others, heq, hextent⟩ := entries_extent (some parent) index document
      have hle := le_of_mem_indexesFrom hsecond
      refine ⟨Nat.le_refl _, entry, ?_, by omega⟩
      rw [heq]
      simp
    · obtain ⟨hle, below, hbelow, hspan⟩ := hpair
      refine ⟨by omega, below, ?_, hspan⟩
      rw [List.getElem?_append_right (by omega), hlength]
      convert hbelow using 2
      omega

mutual
/-- The spans of a document nest. -/
theorem nested_entries (parent : Option Nat) (index : Nat) :
    ∀ document : Document, Entry.Nested index (document.entries parent index)
  | node label children => by
    have hlength := length_entriesOfAll index (index + 1) children
    simp only [entries]
    refine Entry.Nested.cons (by rw [hlength]) (fun child hchild => ?_)
      (pairwise_extents index (index + 1) children) (nested_entriesOfAll index (index + 1) children)
    rw [hlength]
    exact ⟨le_of_mem_indexesFrom hchild, extent_of_mem_indexesFrom hchild⟩

theorem nested_entriesOfAll (parent index : Nat) :
    ∀ documents : List Document, Entry.Nested index (entriesOfAll parent index documents)
  | [] => by simp only [entriesOfAll]; exact Entry.nested_nil _
  | document :: rest => by
    simp only [entriesOfAll]
    refine Entry.Nested.append (nested_entries (some parent) index document) ?_
    rw [length_entries (some parent) index document]
    exact nested_entriesOfAll parent (index + document.size) rest
end

end Document

/-- The spans of a tree: they end within the tree, that of a child within that of its parent, and
    that of a child before the next child; the first node spans the tree. -/
structure Tree.Nested (tree : Tree) : Prop where
  own : ∀ index : Fin tree.size, 0 < (tree.entry index).extent
  fits : ∀ index : Fin tree.size, index + (tree.entry index).extent ≤ tree.size
  inside : ∀ index : Fin tree.size, ∀ below ∈ (tree.entry index).children,
    ∀ valid : below < tree.size, below + (tree.entry ⟨below, valid⟩).extent ≤
      index + (tree.entry index).extent
  apart : ∀ index : Fin tree.size, (tree.entry index).children.Pairwise fun first second =>
    ∀ valid : first < tree.size, first + (tree.entry ⟨first, valid⟩).extent ≤ second
  root : ∀ index : Fin tree.size, index.val = 0 → (tree.entry index).extent = tree.size

/-- The spans of every tree nest. -/
theorem Tree.nested (tree : Tree) : tree.Nested := by
  obtain ⟨document, rfl⟩ := tree.exists_document
  have hnested := Document.nested_entries none 0 document
  have hlength : (document.entries none 0).length = (Tree.ofDocument document).size := rfl
  have hentry : ∀ (below : Nat) (entry : Entry) (valid : below < (Tree.ofDocument document).size),
      (document.entries none 0)[below]? = some entry →
      entry = (Tree.ofDocument document).entry ⟨below, valid⟩ := by
    intro below entry valid h
    exact Option.some.inj (h.symm.trans (Tree.getElem?_entries ⟨below, valid⟩))
  refine ⟨fun index => ?_, fun index => ?_, fun index below hbelow valid => ?_, fun index => ?_,
    fun index hzero => ?_⟩
  · exact (hnested index _ (Tree.getElem?_entries index)).1.1
  · have hfits := (hnested index _ (Tree.getElem?_entries index)).1.2
    rwa [hlength] at hfits
  · obtain ⟨_, entry, hget, hspan⟩ :=
      (hnested index _ (Tree.getElem?_entries index)).2.1 below hbelow
    rw [Nat.sub_zero] at hget
    rw [← hentry below entry valid hget]
    omega
  · refine (hnested index _ (Tree.getElem?_entries index)).2.2.imp fun hpair valid => ?_
    obtain ⟨_, entry, hget, hspan⟩ := hpair
    rw [Nat.sub_zero] at hget
    rw [← hentry _ entry valid hget]
    exact hspan
  · obtain ⟨entry, rest, heq, hextent⟩ := Document.entries_extent none 0 document
    have hfirst : (document.entries none 0)[index.val]? = some entry := by rw [heq, hzero]; rfl
    rw [← hentry index.val entry index.isLt hfirst, hextent,
      ← Document.length_entries none 0 document]
    exact hlength

namespace Node

variable {tree : Tree} {node below : Node tree}

/-! ### Subtrees -/

/-- The nodes of a subtree are those of its span. -/
theorem mem_subtree_iff :
    below ∈ node.subtree ↔ ∃ index inner, node = present index ∧ below = present inner ∧
      index.val ≤ inner.val ∧ inner.val < index.val + (tree.entry index).extent := by
  cases node with
  | absent => simp [subtree]
  | present index =>
    have hfits := tree.nested.fits index
    simp only [subtree, List.mem_map, List.mem_range'_1, present.injEq]
    constructor
    · rintro ⟨place, ⟨hle, hlt⟩, rfl⟩
      have valid : place < tree.size := by omega
      exact ⟨index, ⟨place, valid⟩, rfl, by simp [ofIndex, valid], hle, hlt⟩
    · rintro ⟨_, inner, rfl, rfl, hle, hlt⟩
      exact ⟨inner, ⟨hle, hlt⟩, by simp [ofIndex]⟩

/-- A node comes first in its own subtree. -/
theorem subtree_eq_cons (index : Fin tree.size) :
    (present index).subtree = present index :: (present index).descendants := by
  obtain ⟨extent, hextent⟩ := Nat.exists_eq_add_of_lt (tree.nested.own index)
  have hself : ofIndex tree index = present index := by simp [ofIndex]
  simp only [descendants, subtree, hextent, Nat.zero_add, List.range'_succ, List.map_cons,
    List.tail_cons, hself]

theorem mem_subtree_self (index : Fin tree.size) : present index ∈ (present index).subtree := by
  rw [subtree_eq_cons]
  exact List.mem_cons_self

theorem mem_subtree_of_mem_descendants (h : below ∈ node.descendants) : below ∈ node.subtree :=
  List.mem_of_mem_tail h

/-- The nodes below a node are those of its span but for itself. -/
theorem mem_descendants_iff :
    below ∈ node.descendants ↔ ∃ index inner, node = present index ∧ below = present inner ∧
      index.val < inner.val ∧ inner.val < index.val + (tree.entry index).extent := by
  cases node with
  | absent => simp [descendants, subtree]
  | present index =>
    have hown := tree.nested.own index
    have hfits := tree.nested.fits index
    obtain ⟨extent, hextent⟩ := Nat.exists_eq_add_of_lt hown
    simp only [descendants, subtree, hextent, Nat.zero_add, List.range'_succ, List.map_cons,
      List.tail_cons, List.mem_map, List.mem_range'_1, present.injEq]
    constructor
    · rintro ⟨place, ⟨hle, hlt⟩, rfl⟩
      have valid : place < tree.size := by omega
      exact ⟨index, ⟨place, valid⟩, rfl, by simp [ofIndex, valid], hle, by simp only; omega⟩
    · rintro ⟨_, inner, rfl, rfl, hle, hlt⟩
      exact ⟨inner, ⟨hle, by omega⟩, by simp [ofIndex]⟩

/-- The first node comes before the second one in the document. -/
def Precedes (first second : Node tree) : Prop :=
  ∃ index place : Fin tree.size, first = present index ∧ second = present place ∧ index < place

/-- The nodes below a node are listed in the order of the document. -/
theorem pairwise_descendants (node : Node tree) : node.descendants.Pairwise Precedes := by
  have hsubtree : node.subtree.Pairwise Precedes := by
    cases node with
    | absent => exact .nil
    | present index =>
      have hfits := tree.nested.fits index
      rw [subtree, List.pairwise_map]
      have hascending : (List.range' index.val (tree.entry index).extent).Pairwise (· < ·) :=
        List.pairwise_lt_range'
      refine hascending.imp_of_mem fun {first second} hfirst hsecond hlt => ?_
      rw [List.mem_range'_1] at hfirst hsecond
      have validFirst : first < tree.size := by omega
      have validSecond : second < tree.size := by omega
      exact ⟨⟨first, validFirst⟩, ⟨second, validSecond⟩, by simp [ofIndex, validFirst],
        by simp [ofIndex, validSecond], hlt⟩
  exact hsubtree.sublist (List.tail_sublist _)

/-- No node is listed twice below a node. -/
theorem nodup_descendants (node : Node tree) : node.descendants.Nodup := by
  refine (pairwise_descendants node).imp fun {first second} hprecedes hsame => ?_
  obtain ⟨index, place, hindex, hplace, hlt⟩ := hprecedes
  obtain rfl : index = place := present.inj (hindex.symm.trans (hsame.trans hplace))
  exact absurd hlt (Fin.lt_irrefl index)

theorem not_mem_descendants_self (node : Node tree) : node ∉ node.descendants := by
  intro h
  obtain ⟨index, inner, hnode, hsame, hlt, _⟩ := mem_descendants_iff.mp h
  obtain rfl : index = inner := present.inj (hnode.symm.trans hsame)
  exact Nat.lt_irrefl _ hlt

/-- A child of a present node, with its index. -/
theorem exists_index_of_mem_children {index : Fin tree.size}
    (h : below ∈ (present index).children) :
    ∃ inner : Fin tree.size, below = present inner ∧ inner.val ∈ (tree.entry index).children ∧
      index < inner := by
  simp only [children, entry?, List.mem_map] at h
  obtain ⟨place, hplace, rfl⟩ := h
  obtain ⟨hlt, valid, _⟩ := tree.linked.child index place hplace
  exact ⟨⟨place, valid⟩, by simp [ofIndex, valid], hplace, hlt⟩

/-- What is below a child is below its parent. -/
theorem subtree_subset_of_mem_children (h : below ∈ node.children) :
    below.subtree ⊆ node.descendants := by
  intro found hfound
  cases node with
  | absent => simp [children_absent] at h
  | present index =>
    obtain ⟨inner, rfl, hchild, hlt⟩ := exists_index_of_mem_children h
    obtain ⟨_, place, hsame, rfl, hle, hspan⟩ := mem_subtree_iff.mp hfound
    obtain rfl := present.inj hsame
    have hinside : inner + (tree.entry inner).extent ≤ index + (tree.entry index).extent :=
      tree.nested.inside index inner hchild inner.isLt
    exact mem_descendants_iff.mpr ⟨index, place, rfl, rfl, by omega, by omega⟩

/-- Nothing is below two children of one node. -/
theorem disjoint_children (node : Node tree) :
    node.children.Pairwise fun first second => first.subtree.Disjoint second.subtree := by
  cases node with
  | absent => simp [children_absent]
  | present index =>
    simp only [children, entry?, List.pairwise_map]
    refine (tree.nested.apart index).imp_of_mem fun {first second} hfirst hsecond hspan => ?_
    obtain ⟨_, validFirst, _⟩ := tree.linked.child index first hfirst
    obtain ⟨_, validSecond, _⟩ := tree.linked.child index second hsecond
    -- The span of the first child ends before the second child, and a subtree is a span.
    have hend := hspan validFirst
    intro found hinFirst hinSecond
    simp only [ofIndex, validFirst, validSecond, dif_pos] at hinFirst hinSecond
    obtain ⟨_, place, hsame, hplace, _, hlt⟩ := mem_subtree_iff.mp hinFirst
    obtain ⟨_, other, hsame', hother, hle, _⟩ := mem_subtree_iff.mp hinSecond
    obtain rfl := present.inj hsame
    obtain rfl := present.inj hsame'
    obtain rfl : place = other := present.inj (hplace.symm.trans hother)
    simp only at hlt hle
    omega

/-- Every node is the root or below it. -/
theorem mem_subtree_root (index : Fin tree.size) : present index ∈ tree.root.subtree := by
  have hsize : 0 < tree.size := Nat.lt_of_le_of_lt (Nat.zero_le _) index.isLt
  have hroot : tree.root = present ⟨0, hsize⟩ := by simp [Tree.root, ofIndex, hsize]
  rw [mem_subtree_iff, hroot]
  exact ⟨_, index, rfl, rfl, Nat.zero_le _, by rw [tree.nested.root ⟨0, hsize⟩ rfl]; simp⟩

end Node

end Lineage
