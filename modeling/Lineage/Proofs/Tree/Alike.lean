import Mathlib.Data.List.Forall2
import Lineage.Proofs.Text.Spelling
import Lineage.Tree.Node

/-!
# Trees that read alike

Two documents read alike if they have the same shape and the same tags and their texts differ only
in the case of ASCII letters. Lines and columns do not count. The nodes of their trees then stand
for each other, index by index, and whatever is reached from a node is stood for by what is reached
in the same way from the other one.

## Key results

- `Tree.alike_ofDocument`: the trees of documents that read alike
- `Tree.Alike.across`: the node of the other tree that stands for a node
- `children_across`, `subtree_across`, `ancestors_across`, `later_across`: steps lead to nodes that
  stand for each other
- `text_across`: nodes that stand for each other have the same text
-/

namespace Lineage

/-- The labels have the same tag and, but for the case of ASCII letters, the same text. -/
structure Label.Alike (label other : Label) : Prop where
  tag : other.tag = label.tag
  text : Text.SameLetters (other.text.getD "") (label.text.getD "")

/-- The documents have the same shape, and labels that are alike. -/
inductive Document.Alike : Document → Document → Prop
  | node {label other : Label} {children others : List Document} (hlabel : label.Alike other)
      (hchildren : List.Forall₂ Alike children others) : Alike (.node label children)
      (.node other others)

/-- The entries have the same place in their trees, and labels that are alike. -/
structure Entry.Alike (entry other : Entry) : Prop where
  label : entry.toLabel.Alike other.toLabel
  parent : other.parent = entry.parent
  children : other.children = entry.children
  extent : other.extent = entry.extent

/-- The entries of the trees are alike, one by one. -/
def Tree.Alike (tree other : Tree) : Prop :=
  List.Forall₂ Entry.Alike tree.entries.toList other.entries.toList

/-! ### Documents -/

namespace Document

mutual
theorem Alike.size_eq :
    ∀ {document other : Document}, document.Alike other → other.size = document.size
  | .node .., .node .., .node _ hchildren => by
    rw [size, size, sizeOfAll_of_alike hchildren]

theorem sizeOfAll_of_alike :
    ∀ {documents others : List Document}, List.Forall₂ Alike documents others →
    sizeOfAll others = sizeOfAll documents
  | [], [], .nil => rfl
  | _ :: _, _ :: _, .cons hhead hrest => by
    rw [sizeOfAll, sizeOfAll, hhead.size_eq, sizeOfAll_of_alike hrest]
end

theorem indexesFrom_of_alike {documents others : List Document}
    (h : List.Forall₂ Alike documents others) (index : Nat) :
    indexesFrom index others = indexesFrom index documents := by
  induction h generalizing index with
  | nil => rfl
  | cons hhead _ ih => rw [indexesFrom, indexesFrom, hhead.size_eq, ih]

mutual
/-- Documents that read alike have entries that are alike. -/
theorem Alike.entries :
    ∀ {document other : Document}, document.Alike other → ∀ (parent : Option Nat) (index : Nat),
    List.Forall₂ Entry.Alike (document.entries parent index) (other.entries parent index)
  | .node .., .node .., .node hlabel hchildren, parent, index => by
    rw [Document.entries, Document.entries]
    refine .cons ⟨hlabel, rfl, indexesFrom_of_alike hchildren _, ?_⟩
      (entriesOfAll_of_alike hchildren _ _)
    simp only [sizeOfAll_of_alike hchildren]

theorem entriesOfAll_of_alike :
    ∀ {documents others : List Document}, List.Forall₂ Alike documents others →
    ∀ parent index : Nat,
      List.Forall₂ Entry.Alike (entriesOfAll parent index documents)
        (entriesOfAll parent index others)
  | [], [], .nil, _, _ => by
    rw [entriesOfAll]
    exact .nil
  | _ :: _, _ :: _, .cons hhead hrest, parent, index => by
    rw [entriesOfAll, entriesOfAll, hhead.size_eq]
    exact List.rel_append (hhead.entries _ _) (entriesOfAll_of_alike hrest _ _)
end

end Document

theorem Tree.alike_ofDocument {document other : Document} (h : document.Alike other) :
    (Tree.ofDocument document).Alike (.ofDocument other) := by
  simp only [Tree.Alike, Tree.ofDocument, List.toList_toArray]
  exact h.entries none 0

/-! ### Nodes that stand for each other -/

namespace Tree.Alike

variable {tree other : Tree} (h : tree.Alike other) (node : Node tree)

include h in
theorem size_eq : tree.size = other.size := by
  simpa [Tree.size] using h.length_eq

/-- The node of the other tree that stands for a node: the one with the same index. -/
def across : Node tree → Node other
  | .absent => .absent
  | .present index => .present (index.cast h.size_eq)

theorem entry (index : Fin tree.size) :
    (tree.entry index).Alike (other.entry (index.cast h.size_eq)) := by
  have hother : index < other.size := h.size_eq ▸ index.isLt
  have hlist := (List.forall₂_iff_get.mp h).2 index (by simpa [Tree.size] using index.isLt)
    (by simpa [Tree.size] using hother)
  rwa [List.get_eq_getElem, List.get_eq_getElem, Array.getElem_toList,
    Array.getElem_toList] at hlist

theorem across_injective : Function.Injective h.across := by
  intro node node' heq
  cases node with
  | absent => cases node' <;> trivial
  | present index =>
    cases node' with
    | absent => cases heq
    | present index' =>
      have hindex := congrArg Node.index? heq
      exact congrArg _ (Fin.ext (Option.some.inj hindex))

@[simp] theorem across_ofIndex (index : Nat) :
    h.across (.ofIndex tree index) = .ofIndex other index := by
  by_cases hvalid : index < tree.size
  · have hvalid' : index < other.size := by rwa [← h.size_eq]
    simp [Node.ofIndex, hvalid, hvalid', across]
  · have hvalid' : ¬ index < other.size := by rwa [← h.size_eq]
    simp [Node.ofIndex, hvalid, hvalid', across]

@[simp] theorem isPresent_across : (h.across node).isPresent = node.isPresent := by
  cases node <;> rfl

@[simp] theorem index?_across : (h.across node).index? = node.index? := by
  cases node <;> rfl

@[simp] theorem tag_across : (h.across node).tag = node.tag := by
  cases node with
  | absent => rfl
  | present index => exact (h.entry index).label.tag

@[simp] theorem has_across (tag : String) : (h.across node).has tag = node.has tag := by
  simp [Node.has]

@[simp] theorem any_has_across (tags : List String) :
    tags.any (h.across node).has = tags.any node.has := by
  rw [funext (h.has_across node)]

@[simp] theorem first_across (nodes : List (Node tree)) :
    Node.first (nodes.map h.across) = h.across (Node.first nodes) := by
  cases nodes <;> rfl

@[simp] theorem last_across (nodes : List (Node tree)) :
    Node.last (nodes.map h.across) = h.across (Node.last nodes) := by
  unfold Node.last
  rw [List.getLast?_map]
  cases nodes.getLast? <;> rfl

/-- Of the nodes that stand for given ones, those are kept that stand for the kept ones. -/
theorem filter_across {nodes : List (Node tree)} {p : Node tree → Bool} {p' : Node other → Bool}
    (hp : ∀ node, p' (h.across node) = p node) :
    (nodes.map h.across).filter p' = (nodes.filter p).map h.across := by
  rw [List.filter_map]
  congr 2
  exact funext hp

@[simp] theorem across_inj {node node' : Node tree} :
    h.across node = h.across node' ↔ node = node' :=
  h.across_injective.eq_iff

/-! ### Down -/

@[simp] theorem children_across : (h.across node).children = node.children.map h.across := by
  cases node with
  | absent => rfl
  | present index =>
    show (other.entry _).children.map _ = ((tree.entry index).children.map _).map _
    rw [(h.entry index).children, List.map_map]
    exact List.map_congr_left fun child _ => (h.across_ofIndex child).symm

@[simp] theorem childrenTagged_across (tag : String) :
    (h.across node).childrenTagged tag = (node.childrenTagged tag).map h.across := by
  rw [Node.childrenTagged, children_across]
  exact h.filter_across fun child => h.has_across child tag

@[simp] theorem child_across (tag : String) :
    (h.across node).child tag = h.across (node.child tag) := by
  rw [Node.child, childrenTagged_across, first_across, Node.child]

@[simp] theorem childAt_across (place : Nat) :
    (h.across node).childAt place = h.across (node.childAt place) := by
  rw [Node.childAt, children_across, List.getElem?_map, Node.childAt]
  cases node.children[place]? <;> rfl

@[simp] theorem path_across (tags : List String) :
    (h.across node).path tags = h.across (node.path tags) := by
  induction tags generalizing node with
  | nil => rfl
  | cons tag rest ih =>
    show ((h.across node).child tag).path rest = h.across ((node.child tag).path rest)
    rw [child_across, ih]

@[simp] theorem subtree_across : (h.across node).subtree = node.subtree.map h.across := by
  cases node with
  | absent => rfl
  | present index =>
    -- A subtree is a range of indexes, and both ranges are equally long.
    show (List.range' index (other.entry _).extent).map _ =
        ((List.range' index (tree.entry index).extent).map _).map _
    rw [(h.entry index).extent, List.map_map]
    exact List.map_congr_left fun below _ => (h.across_ofIndex below).symm

@[simp] theorem descendants_across :
    (h.across node).descendants = node.descendants.map h.across := by
  rw [Node.descendants, subtree_across, ← List.map_tail, Node.descendants]

@[simp] theorem find_across (tag : String) :
    (h.across node).find tag = (node.find tag).map h.across := by
  rw [Node.find, descendants_across]
  exact h.filter_across fun below => h.has_across below tag

@[simp] theorem findFirst_across (tag : String) :
    (h.across node).findFirst tag = h.across (node.findFirst tag) := by
  rw [Node.findFirst, find_across, first_across, Node.findFirst]

@[simp] theorem findLast_across (tag : String) :
    (h.across node).findLast tag = h.across (node.findLast tag) := by
  rw [Node.findLast, find_across, last_across, Node.findLast]

theorem ownText_across : Text.SameLetters (h.across node).ownText node.ownText := by
  cases node with
  | absent => rfl
  | present index => exact (h.entry index).label.text

@[simp] theorem text_across : (h.across node).text = node.text := by
  apply fold_eq_of_sameLetters
  apply Text.sameLetters_join
  rw [subtree_across, List.map_map, List.forall₂_map_left_iff, List.forall₂_map_right_iff,
    List.forall₂_same]
  intro below _
  exact h.ownText_across below

/-! ### Up and sideways -/

@[simp] theorem parent_across : (h.across node).parent = h.across node.parent := by
  cases node with
  | absent => rfl
  | present index =>
    simp only [Node.parent, across, Node.entry?, Option.bind_some, (h.entry index).parent]
    cases (tree.entry index).parent with
    -- The entries of both nodes name the same index for the parent, if any.
    | none => rfl
    | some above => exact (h.across_ofIndex above).symm

theorem ancestorsWithin_across (steps : Nat) (node : Node tree) :
    Node.ancestorsWithin steps (h.across node) =
      (Node.ancestorsWithin steps node).map h.across := by
  induction steps generalizing node with
  | zero => rfl
  | succ steps ih =>
    simp only [Node.ancestorsWithin, parent_across, isPresent_across, ih]
    split <;> rfl

@[simp] theorem ancestors_across : (h.across node).ancestors = node.ancestors.map h.across := by
  rw [Node.ancestors, ancestorsWithin_across, Node.ancestors, h.size_eq]

@[simp] theorem ancestor_across (tag : String) :
    (h.across node).ancestor tag = h.across (node.ancestor tag) := by
  rw [Node.ancestor, ancestors_across, h.filter_across fun above => h.has_across above tag,
    first_across, Node.ancestor]

@[simp] theorem earlier_across : (h.across node).earlier = node.earlier.map h.across := by
  have hcontains : (node.parent.children.map h.across).contains (h.across node) =
      node.parent.children.contains node := by
    simp [List.contains_eq_mem, List.mem_map_of_injective h.across_injective]
  simp only [Node.earlier, parent_across, children_across, hcontains, List.takeWhile_map,
    Function.comp_def, ne_eq, across_inj]
  split <;> rfl

@[simp] theorem later_across : (h.across node).later = node.later.map h.across := by
  simp only [Node.later, parent_across, children_across, List.dropWhile_map,
    Function.comp_def, ne_eq, across_inj, ← List.map_tail]

@[simp] theorem next_across : (h.across node).next = h.across node.next := by
  rw [Node.next, later_across, first_across, Node.next]

@[simp] theorem nextTagged_across (tag : String) :
    (h.across node).nextTagged tag = h.across (node.nextTagged tag) := by
  simp only [Node.nextTagged, next_across, has_across]
  split <;> rfl

@[simp] theorem earlierTagged_across (tag : String) :
    (h.across node).earlierTagged tag = (node.earlierTagged tag).map h.across := by
  rw [Node.earlierTagged, earlier_across]
  exact h.filter_across fun sibling => h.has_across sibling tag

@[simp] theorem root_across : h.across tree.root = other.root :=
  h.across_ofIndex 0

end Tree.Alike

end Lineage
