import Mathlib.Data.List.Basic
import Lineage.Proofs.Tree.Spans

/-!
# Trees and the documents they hold

A tree holds its document in one array, each node before its children. Three readings of a tree show
that nothing is lost and that order is kept: `Document.insert` grows the array one node at a time
and enters each child in the list of a parent that is not finished yet; `Node.document?` puts the
document together again along the child lists; and `Node.gather` visits the nodes below a node along
the child lists, as a search does.

## Key results

- `Document.toList_insert`: growing an array in place appends just the entries of the document
- `Tree.Holds.documentWithin_eq`: below the index where a document stands, the child lists spell it
- `Tree.Holds.gatherWithin_eq`: along the child lists the nodes come in the order of their indexes,
  without a gap
- `Tree.ofDocument_faithful`: a tree stands for its document, and searches and texts run over spans
  of indexes
-/

namespace Lineage

/-! ### Growing an array in place -/

/-- The entry with more children, which take up the given number of places. -/
def Entry.adopt (children : List Nat) (places : Nat) (entry : Entry) : Entry :=
  { entry with children := entry.children ++ children, extent := entry.extent + places }

theorem Entry.adopt_comp_adopt (first second : List Nat) (places more : Nat) :
    Entry.adopt second more ∘ Entry.adopt first places =
      Entry.adopt (first ++ second) (places + more) := by
  funext entry
  simp only [Function.comp_apply, Entry.adopt, List.append_assoc, Nat.add_assoc]

theorem Entry.adopt_nil : Entry.adopt [] 0 = id := by
  funext entry
  simp only [Entry.adopt, List.append_nil, Nat.add_zero, id_eq]

namespace Document

mutual
/-- Puts a document at the end of an array: first its root, without children, then these one
    after the other. -/
def insert (parent : Option Nat) : Document → Array Entry → Array Entry
  | node label children, arena =>
    insertAll arena.size children (arena.push { label with parent, children := [], extent := 1 })

/-- Puts documents at the end of an array and enters each of them, once it is there, in the list of
    their parent. -/
def insertAll (parent : Nat) : List Document → Array Entry → Array Entry
  | [], arena => arena
  | document :: rest, arena =>
    insertAll parent rest
      ((document.insert (some parent) arena).modify parent (Entry.adopt [arena.size] document.size))
end

/-- An element of the front part of a list is changed there. -/
private theorem modify_front {α : Type} {front back : List α} {place : Nat}
    (hplace : place < front.length) (change : α → α) :
    (front ++ back).modify place change = front.modify place change ++ back := by
  induction front generalizing place with
  | nil => simp at hplace
  | cons first rest ih =>
    cases place with
    | zero => rfl
    | succ place =>
      rw [List.cons_append, List.modify_succ_cons, List.modify_succ_cons, List.cons_append,
        ih (Nat.lt_of_succ_lt_succ hplace)]

mutual
/-- Growing an array in place appends the entries of the document. -/
theorem toList_insert : ∀ (document : Document) (parent : Option Nat) (arena : Array Entry),
    (document.insert parent arena).toList = arena.toList ++ document.entries parent arena.size
  | node label children, parent, arena => by
    rw [insert, toList_insertAll children arena.size (arena.push _) (by simp), Array.toList_push,
      Array.size_push]
    -- The root is the last element of the array when its children come.
    have hroot : ∀ root : Entry, (arena.toList ++ [root]).modify arena.size
        (Entry.adopt (indexesFrom (arena.size + 1) children) (sizeOfAll children)) =
          arena.toList ++
          [root.adopt (indexesFrom (arena.size + 1) children) (sizeOfAll children)] := by
      intro root
      rw [List.modify_eq_take_drop, ← Array.length_toList, List.take_left, List.drop_left]
      rfl
    rw [hroot, List.append_assoc, entries, Entry.adopt]
    simp only [List.nil_append, List.singleton_append, Nat.add_comm 1]

/-- Growing an array by the children of one of its entries changes this entry and appends those of
    the children. -/
theorem toList_insertAll :
    ∀ (documents : List Document) (parent : Nat) (arena : Array Entry), parent < arena.size →
    (insertAll parent documents arena).toList =
      arena.toList.modify parent
        (Entry.adopt (indexesFrom arena.size documents) (sizeOfAll documents)) ++
        entriesOfAll parent arena.size documents
  | [], parent, arena, _ => by
    rw [insertAll, indexesFrom, sizeOfAll, Entry.adopt_nil, List.modify_id, entriesOfAll,
      List.append_nil]
  | document :: rest, parent, arena, hparent => by
    have hfirst := toList_insert document (some parent) arena
    have hsize : (document.insert (some parent) arena).size = arena.size + document.size := by
      rw [← Array.length_toList, hfirst, List.length_append, length_entries, Array.length_toList]
    rw [insertAll, toList_insertAll rest parent _ (by rw [Array.size_modify]; omega),
      Array.toList_modify, Array.size_modify, hsize, hfirst, List.modify_modify_eq,
      Entry.adopt_comp_adopt, modify_front (by simpa using hparent), List.append_assoc, indexesFrom,
      sizeOfAll, entriesOfAll, List.singleton_append]
end

end Document

/-! ### Documents inside a tree -/

namespace Tree

/-- The entries of the document stand in the tree from the index on. -/
def Holds (tree : Tree) (parent : Option Nat) (index : Nat) (document : Document) : Prop :=
  document.entries parent index <+: tree.entries.toList.drop index

/-- The entries of the children of one parent stand in the tree from the index on. -/
def HoldsAll (tree : Tree) (parent index : Nat) (documents : List Document) : Prop :=
  Document.entriesOfAll parent index documents <+: tree.entries.toList.drop index

variable {tree : Tree}

theorem holds_ofDocument (document : Document) : (ofDocument document).Holds none 0 document :=
  List.prefix_refl _

/-- Where a document stands is the entry of its root, and its children follow. -/
theorem Holds.root {parent : Option Nat} {index : Nat} {label : Label} {children : List Document}
    (h : tree.Holds parent index (.node label children)) :
    ∃ valid : index < tree.size, tree.entry ⟨index, valid⟩ =
      { label with parent, children := Document.indexesFrom (index + 1) children,
                   extent := Document.sizeOfAll children + 1 } ∧
      tree.HoldsAll index (index + 1) children := by
  obtain ⟨others, hothers⟩ := h
  rw [Document.entries, List.cons_append] at hothers
  have hhead := congrArg List.head? hothers
  rw [List.head?_cons, List.head?_drop] at hhead
  obtain ⟨valid, hentry⟩ := List.getElem?_eq_some_iff.mp hhead.symm
  refine ⟨by simpa [size] using valid, hentry, others, ?_⟩
  rw [← List.tail_drop, ← hothers, List.tail_cons]

/-- Of the children of one parent the first stands where they start, and the rest behind it. -/
theorem HoldsAll.cons {parent index : Nat} {document : Document} {rest : List Document}
    (h : tree.HoldsAll parent index (document :: rest)) :
    tree.Holds (some parent) index document ∧
    tree.HoldsAll parent (index + document.size) rest := by
  obtain ⟨others, hothers⟩ := h
  rw [Document.entriesOfAll, List.append_assoc] at hothers
  refine ⟨⟨_, hothers⟩, others, ?_⟩
  rw [← List.drop_drop, ← hothers, ← Document.length_entries (some parent) index document,
    List.drop_left]

mutual
/-- At every index of its span a document has a part of itself. -/
theorem Holds.part {parent : Option Nat} {start index : Nat} :
    ∀ {document : Document}, tree.Holds parent start document →
    start ≤ index → index < start + document.size → ∃ parent part, tree.Holds parent index part
  | .node label children, h, hle, hlt => by
    by_cases hroot : index = start
    · exact ⟨parent, .node label children, hroot ▸ h⟩
    · obtain ⟨_, _, hbelow⟩ := h.root
      rw [Document.size] at hlt
      exact hbelow.part (by omega) (by omega)

theorem HoldsAll.part {parent start index : Nat} :
    ∀ {documents : List Document}, tree.HoldsAll parent start documents →
    start ≤ index → index < start + Document.sizeOfAll documents →
    ∃ parent part, tree.Holds parent index part
  | [], _, hle, hlt => by
    rw [Document.sizeOfAll] at hlt
    omega
  | document :: rest, h, hle, hlt => by
    rw [Document.sizeOfAll] at hlt
    by_cases hfirst : index < start + document.size
    · exact h.cons.1.part hle hfirst
    · exact h.cons.2.part (by omega) (by omega)
end

end Tree

/-! ### Following the child lists -/

namespace Node

variable {tree : Tree}

/-- The document below a node, put together along the child lists, as far as the given number of
    levels leads. -/
def documentWithin : Nat → Node tree → Option Document
  | 0, _ => none
  | levels + 1, node => do
    let entry ← node.entry?
    return .node entry.toLabel (← node.children.mapM (documentWithin levels))

/-- The document below a node, put together along the child lists. -/
def document? (node : Node tree) : Option Document :=
  documentWithin tree.size node

/-- What visits of a node and of the nodes below it give, gathered along the child lists, as far as
    the given number of levels leads. -/
def gatherWithin {α : Type} (visit : Node tree → List α) : Nat → Node tree → List α
  | 0, _ => []
  | levels + 1, node => visit node ++ node.children.flatMap (gatherWithin visit levels)

/-- What visits of a node and of the nodes below it give, gathered along the child lists. -/
def gather {α : Type} (visit : Node tree → List α) (node : Node tree) : List α :=
  gatherWithin visit tree.size node

end Node

namespace Tree

open Node (ofIndex)

variable {tree : Tree}

/-- The root of a document that a tree holds is a node, which lists the roots of the children. -/
theorem Holds.children_eq {parent : Option Nat} {index : Nat} {label : Label}
    {children : List Document} (h : tree.Holds parent index (.node label children)) :
    (ofIndex tree index).children = (Document.indexesFrom (index + 1) children).map
      (ofIndex tree) := by
  obtain ⟨valid, hentry, _⟩ := h.root
  simp only [ofIndex, valid, dif_pos, Node.children, Node.entry?, hentry]

mutual
/-- Below the index where a document stands, the child lists spell it. -/
theorem Holds.documentWithin_eq {parent : Option Nat} {index levels : Nat} :
    ∀ {document : Document},
      tree.Holds parent index document → document.size ≤ levels →
      Node.documentWithin levels (ofIndex tree index) = some document
  | .node label children, h, henough => by
    obtain ⟨valid, hentry, hbelow⟩ := h.root
    rw [Document.size] at henough
    obtain ⟨levels, rfl⟩ := Nat.exists_eq_add_of_le' (Nat.le_trans (Nat.le_add_left 1 _) henough)
    have hself : Node.entry? (ofIndex tree index) = some (tree.entry ⟨index, valid⟩) := by
      simp only [ofIndex, valid, dif_pos, Node.entry?]
    rw [Node.documentWithin, hself, hentry, h.children_eq,
      hbelow.documents_eq (Nat.le_of_succ_le_succ henough)]
    rfl

theorem HoldsAll.documents_eq {parent index levels : Nat} : ∀ {documents : List Document},
    tree.HoldsAll parent index documents → Document.sizeOfAll documents ≤ levels →
      ((Document.indexesFrom index documents).map (ofIndex tree)).mapM
        (Node.documentWithin levels) = some documents
  | [], _, _ => rfl
  | document :: rest, h, henough => by
    rw [Document.sizeOfAll] at henough
    rw [Document.indexesFrom, List.map_cons, List.mapM_cons, h.cons.1.documentWithin_eq (by omega),
      h.cons.2.documents_eq (by omega)]
    rfl
end

mutual
/-- From the index where a document stands, the child lists lead to the nodes in the order of
    their indexes. -/
theorem Holds.gatherWithin_eq {α : Type} (visit : Node tree → List α) {parent : Option Nat}
    {index levels : Nat} :
    ∀ {document : Document}, tree.Holds parent index document → document.size ≤ levels →
      Node.gatherWithin visit levels (ofIndex tree index) =
        (List.range' index document.size).flatMap fun place => visit (ofIndex tree place)
  | .node label children, h, henough => by
    rw [Document.size] at henough
    obtain ⟨levels, rfl⟩ := Nat.exists_eq_add_of_le' (Nat.le_trans (Nat.le_add_left 1 _) henough)
    obtain ⟨_, _, hbelow⟩ := h.root
    rw [Node.gatherWithin, h.children_eq, List.flatMap_map, Document.size, List.range'_succ,
      List.flatMap_cons, hbelow.gatherWithin_eq visit (Nat.le_of_succ_le_succ henough)]

theorem HoldsAll.gatherWithin_eq {α : Type} (visit : Node tree → List α)
    {parent index levels : Nat} :
    ∀ {documents : List Document}, tree.HoldsAll parent index documents →
      Document.sizeOfAll documents ≤ levels →
      ((Document.indexesFrom index documents).flatMap fun child => Node.gatherWithin visit levels
        (ofIndex tree child)) =
        (List.range' index (Document.sizeOfAll documents)).flatMap fun place =>
          visit (ofIndex tree place)
  | [], _, _ => rfl
  | document :: rest, h, henough => by
    rw [Document.sizeOfAll] at henough
    rw [Document.indexesFrom, List.flatMap_cons, Document.sizeOfAll, ← List.range'_append_1,
      List.flatMap_append, h.cons.1.gatherWithin_eq visit (by omega),
      h.cons.2.gatherWithin_eq visit (by omega)]
end

/-- A document that a tree holds ends within the tree. -/
theorem Holds.size_le {parent : Option Nat} {index : Nat} {document : Document}
    (h : tree.Holds parent index document) : document.size ≤ tree.size := by
  have hlength := h.length_le
  rw [Document.length_entries, List.length_drop, Array.length_toList] at hlength
  exact Nat.le_trans hlength (Nat.sub_le _ _)

/-- At each index of a tree there stands a document as large as the extent of the node. -/
theorem exists_holds (index : Fin tree.size) :
    ∃ parent label children, tree.Holds parent index (.node label children) ∧
      (tree.entry index).extent = Document.sizeOfAll children + 1 := by
  obtain ⟨document, rfl⟩ := tree.exists_document
  have hsize : (ofDocument document).size = document.size := Document.length_entries none 0 document
  obtain ⟨parent, ⟨label, children⟩, hpart⟩ :=
    (holds_ofDocument document).part (Nat.zero_le index.val)
      (by rw [Nat.zero_add, ← hsize]; exact index.isLt)
  obtain ⟨_, hentry, _⟩ := hpart.root
  exact ⟨parent, label, children, hpart, by rw [hentry]⟩

/-- The nodes that the child lists lead to from a node are those of its span, in the order of
    their indexes. -/
theorem gather_present {α : Type} (visit : Node tree → List α) (index : Fin tree.size) :
    (Node.present index).gather visit =
      (List.range' index (tree.entry index).extent).flatMap fun place =>
        visit (ofIndex _ place) := by
  obtain ⟨_, label, children, hholds, hextent⟩ := exists_holds index
  have hself : Node.present index = ofIndex tree index := by simp [ofIndex]
  rw [Node.gather, hself, hholds.gatherWithin_eq visit hholds.size_le, hextent, Document.size]

/-- The nodes that the child lists lead to from the children of a node are those of its span
    but for itself. -/
theorem gather_children {α : Type} (visit : Node tree → List α) (index : Fin tree.size) :
    (Node.present index).children.flatMap (Node.gather visit) =
      (List.range' (index + 1) ((tree.entry index).extent - 1)).flatMap
        fun place => visit (ofIndex _ place) := by
  obtain ⟨_, label, children, hholds, hextent⟩ := exists_holds index
  have hself : Node.present index = ofIndex tree index := by simp [ofIndex]
  have hlarge := hholds.size_le
  rw [Document.size] at hlarge
  obtain ⟨_, _, hbelow⟩ := hholds.root
  rw [hself, hholds.children_eq, List.flatMap_map, hextent, Nat.add_sub_cancel,
    ← hbelow.gatherWithin_eq visit (Nat.le_of_succ_le hlarge)]
  rfl

end Tree

namespace Node

variable {tree : Tree}

/-- A visit that takes down the node if it carries the tag. -/
def matching (tag : String) (node : Node tree) : List (Node tree) :=
  if node.has tag then [node] else []

/-- Taking down the nodes with a tag one by one is to filter them. -/
theorem flatMap_matching (tag : String) (nodes : List (Node tree)) :
    nodes.flatMap (matching tag) = nodes.filter (·.has tag) := by
  induction nodes with
  | nil => rfl
  | cons node rest ih =>
    rw [List.flatMap_cons, List.filter_cons, matching, ih]
    split <;> rfl

/-- The nodes below a node by their indexes. -/
theorem descendants_eq (index : Fin tree.size) : (present index).descendants =
    (List.range' (index + 1) ((tree.entry index).extent - 1)).map (ofIndex tree) := by
  rw [descendants, subtree, ← List.map_tail, List.tail_range']

/-- What the index of a node tells about it: the child lists lead from the node just to the nodes of
    its span, in the order of their indexes; its children come after it and name it as their parent;
    a search below the node finds the nodes of the rest of its span that carry the tag, in order;
    and its text joins those of its span. -/
structure Faithful (index : Fin tree.size) : Prop where
  span : ((present index).gather fun node => [node]) =
    (List.range' index (tree.entry index).extent).map (ofIndex tree)
  within : index + (tree.entry index).extent ≤ tree.size
  links : ∀ child ∈ (present index).children,
    child.parent = present index ∧ ∃ inner, child = present inner ∧ index < inner
  search : ∀ tag, (present index).find tag =
    (present index).children.flatMap (gather (matching tag))
  found : ∀ tag, (present index).find tag =
    ((List.range' (index + 1) ((tree.entry index).extent - 1)).filter
      fun place => (ofIndex tree place).has tag).map (ofIndex tree)
  spelled : (present index).text =
    fold (String.join ((present index).gather fun node => [node.ownText]))
  joined : (present index).text =
    fold (String.join ((List.range' index (tree.entry index).extent).map fun place =>
      (ofIndex tree place).ownText))

end Node

/-- A tree stands for its document. It is what growing an array node by node gives, the document can
    be put together again from its root along the child lists, and the index of every node tells
    what is below it. -/
theorem Tree.ofDocument_faithful (document : Document) :
    (ofDocument document).entries = document.insert none #[] ∧
    (ofDocument document).root.document? = some document ∧
    ∀ index : Fin (ofDocument document).size, Node.Faithful index := by
  have hholds := holds_ofDocument document
  refine ⟨?_, hholds.documentWithin_eq hholds.size_le, fun index => ?_⟩
  · apply Array.toList_inj.mp
    rw [Document.toList_insert]
    rfl
  · constructor
    case span => rw [gather_present, ← List.map_eq_flatMap]
    case within => exact (nested _).fits index
    case links =>
      intro child hchild
      obtain ⟨_, inner, hsame, hinner, hlt, hparent⟩ := Node.exists_of_mem_children hchild
      obtain rfl := Node.present.inj hsame
      exact ⟨hparent, inner, hinner, hlt⟩
    case search =>
      intro tag
      rw [gather_children, ← List.flatMap_map, Node.flatMap_matching,
        ← Node.descendants_eq, Node.find]
    case found =>
      intro tag
      rw [Node.find, Node.descendants_eq, List.filter_map]
      rfl
    case spelled =>
      rw [gather_present, ← List.map_eq_flatMap, Node.text, Node.subtree, List.map_map]; rfl
    case joined => rw [Node.text, Node.subtree, List.map_map]; rfl

end Lineage
