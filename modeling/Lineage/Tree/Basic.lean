import Lineage.Tree.Document

/-! # Syntax trees

A tree holds the nodes of a document in one array, each before its children: a node's index is its
place in that order, and the nodes below it are those that follow it, up to its `extent`. -/

namespace Lineage

/-- A node of a tree and its place: the index of its parent, those of its children, and the number
    of nodes in its subtree, itself included. -/
structure Entry extends Label where
  parent : Option Nat
  children : List Nat
  extent : Nat
deriving DecidableEq, Repr

namespace Document

/-- The indexes of documents that follow each other from a given index on. -/
def indexesFrom (index : Nat) : List Document → List Nat
  | [] => []
  | document :: rest => index :: indexesFrom (index + document.size) rest

mutual
/-- The entries of a document whose root gets the given index. -/
def entries (parent : Option Nat) (index : Nat) : Document → List Entry
  | node label children =>
    { label with parent, children := indexesFrom (index + 1) children, extent := sizeOfAll children
      + 1 } :: entriesOfAll index (index + 1) children

/-- The entries of the children of one parent, the first of which gets the given index. -/
def entriesOfAll (parent index : Nat) : List Document → List Entry
  | [] => []
  | document :: rest =>
    document.entries (some parent) index ++ entriesOfAll parent (index + document.size) rest
end

end Document

/-- The entries of a document. -/
structure Tree where
  entries : Array Entry
  made : ∃ document : Document, entries = (document.entries none 0).toArray
deriving DecidableEq, Repr

namespace Tree

def ofDocument (document : Document) : Tree :=
  ⟨(document.entries none 0).toArray, document, rfl⟩

def size (tree : Tree) : Nat :=
  tree.entries.size

/-- The entry at an index of the tree. -/
def entry (tree : Tree) (index : Fin tree.size) : Entry :=
  have valid : index < tree.entries.size := index.isLt
  tree.entries[index]

end Tree

end Lineage
