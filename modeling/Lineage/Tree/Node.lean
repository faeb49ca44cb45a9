import Lineage.Location
import Lineage.Text.Fold
import Lineage.Tree.Basic

/-! # Walking a tree

A `Node` points at a node of a tree or at nothing. Every step from nothing leads to nothing and
every step that finds no node leads there, so that steps can be put in a row without a test between
them. -/

namespace Lineage

inductive Node (tree : Tree) where
  | absent
  | present (index : Fin tree.size)
deriving DecidableEq

namespace Node

variable {tree : Tree}

/-- The node with the given index, if there is one. -/
def ofIndex (tree : Tree) (index : Nat) : Node tree :=
  if valid : index < tree.size then present ⟨index, valid⟩ else absent

/-- The first of several nodes. -/
def first (nodes : List (Node tree)) : Node tree :=
  nodes.head?.getD absent

/-- The last of several nodes. -/
def last (nodes : List (Node tree)) : Node tree :=
  nodes.getLast?.getD absent

def index? : Node tree → Option Nat
  | absent => none
  | present index => some index

def isPresent : Node tree → Bool
  | absent => false
  | present _ => true

def entry? : Node tree → Option Entry
  | absent => none
  | present index => some (tree.entry index)

/-- The node's tag, the empty text if there is no node. -/
def tag (node : Node tree) : String :=
  (node.entry?.map (·.tag)).getD ""

/-- There is a node and it carries the tag. -/
def has (node : Node tree) (tag : String) : Bool :=
  node.isPresent && node.tag == tag

def location (node : Node tree) : Location :=
  match node.entry? with
  | some entry => ⟨entry.tag, entry.line, entry.column⟩
  | none => .unknown

/-- How a node is shown in a trace. -/
def display (node : Node tree) : String :=
  match node.index? with
  | some index => s!"Node({node.tag} #{index})"
  | none => "Node(empty)"

/-! ## Down -/

def children (node : Node tree) : List (Node tree) :=
  match node.entry? with
  | some entry => entry.children.map (ofIndex tree)
  | none => []

/-- The children that carry the tag. -/
def childrenTagged (node : Node tree) (tag : String) : List (Node tree) :=
  node.children.filter (·.has tag)

/-- The first child that carries the tag. -/
def child (node : Node tree) (tag : String) : Node tree :=
  first (node.childrenTagged tag)

/-- The last child that carries the tag. -/
def lastChild (node : Node tree) (tag : String) : Node tree :=
  last (node.childrenTagged tag)

/-- The child at a place, counted from zero. -/
def childAt (node : Node tree) (place : Nat) : Node tree :=
  (node.children[place]?).getD absent

/-- From child to child along the tags. -/
def path (node : Node tree) (tags : List String) : Node tree :=
  tags.foldl child node

/-- The node and all nodes below it, each before its children. -/
def subtree : Node tree → List (Node tree)
  | absent => []
  | present index => (List.range' index (tree.entry index).extent).map (ofIndex tree)

/-- All nodes below the node, each before its children. -/
def descendants (node : Node tree) : List (Node tree) :=
  node.subtree.tail

/-- The nodes below that carry the tag. -/
def find (node : Node tree) (tag : String) : List (Node tree) :=
  node.descendants.filter (·.has tag)

/-- The first node below that carries the tag. -/
def findFirst (node : Node tree) (tag : String) : Node tree :=
  first (node.find tag)

/-- The last node below that carries the tag. -/
def findLast (node : Node tree) (tag : String) : Node tree :=
  last (node.find tag)

/-- The text written at the node itself. -/
def ownText (node : Node tree) : String :=
  (node.entry?.bind (·.text)).getD ""

/-- The texts of the node and of all nodes below it as one text, folded. -/
def text (node : Node tree) : String :=
  fold (String.join (node.subtree.map ownText))

/-! ## Up -/

def parent (node : Node tree) : Node tree :=
  match node.entry?.bind (·.parent) with
  | some index => ofIndex tree index
  | none => absent

/-- The parent, if it carries the tag. -/
def parentTagged (node : Node tree) (tag : String) : Node tree :=
  if node.parent.has tag then node.parent else absent

/-- The nodes above, nearest first, as far as the given number of steps leads. -/
def ancestorsWithin : Nat → Node tree → List (Node tree)
  | 0, _ => []
  | steps + 1, node =>
    if node.parent.isPresent then node.parent :: ancestorsWithin steps node.parent else []

/-- The nodes above, nearest first. -/
def ancestors (node : Node tree) : List (Node tree) :=
  ancestorsWithin tree.size node

/-- The nearest node above that carries the tag. -/
def ancestor (node : Node tree) (tag : String) : Node tree :=
  first (node.ancestors.filter (·.has tag))

/-! ## Sideways -/

/-- The children of the same parent that come before the node. -/
def earlier (node : Node tree) : List (Node tree) :=
  if node.parent.children.contains node then node.parent.children.takeWhile (· ≠ node) else []

/-- The children of the same parent that come after the node. -/
def later (node : Node tree) : List (Node tree) :=
  (node.parent.children.dropWhile (· ≠ node)).tail

/-- The other children of the same parent. -/
def siblings (node : Node tree) : List (Node tree) :=
  node.earlier ++ node.later

def previous (node : Node tree) : Node tree :=
  last node.earlier

def next (node : Node tree) : Node tree :=
  first node.later

/-- The previous sibling, if it carries the tag. -/
def previousTagged (node : Node tree) (tag : String) : Node tree :=
  if node.previous.has tag then node.previous else absent

/-- The next sibling, if it carries the tag. -/
def nextTagged (node : Node tree) (tag : String) : Node tree :=
  if node.next.has tag then node.next else absent

/-- The earlier siblings that carry the tag. -/
def earlierTagged (node : Node tree) (tag : String) : List (Node tree) :=
  node.earlier.filter (·.has tag)

end Node

/-- The root of a tree. -/
def Tree.root (tree : Tree) : Node tree :=
  .ofIndex tree 0

end Lineage
