import GradientForest.Tree.Node

/-!
# Flat trees

A tree is a table of nodes in the order of their creation, with the root in
column 0.  A split in column `c` finds its children in columns
`c + childOffset` and `c + childOffset + 1`.  Columns and node numbers are 64-bit
words.  The fields of a tree from a file can be any words, so a child's column or
number may be none, which is an overflow.

`Tree.validate` checks what a walk relies on.
-/

namespace GradientForest

/-- A tree as a table of nodes. -/
structure Tree (α : Type) where
  /-- The round that made the tree. -/
  id : UInt64
  /-- The nodes, one per column. -/
  nodes : Array (Node α)
deriving DecidableEq, Repr

namespace Tree

variable {α : Type}

/-- The number of nodes. -/
def size (t : Tree α) : Nat := t.nodes.size

/-- Whether there are no nodes. -/
def isEmpty (t : Tree α) : Bool := t.nodes.isEmpty

/-- The node in the first column. -/
def root? (t : Tree α) : Option (Node α) := t.nodes[0]?

/-- Appends a node. -/
def push (t : Tree α) (n : Node α) : Tree α := { t with nodes := t.nodes.push n }

/-- The number of leaves. -/
def numLeaves (t : Tree α) : Nat := t.nodes.toList.countP Node.isLeaf

/-- The largest number of splits above a node, told by the node numbers.  The
subtraction stops at 0: a node with the number 0 stands on no level, and a table
that holds no others has depth 0. -/
def depth (t : Tree α) : Nat := (t.nodes.toList.map Node.level).foldl max 0 - 1

/-- The features that splits test, in column order. -/
def features (t : Tree α) : List UInt64 := t.nodes.toList.filterMap Node.feature?

/-- How often splits test each of the first `n` features. -/
def splitCounts (t : Tree α) (n : Nat) : List Nat :=
  (List.range n).map fun j => t.features.countP fun f => f.toNat = j

/-- The largest feature that a split tests. -/
def maxFeature? (t : Tree α) : Option UInt64 := t.features.max?

/-- Checks one node: it belongs to the tree, and if it is a split, its children
stand where it says.  A column that is no word is an overflow, and so is a number
that is none when the columns are in the table. -/
def checkNode (t : Tree α) (n : Node α) (column : Nat) : Except Error Unit :=
  let left := column + n.childOffset.toNat
  let outside := .error (.tree (.childrenOutside n.id column n.childOffset t.size))
  if n.treeId ≠ t.id then .error (.tree (.foreignNode n.id n.treeId t.id))
  else if n.isLeaf then .ok ()
  else if n.childOffset = 0 then outside
  else if ¬IsWord (left + 1) then .error .overflow
  else if h : left + 1 < t.nodes.size then
    if ¬IsWord (2 * n.id.toNat) then .error .overflow
    else if t.nodes[left].id ≠ n.id.left ∨ t.nodes[left + 1].id ≠ n.id.right then
      .error (.tree (.notItsChildren n.id))
    else .ok ()
  else outside

/-- Checks that the tree starts at its root and that every node passes. -/
def validate (t : Tree α) : Except Error Unit :=
  match t.root? with
  | none => .error (.tree (.noNodes t.id))
  | some root =>
    if root.id ≠ 1 then .error (.tree (.notRooted t.id root.id))
    else t.nodes.toList.zipIdx.forM fun (n, column) => t.checkNode n column

/-- A tree from nodes, if it passes. -/
def ofNodes (id : UInt64) (nodes : Array (Node α)) : Except Error (Tree α) := do
  let t : Tree α := ⟨id, nodes⟩
  t.validate
  return t

end Tree

end GradientForest
