import Mathlib.Data.List.Range
import GradientForest.Tree.Basic
import GradientForest.Proofs.Tree.NodeNumber

/-!
# Nested trees and their level order

A `NestedTree` holds its two subtrees inside every split, as a recursion
produces it.  A flat tree lists the same nodes level by level.

`row k` lists the subtrees at distance `k` from the root, from left to right, and
`levelOrder` puts the rows one after another.  `flatten` is the flat tree: the
nodes in level order, where a split knows how many columns ahead its left child
stands.

A tree is `Numbered` when the children of every node have the numbers of its
children.  Then no number occurs twice, and a number finds its column.
-/

namespace GradientForest

/-- What a split of a tree on `n` features tests. -/
inductive SplitTest (α : Type) (n : ℕ) where
  /-- A feature is below a threshold. -/
  | scalar (feature : Fin n) (threshold : α)
  /-- An indicator is 1. -/
  | categorical (feature : Fin n)

namespace SplitTest

variable {α : Type} {n : ℕ}

/-- The tested feature. -/
def feature : SplitTest α n → Fin n
  | .scalar feature _ | .categorical feature => feature

/-- The kind of feature that is tested. -/
def featureKind : SplitTest α n → FeatureKind
  | .scalar .. => .scalar
  | .categorical _ => .categorical

/-- The test as a kind of node. -/
def nodeKind : SplitTest α n → NodeKind α
  | .scalar feature threshold => .scalar (.ofNat feature) threshold
  | .categorical feature => .categorical (.ofNat feature)

@[simp] theorem isLeaf_nodeKind (test : SplitTest α n) : test.nodeKind.isLeaf = false := by
  cases test <;> rfl

end SplitTest

/-- A tree on `n` features with its subtrees inside. -/
inductive NestedTree (α : Type) (n : ℕ) where
  /-- A leaf with its value. -/
  | leaf (id : NodeNumber) (value : α)
  /-- A split with its test and its two subtrees. -/
  | split (id : NodeNumber) (test : SplitTest α n) (left right : NestedTree α n)

namespace NestedTree

variable {α : Type} {n : ℕ}

/-- The number of the root. -/
def id : NestedTree α n → NodeNumber
  | .leaf id _ | .split id .. => id

/-- The subtrees of the root, left first. -/
def children : NestedTree α n → List (NestedTree α n)
  | .leaf .. => []
  | .split _ _ left right => [left, right]

/-- The number of nodes. -/
def size : NestedTree α n → ℕ
  | .leaf .. => 1
  | .split _ _ left right => left.size + right.size + 1

/-- The number of levels. -/
def height : NestedTree α n → ℕ
  | .leaf .. => 1
  | .split _ _ left right => max left.height right.height + 1

/-- The children of every node have the numbers of its children. -/
def Numbered : NestedTree α n → Prop
  | .leaf .. => True
  | .split id _ left right =>
    left.id = id.left ∧ right.id = id.right ∧ left.Numbered ∧ right.Numbered

/-! ## Level order -/

/-- The subtrees whose roots stand at a distance from the root, from left to
right. -/
def row : NestedTree α n → ℕ → List (NestedTree α n)
  | t, 0 => [t]
  | .leaf .., _ + 1 => []
  | .split _ _ left right, k + 1 => left.row k ++ right.row k

/-- All subtrees, level by level and from left to right. -/
def levelOrder (t : NestedTree α n) : List (NestedTree α n) :=
  (List.range t.height).flatMap t.row

/-- The position of a node number in level order. -/
def columnOf (t : NestedTree α n) (id : NodeNumber) : ℕ := (t.levelOrder.map NestedTree.id).idxOf id

/-- How far behind its column the left child of a subtree stands in level order,
and 0 for a leaf. -/
def distance (t : NestedTree α n) (column : ℕ) : NestedTree α n → ℕ
  | .leaf .. => 0
  | .split _ _ left _ => t.columnOf left.id - column

/-- The root as a node of a flat tree, with its distance to the left child. -/
def toNode (treeId : UInt64) (distance : ℕ) : NestedTree α n → Node α
  | .leaf id value => .leaf id.toId treeId value
  | .split id test _ _ => ⟨id.toId, treeId, .ofNat distance, test.nodeKind⟩

/-- The nodes of the flat tree: the level order with the distances in it. -/
def flatten (treeId : UInt64) (t : NestedTree α n) : List (Node α) :=
  t.levelOrder.mapIdx fun column s => s.toNode treeId (t.distance column s)

@[simp] theorem id_leaf (id : NodeNumber) (value : α) : (leaf id value : NestedTree α n).id = id :=
  rfl

@[simp] theorem id_split (id : NodeNumber) (test : SplitTest α n) (left right : NestedTree α n) :
    (split id test left right).id = id := rfl

theorem height_pos (t : NestedTree α n) : 0 < t.height := by
  cases t <;> simp [height]

theorem height_le_of_mem_children {s t : NestedTree α n} (h : s ∈ t.children) :
    s.height + 1 ≤ t.height := by
  cases t with
  | leaf => cases h
  | split id test left right =>
    simp only [children, List.mem_cons, List.not_mem_nil, or_false] at h
    rcases h with rfl | rfl <;> simp [height]

/-- A tree with `h` levels has fewer than `2 ^ h` nodes. -/
theorem size_lt_two_pow_height (t : NestedTree α n) : t.size < 2 ^ t.height := by
  induction t with
  | leaf => exact Nat.one_lt_two
  | split id test left right ihl ihr =>
    have hl : 2 ^ left.height ≤ 2 ^ max left.height right.height :=
      Nat.pow_le_pow_right (by omega) (Nat.le_max_left _ _)
    have hr : 2 ^ right.height ≤ 2 ^ max left.height right.height :=
      Nat.pow_le_pow_right (by omega) (Nat.le_max_right _ _)
    simp only [height, size, Nat.pow_succ]
    omega

@[simp] theorem row_zero (t : NestedTree α n) : t.row 0 = [t] := by
  cases t <;> rfl

theorem row_succ (t : NestedTree α n) (k : ℕ) : t.row (k + 1) = t.children.flatMap (·.row k) := by
  cases t <;> simp [row, children]

/-- The numbers of the children come right behind twice the number of the root. -/
theorem id_of_mem_children {s t : NestedTree α n} (ht : t.Numbered) (h : s ∈ t.children) :
    2 * (t.id : ℕ) ≤ s.id ∧ (s.id : ℕ) ≤ 2 * t.id + 1 := by
  cases t with
  | leaf => cases h
  | split id test left right =>
    obtain ⟨hleft, hright, -, -⟩ := ht
    simp only [children, List.mem_cons, List.not_mem_nil, or_false] at h
    rcases h with rfl | rfl
    · simp [hleft]
    · simp [hright]

theorem children_ordered {t : NestedTree α n} (ht : t.Numbered) :
    t.children.Pairwise fun s u => (s.id : ℕ) < u.id := by
  cases t with
  | leaf => exact .nil
  | split id test left right =>
    obtain ⟨hleft, hright, -, -⟩ := ht
    refine List.pairwise_pair.2 ?_
    rw [hleft, hright]
    exact Nat.lt_succ_self _

theorem numbered_of_mem_children {s t : NestedTree α n} (ht : t.Numbered) (h : s ∈ t.children) :
    s.Numbered := by
  cases t with
  | leaf => cases h
  | split id test left right =>
    obtain ⟨-, -, hleft, hright⟩ := ht
    simp only [children, List.mem_cons, List.not_mem_nil, or_false] at h
    rcases h with rfl | rfl
    · exact hleft
    · exact hright

end NestedTree

end GradientForest
