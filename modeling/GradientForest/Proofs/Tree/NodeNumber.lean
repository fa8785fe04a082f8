import Mathlib.Data.PNat.Basic
import GradientForest.Tree.Mask
import GradientForest.Tree.Node

/-!
# Node numbers without bound

The nodes of a complete binary tree are numbered from 1, and a flat tree keeps
the numbers in 64-bit words.  `NodeNumber` is the number itself, a positive
number without bound.  Its word is `toId`, and as long as the number fits into
the word, the two have the same level.
-/

namespace GradientForest

/-- The number of a node in a complete binary tree without bound. -/
abbrev NodeNumber := ℕ+

namespace NodeNumber

/-- The level of a node, 1 for the root: the length of its number in bits. -/
def level (id : NodeNumber) : ℕ := Nat.log2 id + 1

/-- The number of the root. -/
def root : NodeNumber := 1

/-- The number of the left child. -/
def left (id : NodeNumber) : NodeNumber := 2 * id

/-- The number of the right child. -/
def right (id : NodeNumber) : NodeNumber := 2 * id + 1

/-- The number of the child on a side. -/
def child (id : NodeNumber) : Side → NodeNumber
  | .left => id.left
  | .right => id.right

/-- The word that holds a number. -/
def toId (id : NodeNumber) : NodeId := .ofNat id

@[simp] theorem val_left (id : NodeNumber) : (id.left : ℕ) = 2 * id := rfl

@[simp] theorem val_right (id : NodeNumber) : (id.right : ℕ) = 2 * id + 1 := rfl

/-! ## Levels -/

@[simp] theorem level_root : root.level = 1 := rfl

@[simp] theorem level_left (id : NodeNumber) : id.left.level = id.level + 1 := by
  rw [level, val_left, Nat.log2_two_mul id.ne_zero, level]

@[simp] theorem level_right (id : NodeNumber) : id.right.level = id.level + 1 := by
  have htwo : 2 ≤ 2 * (id : ℕ) + 1 := by
    have := id.pos
    omega
  have hhalf : (2 * (id : ℕ) + 1) / 2 = id := by omega
  rw [level, val_right, Nat.log2_def, if_pos htwo, hhalf, level]

/-- A number is below the power of two of its level. -/
theorem lt_two_pow_level (id : NodeNumber) : (id : ℕ) < 2 ^ id.level := Nat.lt_log2_self

/-- A level of at most 64 keeps the number within a word. -/
theorem lt_of_level_le {id : NodeNumber} (h : id.level ≤ 64) : (id : ℕ) < 2 ^ 64 :=
  Nat.lt_of_lt_of_le id.lt_two_pow_level (Nat.pow_le_pow_right (by omega) h)

/-! ## Words -/

@[simp] theorem toId_left (id : NodeNumber) : id.left.toId = id.toId.left := by
  simp [toId, NodeId.left]

@[simp] theorem toId_right (id : NodeNumber) : id.right.toId = id.toId.right := by
  simp [toId, NodeId.right]

/-- A number that fits into its word is the number of the word. -/
theorem toNat_toId {id : NodeNumber} (h : (id : ℕ) < 2 ^ 64) : id.toId.toNat = id :=
  UInt64.toNat_ofNat_of_lt' h

/-- A number that fits into its word has the level of the word. -/
theorem level_toId {id : NodeNumber} (h : (id : ℕ) < 2 ^ 64) : id.toId.level = id.level := by
  have hne : id.toId ≠ 0 := by
    intro h0
    have hval := toNat_toId h
    rw [h0] at hval
    exact id.ne_zero hval.symm
  rw [NodeId.level, if_neg hne, toNat_toId h, level]

end NodeNumber

end GradientForest
