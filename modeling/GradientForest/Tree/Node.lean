import GradientForest.Data.Catalog

/-!
# Nodes

Nodes are numbered as in a complete binary tree: the root is 1 and the children
of `id` are `2 * id` and `2 * id + 1`.  Trees are kept flat, and a split knows
how many columns ahead its left child stands; the right child follows it.
-/

namespace GradientForest

/-- A number is a 64-bit word. -/
def IsWord (n : Nat) : Prop := n < UInt64.size

instance (n : Nat) : Decidable (IsWord n) := inferInstanceAs (Decidable (n < UInt64.size))

/-- The number of a node in the complete binary tree. -/
abbrev NodeId := UInt64

namespace NodeId

/-- The level of a node, 1 for the root: the length of its number in bits. -/
def level (id : NodeId) : Nat := if id = 0 then 0 else id.toNat.log2 + 1

/-- The number of the left child, as far as it is a word. -/
def left (id : NodeId) : NodeId := 2 * id

/-- The number of the right child, as far as it is a word. -/
def right (id : NodeId) : NodeId := 2 * id + 1

end NodeId

/-- What a node does with a row. -/
inductive NodeKind (α : Type) where
  /-- The row ends here with a value. -/
  | leaf (value : α)
  /-- The row goes left when its feature is below the threshold. -/
  | scalar (feature : UInt64) (threshold : α)
  /-- The row goes left when its feature is 1 and right when it is 0. -/
  | categorical (feature : UInt64)
deriving DecidableEq, Repr

/-- A node of a flat tree. -/
structure Node (α : Type) where
  /-- The number in the complete binary tree. -/
  id : NodeId
  /-- The round of the tree. -/
  treeId : UInt64
  /-- The distance in columns to the left child, 0 for leaves. -/
  childOffset : UInt64
  /-- What the node does. -/
  kind : NodeKind α
deriving DecidableEq, Repr

namespace NodeKind

variable {α : Type}

/-- The feature that a split tests. -/
def feature? : NodeKind α → Option UInt64
  | .leaf _ => none
  | .scalar feature _ | .categorical feature => some feature

/-- The kind of feature that a split tests. -/
def featureKind? : NodeKind α → Option FeatureKind
  | .leaf _ => none
  | .scalar .. => some .scalar
  | .categorical _ => some .categorical

/-- Whether the node is a leaf. -/
def isLeaf : NodeKind α → Bool
  | .leaf _ => true
  | _ => false

/-- The number that stands for the kind in records: 0 for a leaf, 1 for a
scalar and 2 for a categorical split. -/
def code : NodeKind α → Nat
  | .leaf _ => 0
  | .scalar .. => 1
  | .categorical _ => 2

end NodeKind

namespace Node

variable {α : Type}

/-- A leaf. -/
def leaf (id : NodeId) (treeId : UInt64) (value : α) : Node α := ⟨id, treeId, 0, .leaf value⟩

/-- The level of a node, 1 for the root. -/
def level (n : Node α) : Nat := n.id.level

/-- Whether a node is a leaf. -/
def isLeaf (n : Node α) : Bool := n.kind.isLeaf

/-- The feature that a node tests. -/
def feature? (n : Node α) : Option UInt64 := n.kind.feature?

/-- The value of a leaf. -/
def leafValue? (n : Node α) : Option α :=
  match n.kind with
  | .leaf value => some value
  | _ => none

end Node

end GradientForest
