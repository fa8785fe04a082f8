import GradientForest.Scalar.Basic

/-!
# Row masks

While a tree grows, every node has a mask over all rows of the dataset.  A row
is active when it belongs to the node, excluded when it belongs elsewhere, and
not applicable when a split above could send it to neither side.  A split
partitions the active rows between two masks and leaves the others as they are.
-/

namespace GradientForest

open Scalar

/-- How a row stands to a node. -/
inductive Membership where
  /-- The row belongs to the node. -/
  | active
  /-- The row belongs to another node. -/
  | excluded
  /-- A split above sent the row to neither side. -/
  | notApplicable
deriving DecidableEq, Repr

/-- A side of a split. -/
inductive Side where
  /-- The left child. -/
  | left
  /-- The right child. -/
  | right
deriving DecidableEq, Repr

namespace Side

variable {α : Type} [Scalar α]

/-- The side of a value at a threshold: left below it, right from it on, and
none for an undefined comparison. -/
def ofThreshold (threshold value : α) : Option Side :=
  if lt value threshold then some .left
  else if le threshold value then some .right
  else none

/-- The side of an indicator: 1 goes left, 0 goes right. -/
def ofIndicator (value : α) : Option Side :=
  if beq value 1 then some .left
  else if beq value 0 then some .right
  else none

end Side

namespace Membership

variable {α : Type} [Scalar α]

/-- The memberships in the left and the right child. -/
def route : Membership → Option Side → Membership × Membership
  | .active, some .left => (.active, .excluded)
  | .active, some .right => (.excluded, .active)
  | .active, none => (.notApplicable, .notApplicable)
  | .excluded, _ => (.excluded, .excluded)
  | .notApplicable, _ => (.notApplicable, .notApplicable)

/-- The numeric form: 1, 0 or undefined. -/
def toScalar : Membership → α
  | .active => 1
  | .excluded => 0
  | .notApplicable => nan

/-- Reads the numeric form.  Every number other than 1 means excluded. -/
def ofScalar (x : α) : Membership :=
  if isNaN x then .notApplicable else if beq x 1 then .active else .excluded

end Membership

/-- The memberships of all rows in one node. -/
structure Mask where
  /-- The membership of each row. -/
  rows : Array Membership
deriving DecidableEq, Repr

namespace Mask

variable {α : Type} [Scalar α]

/-- The mask of the root. -/
def allActive (n : Nat) : Mask := ⟨.replicate n .active⟩

/-- The number of rows. -/
def size (m : Mask) : Nat := m.rows.size

/-- Whether there are no rows. -/
def isEmpty (m : Mask) : Bool := m.rows.isEmpty

/-- Whether a row is active. -/
def isActive (m : Mask) (i : Nat) : Bool := m.rows[i]? = some .active

/-- The active rows among the first `n`, in ascending order. -/
def activeRows (m : Mask) (n : Nat) : List (Fin n) :=
  (List.finRange n).filter fun i => m.isActive i

/-- The positions of all active rows, in ascending order. -/
def activeIndices (m : Mask) : List Nat := (List.range m.size).filter m.isActive

/-- The number of active rows. -/
def countActive (m : Mask) : Nat := m.activeIndices.length

/-- The two children of a mask, where `side` says where the value of each row
goes.  Rows without a value are left out of both. -/
def partitionBy (m : Mask) (side : α → Option Side) (column : Array α) : Mask × Mask :=
  let routed := Array.zipWith (fun b v => b.route (side v)) m.rows column
  (⟨routed.map Prod.fst⟩, ⟨routed.map Prod.snd⟩)

/-- The children of a scalar split. -/
def partitionScalar (m : Mask) (column : Array α) (threshold : α) : Mask × Mask :=
  m.partitionBy (Side.ofThreshold threshold) column

/-- The children of a categorical split. -/
def partitionCategorical (m : Mask) (column : Array α) : Mask × Mask :=
  m.partitionBy Side.ofIndicator column

end Mask

end GradientForest
