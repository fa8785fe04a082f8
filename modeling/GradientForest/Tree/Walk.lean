import GradientForest.Scalar.Basic
import GradientForest.Tree.Mask
import GradientForest.Tree.Basic
import GradientForest.Data.Matrix

/-!
# Walking a tree

A row enters a tree in column 0 and moves to a child at every split until it
reaches a leaf.  A scalar split sends a value below its threshold left and
everything else right, an undefined value too.  A categorical split refuses
everything but 0 and 1.

The walk of a table of `n` nodes takes at most `n + 1` steps.
-/

namespace GradientForest

open Scalar

/-- What a node tells a row to do. -/
inductive Turn (α : Type) where
  /-- Stop at a leaf. -/
  | stop (value : α)
  /-- Go to a child. -/
  | to (side : Side)

namespace NodeKind

variable {α : Type} [Scalar α]

/-- The value of a feature of a row. -/
def featureValue (row : Array α) (feature : UInt64) : Except Error α :=
  match row[feature.toNat]? with
  | some v => .ok v
  | none => .error (.dimensions (.features (feature + 1) row.size))

/-- What a node tells a row to do. -/
def turn (row : Array α) : NodeKind α → Except Error (Turn α)
  | .leaf value => .ok (.stop value)
  | .scalar feature threshold => do
    let v ← featureValue row feature
    return .to (if lt v threshold then .left else .right)
  | .categorical feature => do
    let v ← featureValue row feature
    match Side.ofIndicator v with
    | some side => return .to side
    | none => throw (.featureValue feature (text v) "categorical features must be 0 or 1")

end NodeKind

/-- The column of the child on a side, at an offset from its parent's column. -/
def Side.column (parent : Nat) (offset : UInt64) : Side → Nat
  | .left => parent + offset.toNat
  | .right => parent + offset.toNat + 1

namespace Tree

variable {α : Type} [Scalar α]

/-- The column behind a node on a side, which has to be a word. -/
def childColumn (column : UInt64) (n : Node α) (side : Side) : Except Error UInt64 :=
  let child := side.column column.toNat n.childOffset
  if IsWord child then .ok (.ofNat child) else .error .overflow

/-- The leaf value that a row reaches from a column in the given number of
steps. -/
def walkFrom (t : Tree α) (row : Array α) : Nat → UInt64 → Except Error α
  | 0, _ => .error (.walk (.noLeaf t.id))
  | steps + 1, column =>
    match t.nodes[column.toNat]? with
    | none => .error (.walk (.noColumn t.id column))
    | some n => do
      match ← n.kind.turn row with
      | .stop value => return value
      | .to side =>
        if n.childOffset = 0 then throw (.walk (.childless n.id t.id))
        else
          let child ← childColumn column n side
          t.walkFrom row steps child

/-- The leaf value that a row reaches. -/
def evaluate (t : Tree α) (row : Array α) : Except Error α := t.walkFrom row (t.size + 1) 0

/-- The leaf values of all rows of a matrix.  Rows do not depend on each other, and
when several fail, any of their errors would do; the choice here is the first row's. -/
def evaluateAll (t : Tree α) (m : Matrix α) : Except Error (Vector α m.height) :=
  m.rows.mapM fun r => t.evaluate r.toArray

end Tree

end GradientForest
