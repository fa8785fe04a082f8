import GradientForest.Scalar.Statistics

/-!
# Ranking the columns

The column to split on is the one whose one-variable least-squares fit leaves
the smallest sum of squared residuals.  Rows with an undefined value are left
out of the fit and charged their own variation instead, so every column is
judged over the same rows.  A column with fewer than two distinct values cannot
be split and ranks at infinity.

`better` is the step of the reduction.  Ties go to the column further left.
-/

namespace GradientForest

open Scalar

namespace Ranking

variable {α ι : Type} [Scalar α]

/-- All values equal the first one. -/
def isConstant : List α → Bool
  | [] => true
  | x :: xs => (x :: xs).all fun v => beq v x

/-- The squared distances of values from their mean, summed, and 0 for no
values. -/
def variation (ys : List α) : α :=
  if ys.isEmpty then 0
  else
    let center := Statistics.mean ys
    sum (ys.map fun y => square (y - center))

/-- What a line in one column leaves unexplained of the residuals. -/
def columnError (column residual : ι → α) (rows : List ι) : α :=
  let present := rows.filter fun i => !isNaN (column i)
  let missing := rows.filter fun i => isNaN (column i)
  let xs := present.map column
  if isConstant xs then infinity
  else
    let ssr := (LinearFit.ofLists xs (present.map residual)).ssr
      + variation (missing.map residual)
    if isNaN ssr then infinity else ssr

/-- The better of two ranked columns. -/
def better {n : Nat} (a b : Fin n × α) : Fin n × α :=
  if precedes a.2 b.2 then a
  else if precedes b.2 a.2 then b
  else if a.1 ≤ b.1 then a
  else b

/-- The best of a list of ranked columns. -/
def best? {n : Nat} : List (Fin n × α) → Option (Fin n × α)
  | [] => none
  | c :: cs => some (cs.foldl better c)

/-- The column to split on, if there are columns. -/
def select {n : Nat} (column : Fin n → ι → α) (residual : ι → α) (rows : List ι) :
    Option (Fin n) :=
  (best? ((List.finRange n).map fun j => (j, columnError (column j) residual rows))).map Prod.fst

end Ranking

end GradientForest
