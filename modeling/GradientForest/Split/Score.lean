import GradientForest.Scalar.Basic

/-!
# Scores and leaf values

A set of rows is judged by the sum `R` of its residuals and the sum `H` of its
hessian weights.  With regularisation `lambda` its score is `R² / (H + lambda)`
and the value of a leaf holding it is `R / (H + lambda)`.  Both are 0 when the
denominator is.

Rows come as a list of positions, and columns, residuals and weights as
functions of the position.
-/

namespace GradientForest

open Scalar

/-- The residuals and hessian weights of a set of rows, summed. -/
structure GradientSum (α : Type) where
  /-- The sum of the residuals. -/
  residual : α
  /-- The sum of the weights. -/
  hessian : α

namespace GradientSum

variable {α ι : Type} [Scalar α]

/-- The sums over no rows. -/
def zero : GradientSum α := ⟨0, 0⟩

/-- One more row. -/
def add (s : GradientSum α) (residual hessian : α) : GradientSum α :=
  ⟨s.residual + residual, s.hessian + hessian⟩

/-- What is left without a part. -/
def minus (s t : GradientSum α) : GradientSum α :=
  ⟨s.residual - t.residual, s.hessian - t.hessian⟩

/-- Two disjoint sets of rows together. -/
def plus (s t : GradientSum α) : GradientSum α :=
  ⟨s.residual + t.residual, s.hessian + t.hessian⟩

/-- The sums over a list of rows. -/
def ofRows (residual hessian : ι → α) (rows : List ι) : GradientSum α :=
  rows.foldl (fun s i => s.add (residual i) (hessian i)) zero

/-- The score of a set of rows. -/
def score (lambda : α) (s : GradientSum α) : α :=
  let denominator := s.hessian + lambda
  if beq denominator 0 then 0 else s.residual * s.residual / denominator

/-- The value of a leaf with these sums. -/
def value (lambda : α) (s : GradientSum α) : α :=
  let denominator := s.hessian + lambda
  if beq denominator 0 then 0 else s.residual / denominator

/-- What a split of a set into two parts gains. -/
def gain (lambda : α) (left right whole : GradientSum α) : α :=
  left.score lambda + right.score lambda - whole.score lambda

end GradientSum

/-- The value of a leaf holding the given rows, and 0 without rows. -/
def leafValue {α ι : Type} [Scalar α] (lambda : α) (residual hessian : ι → α)
    (rows : List ι) : α :=
  if rows.isEmpty then 0 else (GradientSum.ofRows residual hessian rows).value lambda

end GradientForest
