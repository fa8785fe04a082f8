import GradientForest.Split.Threshold
import GradientForest.Split.Ranking
import GradientForest.Data.Matrix
import GradientForest.Data.Catalog

/-!
# The split of a node

First the ranking chooses a column, then only this column is searched.  A
scalar column is split when its best threshold gains something.  A categorical
column is always split.
-/

namespace GradientForest

open Scalar

/-- The outcome of the split search on `n` columns. -/
structure Split (α : Type) (n : Nat) where
  /-- The chosen column. -/
  feature : Fin n
  /-- Its kind. -/
  kind : FeatureKind
  /-- The threshold of a scalar split. -/
  threshold : α
  /-- The gain. -/
  gain : α
  /-- Whether the node is to be split. -/
  accepted : Bool

namespace Split

variable {α : Type} [Scalar α]

/-- The split of one column. -/
def ofColumn (lambda : α) (m : Matrix α) (catalog : Catalog) (residual hessian : Fin m.height → α)
    (rows : List (Fin m.height)) (j : Fin m.width) : Split α m.width :=
  match catalog.kind j with
  | .scalar =>
    let s := ThresholdSplit.search lambda (m.column j) residual hessian rows
    ⟨j, .scalar, s.threshold, s.gain, s.accepted⟩
  | .categorical =>
    ⟨j, .categorical, nan, indicatorGain lambda (m.column j) residual hessian rows, true⟩

/-- The split of the best column, if there are columns. -/
def best? (lambda : α) (m : Matrix α) (catalog : Catalog) (residual hessian : Fin m.height → α)
    (rows : List (Fin m.height)) : Option (Split α m.width) :=
  (Ranking.select m.column residual rows).map
    (ofColumn lambda m catalog residual hessian rows)

end Split

end GradientForest
