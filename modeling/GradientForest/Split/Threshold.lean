import GradientForest.Split.Score
import GradientForest.Scalar.Sorting

/-!
# The best threshold of a column

The candidates of a scalar column are the midpoints between neighbouring
distinct values on the rows of a node.  Rows with an undefined value take no
part.  The rows are sorted once, and the scan carries the sums of the rows to
the left of a candidate; the sums to its right are what is left of the total.
A later candidate wins only with a strictly larger gain.

A categorical column has one candidate, the rows at 1 against the rows at 0.
-/

namespace GradientForest

open Scalar

/-- The outcome of a threshold search. -/
structure ThresholdSplit (α : Type) where
  /-- Whether the best candidate gains something. -/
  accepted : Bool
  /-- The threshold of the best candidate. -/
  threshold : α
  /-- The gain of the best candidate, 0 when there is none. -/
  gain : α

/-- What a row adds to a threshold search. -/
structure Sample (α : Type) where
  /-- The value in the column. -/
  value : α
  /-- The residual. -/
  residual : α
  /-- The hessian weight. -/
  hessian : α

namespace ThresholdSplit

variable {α ι : Type} [Scalar α]

/-- No candidate. -/
def none : ThresholdSplit α := ⟨false, nan, 0⟩

/-- The number half way between two others. -/
def midpoint (a b : α) : α := a + (b - a) / 2

/-- The rows with a defined value, as samples in row order. -/
def samples (column residual hessian : ι → α) (rows : List ι) : List (Sample α) :=
  (rows.filter fun i => !isNaN (column i)).map fun i => ⟨column i, residual i, hessian i⟩

/-- The best split so far with the gain that a better one has to exceed. -/
structure Leader (α : Type) where
  /-- The gain to exceed. -/
  bar : α
  /-- The best split. -/
  best : ThresholdSplit α

/-- The leader before the first candidate. -/
def Leader.start : Leader α := ⟨-infinity, none⟩

/-- The leader after one more candidate. -/
def Leader.consider (l : Leader α) (gain threshold : α) : Leader α :=
  if lt l.bar gain then ⟨gain, lt 0 gain, threshold, gain⟩ else l

/-- Scans sorted samples, given the sums of the samples passed before. -/
def scan (lambda : α) (total : GradientSum α) (left : GradientSum α) (leader : Leader α) :
    List (Sample α) → Leader α
  | a :: b :: rest =>
    let left := left.add a.residual a.hessian
    if le b.value a.value then scan lambda total left leader (b :: rest)
    else
      let gain := GradientSum.gain lambda left (total.minus left) total
      scan lambda total left (leader.consider gain (midpoint a.value b.value)) (b :: rest)
  | _ => leader

/-- The best threshold of a column on the given rows. -/
def search (lambda : α) (column residual hessian : ι → α) (rows : List ι) :
    ThresholdSplit α :=
  let all := samples column residual hessian rows
  if all.length < 2 then none
  else
    let sorted := Sorting.sort (fun a b => lt a.value b.value) all
    let total := GradientSum.ofRows Sample.residual Sample.hessian sorted
    (scan lambda total .zero .start sorted).best

end ThresholdSplit

/-- The gain of splitting the rows at 1 from the rows at 0. -/
def indicatorGain {α ι : Type} [Scalar α] (lambda : α) (column residual hessian : ι → α)
    (rows : List ι) : α :=
  let ones := GradientSum.ofRows residual hessian (rows.filter fun i => beq (column i) 1)
  let zeros := GradientSum.ofRows residual hessian
    (rows.filter fun i => !beq (column i) 1 && beq (column i) 0)
  GradientSum.gain lambda ones zeros (ones.plus zeros)

end GradientForest
