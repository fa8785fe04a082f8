import GradientForest.Scalar.Basic
import GradientForest.Scalar.Sorting.Runs

/-!
# Mean, median and the least-squares line

The three summaries of a list of numbers that training uses: the median label
is the starting prediction, the mean and the one-variable fit rank the columns
of a node.
-/

namespace GradientForest

open Scalar

namespace Statistics

variable {α : Type} [Scalar α]

/-- The arithmetic mean, and zero for no values. -/
def mean (xs : List α) : α :=
  if xs.isEmpty then 0 else sumFromZero xs / ofNat xs.length

/-- The middle of a sorted list: the central value, or half the sum of the two
central values. -/
def middle (values : List α) : α :=
  let half := values.length / 2
  if values.length % 2 = 0 then
    (values.getD (half - 1) 0 + values.getD half 0) / 2
  else
    values.getD half 0

/-- The values from the least to the greatest.  An undefined value compares with
nothing, and then the steps of the sort decide where the values go.  Without one
every stable sort gives the same list. -/
def sorted (xs : List α) : List α :=
  if xs.any isNaN then Sorting.sortAlways lt xs else Sorting.sort lt xs

/-- Defined values are sorted by insertion. -/
theorem sorted_of_defined {xs : List α} (h : xs.any isNaN = false) :
    sorted xs = Sorting.sort lt xs := by
  simp [sorted, h]

/-- The median, and zero for no values. -/
def median (xs : List α) : α :=
  if xs.isEmpty then 0 else middle (sorted xs)

end Statistics

/-- A line through paired values, with what it leaves unexplained. -/
structure LinearFit (α : Type) where
  /-- The value at zero. -/
  intercept : α
  /-- The change per unit, zero when the first coordinates do not vary. -/
  slope : α
  /-- The sum of squared residuals. -/
  ssr : α

namespace LinearFit

variable {α : Type} [Scalar α]

/-- The sums of `dx * dy` and of `dx * dx` over the pairs, where `dx` and `dy`
are the distances from the two means. -/
def moments (xMean yMean : α) (pairs : List (α × α)) : α × α :=
  pairs.foldl (fun (sxy, sxx) (x, y) =>
    let dx := x - xMean
    (sxy + dx * (y - yMean), sxx + dx * dx)) (0, 0)

/-- The sum of squared distances of the pairs from a line. -/
def residualSum (intercept slope : α) (pairs : List (α × α)) : α :=
  sum (pairs.map fun (x, y) => square (y - (intercept + slope * x)))

/-- The least-squares line of `ys` on `xs`.  Constant `xs` give the mean. -/
def ofLists (xs ys : List α) : LinearFit α :=
  if xs.isEmpty then ⟨0, 0, 0⟩
  else
    let xMean := Statistics.mean xs
    let yMean := Statistics.mean ys
    let pairs := xs.zip ys
    let (sxy, sxx) := moments xMean yMean pairs
    let slope := if lt 0 sxx then sxy / sxx else 0
    let intercept := yMean - slope * xMean
    ⟨intercept, slope, residualSum intercept slope pairs⟩

end LinearFit

end GradientForest
