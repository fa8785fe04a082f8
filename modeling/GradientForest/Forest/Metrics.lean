import GradientForest.Scalar.Basic
import GradientForest.Scalar.Sorting

/-!
# Metrics

How far predictions are from the truth.  Predictions and labels are paired up
to the shorter list; averages are taken over the number of predictions.

Classification compares probabilities with 0 and 1: a value above one half
counts as positive.  The area under the curve is the rank sum of the positives,
ties sharing their average rank.
-/

namespace GradientForest

open Scalar

namespace Metrics

variable {α : Type} [Scalar α]

/-! ## Regression -/

/-- An average over the predictions of a term for each pair, and 0 without
predictions. -/
def averageOf (term : α → α → α) (predictions truth : List α) : α :=
  if predictions.isEmpty then 0
  else sum (List.zipWith term predictions truth) / ofNat predictions.length

/-- The mean squared error. -/
def mse (predictions truth : List α) : α := averageOf (fun p t => square (p - t)) predictions truth

/-- The root of the mean squared error. -/
def rmse (predictions truth : List α) : α := sqrt (mse predictions truth)

/-- The mean absolute error. -/
def mae (predictions truth : List α) : α := averageOf (fun p t => abs (p - t)) predictions truth

/-- Eight partial sums, each taking every eighth value. -/
structure Lanes (α : Type) where
  /-- The partial sums. -/
  sums : List α

/-- Adds eight values, one to each partial sum. -/
def Lanes.add (l : Lanes α) (xs : List α) : Lanes α := ⟨List.zipWith (· + ·) l.sums xs⟩

/-- The sum of the partial sums, opposite lanes first. -/
def Lanes.total (l : Lanes α) : α :=
  sumFromZero (List.zipWith (· + ·) (l.sums.take 4) (l.sums.drop 4))

/-- Sums a list eight values at a time over `n` rounds, then the rest in
order. -/
def laneSumFrom (l : Lanes α) : Nat → List α → α
  | 0, xs => xs.foldl (· + ·) l.total
  | n + 1, xs => laneSumFrom (l.add (xs.take 8)) n (xs.drop 8)

/-- The sum of a list in eight lanes. -/
def laneSum (xs : List α) : α := laneSumFrom ⟨List.replicate 8 0⟩ (xs.length / 8) xs

/-- The coefficient of determination, and 0 when the truth does not vary. -/
def r2 (predictions truth : List α) : α :=
  if truth.isEmpty then 0
  else
    let n : α := ofNat truth.length
    let mean := laneSum truth / n
    let total := sum (truth.map fun t => square (t - mean))
    if lt 0 total then 1 - mse predictions truth * n / total else 0

/-! ## Classification -/

/-- A probability or label above one half is positive. -/
def isPositive (x : α) : Bool := lt (1 / 2) x

/-- The distance that probabilities keep from 0 and 1 under a logarithm. -/
def epsilon : α := 1 / ofNat (Nat.pow 10 15)

/-- The cross-entropy of a label at a probability. -/
def crossEntropyAt (p y : α) : α := -(y * ln p + (1 - y) * ln (1 - p))

/-- The cross-entropy of a label at a probability kept away from 0 and 1. -/
def crossEntropy (p y : α) : α := crossEntropyAt (clamp epsilon (1 - epsilon) p) y

/-- The mean cross-entropy. -/
def logLoss (probabilities labels : List α) : α := averageOf crossEntropy probabilities labels

/-- The share of predictions that agree with their label. -/
def accuracy (probabilities labels : List α) : α :=
  if probabilities.isEmpty then 0
  else
    let correct := (probabilities.zip labels).countP fun (p, y) => isPositive p == isPositive y
    ofNat correct / ofNat probabilities.length

/-- The number of leading pairs that share the score of the first one. -/
def tieLength (score : α) (pairs : List (α × Bool)) : Nat :=
  (pairs.takeWhile fun q => beq q.1 score).length

/-- The rank sum of the positives among sorted pairs, where `start` pairs come
before, added to `acc`.  `n` bounds the number of tie groups.  The ranks may be
numbers of another type than the scores. -/
def rankSum {β : Type} [Scalar β] : Nat → Nat → β → List (α × Bool) → β
  | 0, _, acc, _ => acc
  | _, _, acc, [] => acc
  | n + 1, start, acc, q :: rest =>
    let tied := tieLength q.1 rest
    let averageRank : β := ofNat (start + (start + tied)) / 2 + 1
    let positives := (q :: rest.take tied).countP Prod.snd
    rankSum n (start + tied + 1) (acc + averageRank * ofNat positives) (rest.drop tied)

/-- Scores with the judgement of their labels. -/
def judged (scores labels : List α) : List (α × Bool) :=
  List.zipWith (fun s y => (s, isPositive y)) scores labels

/-- The area under the curve with ranks in `β`, and one half when a class is
missing. -/
def aucIn (β : Type) [Scalar β] (scores labels : List α) : β :=
  let pairs := judged scores labels
  let positives := pairs.countP Prod.snd
  let negatives := pairs.length - positives
  if positives = 0 ∨ negatives = 0 then 1 / 2
  else
    let sorted := Sorting.sort (fun a b => precedes a.1 b.1) pairs
    let ranks : β := rankSum sorted.length 0 0 sorted
    let p : β := ofNat positives
    (ranks - p * (p + 1) / 2) / (p * ofNat negatives)

/-- The area under the curve. -/
def auc (scores labels : List α) : α := aucIn α scores labels

/-- A share, and 0 of nothing. -/
def share (part whole : α) : α := if lt 0 whole then part / whole else 0

end Metrics

/-- The metrics of a regression. -/
structure RegressionMetrics (α : Type) where
  /-- The root of the mean squared error. -/
  rmse : α
  /-- The mean absolute error. -/
  mae : α
  /-- The coefficient of determination. -/
  r2 : α
  /-- The mean squared error. -/
  mse : α

/-- The metrics of a binary classification. -/
structure ClassificationMetrics (α : Type) where
  /-- The share of agreeing predictions. -/
  accuracy : α
  /-- The share of true among predicted positives. -/
  precision : α
  /-- The share of predicted among true positives. -/
  sensitivity : α
  /-- The harmonic mean of precision and sensitivity. -/
  f1 : α
  /-- The area under the curve. -/
  auc : α
  /-- The mean cross-entropy. -/
  logLoss : α

namespace Metrics

variable {α : Type} [Scalar α]

/-- All the metrics of a regression. -/
def regression (predictions truth : List α) : RegressionMetrics α where
  rmse := rmse predictions truth
  mae := mae predictions truth
  r2 := r2 predictions truth
  mse := mse predictions truth

/-- All the metrics of a binary classification. -/
def classification (probabilities labels : List α) : ClassificationMetrics α :=
  let pairs := List.zipWith (fun p y => (isPositive p, isPositive y)) probabilities labels
  let hits : α := ofNat (pairs.count (true, true))
  let falseAlarms : α := ofNat (pairs.count (true, false))
  let misses : α := ofNat (pairs.count (false, true))
  let precision := share hits (hits + falseAlarms)
  let sensitivity := share hits (hits + misses)
  { accuracy := accuracy probabilities labels
    precision
    sensitivity
    f1 := share (2 * precision * sensitivity) (precision + sensitivity)
    auc := auc probabilities labels
    logLoss := logLoss probabilities labels }

end Metrics

end GradientForest
