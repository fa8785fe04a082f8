import GradientForest.Scalar.Statistics
import GradientForest.Settings.Basic
import GradientForest.Tree.Growth
import GradientForest.Forest.Basic
import GradientForest.Forest.History

/-!
# Training

Every row starts at the median label.  Each round grows one tree on the
differences between labels and predictions, moves the predictions by the leaf
values that the rows reach, and records the metric.
-/

namespace GradientForest

open Scalar

namespace Settings

/-- What growth needs of the settings. -/
def growth {α : Type} (s : Settings α) : GrowthParameters α := ⟨s.task, s.maxDepth, s.lambda⟩

end Settings

namespace Training

variable {α : Type} [Scalar α]

/-- The state between two rounds. -/
structure State (α : Type) (n : Nat) where
  /-- The prediction of every row. -/
  predictions : Vector α n
  /-- The trees so far. -/
  trees : Array (Tree α)
  /-- The metrics so far. -/
  history : History α

/-- The state before the first round. -/
def start (s : Settings α) (d : Dataset α) (bias : α) : State α d.numRows :=
  let predictions := Vector.replicate d.numRows bias
  { predictions
    trees := #[]
    history := .start s.task.metricName (s.task.metric predictions.toList d.labels.toList) }

/-- The tree of one round. -/
def roundTree (s : Settings α) (d : Dataset α) (round : Nat) (predictions : Vector α d.numRows) :
    Except Error (Tree α) :=
  Growth.build d s.growth (.ofNat round) (d.labels.zipWith (· - ·) predictions).toArray
    (predictions.map s.task.hessian).toArray

/-- One round. -/
def step (s : Settings α) (d : Dataset α) (round : Nat) (st : State α d.numRows) :
    Except Error (State α d.numRows) := do
  let tree ← roundTree s d round st.predictions
  let leaves ← tree.evaluateAll d.features
  let predictions := Forest.applyTree s.task s.learningRate st.predictions leaves
  return {
    predictions
    trees := st.trees.push tree
    history := st.history.push (s.task.metric predictions.toList d.labels.toList) }

/-- `n` rounds, the first of them with the given number. -/
def rounds (s : Settings α) (d : Dataset α) :
    Nat → Nat → State α d.numRows → Except Error (State α d.numRows)
  | 0, _, st => .ok st
  | n + 1, round, st => do rounds s d n (round + 1) (← step s d round st)

/-- Trains on a dataset whose labels suit the task. -/
def run (s : Settings α) (d : Dataset α) : Except Error (Forest α × History α) := do
  d.checkLabels s.task
  let bias := Statistics.median d.labels.toList
  let st ← rounds s d s.numTrees.toNat 1 (start s d bias)
  return (⟨bias, st.trees, s.learningRate, s.task⟩, st.history)

end Training

namespace Settings

variable {α : Type} [Scalar α]

/-- Trains with settings that are allowed. -/
def train (s : Settings α) (d : Dataset α) : Except Error (Forest α × History α) := do
  s.validate
  Training.run s d

end Settings

namespace Forest

variable {α : Type} [Scalar α]

/-- Trains on a feature matrix and a label matrix of one column.  Without feature
kinds every column is scalar. -/
def train (features labels : Matrix α) (kinds : Option (List FeatureKind)) (s : Settings α) :
    Except Error (Forest α) := do
  s.validate
  let catalog := match kinds with
    | some kinds => ⟨kinds⟩
    | none => .allScalar features.width
  let d ← Dataset.ofLabelMatrix features labels catalog
  let (f, _) ← Training.run s d
  return f

end Forest

end GradientForest
