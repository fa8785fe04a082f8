import GradientForest.Tree.Walk
import GradientForest.Forest.Objective

/-!
# Forests

A forest is a starting prediction and a list of trees.  It predicts by
replaying training: every row starts at the bias, and each tree moves its
prediction by the scaled value of the leaf that it reaches.
-/

namespace GradientForest

open Scalar

/-- A boosted ensemble of trees. -/
structure Forest (α : Type) where
  /-- The starting prediction. -/
  bias : α
  /-- The trees in training order. -/
  trees : Array (Tree α)
  /-- The factor on every leaf value. -/
  learningRate : α
  /-- The task. -/
  task : Task
deriving DecidableEq, Repr

namespace Forest

variable {α : Type} [Scalar α]

/-- A forest without trees. -/
def start (bias learningRate : α) (task : Task) : Forest α := ⟨bias, #[], learningRate, task⟩

/-- Appends a tree. -/
def push (f : Forest α) (t : Tree α) : Forest α := { f with trees := f.trees.push t }

/-- The number of trees. -/
def numTrees (f : Forest α) : Nat := f.trees.size

/-- The number of nodes of all trees. -/
def numNodes (f : Forest α) : Nat := f.trees.toList.foldl (fun n t => n + t.size) 0

/-- Checks every tree. -/
def validateTrees (f : Forest α) : Except Error Unit := f.trees.toList.forM Tree.validate

/-- A forest from parts, if every tree passes. -/
def ofTrees (bias : α) (trees : Array (Tree α)) (learningRate : α) (task : Task) :
    Except Error (Forest α) := do
  let f : Forest α := ⟨bias, trees, learningRate, task⟩
  f.validateTrees
  return f

/-- Checks the bias and every tree. -/
def validate (f : Forest α) : Except Error Unit :=
  if isFinite f.bias then f.validateTrees
  else .error (.format (.nonFiniteBias (text f.bias)))

/-- The predictions moved by the leaf values of one tree. -/
def applyTree (task : Task) (learningRate : α) {n : Nat} (predictions leaves : Vector α n) :
    Vector α n :=
  predictions.zipWith (task.update learningRate) leaves

/-- The predictions of a list of trees from given starting predictions. -/
def predictFrom (task : Task) (learningRate : α) (m : Matrix α) :
    Vector α m.height → List (Tree α) → Except Error (Vector α m.height)
  | predictions, [] => .ok predictions
  | predictions, t :: ts => do
    let leaves ← t.evaluateAll m
    predictFrom task learningRate m (applyTree task learningRate predictions leaves) ts

/-- The predictions of the first `k` trees for every row. -/
def predictWith (f : Forest α) (k : Nat) (m : Matrix α) : Except Error (Vector α m.height) :=
  if f.numTrees < k then
    .error (.parameter "num_trees" (toString k) s!"forest has only {f.numTrees} trees")
  else
    predictFrom f.task f.learningRate m (.replicate m.height f.bias) (f.trees.toList.take k)

/-- The predictions for every row. -/
def predict (f : Forest α) (m : Matrix α) : Except Error (Vector α m.height) :=
  f.predictWith f.numTrees m

/-- Prediction starts every row at the bias and applies all trees. -/
theorem predict_eq (f : Forest α) (m : Matrix α) :
    f.predict m =
      predictFrom f.task f.learningRate m (.replicate m.height f.bias) f.trees.toList := by
  have htake : f.trees.toList.take f.numTrees = f.trees.toList :=
    List.take_of_length_le (Nat.le_of_eq Array.length_toList)
  rw [predict, predictWith, if_neg (Nat.lt_irrefl _), htake]

/-- How often splits test each of the first `n` features. -/
def importance (f : Forest α) (n : Nat) : List Nat :=
  f.trees.toList.foldl (fun counts t => List.zipWith (· + ·) counts (t.splitCounts n))
    (List.replicate n 0)

end Forest

end GradientForest
