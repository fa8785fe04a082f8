import GradientForest.Error

/-!
# Tasks

A forest is trained either for regression or for binary classification.  The
task decides the weights of rows, how a leaf value enters a prediction, and the
metric that training records.
-/

namespace GradientForest

/-- The learning task. -/
inductive Task where
  /-- Squared error, with an additive update. -/
  | regression
  /-- Binary classification, with a logistic update. -/
  | classification
deriving DecidableEq, Repr, Inhabited

namespace Task

/-- The name of a task. -/
def name : Task → String
  | .regression => "regression"
  | .classification => "classification"

/-- The task with exactly this name. -/
def ofName? (s : String) : Option Task :=
  if s = "regression" then some .regression
  else if s = "classification" then some .classification
  else none

@[simp] theorem ofName?_name (t : Task) : ofName? t.name = some t := by
  cases t <;> decide

/-- The task that a word asks for.  The case of the word does not matter, and
`binary` asks for classification. -/
def parse (word : String) : Except Error Task :=
  let lower : String := .ofList (word.toList.map Char.toLower)
  if lower = "binary" then .ok .classification
  else match ofName? lower with
    | some t => .ok t
    | none => .error (.settings (.unknownTask word))

end Task

end GradientForest
