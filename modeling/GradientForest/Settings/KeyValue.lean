import GradientForest.Scalar.Binary64
import GradientForest.Settings.Basic

/-!
# Settings from keys and values

Six settings can be given as texts under a key.  Some have a second name.
Unknown keys are ignored.
-/

namespace GradientForest

namespace Settings

/-- The settings that can be given as texts. -/
inductive Key where
  /-- The task. -/
  | task
  /-- The number of rounds. -/
  | numTrees
  /-- The factor on leaf values. -/
  | learningRate
  /-- The number of split levels. -/
  | maxDepth
  /-- The regularisation constant. -/
  | lambda
  /-- The number of worker threads. -/
  | numThreads
deriving DecidableEq, Repr

namespace Key

/-- All keys, in the order of the settings. -/
def all : List Key := [.task, .numTrees, .learningRate, .maxDepth, .lambda, .numThreads]

/-- The name of a key. -/
def name : Key → String
  | .task => "mode"
  | .numTrees => "num_trees"
  | .learningRate => "learning_rate"
  | .maxDepth => "max_depth"
  | .lambda => "lambda"
  | .numThreads => "num_threads"

/-- The key that a name stands for. -/
def ofName? (s : String) : Option Key :=
  if s = "mode" ∨ s = "objective" then some .task
  else if s = "num_trees" ∨ s = "num_iterations" then some .numTrees
  else if s = "learning_rate" then some .learningRate
  else if s = "max_depth" then some .maxDepth
  else if s = "lambda" ∨ s = "lambda_l2" then some .lambda
  else if s = "num_threads" then some .numThreads
  else none

@[simp] theorem ofName?_name (k : Key) : ofName? k.name = some k := by
  cases k <;> decide

end Key

/-- A value that has to be readable.  `shown` is the key as the fault names it. -/
def readable {β : Type} (shown value : String) : Option β → Except Error β
  | some v => .ok v
  | none => .error (.settings (.unreadableValue shown value))

/-- The settings with one of them read from a text. -/
def set (s : Settings Binary64) (k : Key) (shown value : String) : Except Error (Settings Binary64) :=
  match k with
  | .task => do return { s with task := ← Task.parse value }
  | .numTrees => do
    return { s with numTrees := ← readable shown value (Literal.count? value) }
  | .learningRate => do
    return { s with learningRate := ← readable shown value (Literal.number? value) }
  | .maxDepth => do
    return { s with maxDepth := ← readable shown value (Literal.count? value) }
  | .lambda => do
    return { s with lambda := ← readable shown value (Literal.number? value) }
  | .numThreads => do
    return { s with numThreads := ← readable shown value (Literal.count? value) }

/-- A setting as a text. -/
def get (s : Settings Binary64) : Key → String
  | .task => s.task.name
  | .numTrees => toString s.numTrees
  | .learningRate => NumberStyle.plain.render s.learningRate
  | .maxDepth => toString s.maxDepth
  | .lambda => NumberStyle.plain.render s.lambda
  | .numThreads => toString s.numThreads

/-- The settings changed by one pair of a key and a value. -/
def setPair (s : Settings Binary64) (pair : String × String) : Except Error (Settings Binary64) :=
  match Key.ofName? pair.1 with
  | some k => s.set k pair.1 pair.2
  | none => .ok s

/-- The settings that pairs of keys and values make of the default ones, if they
are allowed. -/
def ofPairs (pairs : List (String × String)) : Except Error (Settings Binary64) := do
  (← pairs.foldlM setPair default).build

/-- The settings as pairs of keys and values. -/
def toPairs (s : Settings Binary64) : List (String × String) :=
  Key.all.map fun k => (k.name, s.get k)

end Settings

end GradientForest
