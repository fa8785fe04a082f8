import GradientForest.Scalar.Basic
import GradientForest.Data.Task

/-!
# Settings

Everything that training can be told.  Every setting has a default, and
`Settings.validate` says which combinations are allowed.
-/

namespace GradientForest

open Scalar

/-- How much is logged, least first. -/
inductive Verbosity where
  /-- Errors. -/
  | error
  /-- Warnings too. -/
  | warning
  /-- Progress too. -/
  | info
  /-- Every node too. -/
  | debug
deriving DecidableEq, Repr, Inhabited

namespace Verbosity

/-- The name in settings files. -/
def name : Verbosity → String
  | .error => "error"
  | .warning => "warning"
  | .info => "info"
  | .debug => "debug"

/-- The verbosity with exactly this name. -/
def ofName? (s : String) : Option Verbosity :=
  if s = "error" then some .error
  else if s = "warning" then some .warning
  else if s = "info" then some .info
  else if s = "debug" then some .debug
  else none

@[simp] theorem ofName?_name (v : Verbosity) : ofName? v.name = some v := by
  cases v <;> decide

/-- The name of the log filter. -/
def filter : Verbosity → String
  | .error => "ERROR"
  | .warning => "WARN"
  | .info => "INFO"
  | .debug => "DEBUG"

/-- The place in the order. -/
def rank : Verbosity → Nat
  | .error => 0
  | .warning => 1
  | .info => 2
  | .debug => 3

end Verbosity

/-- What training can be told. -/
structure Settings (α : Type) where
  /-- The task. -/
  task : Task
  /-- The number of rounds. -/
  numTrees : UInt64
  /-- The factor on every leaf value. -/
  learningRate : α
  /-- The number of split levels of a tree. -/
  maxDepth : UInt64
  /-- The regularisation constant. -/
  lambda : α
  /-- The number of worker threads, where 0 leaves the choice open. -/
  numThreads : UInt64
  /-- How much is logged. -/
  verbosity : Verbosity
deriving DecidableEq, Repr

namespace Settings

variable {α : Type} [Scalar α]

/-- The version of the library. -/
def version : String := "0.1.0"

/-- The name of the settings file that is looked for. -/
def defaultFile : String := "treeboost.toml"

/-- Node numbers are exact in binary64 up to this level. -/
def maxExactLevel : Nat := 52

/-- The settings that nobody changed. -/
def default : Settings α where
  task := .regression
  numTrees := 100
  learningRate := 3 / 10
  maxDepth := 6
  lambda := 1
  numThreads := 0
  verbosity := .info

/-- Checks the settings one by one: there is a round, the learning rate is
positive and finite, the depth is at least one and below `maxExactLevel`, the
regularisation is finite and not negative. -/
def validate (s : Settings α) : Except Error Unit :=
  if s.numTrees < 1 then
    .error (.parameter "num_trees" (toString s.numTrees) "must be at least 1")
  else if le s.learningRate 0 || !isFinite s.learningRate then
    .error (.parameter "learning_rate" (text s.learningRate) "must be a positive finite number")
  else if s.maxDepth < 1 then
    .error (.parameter "max_depth" (toString s.maxDepth) "must be at least 1")
  else if maxExactLevel ≤ s.maxDepth.toNat then
    .error (.parameter "max_depth" (toString s.maxDepth)
      s!"must be below {maxExactLevel} so node ids stay exact")
  else if lt s.lambda 0 || !isFinite s.lambda then
    .error (.parameter "lambda" (text s.lambda) "must be non-negative and finite")
  else .ok ()

/-- The settings, if they are allowed. -/
def build (s : Settings α) : Except Error (Settings α) := do
  s.validate
  return s

end Settings

end GradientForest
