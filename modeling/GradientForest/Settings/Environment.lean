import GradientForest.Settings.KeyValue

/-!
# Settings from the environment

Each setting that can be given as a text has an environment variable.  The
variables are applied in the order of the settings, and the result is checked.
The first value that cannot be read stops this, and the settings keep what was
applied before it.
-/

namespace GradientForest

namespace Settings

/-- What the names of the variables start with. -/
def variableStem : String := "TREEBOOST_"

/-- The name of the variable of a setting behind the common stem. -/
def Key.variable : Key → String
  | .task => "MODE"
  | .numTrees => "NUM_TREES"
  | .learningRate => "LEARNING_RATE"
  | .maxDepth => "MAX_DEPTH"
  | .lambda => "LAMBDA"
  | .numThreads => "NUM_THREADS"

/-- Applies the variables of some settings in order, then checks.  The settings
are returned as they are in the end, with an error if there was one. -/
def overrideAll (env : String → Option String) :
    List Key → Settings Binary64 → Settings Binary64 × Except Error Unit
  | [], s => (s, s.validate)
  | k :: ks, s =>
    match env (variableStem ++ k.variable) with
    | none => overrideAll env ks s
    | some value =>
      match s.set k (variableStem ++ k.variable) value with
      | .ok s => overrideAll env ks s
      | .error e => (s, .error e)

/-- Applies all variables. -/
def override (env : String → Option String) (s : Settings Binary64) :
    Settings Binary64 × Except Error Unit :=
  overrideAll env Key.all s

/-- The settings that the environment makes of others, if nothing fails. -/
def overridden (env : String → Option String) (s : Settings Binary64) :
    Except Error (Settings Binary64) :=
  match override env s with
  | (s, .ok ()) => .ok s
  | (_, .error e) => .error e

end Settings

end GradientForest
