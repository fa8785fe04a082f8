import GradientForest.Settings.Basic
import GradientForest.Scalar.Binary64
import GradientForest.Format.Json.Reader
import GradientForest.Format.Json.Writer
import GradientForest.Format.Toml.Document
import GradientForest.Text.FileName
import GradientForest.Text.Utf8

/-!
# Settings files

Settings are kept as TOML or JSON, as the extension of the file says.  A file
names only the settings that it changes, and unknown ones are ignored.  What is
loaded is checked, what is saved is not.
-/

namespace GradientForest

open Json (Outline)

/-- The format of a settings file. -/
inductive SettingsFormat where
  /-- JSON. -/
  | json
  /-- TOML. -/
  | toml
deriving DecidableEq, Repr

/-- The format that a path asks for. -/
def SettingsFormat.ofPath (path : String) : Except Error SettingsFormat :=
  match FileName.extension? path with
  | some e =>
    if e = "json" then .ok .json
    else if e = "toml" then .ok .toml
    else .error (.settings .unsupportedFile)
  | none => .error (.settings .unsupportedFile)

namespace Settings

/-- The names of the settings in files. -/
def fieldNames : List String :=
  ["mode", "num_trees", "learning_rate", "max_depth", "lambda", "num_threads", "verbosity"]

/-- A value that may be missing and has to be readable otherwise. -/
def orElse? {β γ : Type} (missing : γ) (read? : β → Option γ) : Option β → Option γ
  | none => some missing
  | some v => read? v

/-- The settings whose values, in the order of the settings, are read by the
given readers. -/
def ofFields? {β : Type} (word? : β → Option String) (count? : β → Option UInt64)
    (float? : β → Option Binary64) : List (Option β) → Option (Settings Binary64)
  | [task, numTrees, learningRate, maxDepth, lambda, numThreads, verbosity] => do
    let d : Settings Binary64 := default
    return {
      task := ← orElse? d.task (fun v => do Task.ofName? (← word? v)) task
      numTrees := ← orElse? d.numTrees count? numTrees
      learningRate := ← orElse? d.learningRate float? learningRate
      maxDepth := ← orElse? d.maxDepth count? maxDepth
      lambda := ← orElse? d.lambda float? lambda
      numThreads := ← orElse? d.numThreads count? numThreads
      verbosity := ← orElse? d.verbosity (fun v => do Verbosity.ofName? (← word? v)) verbosity }
  | _ => none

/-! ## JSON -/

/-- Reads settings from a JSON document. -/
def ofJson? (s : String) : Option (Settings Binary64) := do
  let v ← Json.ofString? s
  ofFields? Json.word? Json.count? Json.float? (← v.partialFields? fieldNames)

/-- The settings as a JSON document. -/
def toJson (s : Settings Binary64) : String :=
  (Outline.object [("mode", .word s.task.name), ("num_trees", .count s.numTrees),
    ("learning_rate", .number s.learningRate), ("max_depth", .count s.maxDepth),
    ("lambda", .number s.lambda), ("num_threads", .count s.numThreads),
    ("verbosity", .word s.verbosity.name)]).document

/-! ## TOML -/

/-- Reads settings from a TOML document. -/
def ofToml? (s : String) : Option (Settings Binary64) := do
  let es ← Toml.Document.read? s
  ofFields? Toml.word? Toml.count? Toml.float? (fieldNames.map fun n => Toml.find? n es)

/-- The largest count that TOML holds. -/
def maxTomlCount : Nat := Int64.maxValue.toInt.toNat

/-- A line of a TOML document. -/
def tomlLine (key value : String) : String := key ++ " = " ++ value ++ "\n"

/-- A word between quotes. -/
def tomlWord (s : String) : String := "\"" ++ s ++ "\""

/-- The settings as a TOML document, if it can hold their counts. -/
def toToml? (s : Settings Binary64) : Option String :=
  if s.numTrees.toNat ≤ maxTomlCount ∧ s.maxDepth.toNat ≤ maxTomlCount ∧
      s.numThreads.toNat ≤ maxTomlCount then
    some (tomlLine "mode" (tomlWord s.task.name) ++
      tomlLine "num_trees" (toString s.numTrees) ++
      tomlLine "learning_rate" (NumberStyle.toml.render s.learningRate) ++
      tomlLine "max_depth" (toString s.maxDepth) ++
      tomlLine "lambda" (NumberStyle.toml.render s.lambda) ++
      tomlLine "num_threads" (toString s.numThreads) ++
      tomlLine "verbosity" (tomlWord s.verbosity.name))
  else none

/-! ## Files -/

/-- Reads settings in a format without checking them. -/
def decode (text : String) : SettingsFormat → Except Error (Settings Binary64)
  | .json =>
    match ofJson? text with
    | some s => .ok s
    | none => .error .json
  | .toml =>
    match ofToml? text with
    | some s => .ok s
    | none => .error (.settings .malformedToml)

/-- Loads settings from a file given as its bytes, or as nothing when it does not
exist. -/
def load (path : String) (file : Option (List UInt8)) : Except Error (Settings Binary64) :=
  match file.bind Text.ofUtf8? with
  | none => .error (.settings .unreadableFile)
  | some text => do
    let s ← decode text (← SettingsFormat.ofPath path)
    s.build

/-- The settings as a text in a format. -/
def encode (s : Settings Binary64) : SettingsFormat → Except Error String
  | .json => .ok s.toJson
  | .toml =>
    match s.toToml? with
    | some text => .ok text
    | none => .error (.settings .unwritableToml)

/-- The text of the file that settings are saved as.  `writable` says whether a
file can be put at the path. -/
def save (s : Settings Binary64) (path : String) (writable : Bool) : Except Error String := do
  let text ← s.encode (← SettingsFormat.ofPath path)
  if writable then return text else throw .notFound

/-- Saves settings where there may already be a file: the bytes of the file afterwards, and
how it ended.  The file is only touched when there is a text to be written. -/
def saveOver (s : Settings Binary64) (path : String) (writable : Bool)
    (file : Option (List UInt8)) : Option (List UInt8) × Except Error Unit :=
  match s.save path writable with
  | .ok text => (some (Text.toUtf8 text), .ok ())
  | .error e => (file, .error e)

end Settings

end GradientForest
