import GradientForest.Forest.Json
import GradientForest.Forest.Binary
import GradientForest.Text.FileName

/-!
# Model files

A model file is JSON or binary, as the extension of its name says, in any case.
Files are given as their bytes, and a file that does not exist as nothing.
-/

namespace GradientForest

/-- The format of a model file. -/
inductive ModelFormat where
  /-- A JSON text. -/
  | json
  /-- Bytes. -/
  | binary
deriving DecidableEq, Repr

namespace ModelFormat

/-- The format that a path asks for. -/
def ofPath (path : String) : Except Error ModelFormat :=
  match (FileName.extension? path).map fun e => e.toList.map Char.toLower with
  | some e =>
    if e = "json".toList then .ok .json
    else if e = "bin".toList ∨ e = "bincode".toList then .ok .binary
    else .error (.format (.unknownFormat path))
  | none => .error (.format (.unknownFormat path))

/-- The usual extension of a format. -/
def extension : ModelFormat → String
  | .json => "json"
  | .binary => "bin"

end ModelFormat

namespace Forest

/-- The bytes of a forest in a format. -/
def encode (f : Forest Binary64) : ModelFormat → List UInt8
  | .json => Text.toUtf8 f.toJson
  | .binary => f.toBytes

/-- Reads a forest in a format. -/
def decode (bytes : List UInt8) : ModelFormat → Except Error (Forest Binary64)
  | .json => ofJsonBytes bytes
  | .binary => ofBytes bytes

/-- The file that a forest is saved as.  `writable` says whether a file can be put
at the path. -/
def save (f : Forest Binary64) (path : String) (writable : Bool) : Except Error (List UInt8) := do
  let format ← ModelFormat.ofPath path
  if writable then return f.encode format else throw .notFound

/-- Loads a forest from a file. -/
def load (path : String) (file : Option (List UInt8)) : Except Error (Forest Binary64) := do
  let format ← ModelFormat.ofPath path
  match file with
  | none => throw .notFound
  | some bytes => decode bytes format

end Forest

end GradientForest
