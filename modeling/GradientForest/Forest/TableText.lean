import GradientForest.Scalar.Binary64
import GradientForest.Data.Matrix
import GradientForest.Format.Csv
import GradientForest.Text.Blank

/-!
# Tables as text

A matrix as delimited text, one line per row, each number with its shortest
digits.  Reading allows blanks around the numbers.
-/

namespace GradientForest.TableText

/-- A matrix as text. -/
def write (m : Matrix Binary64) : String :=
  .ofList (m.toLists.flatMap fun row => Csv.line (row.map NumberStyle.plain.chars))

/-- A field as a number. -/
def value (field : String) : Except Error Binary64 :=
  match Literal.number (Text.trimChars field.toList) with
  | .ok x => .ok x
  | .error cause => .error (.format (.tableValue field cause))

/-- The numbers of all records, which have to have `width` fields. -/
def rows (width : Nat) (records : List Csv.Record) : Except Error (List (List Binary64)) :=
  records.zipIdx.mapM fun (r, i) => do
    let fields ← r.texts width i
    fields.mapM value

/-- Reads a matrix from text. -/
def read (s : String) : Except Error (Matrix Binary64) := do
  let records := Csv.records 0x2C (Text.toUtf8 s)
  let width := match records with
    | [] => 0
    | r :: _ => r.fields.length
  match Matrix.ofRows? width (← rows width records) with
  | some m => return m
  | none => throw (.format (.other "malformed table"))

end GradientForest.TableText
