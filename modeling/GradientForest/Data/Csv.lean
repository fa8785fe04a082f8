import GradientForest.Scalar.Binary64
import GradientForest.Data.Dataset
import GradientForest.Format.Csv
import GradientForest.Text.Blank

/-!
# Datasets from delimited text

The first record names the columns.  One of them holds the labels, and the
others are the features in their order.  A field that is empty, `na` or `nan`
is a missing value.  Fields and names are trimmed.
-/

namespace GradientForest

open Scalar

/-- How a data file is to be read. -/
structure CsvOptions where
  /-- The name of the label column. -/
  target : String
  /-- The names of the categorical columns. -/
  categorical : List String
  /-- The byte between fields. -/
  delimiter : UInt8

namespace CsvOptions

/-- A field as a number. -/
def value? (field : String) : Option Binary64 :=
  let lower := field.toList.map Char.toLower
  if lower = [] ∨ lower = ['n', 'a', 'n'] ∨ lower = ['n', 'a'] then some nan
  else Literal.number? field

/-- The values of the fields of one row.  The first field that is no number is
an error. -/
def rowValues (row : Nat) (headers fields : List String) : Except Error (List Binary64) :=
  (headers.zip fields).mapM fun (header, field) =>
    match value? field with
    | some v => .ok v
    | none => .error (.dataset (.unreadableField field row header))

/-- The position of a name. -/
def columnOf (names : List String) (name : String) : Except Error Nat :=
  match names.findIdx? (· = name) with
  | some i => .ok i
  | none => .error (.dataset (.missingColumn name))

/-- The values of all rows behind the header, which has number 0. -/
def allValues (headers : List String) (rows : List Csv.Record) :
    Except Error (List (List Binary64)) :=
  rows.zipIdx.mapM fun (r, i) => do
    let fields ← r.texts headers.length (i + 1)
    rowValues i headers (fields.map Text.trim)

/-- Reads a dataset from bytes. -/
def read (options : CsvOptions) (bytes : List UInt8) : Except Error (Dataset Binary64) := do
  let records := Csv.records options.delimiter bytes
  let headers ← match records with
    | [] => pure []
    | r :: _ => r.texts r.fields.length 0
  let headers := headers.map Text.trim
  let target ← columnOf headers options.target
  let names := headers.eraseIdx target
  let categorical ← options.categorical.mapM (columnOf names)
  let rows ← allValues headers records.tail
  let labels := rows.map (·.getD target 0)
  let catalog := Catalog.withCategorical names.length categorical
  match Matrix.ofRows? names.length (rows.map (·.eraseIdx target)) with
  | none => throw (.dataset (.other "Ragged CSV rows"))
  | some features =>
    let d ← Dataset.ofParts features labels catalog
    d.withNames names

end CsvOptions

end GradientForest
