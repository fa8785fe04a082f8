import GradientForest.Scalar.Basic
import GradientForest.Data.Task
import GradientForest.Data.Matrix
import GradientForest.Data.Catalog

/-!
# Datasets

Training data: a feature matrix, one label per row and the kind of every
column.  A `Dataset` has at least one row, as many kinds as columns, and only 0
and 1 in its categorical columns.  These facts are fields of the type, and
`Dataset.ofParts` is the check that establishes them.  Scalar columns may hold
any value.

Sizes stay below `Dataset.capacity`.  A value takes eight bytes and the positions
of bytes stay below `2 ^ 63`, so nothing larger can be held.
-/

namespace GradientForest

open Scalar

/-- The bound on the sizes of a dataset. -/
def Dataset.capacity : Nat := Nat.pow 2 60

/-- Training data that passed the checks. -/
structure Dataset (α : Type) [Scalar α] where
  /-- The features, one row per observation. -/
  features : Matrix α
  /-- The labels, one per row. -/
  labels : Vector α features.height
  /-- The kinds of the columns. -/
  catalog : Catalog
  /-- The names of the columns, if they have names. -/
  names : Option (List String)
  /-- There is a row. -/
  height_pos : 0 < features.height
  /-- Every column has a kind. -/
  catalog_length : catalog.length = features.width
  /-- Categorical columns hold indicators. -/
  indicators : ∀ j : Fin features.width, catalog.kind j = .categorical →
    ∀ i, isIndicator (features.entry i j) = true
  /-- The number of rows is within the capacity. -/
  height_lt : features.height < Dataset.capacity
  /-- The number of columns is within the capacity. -/
  width_lt : features.width < Dataset.capacity

namespace Dataset

variable {α : Type} [Scalar α]

/-- The number of rows. -/
abbrev numRows (d : Dataset α) : Nat := d.features.height

/-- The number of features. -/
abbrev numFeatures (d : Dataset α) : Nat := d.features.width

/-- The first row of a column that holds no indicator. -/
def nonIndicatorRow? (m : Matrix α) (j : Fin m.width) : Option (Fin m.height) :=
  (List.finRange m.height).find? fun i => !isIndicator (m.entry i j)

/-- The first categorical column with something other than an indicator, and
the first such value in it. -/
def nonIndicator? (m : Matrix α) (c : Catalog) : Option (Fin m.width × α) :=
  (List.finRange m.width).findSome? fun (j : Fin m.width) =>
    if c.kind j = .categorical then
      (nonIndicatorRow? m j).map fun i => (j, m.entry i j)
    else none

theorem isIndicator_of_nonIndicator?_eq_none {m : Matrix α} {c : Catalog}
    (h : nonIndicator? m c = none) (j : Fin m.width) (hj : c.kind j = .categorical)
    (i : Fin m.height) : isIndicator (m.entry i j) = true := by
  have hcol := List.findSome?_eq_none_iff.1 h j (List.mem_finRange j)
  simp only [hj, if_true, Option.map_eq_none_iff] at hcol
  simpa using List.find?_eq_none.1 hcol i (List.mem_finRange i)

/-- Checks features, labels and kinds, in this order: there are rows, there is
a label for each, there is a kind for each column, categorical columns hold
indicators, the sizes are within the capacity. -/
def ofParts (features : Matrix α) (labels : List α) (catalog : Catalog) :
    Except Error (Dataset α) :=
  if hpos : features.height = 0 then .error (.dataset .empty)
  else if hlab : labels.length ≠ features.height then
    .error (.dataset (.rowMismatch features.height labels.length))
  else if hcat : catalog.length ≠ features.width then
    .error (.dataset (.catalogLength features.width catalog.length))
  else
    match hind : nonIndicator? features catalog with
    | some (j, v) => .error (.dataset (.nonIndicator j (text v)))
    | none =>
      if hsize : features.height < capacity ∧ features.width < capacity then .ok {
        features
        labels := ⟨labels.toArray, by simpa using hlab⟩
        catalog
        names := none
        height_pos := by omega
        catalog_length := by simpa using hcat
        indicators := isIndicator_of_nonIndicator?_eq_none hind
        height_lt := hsize.1
        width_lt := hsize.2 }
      else .error (.dataset (.tooLarge features.height features.width))

/-- Checks features with labels given as a matrix of one column. -/
def ofLabelMatrix (features labels : Matrix α) (catalog : Catalog) :
    Except Error (Dataset α) :=
  if h : labels.width = 1 then
    ofParts features ((List.finRange labels.height).map (labels.column ⟨0, by omega⟩)) catalog
  else .error (.dataset (.labelColumns labels.width))

/-- Names the columns. -/
def withNames (d : Dataset α) (names : List String) : Except Error (Dataset α) :=
  if names.length = d.numFeatures then .ok { d with names := some names }
  else .error (.dataset (.catalogLength d.numFeatures names.length))

/-- The kind of a column. -/
def kind (d : Dataset α) (j : Nat) : FeatureKind := d.catalog.kind j

/-- Checks that the labels suit a task: classification needs 0 and 1,
regression needs finite numbers. -/
def checkLabels (d : Dataset α) : Task → Except Error Unit
  | .classification =>
    match d.labels.toList.find? fun y => !isIndicator y with
    | some y => .error (.parameter "labels" (text y) "classification labels must be 0 or 1")
    | none => .ok ()
  | .regression =>
    if d.labels.toList.all isFinite then .ok () else .error (.dataset .nonFiniteLabel)

end Dataset

end GradientForest
