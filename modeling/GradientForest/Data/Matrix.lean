/-!
# Matrices

Rectangular tables of values.  Rows all have the width of the matrix, so every
pair of a row and a column has a value.
-/

namespace GradientForest

/-- A rectangular table of values, row by row. -/
structure Matrix (α : Type) where
  /-- The number of rows. -/
  height : Nat
  /-- The number of columns. -/
  width : Nat
  /-- The rows. -/
  rows : Vector (Vector α width) height
deriving DecidableEq, Repr

namespace Matrix

variable {α : Type}

/-- The value at a row and a column. -/
def entry (m : Matrix α) (i : Fin m.height) (j : Fin m.width) : α := (m.rows[i])[j]

/-- One column, as a function of the row. -/
def column (m : Matrix α) (j : Fin m.width) (i : Fin m.height) : α := m.entry i j

/-- The columns from left to right. -/
def columns (m : Matrix α) : List (List α) :=
  (List.finRange m.width).map fun j => (List.finRange m.height).map (m.column j)

/-- The rows as lists. -/
def toLists (m : Matrix α) : List (List α) := m.rows.toList.map Vector.toList

/-- The matrix with the given values. -/
def ofFn {height width : Nat} (f : Fin height → Fin width → α) : Matrix α :=
  ⟨height, width, .ofFn fun i => .ofFn (f i)⟩

/-- Lists of equal length as the rows of a matrix of the given width. -/
def ofRows? (width : Nat) (rows : List (List α)) : Option (Matrix α) :=
  if h : ∀ r ∈ rows, r.length = width then
    some ⟨rows.length, width,
      .ofFn fun i => ⟨(rows[i]).toArray, by simpa using h _ (List.getElem_mem i.isLt)⟩⟩
  else none

/-- Lists of equal length as the rows of a matrix.  The first one decides the
width. -/
def ofLists? (rows : List (List α)) : Option (Matrix α) :=
  ofRows? ((rows.head?.map List.length).getD 0) rows

/-- The matrix with one value replaced.  Positions outside change nothing. -/
def set (m : Matrix α) (i j : Nat) (v : α) : Matrix α :=
  ofFn fun (k : Fin m.height) (l : Fin m.width) =>
    if k.val = i ∧ l.val = j then v else m.entry k l

end Matrix

end GradientForest
