import GradientForest.Split.Search
import GradientForest.Proofs.Split.Ranking

/-!
# A redundant column and the split search

`Matrix.addColumn` puts one more column behind the others.  It is redundant when it copies
a column, or when its defined values are all equal (`Matrix.Redundant`).

On any rows a copy leaves as much unexplained as the column that it copies, and equal
values rank at infinity.  So the added column is never chosen, and the search finds the
split that it found without it (`Split.best?_addColumn`).
-/

namespace GradientForest

open Scalar

/-! ## A matrix with one more column -/

section AddColumn

variable {α : Type}

-- reducible, so that a row of the matrix is at once a row of the larger one

/-- The matrix with one more column behind the others. -/
@[reducible] def Matrix.addColumn (m : Matrix α) (column : Vector α m.height) : Matrix α :=
  ⟨m.height, m.width + 1, m.rows.zipWith Vector.push column⟩

variable (m : Matrix α) (column : Vector α m.height)

theorem Matrix.entry_castSucc (i : Fin m.height) (j : Fin m.width) :
    (m.addColumn column).entry i j.castSucc = m.entry i j := by
  simp [entry, addColumn]

theorem Matrix.entry_last (i : Fin m.height) :
    (m.addColumn column).entry i (Fin.last m.width) = column.get i := by
  simp [entry, addColumn]
  rfl

theorem Matrix.column_castSucc (j : Fin m.width) :
    (m.addColumn column).column j.castSucc = m.column j :=
  funext fun i => m.entry_castSucc column i j

theorem Matrix.column_last : (m.addColumn column).column (Fin.last m.width) = column.get :=
  funext (m.entry_last column)

/-- A column that copies one of the matrix, or whose defined values are all equal. -/
def Matrix.Redundant [Scalar α] : Prop :=
  (∃ j, ∀ i, column.get i = m.entry i j) ∨
    ∀ i k, isNaN (column.get i) = false → isNaN (column.get k) = false →
      beq (column.get i) (column.get k) = true

end AddColumn

/-- The catalog with the kind of one more column. -/
def Catalog.add (c : Catalog) (kind : FeatureKind) : Catalog := ⟨c.kinds ++ [kind]⟩

theorem Catalog.kind_add {c : Catalog} {j : ℕ} (hj : j < c.length) (kind : FeatureKind) :
    (c.add kind).kind j = c.kind j := by
  rw [Catalog.kind, Catalog.kind, List.getD_eq_getElem?_getD, List.getD_eq_getElem?_getD, add,
    List.getElem?_append_left hj]

theorem Catalog.kind_add_last (c : Catalog) (kind : FeatureKind) :
    (c.add kind).kind c.length = kind := by
  rw [Catalog.kind, List.getD_eq_getElem?_getD, add, length, List.getElem?_concat_length]
  rfl

/-- The split as one of a matrix with one more column. -/
def Split.widen {α : Type} {n : ℕ} (s : Split α n) : Split α (n + 1) :=
  ⟨s.feature.castSucc, s.kind, s.threshold, s.gain, s.accepted⟩

/-- A redundant column on the right does not change the split of a node. -/
theorem Split.best?_addColumn {α : Type} [Scalar α] [TotallyOrdered α] {m : Matrix α}
    {column : Vector α m.height} {catalog : Catalog} (hpos : 0 < m.width)
    (hcolumn : m.Redundant column) (hcatalog : catalog.length = m.width) (kind : FeatureKind)
    (lambda : α) (residual hessian : Fin m.height → α) (rows : List (Fin m.height)) :
    best? lambda (m.addColumn column) (catalog.add kind) residual hessian rows =
      (best? lambda m catalog residual hessian rows).map widen := by
  have hselect : Ranking.select (m.addColumn column).column residual rows =
      (Ranking.select m.column residual rows).map Fin.castSucc := by
    rw [← funext (m.column_castSucc column)]
    refine Ranking.select_last hpos ?_
    rw [m.column_last column]
    rcases hcolumn with ⟨j, hcopy⟩ | hequal
    · exact .inl ⟨j, (funext hcopy).trans (m.column_castSucc column j).symm⟩
    · refine .inr (Ranking.columnError_of_not_varies ?_)
      rintro ⟨i, -, k, -, hi, hk, hne⟩
      rw [hequal i k hi hk] at hne
      cases hne
  have hsplit : ∀ j : Fin m.width,
      ofColumn lambda (m.addColumn column) (catalog.add kind) residual hessian rows j.castSucc =
        (ofColumn lambda m catalog residual hessian rows j).widen := by
    intro j
    have hkind : (catalog.add kind).kind j = catalog.kind j :=
      Catalog.kind_add (hcatalog.symm ▸ j.isLt) kind
    rw [ofColumn, ofColumn, Fin.val_castSucc, hkind, m.column_castSucc column j]
    cases catalog.kind j <;> rfl
  rw [best?, best?, hselect, Option.map_map, Option.map_map]
  exact congrArg (fun f => Option.map f _) (funext hsplit)

end GradientForest
