import GradientForest.Forest.Basic
import GradientForest.Scalar.Binary64
import GradientForest.Proofs.Outcome

/-!
# Prediction goes row by row

Prediction takes one tree after the other and moves all rows by each of them.  `predictRow`
takes one row and moves it by all trees.  The two loops may be exchanged: the predictions
succeed together exactly if the row predictions do, and they are these
(`predictFrom_eq_ok_iff`).  Which error comes out may differ, because the tree that fails
first decides on the one side and the row that fails first on the other.

So a row is predicted in every matrix as it is alone, and the predictions for a selection
of rows are selected from the predictions for all (`predict_rowsAt`).
-/

namespace GradientForest

open Scalar

/-- The matrix of the listed rows, which may come in any order and repeatedly. -/
def Matrix.rowsAt {α : Type} (m : Matrix α) (is : List (Fin m.height)) : Matrix α :=
  ⟨is.length, m.width, .ofFn fun k => m.rows[is[k]]⟩

namespace Forest

variable {α : Type} [Scalar α]

/-- The prediction of a list of trees for one row from a given starting prediction. -/
def predictRow (task : Task) (rate : α) (row : Array α) : α → List (Tree α) → Except Error α
  | prediction, [] => .ok prediction
  | prediction, t :: ts => do
    let leaf ← t.evaluate row
    predictRow task rate row (task.update rate prediction leaf) ts

variable {task : Task} {rate : α} {m : Matrix α}

theorem evaluateAll_eq_ok_iff {t : Tree α} {leaves : Vector α m.height} :
    t.evaluateAll m = .ok leaves ↔
      ∀ i (hi : i < m.height), t.evaluate m.rows[i].toArray = .ok leaves[i] :=
  vector_mapM_eq_ok_iff

/-- The rows are predicted together exactly if each of them is. -/
theorem predictFrom_eq_ok_iff {ts : List (Tree α)} {starts predictions : Vector α m.height} :
    predictFrom task rate m starts ts = .ok predictions ↔
      ∀ i (hi : i < m.height),
        predictRow task rate m.rows[i].toArray starts[i] ts = .ok predictions[i] := by
  induction ts generalizing starts with
  | nil =>
    simp only [predictFrom, predictRow, Except.ok.injEq]
    exact Vector.ext_iff
  | cons t ts ih =>
    simp only [predictFrom, predictRow, bind_eq_ok_iff, evaluateAll_eq_ok_iff, ih]
    constructor
    · rintro ⟨leaves, hleaves, hrest⟩ i hi
      refine ⟨leaves[i], hleaves i hi, ?_⟩
      simpa [applyTree] using hrest i hi
    · intro h
      choose leaf hleaf hrest using h
      refine ⟨.ofFn fun i => leaf i i.isLt, fun i hi => ?_, fun i hi => ?_⟩
      · simpa using hleaf i hi
      · simpa [applyTree] using hrest i hi

theorem predict_eq_ok_iff {f : Forest α} {predictions : Vector α m.height} :
    f.predict m = .ok predictions ↔
      ∀ i (hi : i < m.height),
        predictRow f.task f.learningRate m.rows[i].toArray f.bias f.trees.toList =
          .ok predictions[i] := by
  rw [predict_eq, predictFrom_eq_ok_iff]
  simp only [Vector.getElem_replicate]

/-- The predictions for selected rows are selected from the predictions for all. -/
theorem predict_rowsAt_of_predict {f : Forest α} {predictions : Vector α m.height}
    (h : f.predict m = .ok predictions) (is : List (Fin m.height)) :
    f.predict (m.rowsAt is) = .ok (.ofFn fun k => predictions.get (is.get k)) := by
  refine predict_eq_ok_iff.2 fun k (hk : k < is.length) => ?_
  have hrow : (m.rowsAt is).rows[k] = m.rows[is[k]] := Vector.getElem_ofFn hk
  have hvalue : (Vector.ofFn fun k => predictions.get (is.get k))[k] = predictions[is[k]] :=
    Vector.getElem_ofFn hk
  have hselected := predict_eq_ok_iff.1 h is[k] is[k].isLt
  rw [hrow]
  exact hselected.trans (congrArg Except.ok hvalue.symm)

/-- A matrix is predicted if and only if each of its rows alone is, and a row alone gets
what it gets in the matrix.  Selected rows, in any order and repeatedly, get what they
get in the matrix. -/
theorem predict_rowsAt (f : Forest α) (m : Matrix α) :
    ((∃ predictions, f.predict m = .ok predictions) ↔
      ∀ i, ∃ prediction, f.predict (m.rowsAt [i]) = .ok #v[prediction]) ∧
    ∀ predictions, f.predict m = .ok predictions →
      (∀ i, f.predict (m.rowsAt [i]) = .ok #v[predictions.get i]) ∧
      ∀ is, f.predict (m.rowsAt is) = .ok (.ofFn fun k => predictions.get (is.get k)) := by
  have halone : ∀ predictions, f.predict m = .ok predictions →
      ∀ i, f.predict (m.rowsAt [i]) = .ok #v[predictions.get i] :=
    fun _ h i => predict_rowsAt_of_predict h [i]
  refine ⟨⟨fun ⟨predictions, h⟩ i => ⟨_, halone predictions h i⟩, fun h => ?_⟩,
    fun predictions h => ⟨halone predictions h, predict_rowsAt_of_predict h⟩⟩
  choose prediction hprediction using h
  refine ⟨.ofFn prediction, predict_eq_ok_iff.2 fun i hi => ?_⟩
  have hrow := predict_eq_ok_iff.1 (hprediction ⟨i, hi⟩) 0 Nat.one_pos
  rw [Vector.getElem_ofFn]
  exact hrow

/-- A stump and a tree that does not pass its check, since its root has the wrong number. -/
def looseForest : Forest Binary64 :=
  ⟨1, #[⟨1, #[⟨1, 1, 1, .scalar 0 5⟩, .leaf 2 1 10, .leaf 3 1 20]⟩, ⟨2, #[.leaf 9 2 3]⟩], 2,
    .regression⟩

/-- A row on each side of the stump and one without a value. -/
def looseRows : Matrix Binary64 := ⟨3, 1, #v[#v[4], #v[7], #v[nan]]⟩

/-- The second row, the first one and the second one again. -/
def swappedRows : List (Fin looseRows.height) := ([1, 0, 1] : List (Fin 3))

theorem predict_rowsAt_looseRows :
    looseForest.validate ≠ .ok () ∧ looseForest.predict looseRows = .ok #v[27, 47, 47] ∧
    looseForest.predict (looseRows.rowsAt swappedRows) = .ok #v[47, 27, 47] := by
  have hpredict : looseForest.predict looseRows = .ok #v[27, 47, 47] := by decide +kernel
  have hvalues : (Vector.ofFn fun k => (#v[27, 47, 47] : Vector Binary64 3).get
      (([1, 0, 1] : List (Fin 3)).get k)) = #v[47, 27, 47] := by decide +kernel
  have hselected := ((looseForest.predict_rowsAt looseRows).2 _ hpredict).2 swappedRows
  exact ⟨by decide +kernel, hpredict, hselected.trans (congrArg Except.ok hvalues)⟩

end Forest

end GradientForest
