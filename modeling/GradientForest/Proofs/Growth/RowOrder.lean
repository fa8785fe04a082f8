import Mathlib.Data.List.FinRange
import GradientForest.Proofs.Growth.Partition
import GradientForest.Proofs.Split.RowOrder

/-!
# Growth and the order of the rows

`Dataset.permute` puts the rows of a dataset into another order, features and labels
together.  With residuals and weights in the same order as the rows, growth makes the same
tree of both datasets, if the arithmetic is exact (`Growth.grow_permute`).

The recursion that growth computes compares the two node by node.  Their masks differ,
but a row is active in one where it is active in the other (`SameRows`), and a split
keeps that (`SameRows.sides`).
-/

namespace GradientForest

open Scalar

/-! ## Rows in another order -/

section Permute

variable {α β γ : Type} {n : ℕ}

/-- The values of the rows in another order. -/
def reorder (σ : Equiv.Perm (Fin n)) (xs : Vector α n) : Vector α n := .ofFn fun i => xs.get (σ i)

variable (σ : Equiv.Perm (Fin n))

theorem get_reorder (xs : Vector α n) : (reorder σ xs).get = xs.get ∘ σ := by
  funext i
  simp [reorder, get_eq_getElem]

theorem map_reorder (f : α → β) (xs : Vector α n) :
    (reorder σ xs).map f = reorder σ (xs.map f) := by
  ext i hi
  simp [reorder, get_eq_getElem]

theorem zipWith_reorder (f : α → β → γ) (xs : Vector α n) (ys : Vector β n) :
    (reorder σ xs).zipWith f (reorder σ ys) = reorder σ (xs.zipWith f ys) := by
  ext i hi
  simp [reorder, get_eq_getElem]

theorem reorder_replicate (x : α) : reorder σ (.replicate n x) = .replicate n x := by
  ext i hi
  simp [reorder, get_eq_getElem]

theorem reorder_ofFn (f : Fin n → α) : reorder σ (.ofFn f) = .ofFn (f ∘ σ) := by
  ext i hi
  simp [reorder, get_eq_getElem]

-- both are reducible, so that a row of one dataset is at once a row of the other

/-- The matrix with its rows in another order. -/
@[reducible] def Matrix.permute (m : Matrix α) (σ : Equiv.Perm (Fin m.height)) : Matrix α :=
  ⟨m.height, m.width, reorder σ m.rows⟩

theorem Matrix.entry_permute (m : Matrix α) (σ : Equiv.Perm (Fin m.height)) (i : Fin m.height)
    (j : Fin m.width) : (m.permute σ).entry i j = m.entry (σ i) j := by
  simp [entry, permute, reorder, get_eq_getElem]

theorem Matrix.column_permute (m : Matrix α) (σ : Equiv.Perm (Fin m.height)) (j : Fin m.width) :
    (m.permute σ).column j = m.column j ∘ σ := funext fun i => m.entry_permute σ i j

/-- The dataset with its rows in another order. -/
@[reducible] def Dataset.permute [Scalar α] (d : Dataset α) (σ : Equiv.Perm (Fin d.numRows)) :
    Dataset α where
  features := d.features.permute σ
  labels := reorder σ d.labels
  catalog := d.catalog
  names := d.names
  height_pos := d.height_pos
  catalog_length := d.catalog_length
  indicators j hj i := by
    rw [Matrix.entry_permute]
    exact d.indicators j hj (σ i)
  height_lt := d.height_lt
  width_lt := d.width_lt

theorem Dataset.row_permute [Scalar α] (d : Dataset α) (σ : Equiv.Perm (Fin d.numRows))
    (i : Fin d.numRows) : (d.permute σ).row i = d.row (σ i) := by
  simp [row, permute, Matrix.permute, reorder, get_eq_getElem]

end Permute

variable [Exact.Functions]

/-- The split of a node does not depend on the order of its rows. -/
theorem Split.best?_permute {m : Matrix Exact} (σ : Equiv.Perm (Fin m.height))
    {rows rows' : List (Fin m.height)} (h : (rows'.map σ).Perm rows) (lambda : Exact)
    (catalog : Catalog) (residual hessian : Fin m.height → Exact) :
    best? lambda (m.permute σ) catalog (residual ∘ σ) (hessian ∘ σ) rows' =
      best? lambda m catalog residual hessian rows := by
  have hselect : Ranking.select (m.permute σ).column (residual ∘ σ) rows' =
      Ranking.select m.column residual rows := by
    rw [← Ranking.select_perm h]
    exact congrArg (fun columns => Ranking.select columns _ rows') (funext (m.column_permute σ))
  have hcolumn : ∀ j : Fin m.width,
      ofColumn lambda (m.permute σ) catalog (residual ∘ σ) (hessian ∘ σ) rows' j =
        ofColumn lambda m catalog residual hessian rows j := by
    intro j
    have hsearch := ThresholdSplit.search_perm h (m.column j) residual hessian lambda
    have hgain := indicatorGain_perm h (m.column j) residual hessian lambda
    rw [← m.column_permute σ j] at hsearch hgain
    rw [ofColumn, ofColumn, hsearch, hgain]
  rw [best?, best?, hselect]
  exact congrArg (fun f => Option.map f _) (funext hcolumn)

namespace Growth

variable {d : Dataset Exact} {σ : Equiv.Perm (Fin d.numRows)} {mask mask' : Mask}

/-! ## One node -/

/-- A mask for the reordered rows has the rows of another mask. -/
def SameRows (σ : Equiv.Perm (Fin d.numRows)) (mask' mask : Mask) : Prop :=
  ∀ i : Fin d.numRows, mask'.isActive i = mask.isActive (σ i)

theorem sameRows_allActive : SameRows σ (.allActive d.numRows) (.allActive d.numRows) := by
  intro i
  rw [Mask.isActive_allActive, Mask.isActive_allActive]

theorem SameRows.activeRows (h : SameRows σ mask' mask) :
    ((mask'.activeRows d.numRows).map σ).Perm (mask.activeRows d.numRows) := by
  have hrows : mask'.activeRows d.numRows =
      (List.finRange d.numRows).filter ((fun i : Fin d.numRows => mask.isActive i) ∘ σ) :=
    List.filter_congr fun i _ => h i
  rw [hrows]
  exact filter_perm σ.map_finRange_perm _

/-- A test divides the rows of both masks in the same way. -/
theorem SameRows.sides (h : SameRows σ mask' mask) (test : SplitTest Exact d.numFeatures)
    (side : Side) :
    SameRows σ (side.pick (test.sides (d.permute σ) mask')) (side.pick (test.sides d mask)) := by
  intro i
  have hactive := test.isActive_sides (d := d.permute σ) mask' i side
  rw [Bool.eq_iff_iff, hactive, test.isActive_sides, h i]
  rw [show (d.permute σ).features.entry i test.feature = d.features.entry (σ i) test.feature from
    d.features.entry_permute σ i test.feature]

/-- Labels agree where none of them differs from another. -/
theorem labelsAgree_iff (d : Dataset Exact) (rows : List (Fin d.numRows)) :
    LabelsAgree d rows ↔ Ranking.isConstant (rows.map d.labels.get) = true := by
  cases rows with
  | nil => exact iff_of_true nofun rfl
  | cons i rows => simp [LabelsAgree, Ranking.isConstant]

theorem SameRows.labelsAgree (h : SameRows σ mask' mask) :
    LabelsAgree (d.permute σ) (mask'.activeRows d.numRows) ↔
      LabelsAgree d (mask.activeRows d.numRows) := by
  have hlabels := Exact.isConstant_perm (map_perm h.activeRows d.labels.get)
  rw [← get_reorder] at hlabels
  rw [labelsAgree_iff, labelsAgree_iff, ← hlabels]

/-! ## Trees -/

variable (p : GrowthParameters Exact) (residual hessian : Vector Exact d.numRows)

/-- The same tree grows from masks with the same rows. -/
theorem expand_permute (id : NodeNumber) (h : SameRows σ mask' mask) :
    expand (d.permute σ) p (reorder σ residual) (reorder σ hessian) id mask' =
      expand d p residual hessian id mask := by
  induction hk : p.maxDepth.toNat + 1 - id.level using Nat.strong_induction_on
    generalizing id mask mask' with
  | _ k ih =>
    have hrows := h.activeRows
    have hempty : mask'.activeRows d.numRows = [] ↔ mask.activeRows d.numRows = [] := by
      rw [← List.isEmpty_iff, ← List.isEmpty_iff, ← hrows.isEmpty_eq, List.isEmpty_map]
    have hlength : (mask'.activeRows d.numRows).length = (mask.activeRows d.numRows).length := by
      rw [← hrows.length_eq, List.length_map]
    have hvalue := leafValue_perm hrows residual.get hessian.get p.lambda
    have hbest := Split.best?_permute σ hrows p.lambda d.catalog residual.get hessian.get
    rw [← get_reorder, ← get_reorder] at hvalue hbest
    rw [expand, expand]
    simp only [hempty, hlength, hvalue, hbest, h.labelsAgree]
    split_ifs with hnone hstop
    · rfl
    · rfl
    · cases Split.best? p.lambda d.features d.catalog residual.get hessian.get
          (mask.activeRows d.numRows) with
      | none => rfl
      | some s =>
        dsimp only
        split_ifs with haccepted
        · have hleft := id.level_left
          have hright := id.level_right
          exact congrArg₂ (NestedTree.split id (.ofSplit s))
            (ih _ (by omega) id.left (h.sides (.ofSplit s) .left) rfl)
            (ih _ (by omega) id.right (h.sides (.ofSplit s) .right) rfl)
        · rfl

variable {p} in
theorem grow_permute (hdepth : p.maxDepth.toNat < Settings.maxExactLevel) (treeId : UInt64) :
    grow (d.permute σ) p treeId (reorder σ residual) (reorder σ hessian) =
      grow d p treeId residual hessian := by
  have hroot : expandRoot (d.permute σ) p (reorder σ residual) (reorder σ hessian) =
      expandRoot d p residual hessian := expand_permute p residual hessian .root sameRows_allActive
  have hnodes := grow_nodes (d.permute σ) (reorder σ residual) (reorder σ hessian) hdepth treeId
  rw [hroot, ← grow_nodes d residual hessian hdepth] at hnodes
  exact congrArg (Tree.mk treeId) (Array.toList_inj.1 hnodes)

end Growth

end GradientForest
