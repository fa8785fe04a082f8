import GradientForest.Proofs.Growth.Placement

/-!
# Walks through grown trees

A row suits a dataset when it has a value for every feature, and indicators in
the categorical columns.  The rows of the dataset do (`suits_row`).

Every row that suits the dataset walks down every grown tree to a leaf.  The
tree tests features that the row has, and asks for an indicator only where the
row has one, so no turn fails (`SplitTest.exists_turn`).  The children of a
column stand behind it, so the steps of a walk suffice
(`Growth.Stands.exists_trailFrom`).
-/

namespace GradientForest

open Scalar

variable {α : Type} [Scalar α] {d : Dataset α}

/-- A row of a dataset. -/
def Dataset.row (d : Dataset α) (i : Fin d.numRows) : Array α := (d.features.rows.get i).toArray

theorem Dataset.getElem?_row (i : Fin d.numRows) (j : Fin d.numFeatures) :
    (d.row i)[(j : ℕ)]? = some (d.features.entry i j) :=
  Array.getElem?_eq_some_iff.2 ⟨by simp [Dataset.row], rfl⟩

/-- A row has a value for every feature, and indicators in categorical columns. -/
def Suits (d : Dataset α) (row : Array α) : Prop :=
  ∀ j : Fin d.numFeatures, ∃ v, row[(j : ℕ)]? = some v ∧
    (d.catalog.kind j = .categorical → isIndicator v = true)

theorem suits_row (i : Fin d.numRows) : Suits d (d.row i) := fun j =>
  ⟨d.features.entry i j, d.getElem?_row i j, fun hkind => d.indicators j hkind i⟩

variable {row : Array α}

theorem Side.ofThreshold_eq_none {threshold v : α} :
    ofThreshold threshold v = none ↔ lt v threshold = false ∧ le threshold v = false := by
  rw [ofThreshold]
  cases lt v threshold with
  | true => simp
  | false => cases le threshold v <;> simp

theorem Side.exists_ofIndicator {v : α} (hv : isIndicator v = true) :
    ∃ side, ofIndicator v = some side := by
  rw [← Option.ne_none_iff_exists', ne_eq, ofIndicator_eq_none, hv]
  exact Bool.noConfusion

namespace SplitTest

/-- The side that a test sends a value to, if there is one. -/
def sideOf {n : ℕ} (v : α) : SplitTest α n → Option Side
  | .scalar _ threshold => Side.ofThreshold threshold v
  | .categorical _ => Side.ofIndicator v

variable {test : SplitTest α d.numFeatures} {v : α}

theorem featureValue_eq {j : Fin d.numFeatures} (hv : row[(j : ℕ)]? = some v) :
    NodeKind.featureValue row (.ofNat j) = .ok v := by
  rw [NodeKind.featureValue, Dataset.toNat_column, hv]

/-- A row turns to the side of its value. -/
theorem turn_of_sideOf (hv : row[(test.feature : ℕ)]? = some v) {side : Side}
    (hside : test.sideOf v = some side) : test.nodeKind.turn row = .ok (.to side) := by
  cases test with
  | scalar j threshold =>
    have hvalue := featureValue_eq (j := j) hv
    simp only [nodeKind, NodeKind.turn, hvalue, bind, Except.bind, pure, Except.pure,
      Except.ok.injEq, Turn.to.injEq]
    simp only [sideOf, Side.ofThreshold] at hside
    split at hside
    · rename_i hlt
      rw [if_pos hlt]
      exact Option.some.inj hside
    · rename_i hlt
      rw [if_neg hlt]
      split at hside
      · exact Option.some.inj hside
      · cases hside
  | categorical j =>
    have hvalue := featureValue_eq (j := j) hv
    change Side.ofIndicator v = some side at hside
    simp only [nodeKind, NodeKind.turn, hvalue, hside, bind, Except.bind, pure, Except.pure]

/-- A scalar test sends a value that belongs nowhere to the right. -/
theorem turn_of_scalar {j : Fin d.numFeatures} {threshold : α}
    (hv : row[(j : ℕ)]? = some v) (hlt : lt v threshold = false) :
    (scalar j threshold : SplitTest α d.numFeatures).nodeKind.turn row = .ok (.to .right) := by
  have hvalue := featureValue_eq hv
  simp only [nodeKind, NodeKind.turn, hvalue, bind, Except.bind, pure, Except.pure, hlt,
    Bool.false_eq_true, if_false]

/-- A row that suits the dataset turns to some side. -/
theorem exists_turn (hrow : Suits d row)
    (hkind : test.featureKind = d.catalog.kind test.feature) :
    ∃ side, test.nodeKind.turn row = .ok (.to side) := by
  obtain ⟨v, hv, hindicator⟩ := hrow test.feature
  cases hside : test.sideOf v with
  | some side => exact ⟨side, turn_of_sideOf hv hside⟩
  | none =>
    cases test with
    | scalar j threshold =>
      obtain ⟨hlt, -⟩ := Side.ofThreshold_eq_none.1 hside
      exact ⟨.right, turn_of_scalar hv hlt⟩
    | categorical j =>
      obtain ⟨side, hside'⟩ := Side.exists_ofIndicator (hindicator hkind.symm)
      cases hside.symm.trans hside'

end SplitTest

namespace Growth

variable {p : GrowthParameters α} {residual hessian : Vector α d.numRows}

/-- From every column a row that suits the dataset has a trail to a leaf. -/
theorem Stands.exists_trailFrom {c : ℕ} {id : NodeNumber} {mask : Mask}
    (h : Stands d p residual hessian c id mask)
    (hdepth : p.maxDepth.toNat < Settings.maxExactLevel) (treeId : UInt64) (hrow : Suits d row)
    {steps : ℕ} (hsteps : (grow d p treeId residual hessian).size < steps + c) :
    ∃ w, (grow d p treeId residual hessian).trailFrom row steps (.ofNat c) = .ok w ∧
      (grow d p treeId residual hessian).leafAt? w.leaf = some w.value := by
  induction steps generalizing c id mask with
  | zero =>
    have hc := h.lt_size hdepth treeId
    omega
  | succ steps ih =>
    have hc : c < 2 ^ 64 := h.lt_word hdepth
    cases h.column hdepth treeId with
    | leaf value node =>
      refine ⟨⟨[], c, value⟩, Tree.trailFrom_leaf hc node steps, ?_⟩
      rw [Tree.leafAt?, node]
      rfl
    | split test offset node kind pos child =>
      obtain ⟨side, hturn⟩ := SplitTest.exists_turn hrow kind
      have hlt := Side.lt_column pos c side
      obtain ⟨w, hw, hleaf⟩ := ih (child side) (by omega)
      refine ⟨w.after [c], ?_, hleaf⟩
      rw [Tree.trailFrom_split hc node hturn pos ((child side).lt_word hdepth) steps, hw]
      rfl

/-- A row that suits the dataset has a trail to a leaf of every grown tree. -/
theorem exists_trail (residual hessian : Vector α d.numRows)
    (hdepth : p.maxDepth.toNat < Settings.maxExactLevel) (treeId : UInt64) (hrow : Suits d row) :
    ∃ w, (grow d p treeId residual hessian).trail row = .ok w ∧
      (grow d p treeId residual hessian).leafAt? w.leaf = some w.value :=
  (stands_root d p residual hessian).exists_trailFrom hdepth treeId hrow (Nat.lt_succ_self _)

end Growth

end GradientForest
