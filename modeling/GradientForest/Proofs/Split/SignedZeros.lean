import GradientForest.Proofs.Scalar.SignedZeros
import GradientForest.Proofs.Split.Scan
import GradientForest.Split.Search

/-!
# The split search and signs of zeros

What the search for a split makes of residuals and weights that are alike, the same up to
the signs of zeros.  Every sum starts at zero and so is the same for both.  Distances from
a mean or from a line are squared, which takes their sign away.  So nothing that comes out
differs, the leaf values as little as the split (`Split.best?_alike`).
-/

namespace GradientForest

open Scalar

variable {α ι : Type} [Scalar α] [SignedZeros α]

/-! ## Sums -/

namespace GradientSum

/-- Both sums are settled. -/
structure Settled (s : GradientSum α) : Prop where
  residual : Scalar.Settled s.residual
  hessian : Scalar.Settled s.hessian

theorem settled_zero : (zero : GradientSum α).Settled :=
  ⟨SignedZeros.settled_zero, SignedZeros.settled_zero⟩

theorem Settled.add {s : GradientSum α} (h : s.Settled) (residual hessian : α) :
    (s.add residual hessian).Settled :=
  ⟨SignedZeros.settled_add _ h.residual, SignedZeros.settled_add _ h.hessian⟩

omit [SignedZeros α] in
theorem Settled.add_alike {s : GradientSum α} (h : s.Settled) {r r' w w' : α} (hr : Alike r r')
    (hw : Alike w w') : s.add r w = s.add r' w' :=
  congrArg₂ GradientSum.mk (h.residual.add_eq hr) (h.hessian.add_eq hw)

end GradientSum

section Rows

variable {residual residual' hessian hessian' : ι → α}
  (hresidual : ∀ i, Alike (residual i) (residual' i))
  (hhessian : ∀ i, Alike (hessian i) (hessian' i))

include hresidual hhessian

theorem GradientSum.ofRows_alike (rows : List ι) :
    ofRows residual hessian rows = ofRows residual' hessian' rows :=
  foldl_eq_of_invariant (P := Settled) (fun _ i hs => hs.add (residual i) (hessian i))
    (fun _ i hs => hs.add_alike (hresidual i) (hhessian i)) rows settled_zero

theorem leafValue_alike (lambda : α) (rows : List ι) :
    leafValue lambda residual hessian rows = leafValue lambda residual' hessian' rows := by
  rw [leafValue, leafValue, GradientSum.ofRows_alike hresidual hhessian]

/-! ## Gains -/

theorem indicatorGain_alike (lambda : α) (column : ι → α) (rows : List ι) :
    indicatorGain lambda column residual hessian rows =
      indicatorGain lambda column residual' hessian' rows := by
  simp only [indicatorGain, GradientSum.ofRows_alike hresidual hhessian]

namespace ThresholdSplit

theorem scan_alike (lambda : α) (column : ι → α) (total : GradientSum α) {left : GradientSum α}
    (hleft : left.Settled) (leader : Leader α) (rows : List ι) :
    scan lambda total left leader (rows.map fun i => ⟨column i, residual i, hessian i⟩) =
      scan lambda total left leader (rows.map fun i => ⟨column i, residual' i, hessian' i⟩) := by
  induction rows generalizing left leader with
  | nil => rfl
  | cons i rows ih =>
    cases rows with
    | nil => rfl
    | cons k rows =>
      have hadd := hleft.add_alike (hresidual i) (hhessian i)
      simp only [List.map_cons] at ih ⊢
      rw [scan, scan, ← hadd]
      split_ifs
      · exact ih (hleft.add _ _) _
      · exact ih (hleft.add _ _) _

theorem search_alike (lambda : α) (column : ι → α) (rows : List ι) :
    search lambda column residual hessian rows = search lambda column residual' hessian' rows := by
  rw [search_eq_rows, search_eq_rows]
  dsimp only
  rw [GradientSum.ofRows_alike hresidual hhessian,
    scan_alike hresidual hhessian lambda column _ GradientSum.settled_zero]

end ThresholdSplit

end Rows

/-! ## Ranking -/

section Ranking

variable {residual residual' : ι → α} (hresidual : ∀ i, Alike (residual i) (residual' i))

include hresidual

theorem Statistics.mean_alike (rows : List ι) :
    mean (rows.map residual) = mean (rows.map residual') := by
  rw [mean, mean, sumFromZero_alike hresidual, List.isEmpty_map, List.isEmpty_map, List.length_map,
    List.length_map]

theorem Ranking.variation_alike (rows : List ι) :
    variation (rows.map residual) = variation (rows.map residual') := by
  simp only [variation, Statistics.mean_alike hresidual, List.isEmpty_map, List.map_map,
    Function.comp_def, ((hresidual _).sub_left _).square_eq]

namespace LinearFit

theorem moments_alike (xMean yMean : α) (column : ι → α) (rows : List ι) :
    moments xMean yMean (rows.map fun i => (column i, residual i)) =
      moments xMean yMean (rows.map fun i => (column i, residual' i)) := by
  have hterm (i : ι) : Alike ((column i - xMean) * (residual i - yMean))
      ((column i - xMean) * (residual' i - yMean)) :=
    ((hresidual i).sub_left yMean).mul_right (column i - xMean)
  rw [moments, moments, List.foldl_map, List.foldl_map]
  refine foldl_eq_of_invariant (P := fun s => Settled s.1) (fun s i hs => ?_) (fun s i hs => ?_)
    rows SignedZeros.settled_zero
  · exact SignedZeros.settled_add _ hs
  · exact congrArg (Prod.mk · _) (hs.add_eq (hterm i))

theorem residualSum_alike (intercept slope : α) (column : ι → α) (rows : List ι) :
    residualSum intercept slope (rows.map fun i => (column i, residual i)) =
      residualSum intercept slope (rows.map fun i => (column i, residual' i)) := by
  simp only [residualSum, List.map_map, Function.comp_def, ((hresidual _).sub_left _).square_eq]

theorem ofLists_alike (column : ι → α) (rows : List ι) :
    ofLists (rows.map column) (rows.map residual) =
      ofLists (rows.map column) (rows.map residual') := by
  simp only [ofLists, List.zip_map', Statistics.mean_alike hresidual, moments_alike hresidual,
    residualSum_alike hresidual]

end LinearFit

namespace Ranking

theorem columnError_alike (column : ι → α) (rows : List ι) :
    columnError column residual rows = columnError column residual' rows := by
  simp only [columnError, LinearFit.ofLists_alike hresidual, variation_alike hresidual]

theorem select_alike {n : ℕ} (column : Fin n → ι → α) (rows : List ι) :
    select column residual rows = select column residual' rows := by
  simp only [select, columnError_alike hresidual]

end Ranking

end Ranking

/-! ## The split of a node -/

theorem Split.best?_alike (lambda : α) (m : Matrix α) (catalog : Catalog)
    {residual residual' hessian hessian' : Fin m.height → α}
    (hresidual : ∀ i, Alike (residual i) (residual' i))
    (hhessian : ∀ i, Alike (hessian i) (hessian' i)) (rows : List (Fin m.height)) :
    best? lambda m catalog residual hessian rows =
      best? lambda m catalog residual' hessian' rows := by
  have hcolumn (j : Fin m.width) : ofColumn lambda m catalog residual hessian rows j =
      ofColumn lambda m catalog residual' hessian' rows j := by
    rw [ofColumn, ofColumn, ThresholdSplit.search_alike hresidual hhessian,
      indicatorGain_alike hresidual hhessian]
  rw [best?, best?, Ranking.select_alike hresidual, funext hcolumn]

end GradientForest
