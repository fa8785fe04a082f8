import Mathlib.Data.List.Basic
import GradientForest.Split.Search
import GradientForest.Proofs.Scalar.Exact
import GradientForest.Proofs.Scalar.Sorted
import GradientForest.Proofs.Split.Scan

/-!
# The split search and the order of the rows

In exact arithmetic the search for a split depends on which rows there are and not on
their order.  Two lists of rows are compared here: `rows`, and `rows'` whose positions
are renamed by `σ`, in any order.  Columns, residuals and weights are those of `rows`,
seen through `σ`.

Sums do not depend on the order, so scores, leaf values and the fits that rank the
columns do not either (`leafValue_perm`, `Ranking.select_perm`).  The scan for a
threshold goes over sorted samples, and rows with equal values may come to it in another
order.  But it stops at the cuts only, and these and the sums below them are the same
(`ThresholdSplit.scan_perm`, `ThresholdSplit.search_perm`).
-/

namespace GradientForest

open Scalar

variable [Exact.Functions]

/-! ## Lists in another order -/

namespace Exact

variable {xs ys : List Exact}

theorem sum_perm (h : xs.Perm ys) : Scalar.sum xs = Scalar.sum ys :=
  h.foldl_eq' (fun x _ y _ z => add_right_comm z x y) _

theorem sumFromZero_perm (h : xs.Perm ys) : sumFromZero xs = sumFromZero ys :=
  h.foldl_eq' (fun x _ y _ z => add_right_comm z x y) _

theorem mean_perm (h : xs.Perm ys) : Statistics.mean xs = Statistics.mean ys := by
  rw [Statistics.mean, Statistics.mean, h.isEmpty_eq, sumFromZero_perm h, h.length_eq]

theorem variation_perm (h : xs.Perm ys) : Ranking.variation xs = Ranking.variation ys := by
  simp only [Ranking.variation, h.isEmpty_eq, mean_perm h, sum_perm (h.map _)]

theorem isConstant_iff :
    Ranking.isConstant xs = true ↔ ∀ x ∈ xs, ∀ y ∈ xs, Scalar.beq x y = true := by
  cases xs with
  | nil => exact iff_of_true rfl nofun
  | cons x xs =>
    rw [Ranking.isConstant, List.all_eq_true]
    constructor
    · intro hall a ha b hb
      obtain ⟨hdefined, rfl⟩ := beq_iff.1 (hall a ha)
      obtain ⟨-, rfl⟩ := beq_iff.1 (hall b hb)
      exact beq_iff.2 ⟨hdefined, rfl⟩
    · exact fun hall v hv => hall v hv x List.mem_cons_self

theorem isConstant_perm (h : xs.Perm ys) : Ranking.isConstant xs = Ranking.isConstant ys := by
  rw [Bool.eq_iff_iff, isConstant_iff, isConstant_iff]
  simp only [h.mem_iff]

end Exact

namespace LinearFit

variable {pairs pairs' : List (Exact × Exact)}

theorem moments_perm (h : pairs.Perm pairs') (xMean yMean : Exact) :
    moments xMean yMean pairs = moments xMean yMean pairs' :=
  h.foldl_eq' (fun _ _ _ _ _ =>
    congrArg₂ Prod.mk (Exact.add_right_comm _ _ _) (Exact.add_right_comm _ _ _)) _

theorem residualSum_perm (h : pairs.Perm pairs') (intercept slope : Exact) :
    residualSum intercept slope pairs = residualSum intercept slope pairs' :=
  Exact.sum_perm (h.map _)

end LinearFit

theorem GradientSum.add_right_comm (s : GradientSum Exact) (r g r' g' : Exact) :
    (s.add r g).add r' g' = (s.add r' g').add r g :=
  congrArg₂ GradientSum.mk (Exact.add_right_comm _ _ _) (Exact.add_right_comm _ _ _)

/-! ## Sorted samples -/

namespace ThresholdSplit

section Samples

variable {ι : Type} (column residual hessian : ι → Exact) (rows : List ι)

theorem ne_undefined_of_mem_samples {x : Sample Exact}
    (hx : x ∈ samples column residual hessian rows) : x.value ≠ .undefined := by
  obtain ⟨i, hi, rfl⟩ := List.mem_map.1 hx
  obtain ⟨-, hdefined⟩ := List.mem_filter.1 hi
  rwa [Bool.not_eq_true', Exact.isNaN_eq_false_iff] at hdefined

theorem comparesBy_samples : Sorting.ComparesBy (fun a b => lt a.value b.value) Sample.value
    (samples column residual hessian rows) := fun _ hx _ hy =>
  Exact.lt_iff (ne_undefined_of_mem_samples column residual hessian rows hx)
    (ne_undefined_of_mem_samples column residual hessian rows hy)

theorem ordered_sort : Ordered id
    (Sorting.sort (fun a b => lt a.value b.value) (samples column residual hessian rows)) where
  le_iff x hx y hy := by
    rw [(Sorting.sort_perm _ _).mem_iff] at hx hy
    exact Exact.le_iff (ne_undefined_of_mem_samples column residual hessian rows hx)
      (ne_undefined_of_mem_samples column residual hessian rows hy)
  sorted := Sorting.pairwise_sort (comparesBy_samples column residual hessian rows)

end Samples

variable {xs ys : List (Sample Exact)}

theorem considerCut_perm (h : xs.Perm ys) (lambda : Exact) (total left : GradientSum Exact) :
    considerCut lambda total left xs = considerCut lambda total left ys := by
  have hsum (value : Exact) : sumUpTo left xs value = sumUpTo left ys value :=
    (h.filter _).foldl_eq' (fun _ _ _ _ s => s.add_right_comm _ _ _ _) _
  funext leader cut
  rw [considerCut, considerCut, hsum]

/-- The scan depends on the values in their order and on the samples in any order. -/
theorem scan_perm (h : xs.Perm ys) (hvalues : xs.map Sample.value = ys.map Sample.value)
    (hxs : Ordered id xs) (hys : Ordered id ys) (lambda : Exact) (total left : GradientSum Exact)
    (leader : Leader Exact) :
    scan lambda total left leader xs = scan lambda total left leader ys := by
  rw [scan_eq _ _ _ _ hxs, scan_eq _ _ _ _ hys, hvalues, considerCut_perm h]

end ThresholdSplit

/-! ## Rows in another order -/

section Rows

variable {ι ι' : Type} {σ : ι' → ι} {rows : List ι} {rows' : List ι'}

omit [Exact.Functions] in
theorem map_perm {β : Type} (h : (rows'.map σ).Perm rows) (f : ι → β) :
    (rows'.map (f ∘ σ)).Perm (rows.map f) := by
  rw [← List.map_map]
  exact h.map f

omit [Exact.Functions] in
theorem filter_perm (h : (rows'.map σ).Perm rows) (P : ι → Bool) :
    ((rows'.filter (P ∘ σ)).map σ).Perm (rows.filter P) := by
  rw [← List.filter_map]
  exact h.filter P

variable (h : (rows'.map σ).Perm rows) (column residual hessian : ι → Exact)

include h

theorem GradientSum.ofRows_perm :
    ofRows (residual ∘ σ) (hessian ∘ σ) rows' = ofRows residual hessian rows := by
  rw [ofRows, ofRows, ← h.foldl_eq' (fun i _ k _ s => s.add_right_comm _ _ _ _), List.foldl_map]
  rfl

theorem leafValue_perm (lambda : Exact) :
    leafValue lambda (residual ∘ σ) (hessian ∘ σ) rows' =
      leafValue lambda residual hessian rows := by
  have hempty : rows'.isEmpty = rows.isEmpty := by
    rw [← h.isEmpty_eq, List.isEmpty_map]
  rw [leafValue, leafValue, hempty, GradientSum.ofRows_perm h]

theorem LinearFit.ofLists_perm :
    ofLists (rows'.map (column ∘ σ)) (rows'.map (residual ∘ σ)) =
      ofLists (rows.map column) (rows.map residual) := by
  have hpairs : ((rows'.map (column ∘ σ)).zip (rows'.map (residual ∘ σ))).Perm
      ((rows.map column).zip (rows.map residual)) := by
    rw [List.zip_map', List.zip_map']
    exact map_perm h fun i => (column i, residual i)
  simp only [ofLists, (map_perm h column).isEmpty_eq, Exact.mean_perm (map_perm h column),
    Exact.mean_perm (map_perm h residual), moments_perm hpairs, residualSum_perm hpairs]

namespace Ranking

theorem columnError_perm :
    columnError (column ∘ σ) (residual ∘ σ) rows' = columnError column residual rows := by
  have hpresent : ((rows'.filter fun i => !isNaN ((column ∘ σ) i)).map σ).Perm
      (rows.filter fun i => !isNaN (column i)) := filter_perm h fun i => !isNaN (column i)
  have hmissing : ((rows'.filter fun i => isNaN ((column ∘ σ) i)).map σ).Perm
      (rows.filter fun i => isNaN (column i)) := filter_perm h fun i => isNaN (column i)
  simp only [columnError, Exact.isConstant_perm (map_perm hpresent column),
    LinearFit.ofLists_perm hpresent, Exact.variation_perm (map_perm hmissing residual)]

/-- The column to split on does not depend on the order of the rows. -/
theorem select_perm {n : ℕ} (columns : Fin n → ι → Exact) :
    select (fun j => columns j ∘ σ) (residual ∘ σ) rows' = select columns residual rows := by
  simp only [select, columnError_perm h]

end Ranking

namespace ThresholdSplit

theorem samples_perm :
    (samples (column ∘ σ) (residual ∘ σ) (hessian ∘ σ) rows').Perm
      (samples column residual hessian rows) :=
  map_perm (filter_perm h fun i => !isNaN (column i)) fun i =>
    (⟨column i, residual i, hessian i⟩ : Sample Exact)

/-- The best threshold does not depend on the order of the rows. -/
theorem search_perm (lambda : Exact) :
    search lambda (column ∘ σ) (residual ∘ σ) (hessian ∘ σ) rows' =
      search lambda column residual hessian rows := by
  have hsamples := samples_perm h column residual hessian
  let before := fun a b : Sample Exact => lt a.value b.value
  let sorted := Sorting.sort before (samples column residual hessian rows)
  let sorted' := Sorting.sort before
    (samples (column ∘ σ) (residual ∘ σ) (hessian ∘ σ) rows')
  have hsorted : sorted'.Perm sorted :=
    ((Sorting.sort_perm _ _).trans hsamples).trans (Sorting.sort_perm _ _).symm
  have hvalues : sorted'.map Sample.value = sorted.map Sample.value :=
    Sorting.map_sort_eq_of_perm hsamples (comparesBy_samples column residual hessian rows)
  have htotal : GradientSum.ofRows Sample.residual Sample.hessian sorted' =
      GradientSum.ofRows Sample.residual Sample.hessian sorted :=
    hsorted.foldl_eq' (fun _ _ _ _ s => s.add_right_comm _ _ _ _) _
  simp only [search, hsamples.length_eq]
  split_ifs with hfew
  · rfl
  · exact congrArg Leader.best ((scan_perm hsorted hvalues
      (ordered_sort (column ∘ σ) (residual ∘ σ) (hessian ∘ σ) rows')
      (ordered_sort column residual hessian rows) lambda _ .zero .start).trans
        (congrArg (fun total => scan lambda total .zero .start sorted) htotal))

end ThresholdSplit

theorem indicatorGain_perm (lambda : Exact) :
    indicatorGain lambda (column ∘ σ) (residual ∘ σ) (hessian ∘ σ) rows' =
      indicatorGain lambda column residual hessian rows := by
  have hones := GradientSum.ofRows_perm (filter_perm h fun i => beq (column i) 1) residual hessian
  have hzeros := GradientSum.ofRows_perm
    (filter_perm h fun i => !beq (column i) 1 && beq (column i) 0) residual hessian
  simp only [indicatorGain]
  rw [← hones, ← hzeros]
  rfl

end Rows

end GradientForest
