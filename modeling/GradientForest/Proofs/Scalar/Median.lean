import Mathlib.Data.List.GetD
import GradientForest.Scalar.Statistics
import GradientForest.Proofs.Scalar.Exact
import GradientForest.Proofs.Scalar.Sorted

/-!
# The median of rational numbers

The median of rational numbers is a rational number (`median_rational`).

An affine change of the numbers changes the median in the same way
(`rationalMedian_affine`).  A positive factor keeps the order of the numbers.  A negative
one turns the sorted list round, and the middle of a list does not depend on the end that
it is counted from.
-/

namespace GradientForest.Statistics

open Scalar

/-- The middle of a list of rational numbers. -/
def rationalMiddle (qs : List ℚ) : ℚ :=
  if qs.length % 2 = 0 then
    (qs.getD (qs.length / 2 - 1) 0 + qs.getD (qs.length / 2) 0) / 2
  else qs.getD (qs.length / 2) 0

/-- Rational numbers from the least to the greatest. -/
def rationalSorted (qs : List ℚ) : List ℚ := Sorting.sort (fun p q => decide (p < q)) qs

/-- The median of rational numbers. -/
def rationalMedian (qs : List ℚ) : ℚ := rationalMiddle (rationalSorted qs)

section Exact

variable [Exact.Functions]

theorem middle_rational (qs : List ℚ) :
    middle (qs.map Exact.rational) = .rational (rationalMiddle qs) := by
  have hget (k : ℕ) : (qs.map Exact.rational).getD k 0 = .rational (qs.getD k 0) :=
    List.getD_map qs 0 Exact.rational
  simp only [middle, rationalMiddle, List.length_map, hget]
  split_ifs
  · rw [Exact.rational_add, Exact.two_eq, Exact.rational_div _ two_ne_zero]
  · rfl

theorem median_rational (qs : List ℚ) :
    median (qs.map Exact.rational) = .rational (rationalMedian qs) := by
  have hdefined : (qs.map Exact.rational).any isNaN = false := by
    rw [List.any_eq_false]
    intro x hx
    obtain ⟨q, -, rfl⟩ := List.mem_map.1 hx
    rw [Exact.isNaN_rational]
    exact Bool.false_ne_true
  rw [median, sorted_of_defined hdefined, Sorting.sort_map]
  cases qs with
  | nil =>
    have hzero : rationalMedian [] = 0 := by
      simp [rationalMedian, rationalMiddle, rationalSorted, Sorting.sort, Sorting.sortOnto]
    rw [hzero]
    rfl
  | cons q qs => exact middle_rational _

end Exact

/-! ## Affine changes -/

theorem rationalMiddle_reverse (qs : List ℚ) : rationalMiddle qs.reverse = rationalMiddle qs := by
  by_cases hqs : qs = []
  · rw [hqs, List.reverse_nil]
  · have hpos : 0 < qs.length := List.length_pos_iff.2 hqs
    rw [rationalMiddle, rationalMiddle, List.length_reverse, List.getD_reverse _ (by omega),
      List.getD_reverse _ (by omega)]
    split_ifs with heven
    · have hfirst : qs.length - 1 - (qs.length / 2 - 1) = qs.length / 2 := by omega
      have hsecond : qs.length - 1 - qs.length / 2 = qs.length / 2 - 1 := by omega
      rw [hfirst, hsecond, add_comm]
    · have hmiddle : qs.length - 1 - qs.length / 2 = qs.length / 2 := by omega
      rw [hmiddle]

theorem rationalMiddle_affine {qs : List ℚ} (hqs : qs ≠ []) (a b : ℚ) :
    rationalMiddle (qs.map (a * · + b)) = a * rationalMiddle qs + b := by
  have hpos : 0 < qs.length := List.length_pos_iff.2 hqs
  have hget {k : ℕ} (hk : k < qs.length) :
      (qs.map (a * · + b)).getD k 0 = a * qs.getD k 0 + b := by
    rw [List.getD_eq_getElem _ _ (by rwa [List.length_map]), List.getD_eq_getElem _ _ hk,
      List.getElem_map]
  rw [rationalMiddle, rationalMiddle, List.length_map, hget (by omega), hget (by omega)]
  split_ifs
  · ring
  · rfl

theorem rationalSorted_pairwise (qs : List ℚ) : (rationalSorted qs).Pairwise (· ≤ ·) := by
  have hcompares : Sorting.ComparesBy (fun p q : ℚ => decide (p < q)) id qs :=
    fun _ _ _ _ => decide_eq_true_iff
  exact Sorting.pairwise_sort hcompares

theorem rationalSorted_perm (qs : List ℚ) : (rationalSorted qs).Perm qs :=
  Sorting.sort_perm _ qs

/-- A list in order is the sorted list of its elements. -/
theorem eq_rationalSorted {ps qs : List ℚ} (hperm : ps.Perm qs) (hps : ps.Pairwise (· ≤ ·)) :
    rationalSorted qs = ps :=
  List.Perm.eq_of_pairwise (fun _ _ _ _ => le_antisymm) (rationalSorted_pairwise qs) hps
    ((rationalSorted_perm qs).trans hperm.symm)

theorem rationalMedian_affine {qs : List ℚ} (hqs : qs ≠ []) (a b : ℚ) :
    rationalMedian (qs.map (a * · + b)) = a * rationalMedian qs + b := by
  have hsorted : rationalSorted qs ≠ [] := fun h =>
    hqs (List.nil_perm.1 (h ▸ rationalSorted_perm qs))
  have hperm := (rationalSorted_perm qs).map (a * · + b)
  have hpairwise := rationalSorted_pairwise qs
  rw [rationalMedian, rationalMedian, ← rationalMiddle_affine hsorted]
  rcases le_total 0 a with ha | ha
  · rw [eq_rationalSorted hperm]
    exact List.pairwise_map.2 (hpairwise.imp fun h =>
      add_le_add_left (mul_le_mul_of_nonneg_left h ha) b)
  · rw [eq_rationalSorted ((List.reverse_perm _).trans hperm), rationalMiddle_reverse]
    exact List.pairwise_reverse.2 (List.pairwise_map.2 (hpairwise.imp fun h =>
      add_le_add_left (mul_le_mul_of_nonpos_left h ha) b))

end GradientForest.Statistics
