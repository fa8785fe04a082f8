import Mathlib.Algebra.BigOperators.Group.List.Basic
import GradientForest.Split.Threshold
import GradientForest.Proofs.Scalar.Exact

/-!
# Sums and scores of rational numbers

On rational residuals and weights the sums of a set of rows are rational, and so are its
score and the gain of a split.  `GradientSum.rationalSum` takes the sums of a list of rows, and
`GradientSum.exact` reads them as exact numbers.  Whatever the library computes from the
second, it computes from the first without leaving the rational numbers (`ofRows_exact`,
`score_exact`, `gain_exact`).
-/

namespace GradientForest

open Scalar

/-- A rational number, or the undefined value in its place. -/
def Exact.ofOption : Option ℚ → Exact
  | some q => .rational q
  | none => .undefined

theorem Exact.midpoint_rational [Exact.Functions] (a b : ℚ) :
    ThresholdSplit.midpoint (rational a) (rational b) = rational (a + (b - a) / 2) := by
  rw [ThresholdSplit.midpoint, two_eq, rational_sub, rational_div _ two_ne_zero, rational_add]

namespace GradientSum

variable {ι : Type}

/-- The sums over a list of rows. -/
def rationalSum (residual hessian : ι → ℚ) (rows : List ι) : GradientSum ℚ :=
  ⟨(rows.map residual).sum, (rows.map hessian).sum⟩

/-- The score of rational sums. -/
def rationalScore (lambda : ℚ) (s : GradientSum ℚ) : ℚ :=
  if s.hessian + lambda = 0 then 0 else s.residual * s.residual / (s.hessian + lambda)

/-- Rational sums as exact numbers. -/
def exact (s : GradientSum ℚ) : GradientSum Exact := ⟨.rational s.residual, .rational s.hessian⟩

theorem rationalSum_perm {rows rows' : List ι} (h : rows.Perm rows') (residual hessian : ι → ℚ) :
    rationalSum residual hessian rows = rationalSum residual hessian rows' :=
  congrArg₂ GradientSum.mk (h.map residual).sum_eq (h.map hessian).sum_eq

variable [Exact.Functions]

theorem zero_eq_exact : (zero : GradientSum Exact) = exact ⟨0, 0⟩ := rfl

theorem foldl_add_exact (residual hessian : ι → ℚ) (rows : List ι) (s : GradientSum ℚ) :
    rows.foldl (fun t i => t.add (.rational (residual i)) (.rational (hessian i))) s.exact =
      exact ⟨s.residual + (rows.map residual).sum, s.hessian + (rows.map hessian).sum⟩ := by
  induction rows generalizing s with
  | nil => simp
  | cons i rows ih =>
    have hadd : s.exact.add (.rational (residual i)) (.rational (hessian i)) =
        exact ⟨s.residual + residual i, s.hessian + hessian i⟩ := rfl
    rw [List.foldl_cons, hadd, ih]
    simp only [List.map_cons, List.sum_cons, add_assoc]

theorem ofRows_exact (residual hessian : ι → ℚ) (rows : List ι) :
    ofRows (fun i => .rational (residual i)) (fun i => .rational (hessian i)) rows =
      (rationalSum residual hessian rows).exact := by
  rw [ofRows, zero_eq_exact, foldl_add_exact, zero_add, zero_add, rationalSum]

theorem minus_exact (s t : GradientSum ℚ) :
    s.exact.minus t.exact = exact ⟨s.residual - t.residual, s.hessian - t.hessian⟩ := by
  simp only [minus, exact, Exact.rational_sub]

theorem score_exact (lambda : ℚ) (s : GradientSum ℚ) :
    score (.rational lambda) s.exact = .rational (s.rationalScore lambda) := by
  simp only [score, exact, rationalScore, Exact.rational_add, Exact.zero_eq, Exact.beq_rational,
    decide_eq_true_eq, Exact.rational_mul]
  split_ifs with hzero
  · rfl
  · exact Exact.rational_div _ hzero

/-- Division of a rational number by zero gives zero too. -/
theorem value_exact (lambda : ℚ) (s : GradientSum ℚ) :
    value (.rational lambda) s.exact = .rational (s.residual / (s.hessian + lambda)) := by
  simp only [value, exact, Exact.rational_add, Exact.zero_eq, Exact.beq_rational,
    decide_eq_true_eq]
  split_ifs with hzero
  · rw [hzero, div_zero]
  · exact Exact.rational_div _ hzero

theorem gain_exact (lambda : ℚ) (left right whole : GradientSum ℚ) :
    gain (.rational lambda) left.exact right.exact whole.exact =
      .rational (left.rationalScore lambda + right.rationalScore lambda -
        whole.rationalScore lambda) := by
  simp only [gain, score_exact, Exact.rational_add, Exact.rational_sub]

end GradientSum

/-- The value of a leaf is rational. -/
theorem leafValue_exact [Exact.Functions] {ι : Type} (lambda : ℚ) (residual hessian : ι → ℚ)
    (rows : List ι) :
    leafValue (Exact.rational lambda) (fun i => .rational (residual i))
      (fun i => .rational (hessian i)) rows =
        .rational ((rows.map residual).sum / ((rows.map hessian).sum + lambda)) := by
  rw [leafValue, GradientSum.ofRows_exact, GradientSum.value_exact]
  cases rows with
  | nil => simp
  | cons i rows => rfl

end GradientForest
