import Mathlib.Algebra.BigOperators.Ring.List
import Mathlib.Algebra.Order.BigOperators.Group.List
import Mathlib.Tactic.FieldSimp
import Mathlib.Tactic.Linarith
import Mathlib.Tactic.Positivity
import GradientForest.Proofs.Split.Exhaustive

/-!
# The objective behind leaf values and gains

A leaf of value `w` has the objective `∑ (h * w ^ 2 - 2 * r * w) + lambda * w ^ 2` over its
rows.  In exact arithmetic the value that growth gives to a leaf is the only one with the
least objective, and the score of the rows is that least objective with the other sign
(`objective_eq_sq`, `isLeast_objective`).

Scores, leaf values and gains have their own guards against a denominator of zero.  Where
the denominators are positive no guard is reached, and the gain of a split is what the two
children save of the least objective of the node (`Saves`), on a threshold as well as on an
indicator (`optimises`).
-/

namespace GradientForest

open Scalar

/-! ## The objective of a leaf -/

section Objective

variable {ι : Type} (lambda : ℚ) (residual hessian : ι → ℚ) (rows : List ι)

/-- What a leaf of value `w` adds to the loss on its rows, with regularisation. -/
def objective (w : ℚ) : ℚ :=
  (rows.map fun i => hessian i * w ^ 2 - 2 * residual i * w).sum + lambda * w ^ 2

/-- The denominator of the scores and leaf values of some rows. -/
def denominator : ℚ := (rows.map hessian).sum + lambda

theorem objective_eq (w : ℚ) : objective lambda residual hessian rows w =
    denominator lambda hessian rows * w ^ 2 - 2 * (rows.map residual).sum * w := by
  have hterm (i : ι) : hessian i * w ^ 2 - 2 * residual i * w =
      hessian i * w ^ 2 + residual i * (-2 * w) := by ring
  simp only [objective, denominator, hterm, List.sum_map_add, List.sum_map_mul_right]
  ring

variable {lambda residual hessian rows}

/-- The objective is least at the quotient of the sums. -/
theorem objective_eq_sq (h : 0 < denominator lambda hessian rows) (w : ℚ) :
    objective lambda residual hessian rows w =
      denominator lambda hessian rows *
          (w - (rows.map residual).sum / denominator lambda hessian rows) ^ 2 -
        (GradientSum.rationalSum residual hessian rows).rationalScore lambda := by
  have hscore : (GradientSum.rationalSum residual hessian rows).rationalScore lambda =
      (rows.map residual).sum * (rows.map residual).sum / denominator lambda hessian rows :=
    if_neg h.ne'
  rw [objective_eq, hscore]
  field_simp
  ring

theorem isLeast_objective (h : 0 < denominator lambda hessian rows) :
    IsLeast (Set.range (objective lambda residual hessian rows))
      (-(GradientSum.rationalSum residual hessian rows).rationalScore lambda) := by
  constructor
  · refine ⟨(rows.map residual).sum / denominator lambda hessian rows, ?_⟩
    rw [objective_eq_sq h]
    ring
  · rintro - ⟨w, rfl⟩
    rw [objective_eq_sq h]
    have hsquare := mul_nonneg h.le
      (sq_nonneg (w - (rows.map residual).sum / denominator lambda hessian rows))
    linarith

end Objective

/-! ## What a split saves -/

section Saves

variable {ι : Type} (lambda : ℚ) (residual hessian : ι → ℚ)

/-- Two parts of some rows save a number when their least objectives together are smaller by it
than the least objective of the rows. -/
def Saves (left right rows : List ι) (saved : ℚ) : Prop :=
  ∃ l r m, IsLeast (Set.range (objective lambda residual hessian left)) l ∧
    IsLeast (Set.range (objective lambda residual hessian right)) r ∧
    IsLeast (Set.range (objective lambda residual hessian rows)) m ∧ saved = m - (l + r)

variable {lambda residual hessian} {left right rows : List ι}

/-- With positive denominators the scores tell what two parts save. -/
theorem saves_scores
    (hhessian : (left.map hessian).sum + (right.map hessian).sum = (rows.map hessian).sum)
    (hnonneg : ∀ i ∈ right, 0 ≤ hessian i) (hleft : 0 < denominator lambda hessian left)
    (hright : 0 < denominator lambda hessian right) :
    Saves lambda residual hessian left right rows
      ((GradientSum.rationalSum residual hessian left).rationalScore lambda +
        (GradientSum.rationalSum residual hessian right).rationalScore lambda -
          (GradientSum.rationalSum residual hessian rows).rationalScore lambda) := by
  have hrows : 0 < denominator lambda hessian rows := by
    have hsum : 0 ≤ (right.map hessian).sum := List.sum_nonneg (List.forall_mem_map.2 hnonneg)
    rw [denominator] at hleft ⊢
    linarith
  refine ⟨_, _, _, isLeast_objective hleft, isLeast_objective hright, isLeast_objective hrows, ?_⟩
  ring

end Saves

/-! ## Leaves, thresholds and indicators -/

section Search

variable [Exact.Functions] {ι : Type} (lambda : ℚ) (residual hessian : ι → ℚ) (rows : List ι)

/-- Leaf value, score and the gains of the two kinds of split on some rows belong to one
objective. -/
structure Optimises : Prop where
  /-- The leaf value is the only one with the least objective, and the score is this objective
  with the other sign. -/
  leaf : 0 < denominator lambda hessian rows →
    ∃ w, leafValue (Exact.rational lambda) (fun i => .rational (residual i))
        (fun i => .rational (hessian i)) rows = .rational w ∧
      (∀ v, v ≠ w → objective lambda residual hessian rows w <
        objective lambda residual hessian rows v) ∧
      (GradientSum.ofRows (fun i => Exact.rational (residual i))
        (fun i => .rational (hessian i)) rows).score (.rational lambda) =
          .rational (-objective lambda residual hessian rows w)
  /-- A column with a value on every row gains what the sides of its threshold save. -/
  threshold (value : ι → Option ℚ) (t : ℚ) : (∀ i ∈ rows, (value i).isSome) →
    (ThresholdSplit.search (Exact.rational lambda) (fun i => .ofOption (value i))
      (fun i => .rational (residual i)) (fun i => .rational (hessian i)) rows).threshold =
        .rational t →
    0 < denominator lambda hessian (ThresholdSplit.rowsWhere value rows fun v => v < t) →
    0 < denominator lambda hessian (ThresholdSplit.rowsWhere value rows fun v => t ≤ v) →
    ∃ g, (ThresholdSplit.search (Exact.rational lambda) (fun i => .ofOption (value i))
        (fun i => .rational (residual i)) (fun i => .rational (hessian i)) rows).gain =
          .rational g ∧
      Saves lambda residual hessian (ThresholdSplit.rowsWhere value rows fun v => v < t)
        (ThresholdSplit.rowsWhere value rows fun v => t ≤ v) rows g
  /-- A column of zeros and ones gains what the rows at 1 and the rows at 0 save. -/
  indicator (isOne : ι → Bool) :
    0 < denominator lambda hessian (rows.filter isOne) →
    0 < denominator lambda hessian (rows.filter fun i => !isOne i) →
    ∃ g, indicatorGain (Exact.rational lambda) (fun i => if isOne i then 1 else 0)
        (fun i => .rational (residual i)) (fun i => .rational (hessian i)) rows = .rational g ∧
      Saves lambda residual hessian (rows.filter isOne) (rows.filter fun i => !isOne i) rows g

variable {lambda residual hessian rows}

theorem leafValue_least (h : 0 < denominator lambda hessian rows) :
    ∃ w, leafValue (Exact.rational lambda) (fun i => .rational (residual i))
        (fun i => .rational (hessian i)) rows = .rational w ∧
      (∀ v, v ≠ w → objective lambda residual hessian rows w <
        objective lambda residual hessian rows v) ∧
      (GradientSum.ofRows (fun i => Exact.rational (residual i))
        (fun i => .rational (hessian i)) rows).score (.rational lambda) =
          .rational (-objective lambda residual hessian rows w) := by
  refine ⟨_, leafValue_exact lambda residual hessian rows, fun v hv => ?_, ?_⟩
  · have hsquare := mul_pos h (sq_pos_of_ne_zero (sub_ne_zero.2 hv))
    rw [← denominator, objective_eq_sq h, objective_eq_sq h]
    rw [← denominator] at hsquare
    linarith
  · rw [GradientSum.ofRows_exact, GradientSum.score_exact, ← denominator, objective_eq_sq h]
    congr 1
    ring

theorem optimises (hnonneg : ∀ i ∈ rows, 0 ≤ hessian i) :
    Optimises lambda residual hessian rows where
  leaf := leafValue_least
  threshold value t hdefined hthreshold hleft hright := by
    obtain ⟨hnone, hsome⟩ :=
      ThresholdSplit.search_exhaustive lambda value residual hessian rows
    rcases (ThresholdSplit.candidates value rows).eq_empty_or_nonempty with hempty | hcandidates
    · rw [hnone hempty] at hthreshold
      cases hthreshold
    · obtain ⟨t', -, hsearch, -⟩ := hsome hcandidates
      rw [hsearch] at hthreshold ⊢
      obtain rfl := Exact.rational.inj hthreshold
      refine ⟨_, rfl, ?_⟩
      have hall : ThresholdSplit.rowsWhere value rows (fun _ => true) = rows :=
        List.filter_eq_self.2 fun i hi => by
          obtain ⟨v, hv⟩ := Option.isSome_iff_exists.1 (hdefined i hi)
          rw [hv]
          rfl
      rw [ThresholdSplit.gainAt, ThresholdSplit.scoreWhere, ThresholdSplit.scoreWhere,
        ThresholdSplit.scoreWhere, hall]
      refine saves_scores ?_ (fun i hi => hnonneg i (List.mem_filter.1 hi).1) hleft hright
      rw [← ThresholdSplit.sum_rowsWhere, hall]
      exact add_sub_cancel _ _
  indicator isOne hleft hright := by
    have hone (i : ι) : beq (if isOne i then 1 else 0 : Exact) 1 = isOne i := by
      cases isOne i <;> rfl
    have hzero (i : ι) : beq (if isOne i then 1 else 0 : Exact) 0 = !isOne i := by
      cases isOne i <;> rfl
    have hsum (f : ι → ℚ) : ((rows.filter isOne).map f).sum +
        ((rows.filter fun i => !isOne i).map f).sum = (rows.map f).sum := by
      simpa using List.sum_map_filter_add_sum_map_filter_not (isOne ·) f rows
    have hwhole : (GradientSum.rationalSum residual hessian (rows.filter isOne)).exact.plus
        (GradientSum.rationalSum residual hessian (rows.filter fun i => !isOne i)).exact =
          (GradientSum.rationalSum residual hessian rows).exact := by
      simp only [GradientSum.rationalSum, ← hsum]
      rfl
    simp only [indicatorGain, hone, hzero, Bool.and_self, GradientSum.ofRows_exact, hwhole,
      GradientSum.gain_exact]
    exact ⟨_, rfl, saves_scores (hsum hessian) (fun i hi => hnonneg i (List.mem_filter.1 hi).1)
      hleft hright⟩

end Search

end GradientForest
