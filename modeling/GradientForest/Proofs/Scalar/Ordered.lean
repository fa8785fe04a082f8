import Mathlib.Tactic.SplitIfs
import GradientForest.Scalar.Binary64
import GradientForest.Proofs.Scalar.Exact

/-!
# Scalars in a total order

`Scalar.TotallyOrdered` is what the second order of the scalars promises: it is strict and
total on all values, and among the defined ones infinity comes last.  Binary64 numbers
keep the promise, as their places in the order are all different
(`Binary64.orderKey_injective`).  Between the infinities are their finite values
(`Binary64.scalar_isFinite`).  Exact numbers keep it by their linear order.
-/

namespace GradientForest

open Scalar

namespace Scalar

/-- The second order is total, and infinity comes after every other defined value. -/
class TotallyOrdered (α : Type) [Scalar α] : Prop where
  irrefl : ∀ x : α, precedes x x = false
  trans : ∀ {x y z : α}, precedes x y = true → precedes y z = true → precedes x z = true
  trichotomous : ∀ x y : α, precedes x y = true ∨ x = y ∨ precedes y x = true
  precedes_infinity : ∀ {x : α}, isNaN x = false → x ≠ infinity → precedes x infinity = true

variable {α : Type} [Scalar α] [TotallyOrdered α] {x y z : α}

theorem not_precedes_of_precedes (h : precedes x y = true) : precedes y x = false := by
  cases hback : precedes y x with
  | false => rfl
  | true => exact (TotallyOrdered.irrefl x).symm.trans (TotallyOrdered.trans h hback) |>.symm

/-- Infinity precedes no defined value. -/
theorem not_infinity_precedes (h : isNaN x = false) : precedes infinity x = false := by
  by_cases hx : x = infinity
  · rw [hx]
    exact TotallyOrdered.irrefl infinity
  · exact not_precedes_of_precedes (TotallyOrdered.precedes_infinity h hx)

end Scalar

namespace Exact

instance [Functions] : TotallyOrdered Exact where
  irrefl x := by
    rw [← Bool.not_eq_true, precedes_iff]
    exact lt_irrefl x
  trans := by
    intro x y z hxy hyz
    rw [precedes_iff] at hxy hyz ⊢
    exact lt_trans hxy hyz
  trichotomous x y := by
    rw [precedes_iff, precedes_iff]
    exact lt_trichotomy x y
  precedes_infinity := by
    intro x hx hne
    rcases x with a | (_ | _) | _
    · rfl
    · exact absurd rfl hne
    · rfl
    · cases hx

end Exact

namespace Binary64

theorem orderKey_injective : Function.Injective orderKey := by
  intro x y h
  have hsame : x.isNegative = y.isNegative ∧ x.rank = y.rank := by
    revert h
    unfold orderKey
    cases x.isNegative <;> cases y.isNegative <;> simp <;> omega
  rw [← ofRank_rank x, hsame.1, hsame.2, ofRank_rank]

theorem precedes_iff {x y : Binary64} :
    Scalar.precedes x y = true ↔ x.orderKey < y.orderKey := decide_eq_true_iff

theorem isNaN_eq_false_iff {x : Binary64} : isNaN x = false ↔ x.rank ≤ infinityRank := by
  change (!beq x x) = false ↔ _
  rw [Bool.not_eq_false', beq_iff]
  simp [comparable, isUndefined]

theorem level_infinite (negative : Bool) :
    (infinite negative).level = if negative then -(infinityRank : Int) else infinityRank := by
  have hrank : infinityRank < signBit.toNat := by decide
  rw [level, infinite, isNegative_ofRank negative hrank, rank_ofRank negative hrank]

/-- The check by comparisons is the check by ranks. -/
theorem scalar_isFinite (x : Binary64) : Scalar.isFinite x = x.isFinite := by
  have hneg : neg (infinite false) = infinite true := by decide +kernel
  have hdefined (negative : Bool) : (infinite negative).isUndefined = false := by
    cases negative <;> decide +kernel
  change (lt (neg (infinite false)) x && lt x (infinite false)) = x.isFinite
  rw [hneg, Bool.eq_iff_iff, Bool.and_eq_true, lt_iff, lt_iff, comparable, comparable,
    hdefined, hdefined, level_infinite, level_infinite, level, isUndefined, isFinite]
  simp only [Bool.not_false, Bool.true_and, Bool.and_true, Bool.not_eq_true',
    decide_eq_false_iff_not, decide_eq_true_eq, if_true, Bool.false_eq_true, if_false]
  constructor
  · rintro ⟨⟨-, hlow⟩, -, hhigh⟩
    split_ifs at hlow hhigh <;> omega
  · intro hx
    split_ifs <;> omega

/-- Infinity has the last place among the defined values. -/
theorem orderKey_lt_infinite {x : Binary64} (hrank : x.rank ≤ infinityRank)
    (hx : x ≠ infinite false) : x.orderKey < (infinite false).orderKey := by
  have hlast : infinityRank < signBit.toNat := by decide
  have hkey : (infinite false).orderKey = infinityRank := by
    rw [orderKey, infinite, isNegative_ofRank false hlast, rank_ofRank false hlast]
    rfl
  have hle : x.orderKey ≤ infinityRank := by
    rw [orderKey]
    cases x.isNegative <;> simp <;> omega
  have hne : x.orderKey ≠ (infinite false).orderKey := fun h => hx (orderKey_injective h)
  omega

instance : TotallyOrdered Binary64 where
  irrefl x := by
    rw [← Bool.not_eq_true, precedes_iff]
    exact Int.lt_irrefl _
  trans := by
    intro x y z hxy hyz
    rw [precedes_iff] at hxy hyz ⊢
    exact Int.lt_trans hxy hyz
  trichotomous x y := by
    rw [precedes_iff, precedes_iff, ← orderKey_injective.eq_iff]
    exact Int.lt_trichotomy _ _
  precedes_infinity hx hne := precedes_iff.2 (orderKey_lt_infinite (isNaN_eq_false_iff.1 hx) hne)

end Binary64

end GradientForest
