import Mathlib.Algebra.Ring.Nat
import GradientForest.Binary64.Rounding

/-!
# Units and ranks

Ranks and units tell the same order.  Below the first power of two they are
equal.  Above it a rank splits into an exponent and a fraction, and its units
are the fraction with a leading one, shifted by the exponent.

`units_lt_succ` says that the units grow with the rank, `twiceMidpoint_eq` that
rounding compares with the middle of two neighbours, and `nearestRank_units`
that rounding an exact number of units finds its rank.
-/

namespace GradientForest.Binary64

theorem fractionSteps_eq : fractionSteps = 2 ^ fractionBits := rfl

theorem fractionSteps_pos : 0 < fractionSteps := Nat.two_pow_pos _

/-- A rank is below the first power of two, or it has an exponent and a
fraction. -/
theorem rank_cases (r : Nat) :
    r < fractionSteps ∨ ∃ e f, f < fractionSteps ∧ r = (e + 1) * fractionSteps + f := by
  by_cases h : r < fractionSteps
  · exact .inl h
  · have hdiv : 0 < r / fractionSteps := Nat.div_pos (by omega) fractionSteps_pos
    refine .inr ⟨r / fractionSteps - 1, r % fractionSteps, Nat.mod_lt _ fractionSteps_pos, ?_⟩
    rw [Nat.sub_add_cancel hdiv, Nat.div_add_mod']

/-! ## Exponent and significand -/

theorem unitExponent_of_lt {r : Nat} (h : r < fractionSteps) : unitExponent r = 0 := by
  simp [unitExponent, Nat.div_eq_of_lt h]

theorem unitExponent_eq (e : Nat) {f : Nat} (hf : f < fractionSteps) :
    unitExponent ((e + 1) * fractionSteps + f) = e := by
  rw [unitExponent, Nat.add_comm, Nat.add_mul_div_right _ _ fractionSteps_pos,
    Nat.div_eq_of_lt hf, Nat.zero_add, Nat.add_sub_cancel]

theorem significand_of_lt {r : Nat} (h : r < fractionSteps) : significand r = r := by
  simp [significand, unitExponent_of_lt h]

theorem significand_eq (e : Nat) {f : Nat} (hf : f < fractionSteps) :
    significand ((e + 1) * fractionSteps + f) = fractionSteps + f := by
  rw [significand, unitExponent_eq e hf, Nat.succ_mul]
  omega

/-! ## Units -/

/-- The units are the significand times a power of two. -/
theorem units_eq_mul (r : Nat) : units r = significand r * 2 ^ unitExponent r :=
  Nat.shiftLeft_eq _ _

/-- Below the first power of two, ranks count units. -/
theorem units_of_lt {r : Nat} (h : r < fractionSteps) : units r = r := by
  rw [units_eq_mul, unitExponent_of_lt h, significand_of_lt h, Nat.pow_zero, Nat.mul_one]

/-- The units of the rank with an exponent and a fraction. -/
theorem units_eq (e : Nat) {f : Nat} (hf : f < fractionSteps) :
    units ((e + 1) * fractionSteps + f) = (fractionSteps + f) * 2 ^ e := by
  rw [units_eq_mul, unitExponent_eq e hf, significand_eq e hf]

/-- The units of the next rank: one more at the last place. -/
theorem units_succ (r : Nat) : units (r + 1) = (significand r + 1) * 2 ^ unitExponent r := by
  rcases rank_cases r with h | ⟨e, f, hf, rfl⟩
  · rw [significand_of_lt h, unitExponent_of_lt h, Nat.pow_zero, Nat.mul_one]
    by_cases hlast : r + 1 < fractionSteps
    · exact units_of_lt hlast
    · have hr : r + 1 = (0 + 1) * fractionSteps + 0 := by omega
      rw [hr, units_eq 0 fractionSteps_pos]
      simp
  · rw [significand_eq e hf, unitExponent_eq e hf]
    by_cases hlast : f + 1 < fractionSteps
    · rw [Nat.add_assoc, units_eq e hlast, Nat.add_assoc]
    · have hf' : fractionSteps + f + 1 = fractionSteps * 2 := by omega
      have hr : (e + 1) * fractionSteps + f + 1 = (e + 1 + 1) * fractionSteps + 0 := by
        rw [Nat.succ_mul (e + 1)]
        omega
      rw [hr, units_eq (e + 1) fractionSteps_pos, hf', Nat.pow_succ, Nat.add_zero, Nat.mul_assoc,
        Nat.mul_comm (2 ^ e)]

/-- The units grow with the rank. -/
theorem units_lt_succ (r : Nat) : units r < units (r + 1) := by
  rw [units_eq_mul, units_succ]
  exact Nat.mul_lt_mul_of_pos_right (Nat.lt_succ_self _) (Nat.two_pow_pos _)

/-- Twice the middle of two neighbours is their sum. -/
theorem twiceMidpoint_eq (r : Nat) : twiceMidpoint r = units r + units (r + 1) := by
  rw [twiceMidpoint, Nat.shiftLeft_eq, units_eq_mul, units_succ, ← Nat.add_mul]
  congr 1
  omega

/-! ## Rounding -/

theorem log2_units (e : Nat) {f : Nat} (hf : f < fractionSteps) :
    ((fractionSteps + f) * 2 ^ e).log2 = fractionBits + e := by
  have hpow := Nat.two_pow_pos e
  have hne : (fractionSteps + f) * 2 ^ e ≠ 0 :=
    Nat.mul_ne_zero (by have := fractionSteps_pos; omega) (by omega)
  rw [Nat.log2_eq_iff hne, Nat.pow_add, ← fractionSteps_eq,
    show fractionBits + e + 1 = fractionBits + 1 + e by omega, Nat.pow_add, Nat.pow_succ,
    ← fractionSteps_eq]
  exact ⟨Nat.mul_le_mul_right _ (by omega), Nat.mul_lt_mul_of_pos_right (by omega) hpow⟩

/-- The rank of an exact number of units. -/
theorem rankOfUnits_units (r : Nat) : rankOfUnits (units r) = r := by
  rcases rank_cases r with h | ⟨e, f, hf, rfl⟩
  · have hlog : r.log2 - fractionBits = 0 := by
      by_cases hr : r = 0
      · simp [hr]
      · have := (Nat.log2_lt hr).2 (fractionSteps_eq ▸ h)
        omega
    rw [units_of_lt h, rankOfUnits, hlog]
    simp
  · rw [units_eq e hf, rankOfUnits, log2_units e hf, Nat.add_sub_cancel_left]
    rw [Nat.shiftRight_eq_div_pow, Nat.mul_div_cancel _ (Nat.two_pow_pos e), Nat.succ_mul,
      Nat.add_assoc]

/-- An exact number of units is found again. -/
theorem nearestRank_units {r : Nat} (h : r ≤ infinityRank) : nearestRank (units r) 1 = r := by
  have hlt := units_lt_succ r
  rw [nearestRank, Nat.div_one, rankOfUnits_units, twiceMidpoint_eq, if_pos (by omega)]
  exact Nat.min_eq_right h

end GradientForest.Binary64
