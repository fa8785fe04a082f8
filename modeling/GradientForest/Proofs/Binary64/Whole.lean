import GradientForest.Binary64.Units
import GradientForest.Scalar.Binary64

/-!
# Whole numbers in binary64

Every natural number up to `2 * fractionSteps`, which is `2 ^ 53`, has a rank
(`exists_rank`).  So `ofNat` is exact up to there, and `natural?` finds the number
again (`natural?_ofNat`).

The way around, a whole number is `ofNat` of what `natural?` finds in it, but minus
zero comes back without its sign (`ofNat_of_natural?`).
-/

namespace GradientForest.Binary64

open Scalar

/-- The exponent of one in units. -/
def oneExponent : ℕ := 1074

theorem unitsPerOne_eq : unitsPerOne = 2 ^ oneExponent := by decide +kernel

theorem unitsPerOne_pos : 0 < unitsPerOne := by
  rw [unitsPerOne_eq]
  exact Nat.two_pow_pos _

/-! ## The rank of a whole number -/

/-- A positive number of at most 53 bits, shifted until it has 53. -/
theorem exists_shift {n : ℕ} (hpos : 0 < n) (hn : n < 2 * fractionSteps) :
    ∃ k ≤ fractionBits, fractionSteps ≤ n * 2 ^ k ∧ n * 2 ^ k < 2 * fractionSteps := by
  have hlow : 2 ^ n.log2 ≤ n := Nat.log2_self_le (by omega)
  have hhigh : n < 2 ^ (n.log2 + 1) := Nat.lt_log2_self
  have hlog : n.log2 < fractionBits + 1 := by
    rw [Nat.log2_lt (by omega), Nat.pow_succ, ← fractionSteps_eq, Nat.mul_comm]
    exact hn
  have hsteps : 2 ^ n.log2 * 2 ^ (fractionBits - n.log2) = fractionSteps := by
    rw [← Nat.pow_add, Nat.add_sub_cancel' (by omega), fractionSteps_eq]
  refine ⟨fractionBits - n.log2, Nat.sub_le _ _, ?_, ?_⟩
  · rw [← hsteps]
    exact Nat.mul_le_mul_right _ hlow
  · rw [← hsteps, ← Nat.mul_assoc, ← Nat.pow_succ']
    exact Nat.mul_lt_mul_of_pos_right hhigh (Nat.two_pow_pos _)

theorem rank_lt_infinityRank {e f : ℕ} (he : e ≤ 2045) (hf : f < fractionSteps) :
    (e + 1) * fractionSteps + f < infinityRank := by
  have hle : (e + 2) * fractionSteps ≤ 2047 * fractionSteps := Nat.mul_le_mul_right _ (by omega)
  rw [infinityRank]
  rw [Nat.add_mul] at hle ⊢
  omega

theorem exists_rank {n : ℕ} (hn : n ≤ 2 * fractionSteps) :
    ∃ r < infinityRank, units r = n * unitsPerOne := by
  have hone : oneExponent = 1074 := rfl
  have hbits : fractionBits = 52 := rfl
  rcases Nat.eq_zero_or_pos n with rfl | hpos
  · exact ⟨0, by decide, by rw [Nat.zero_mul, units_of_lt fractionSteps_pos]⟩
  rcases Nat.lt_or_eq_of_le hn with hlt | rfl
  · obtain ⟨k, hk, hlow, hhigh⟩ := exists_shift hpos hlt
    have hf : n * 2 ^ k - fractionSteps < fractionSteps := by omega
    refine ⟨_, rank_lt_infinityRank (e := oneExponent - k) (by omega) hf, ?_⟩
    calc units ((oneExponent - k + 1) * fractionSteps + (n * 2 ^ k - fractionSteps))
        = n * 2 ^ k * 2 ^ (oneExponent - k) := by
          rw [units_eq _ hf, Nat.add_sub_cancel' hlow]
      _ = n * unitsPerOne := by
          rw [Nat.mul_assoc, ← Nat.pow_add, Nat.add_sub_cancel' (by omega), unitsPerOne_eq]
  · refine ⟨_, rank_lt_infinityRank (e := oneExponent + 1) (by omega) fractionSteps_pos, ?_⟩
    rw [units_eq _ fractionSteps_pos, Nat.add_zero, Nat.pow_succ', ← unitsPerOne_eq,
      ← Nat.mul_assoc, Nat.mul_comm fractionSteps 2]

theorem ofNat_eq_ofRank {n r : ℕ} (hr : r < infinityRank) (h : units r = n * unitsPerOne) :
    Binary64.ofNat n = ofRank false r := by
  rw [Binary64.ofNat, ← h, nearestRank_units (Nat.le_of_lt hr)]

/-! ## There and back -/

theorem infinityRank_lt : infinityRank < signBit.toNat := by decide

theorem natural?_ofNat {n : ℕ} (hn : n ≤ 2 * fractionSteps) :
    (Binary64.ofNat n).natural? = some n := by
  obtain ⟨r, hr, hunits⟩ := exists_rank hn
  have hsign : r < signBit.toNat := Nat.lt_trans hr infinityRank_lt
  rw [ofNat_eq_ofRank hr hunits, natural?, isFinite, rank_ofRank false hsign,
    isNegative_ofRank false hsign, hunits, Nat.mul_mod_left, Nat.mul_div_cancel _ unitsPerOne_pos,
    if_pos ⟨by simpa using hr, by simp, rfl⟩]

/-- A number as it is, but minus zero without its sign. -/
def plainZero (x : Binary64) : Binary64 := if x = -0 then 0 else x

theorem neg_zero_eq : (-0 : Binary64) = ofRank true 0 := by decide +kernel

theorem ofNat_of_natural? {x : Binary64} {n : ℕ} (h : x.natural? = some n) :
    Binary64.ofNat n = x.plainZero := by
  rw [natural?] at h
  split at h
  next hx =>
    obtain ⟨hfinite, hsign, hwhole⟩ := hx
    have hn : n * unitsPerOne = units x.rank := by
      rw [← Option.some.inj h]
      exact Nat.div_mul_cancel (Nat.dvd_of_mod_eq_zero hwhole)
    have hrank : x.rank < infinityRank := by simpa [isFinite] using hfinite
    rw [ofNat_eq_ofRank hrank hn.symm, plainZero, neg_zero_eq]
    cases hneg : x.isNegative with
    | true =>
      have hzero : x.rank = 0 := by simpa [isZero] using hsign hneg
      have hx : x = ofRank true 0 := by rw [← ofRank_rank x, hneg, hzero]
      rw [if_pos hx, hzero]
      decide +kernel
    | false =>
      have hx : x ≠ ofRank true 0 := by
        rintro rfl
        cases hneg
      rw [if_neg hx, ← hneg, ofRank_rank]
  next => cases h

end GradientForest.Binary64
