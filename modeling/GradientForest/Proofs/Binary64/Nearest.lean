import Mathlib.Order.Monotone.Basic
import GradientForest.Decimal.Shortest
import GradientForest.Proofs.Binary64.Whole

/-!
# The nearest rank

`rankOfUnits` finds the rank at or below a number of units (`rankOfUnits_spec`), and
`nearestRank` compares with the middle of this rank and the next one.  So a quotient
that lies between the middles below and above a rank is rounded to this rank
(`nearestRank_of_contains`).  The middles themselves are in the interval of every
second rank.

A quotient may be expanded (`nearestRank_mul`), and so may a decimal: a zero behind its
digits changes nothing (`rankOfDecimal_mul_ten`).
-/

namespace GradientForest.Binary64

theorem units_strictMono : StrictMono units := strictMono_nat_of_lt_succ units_lt_succ

/-- The ranks between whose units a number of units lies. -/
theorem rankOfUnits_spec (q : ℕ) :
    units (rankOfUnits q) ≤ q ∧ q < units (rankOfUnits q + 1) := by
  by_cases hq : q < fractionSteps
  · have hlog : q.log2 - fractionBits = 0 := by
      by_cases h0 : q = 0
      · simp [h0]
      · have := (Nat.log2_lt h0).2 (fractionSteps_eq ▸ hq)
        omega
    have hrank : rankOfUnits q = q := by simp [rankOfUnits, hlog]
    have hunits := units_of_lt hq
    have hlt := units_lt_succ q
    rw [hrank]
    omega
  · have hpos := fractionSteps_pos
    have hle : fractionBits ≤ q.log2 := by
      rw [Nat.le_log2 (by omega), ← fractionSteps_eq]
      omega
    obtain ⟨e, he⟩ : ∃ e, q.log2 = fractionBits + e := ⟨q.log2 - fractionBits, by omega⟩
    have hpow := Nat.two_pow_pos e
    have hlow : fractionSteps * 2 ^ e ≤ q := by
      rw [fractionSteps_eq, ← Nat.pow_add, ← he]
      exact Nat.log2_self_le (by omega)
    have hhigh : q < 2 * fractionSteps * 2 ^ e := by
      rw [fractionSteps_eq, Nat.mul_assoc, ← Nat.pow_add, ← he, ← Nat.pow_succ']
      exact Nat.lt_log2_self
    -- the leading bits of `q` are a significand with its implied first one
    have hbits : fractionSteps ≤ q / 2 ^ e ∧ q / 2 ^ e < 2 * fractionSteps :=
      ⟨(Nat.le_div_iff_mul_le hpow).2 hlow, (Nat.div_lt_iff_lt_mul hpow).2 hhigh⟩
    have hf : q / 2 ^ e - fractionSteps < fractionSteps := by omega
    have hrank : rankOfUnits q = (e + 1) * fractionSteps + (q / 2 ^ e - fractionSteps) := by
      rw [rankOfUnits, he, Nat.add_sub_cancel_left, Nat.shiftRight_eq_div_pow, Nat.succ_mul]
      omega
    rw [units_succ, hrank, units_eq e hf, significand_eq e hf, unitExponent_eq e hf,
      Nat.add_sub_cancel' hbits.1]
    refine ⟨Nat.div_mul_le_self q _, ?_⟩
    rw [Nat.mul_comm]
    exact Nat.lt_mul_div_succ q hpow

/-! ## Rounding a quotient -/

theorem rankOfUnits_div_spec (num : ℕ) {den : ℕ} (hden : 0 < den) :
    units (rankOfUnits (num / den)) * den ≤ num ∧
      num < units (rankOfUnits (num / den) + 1) * den := by
  obtain ⟨hlow, hhigh⟩ := rankOfUnits_spec (num / den)
  exact ⟨(Nat.le_div_iff_mul_le hden).1 hlow, (Nat.div_lt_iff_lt_mul hden).1 hhigh⟩

/-- A point of an interval lies between its ends, and strictly so when they belong to the
neighbours. -/
theorem contains_ofRank {r up down c : ℕ}
    (h : (Shortest.Interval.ofRank r).contains up down c = true) :
    (units (r - 1) + units r) * down ≤ c * up ∧ c * up ≤ (units r + units (r + 1)) * down ∧
      (r % 2 = 1 → (units (r - 1) + units r) * down < c * up ∧
        c * up < (units r + units (r + 1)) * down) := by
  rw [Shortest.Interval.contains] at h
  by_cases heven : r % 2 = 0
  · rw [if_pos (by simpa [Shortest.Interval.ofRank] using heven), Bool.and_eq_true,
      decide_eq_true_eq, decide_eq_true_eq] at h
    exact ⟨h.1, h.2, by omega⟩
  · rw [if_neg (by simpa [Shortest.Interval.ofRank] using heven), Bool.and_eq_true,
      decide_eq_true_eq, decide_eq_true_eq] at h
    exact ⟨Nat.le_of_lt h.1, Nat.le_of_lt h.2, fun _ => h⟩

/-- A quotient in the interval around a rank is rounded to this rank. -/
theorem nearestRank_of_contains {num den r : ℕ} (hr : r ≤ infinityRank) (hden : 0 < den)
    (h : (Shortest.Interval.ofRank r).contains 2 den num = true) : nearestRank num den = r := by
  obtain ⟨hlow, hhigh⟩ := rankOfUnits_div_spec num hden
  obtain ⟨hbelow, habove, hodd⟩ := contains_ofRank h
  rw [nearestRank, twiceMidpoint_eq]
  generalize rankOfUnits (num / den) = s at hlow hhigh ⊢
  simp only [Nat.add_mul] at hbelow habove hodd ⊢
  -- the rank at or below the quotient is `r` or the one before
  have hsr : s ≤ r := by
    by_contra hlt
    have hle : units (r + 1) * den ≤ units s * den :=
      Nat.mul_le_mul_right _ (units_strictMono.monotone (Nat.lt_of_not_le hlt))
    have hlt' : units r * den < units (r + 1) * den :=
      Nat.mul_lt_mul_of_pos_right (units_lt_succ r) hden
    omega
  have hrs : r ≤ s + 1 := by
    by_contra hlt
    have hle : units (s + 1) * den ≤ units (r - 1) * den :=
      Nat.mul_le_mul_right _ (units_strictMono.monotone (by omega))
    have hlt' : units (r - 1) * den < units r * den :=
      Nat.mul_lt_mul_of_pos_right (units_strictMono (by omega)) hden
    omega
  rcases Nat.lt_or_eq_of_le hsr with hlt | rfl
  · obtain rfl : r = s + 1 := by omega
    rw [Nat.add_sub_cancel] at hbelow hodd
    split_ifs with hless hmore <;> omega
  · split_ifs with hless hmore <;> omega

/-- A quotient may be expanded. -/
theorem nearestRank_mul {k : ℕ} (hk : 0 < k) (num den : ℕ) :
    nearestRank (k * num) (k * den) = nearestRank num den := by
  have hmid : ∀ m, m * (k * den) = k * (m * den) := fun m => Nat.mul_left_comm m k den
  have hnum : 2 * (k * num) = k * (2 * num) := Nat.mul_left_comm 2 k num
  simp only [nearestRank, Nat.mul_div_mul_left num den hk, hmid, hnum, Nat.mul_lt_mul_left hk]

theorem nearestRank_eq_zero {num den : ℕ} (h : 2 * num < den) : nearestRank num den = 0 := by
  have hdiv : num / den = 0 := Nat.div_eq_of_lt (by omega)
  have hmid : twiceMidpoint 0 = 1 := by decide
  have hrank : rankOfUnits 0 = 0 := by decide
  rw [nearestRank, hdiv, hrank, hmid, Nat.one_mul, if_pos h, Nat.min_zero]

/-- Everything from the units of infinity on is infinite. -/
theorem nearestRank_eq_infinityRank {num den : ℕ} (hden : 0 < den)
    (h : units infinityRank * den ≤ num) : nearestRank num den = infinityRank := by
  have hle : infinityRank ≤ rankOfUnits (num / den) := by
    by_contra hlt
    have hmono : units (rankOfUnits (num / den) + 1) * den ≤ units infinityRank * den :=
      Nat.mul_le_mul_right _ (units_strictMono.monotone (by omega))
    have := (rankOfUnits_div_spec num hden).2
    omega
  rw [nearestRank]
  refine Nat.min_eq_left ?_
  split_ifs <;> omega

/-! ## Rounding a decimal -/

theorem units_infinityRank : units infinityRank = 2 ^ (fractionBits + 1) * 2 ^ 2045 := by
  have hrank : infinityRank = (2045 + 1) * fractionSteps + (fractionSteps - 1) + 1 := by decide
  have hlast : fractionSteps - 1 < fractionSteps := by decide
  have hsum : fractionSteps + (fractionSteps - 1) + 1 = 2 ^ (fractionBits + 1) := by decide
  rw [hrank, units_succ, significand_eq _ hlast, unitExponent_eq _ hlast, hsum]

/-- Ten is above the third power of two. -/
theorem two_pow_le_ten_pow {k e : ℕ} (h : k ≤ 3 * e) : 2 ^ k ≤ 10 ^ e :=
  calc 2 ^ k ≤ 2 ^ (3 * e) := Nat.pow_le_pow_right (by decide) h
    _ = (2 ^ 3) ^ e := Nat.pow_mul 2 3 e
    _ ≤ 10 ^ e := Nat.pow_le_pow_left (by decide) e

/-- A decimal is rounded as the quotient that it is.  The exponents that are answered
without the power are so far outside that the quotient is infinite or zero. -/
theorem rankOfDecimal_eq (m : ℕ) (e : ℤ) :
    rankOfDecimal m e = nearestRank (m * 10 ^ e.toNat * unitsPerOne) (10 ^ (-e).toNat) := by
  have hlimit : exponentLimit = 400 := rfl
  have hone : oneExponent = 1074 := rfl
  have hbits : fractionBits = 52 := rfl
  cases e with
  | ofNat e =>
    change _ = nearestRank (m * 10 ^ e * unitsPerOne) (10 ^ (-(e : ℤ)).toNat)
    rw [Int.toNat_neg_natCast, Nat.pow_zero, rankOfDecimal]
    split_ifs with hzero hlarge
    · rw [hzero, Nat.zero_mul, Nat.zero_mul, nearestRank_eq_zero (by decide)]
    · refine (nearestRank_eq_infinityRank Nat.one_pos ?_).symm
      have hm : 1 ≤ m := by omega
      calc units infinityRank * 1 = 2 ^ (fractionBits + 1 + 2045) := by
            rw [units_infinityRank, Nat.mul_one, ← Nat.pow_add]
        _ ≤ 2 ^ (3 * e + oneExponent) := Nat.pow_le_pow_right (by decide) (by omega)
        _ = 2 ^ (3 * e) * unitsPerOne := by rw [Nat.pow_add, unitsPerOne_eq]
        _ ≤ m * 10 ^ e * unitsPerOne :=
          Nat.mul_le_mul_right _ ((two_pow_le_ten_pow (Nat.le_refl _)).trans
            (Nat.le_mul_of_pos_left _ hm))
    · rfl
  | negSucc e =>
    change _ = nearestRank (m * 10 ^ 0 * unitsPerOne) (10 ^ (e + 1))
    rw [Nat.pow_zero, Nat.mul_one, rankOfDecimal]
    split_ifs with hsmall
    · refine (nearestRank_eq_zero ?_).symm
      calc 2 * (m * unitsPerOne) = m * (2 * unitsPerOne) := Nat.mul_left_comm _ _ _
        _ < 2 ^ (m.log2 + 1) * (2 * unitsPerOne) :=
          Nat.mul_lt_mul_of_pos_right Nat.lt_log2_self
            (Nat.mul_pos (by decide) unitsPerOne_pos)
        _ = 2 ^ (m.log2 + 1 + (oneExponent + 1)) := by
          rw [unitsPerOne_eq, ← Nat.pow_succ', ← Nat.pow_add]
        _ ≤ 10 ^ (e + 1) := two_pow_le_ten_pow (by omega)
    · rfl

/-- A zero behind the digits changes nothing when the point moves with it. -/
theorem rankOfDecimal_mul_ten (m : ℕ) (e : ℤ) :
    rankOfDecimal (10 * m) (e - 1) = rankOfDecimal m e := by
  rw [rankOfDecimal_eq, rankOfDecimal_eq]
  by_cases hpos : 0 < e
  · obtain ⟨k, rfl⟩ : ∃ k : ℕ, e = k + 1 := ⟨(e - 1).toNat, by omega⟩
    rw [Int.add_sub_cancel, show (-(k : ℤ)).toNat = 0 by omega,
      show (-((k : ℤ) + 1)).toNat = 0 by omega, Int.toNat_natCast,
      show ((k : ℤ) + 1).toNat = k + 1 by omega, Nat.pow_succ', Nat.mul_left_comm m 10,
      Nat.mul_assoc 10 m]
  · obtain ⟨k, rfl⟩ : ∃ k : ℕ, e = -k := ⟨(-e).toNat, by omega⟩
    rw [show (-(k : ℤ) - 1).toNat = 0 by omega, show (-(k : ℤ)).toNat = 0 by omega,
      show (-(-(k : ℤ) - 1)).toNat = k + 1 by omega, Int.neg_neg, Int.toNat_natCast, Nat.pow_zero,
      Nat.mul_one, Nat.mul_one, Nat.pow_succ', Nat.mul_assoc, nearestRank_mul (by decide)]

theorem rankOfDecimal_mul_ten_pow (m k : ℕ) (e : ℤ) :
    rankOfDecimal (10 ^ k * m) (e - k) = rankOfDecimal m e := by
  induction k generalizing e with
  | zero => simp
  | succ k ih =>
    rw [Nat.pow_succ', Nat.mul_assoc, Int.natCast_add, ← Int.sub_sub]
    exact (rankOfDecimal_mul_ten _ _).trans (ih e)

end GradientForest.Binary64
