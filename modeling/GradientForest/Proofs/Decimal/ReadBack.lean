import GradientForest.Proofs.Binary64.Nearest

/-!
# Shortest decimals read back

`Decimal.rank` is the rank that a decimal is read as.  A point of a grid in the interval
around a rank is read as this rank (`Shortest.rank_of_onGrid`), and zeros at the end of
its digits do not matter (`Decimal.rank_dropZeros`).  Where no grid has a point the
number is written exactly, and it is read as it was (`Shortest.rank_exact`).

So the shortest decimal of a finite number is read as this number
(`Shortest.rank_ofRank`), whichever way ties go.
-/

namespace GradientForest

open Binary64

namespace Decimal

/-- The rank of the number nearest to a decimal. -/
def rank (d : Decimal) : ℕ := rankOfDecimal d.coefficient d.exponent

theorem rank_zero (e : ℤ) : rank ⟨0, e⟩ = 0 := by
  rw [rank, rankOfDecimal_eq, Nat.zero_mul, Nat.zero_mul]
  exact nearestRank_eq_zero (Nat.pow_pos (by decide))

/-- Decimals that agree up to zeros at the end are the same number. -/
theorem rank_eq_of_shift {d d' : Decimal} (k : ℕ)
    (hcoefficient : d.coefficient = 10 ^ k * d'.coefficient)
    (hexponent : d.exponent = d'.exponent - k) : d.rank = d'.rank := by
  rw [rank, rank, hcoefficient, hexponent, rankOfDecimal_mul_ten_pow]

theorem rank_dropZeros (n : ℕ) (d : Decimal) : (d.dropZeros n).rank = d.rank := by
  induction n generalizing d with
  | zero => rfl
  | succ n ih =>
    rw [dropZeros]
    split_ifs with hzero
    · rw [ih]
      refine (rank_eq_of_shift 1 ?_ ?_).symm
      · rw [Nat.pow_one]
        exact (Nat.mul_div_cancel' (Nat.dvd_of_mod_eq_zero hzero.2)).symm
      · exact (Int.add_sub_cancel _ _).symm
    · rfl

end Decimal

namespace Shortest

/-- A point that an interval contains is read as the rank of the interval. -/
theorem rank_of_contains {r c : ℕ} {p : ℤ} (hr : r ≤ infinityRank)
    (h : (Interval.ofRank r).contains (stepUp p) (stepDown p) c = true) :
    Decimal.rank ⟨c, p⟩ = r := by
  have hstep : c * stepUp p = c * 10 ^ p.toNat * unitsPerOne * 2 := by
    rw [stepUp, Nat.mul_comm 2 unitsPerOne, ← Nat.mul_assoc, ← Nat.mul_assoc]
    rfl
  rw [Decimal.rank, rankOfDecimal_eq]
  refine nearestRank_of_contains hr (Nat.pow_pos (by decide)) ?_
  rw [Interval.contains, hstep] at h
  exact h

theorem rank_of_onGrid {tie : Tie} {r : ℕ} {p : ℤ} {d : Decimal} (hr : r ≤ infinityRank)
    (h : onGrid tie (Interval.ofRank r) p = some d) : d.rank = r := by
  simp only [onGrid] at h
  generalize (if 2 * _ < _ then _ else _ : ℕ) = preferred at h
  split_ifs at h with hfirst hother hsecond hsecond
  all_goals
    cases h
    first
    | exact rank_of_contains hr hfirst
    | exact rank_of_contains hr hsecond

theorem rank_of_search {tie : Tie} {r : ℕ} (hr : r ≤ infinityRank) {n : ℕ} {p : ℤ} {d : Decimal}
    (h : search tie (Interval.ofRank r) n p = some d) : d.rank = r := by
  induction n generalizing p with
  | zero => cases h
  | succ n ih =>
    rw [search] at h
    split at h
    next hgrid =>
      cases h
      exact rank_of_onGrid hr hgrid
    next => exact ih h

/-- A number of units is written exactly, since a unit is a power of five behind the
point. -/
theorem rank_pow {k : ℕ} (hk : unitsPerOne = 2 ^ k) (u : ℕ) :
    Decimal.rank ⟨u * Nat.pow 5 k, -k⟩ = nearestRank u 1 := by
  have hpow : Nat.pow 5 k * 2 ^ k = 10 ^ k := (Nat.mul_pow 5 2 k).symm
  rw [Decimal.rank, rankOfDecimal_eq, Int.neg_neg, Int.toNat_neg_natCast, Int.toNat_natCast,
    Nat.pow_zero, Nat.mul_one, hk, Nat.mul_assoc, hpow, Nat.mul_comm u]
  exact (congrArg _ (Nat.mul_one _).symm).trans (nearestRank_mul (Nat.pow_pos (by decide)) u 1)

theorem rank_exact {r : ℕ} (hr : r ≤ infinityRank) : (exact r).rank = r :=
  (rank_pow unitsPerOne_eq (units r)).trans (nearestRank_units hr)

/-- The shortest decimal of a number is read as this number. -/
theorem rank_ofRank (tie : Tie) {r : ℕ} (hr : r ≤ infinityRank) : (ofRank tie r).rank = r := by
  rw [ofRank]
  split
  next hsearch => rw [Decimal.rank_dropZeros, rank_of_search hr hsearch]
  next => exact rank_exact hr

end Shortest

end GradientForest
