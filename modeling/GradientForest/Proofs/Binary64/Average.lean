import GradientForest.Proofs.Binary64.Midpoint

/-!
# Half the sum of two binary64 numbers

The sum of two finite numbers is rounded, and so is half of it.  Twice a number is a number
again, as long as it is not too large, so rounding leads past neither twice the lower number
nor twice the upper one (`double_le_round`, `round_le_double`).  Half of the rounded sum is
therefore between the two (`average_between`).

The sum overflows where the numbers themselves do not, and then half of it is infinite
(`isFinite_average`).
-/

namespace GradientForest.Binary64

open Scalar

/-! ## Doubles -/

/-- Twice the units of a level are the units of a level. -/
theorem exists_unitsAt_double (l : ℤ) : ∃ l', unitsAt l' = 2 * unitsAt l := by
  obtain ⟨r, rfl | rfl⟩ := l.eq_nat_or_neg <;> obtain ⟨r', hr'⟩ := exists_units_double r
  · exact ⟨r', by rw [unitsAt_natCast, unitsAt_natCast, hr']; rfl⟩
  · exact ⟨-r', by rw [unitsAt_neg, unitsAt_neg, unitsAt_natCast, unitsAt_natCast, hr']; omega⟩

/-- What is not below twice a number is not rounded below it. -/
theorem double_le_round {l v : ℤ} (hfinite : nearestLevel v < infinityRank)
    (h : 2 * unitsAt l ≤ v) : 2 * unitsAt l ≤ unitsAt (nearestLevel v) := by
  obtain ⟨l', hl'⟩ := exists_unitsAt_double l
  have hrange : l' ≤ infinityRank := by
    by_contra! hlt
    have hover := le_nearestLevel (le_refl _) ((unitsAt_lt hlt).le.trans (hl' ▸ h))
    omega
  rw [← hl'] at h ⊢
  exact unitsAt_le (le_nearestLevel hrange h)

/-- What is not above twice a number is not rounded above it. -/
theorem round_le_double {l v : ℤ} (hfinite : -infinityRank < nearestLevel v)
    (h : v ≤ 2 * unitsAt l) : unitsAt (nearestLevel v) ≤ 2 * unitsAt l := by
  have hneg : 2 * unitsAt (-l) ≤ unitsAt (nearestLevel (-v)) :=
    double_le_round (by rw [nearestLevel_neg]; omega) (by rw [unitsAt_neg]; omega)
  rw [nearestLevel_neg, unitsAt_neg, unitsAt_neg] at hneg
  omega

/-! ## Halves -/

/-- The level nearest to half of a level. -/
def halfLevel (l : ℤ) : ℤ := l.sign * nearestRank (units l.natAbs) 2

@[simp] theorem halfLevel_neg (l : ℤ) : halfLevel (-l) = -halfLevel l := by
  simp [halfLevel]

@[simp] theorem halfLevel_natCast (r : ℕ) : halfLevel r = nearestRank (units r) 2 := by
  rcases Nat.eq_zero_or_pos r with rfl | hr
  · decide
  · rw [halfLevel, Int.sign_natCast_of_ne_zero (by omega), one_mul, Int.natAbs_natCast]

theorem le_halfLevel {l l' : ℤ} (hl : l ≤ infinityRank) (h : 2 * unitsAt l ≤ unitsAt l') :
    l ≤ halfLevel l' := by
  obtain ⟨r, rfl | rfl⟩ := l.eq_nat_or_neg <;> obtain ⟨r', rfl | rfl⟩ := l'.eq_nat_or_neg
  · rw [unitsAt_natCast, unitsAt_natCast] at h
    have hrank := le_nearestRank (n := units r') (r := r) two_pos (by omega)
    rw [halfLevel_natCast]
    omega
  · rw [unitsAt_neg, unitsAt_natCast, unitsAt_natCast] at h
    have hunits := units_strictMono.le_apply (x := r)
    have hunits' := units_strictMono.le_apply (x := r')
    obtain rfl : r = 0 := by omega
    obtain rfl : r' = 0 := by omega
    decide
  · rw [halfLevel_natCast]
    omega
  · rw [unitsAt_neg, unitsAt_neg, unitsAt_natCast, unitsAt_natCast] at h
    have hrank := nearestRank_le_of_le (n := units r') (r := r) two_pos (by omega)
    rw [halfLevel_neg, halfLevel_natCast]
    omega

theorem halfLevel_le {l l' : ℤ} (hl : -infinityRank ≤ l) (h : unitsAt l' ≤ 2 * unitsAt l) :
    halfLevel l' ≤ l := by
  have hneg : -l ≤ halfLevel (-l') :=
    le_halfLevel (by omega) (by rw [unitsAt_neg, unitsAt_neg]; omega)
  rw [halfLevel_neg] at hneg
  omega

theorem level_div_two {x : Binary64} (hx : x.rank < infinityRank) :
    (x / 2).level = halfLevel x.level := by
  have hhalf : nearestRank (units x.rank) 2 < infinityRank :=
    lt_of_le_of_lt (nearestRank_le_of_le two_pos (by omega)) hx
  rw [← ofRank_rank x, ofRank_div_two hx, level_ofRank hhalf, level_ofRank hx]
  cases x.isNegative <;> simp

/-! ## Half the sum -/

section Average

variable {x y : Binary64} (hx : x.rank < infinityRank) (hy : y.rank < infinityRank)

include hx hy

theorem level_add : (x + y).level = nearestLevel (unitsAt x.level + unitsAt y.level) := by
  rw [add_of_finite hx hy, level_ofSignedUnits]

/-- Half the sum is not below the lower number and not above the upper one. -/
theorem average_between (hle : x.level ≤ y.level) (hsum : (x + y).rank < infinityRank) :
    x.level ≤ ((x + y) / 2).level ∧ ((x + y) / 2).level ≤ y.level := by
  have hbound := natAbs_level (x + y)
  have hxbound := natAbs_level x
  have hybound := natAbs_level y
  have hunits := unitsAt_le hle
  rw [level_div_two hsum, level_add hx hy]
  rw [level_add hx hy] at hbound
  exact ⟨le_halfLevel (by omega) (double_le_round (by omega) (by omega)),
    halfLevel_le (by omega) (round_le_double (by omega) (by omega))⟩

/-- Half the sum is finite just when the sum is. -/
theorem isFinite_average (hle : x.level ≤ y.level) :
    ((x + y) / 2).isFinite = (x + y).isFinite := by
  have hdefined : isNaN (x + y) = false := by rw [add_of_finite hx hy, isNaN_ofSignedUnits]
  rcases cases_of_defined hdefined with hsum | hsum | hsum
  · obtain ⟨hlow, hhigh⟩ := average_between hx hy hle hsum
    have hbound := natAbs_level ((x + y) / 2)
    have hxbound := natAbs_level x
    have hybound := natAbs_level y
    rw [isFinite, isFinite, decide_eq_true hsum]
    exact decide_eq_true (by omega)
  · rw [hsum]
    decide +kernel
  · rw [hsum]
    decide +kernel

end Average

end GradientForest.Binary64
