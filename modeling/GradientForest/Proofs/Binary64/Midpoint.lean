import GradientForest.Proofs.Binary64.Levels
import GradientForest.Proofs.Binary64.SignedZeros
import GradientForest.Split.Threshold

/-!
# The midpoint of two binary64 numbers

The midpoint of `a` and `b` is `a + (b - a) / 2`, and each of the three operations rounds.
`halfWidth` follows a distance in units through the first two.  The rounded half is never
longer than the distance (`halfWidth_le`), so a midpoint whose width does not overflow is
not above `b`.  It is above half a step behind `a` when there is a number between `a` and
`b` (`lt_two_mul_halfWidth`), so then the midpoint is above `a`.

Neighbours have their exact middle between them.  It is rounded to the even one of the two,
and below twice the first power of two its half is rounded away.  With the infinities this
makes `Bisectable`, which says exactly when a midpoint lies above the lower number and not
above the upper one (`midpoint_between_iff`).
-/

namespace GradientForest.Binary64

open Scalar

/-! ## Finite operands -/

section Finite

variable {x y : Binary64} (hx : x.rank < infinityRank)

include hx

theorem isUndefined_of_lt : x.isUndefined = false := decide_eq_false (by omega)

theorem isInfinite_of_lt : x.isInfinite = false := decide_eq_false (by omega)

theorem add_of_finite (hy : y.rank < infinityRank) :
    x + y = ofSignedUnits (x.isNegative && y.isNegative) (unitsAt x.level + unitsAt y.level) := by
  change onNumbers sum x y = _
  rw [onNumbers, isUndefined_of_lt hx, isUndefined_of_lt hy, if_neg Bool.false_ne_true,
    if_neg Bool.false_ne_true, sum, isInfinite_of_lt hx, isInfinite_of_lt hy,
    if_neg Bool.false_ne_true, if_neg Bool.false_ne_true, signedUnits_eq, signedUnits_eq]

theorem sub_of_finite (hy : y.rank < infinityRank) :
    x - y =
      ofSignedUnits (x.isNegative && y.neg.isNegative) (unitsAt x.level - unitsAt y.level) := by
  have hneg : y.neg.rank < infinityRank := by rwa [rank_neg]
  have hsum : x - y = x + y.neg := by
    change onNumbers (fun x y => sum x y.neg) x y = onNumbers sum x y.neg
    rw [onNumbers, onNumbers, isUndefined_of_lt hy, isUndefined_of_lt hneg,
      if_neg Bool.false_ne_true, if_neg Bool.false_ne_true]
  rw [hsum, add_of_finite hx hneg, level_neg, unitsAt_neg, sub_eq_add_neg]

end Finite

section Rank

variable {r : ℕ} (hr : r < infinityRank)

include hr

theorem rank_ofRank_of_lt (negative : Bool) : (ofRank negative r).rank = r :=
  rank_ofRank _ (lt_trans hr infinityRank_lt)

theorem level_ofRank (negative : Bool) :
    (ofRank negative r).level = if negative then -(r : ℤ) else r := by
  rw [level, isNegative_ofRank _ (lt_trans hr infinityRank_lt), rank_ofRank_of_lt hr]

theorem ofRank_div_two (negative : Bool) :
    ofRank negative r / 2 = ofRank negative (nearestRank (units r) 2) := by
  obtain ⟨two, htwo, hunits⟩ := exists_rank (n := 2) (by decide)
  have hnumeral : (2 : Binary64) = Binary64.ofNat 2 := rfl
  have heq : (2 : Binary64) = ofRank false two := hnumeral.trans (ofNat_eq_ofRank htwo hunits)
  have hfinite : (ofRank negative r).rank < infinityRank := by rwa [rank_ofRank_of_lt hr]
  have hfinite' : (2 : Binary64).rank < infinityRank := by rwa [heq, rank_ofRank_of_lt htwo]
  have hzero : (2 : Binary64).isZero = false := by decide +kernel
  have hsign : jointSign (ofRank negative r) 2 = negative := by
    rw [jointSign, heq, isNegative_ofRank _ (lt_trans hr infinityRank_lt),
      isNegative_ofRank _ (lt_trans htwo infinityRank_lt), Bool.bne_false]
  change onNumbers quotient (ofRank negative r) 2 = _
  rw [onNumbers, isUndefined_of_lt hfinite, isUndefined_of_lt hfinite', if_neg Bool.false_ne_true,
    if_neg Bool.false_ne_true, quotient, isInfinite_of_lt hfinite, isInfinite_of_lt hfinite',
    if_neg Bool.false_ne_true, if_neg Bool.false_ne_true, hzero, if_neg Bool.false_ne_true, hsign,
    heq, rank_ofRank_of_lt htwo, rank_ofRank_of_lt hr, hunits, Nat.mul_comm 2,
    Nat.mul_comm _ unitsPerOne, nearestRank_mul unitsPerOne_pos]

end Rank

/-! ## Units of a power of two -/

/-- Twice the units of a rank are the units of a rank. -/
theorem exists_units_double (r : ℕ) : ∃ r', units r' = 2 * units r := by
  rcases rank_cases r with h | ⟨e, f, hf, rfl⟩
  · rw [units_of_lt h]
    by_cases hdouble : 2 * r < fractionSteps
    · exact ⟨2 * r, units_of_lt hdouble⟩
    · refine ⟨2 * r, ?_⟩
      have hr : 2 * r = (0 + 1) * fractionSteps + (2 * r - fractionSteps) := by omega
      rw [hr, units_eq 0 (by omega)]
      omega
  · refine ⟨(e + 1 + 1) * fractionSteps + f, ?_⟩
    rw [units_eq _ hf, units_eq _ hf, Nat.pow_succ, ← Nat.mul_assoc, Nat.mul_comm]

theorem exists_units_mul_pow {n : ℕ} (hn : n < fractionSteps) (k : ℕ) :
    ∃ r, units r = n * 2 ^ k := by
  induction k with
  | zero => exact ⟨n, by rw [units_of_lt hn, Nat.pow_zero, Nat.mul_one]⟩
  | succ k ih =>
    obtain ⟨r, hr⟩ := ih
    obtain ⟨r', hr'⟩ := exists_units_double r
    exact ⟨r', by rw [hr', hr, Nat.pow_succ]; ring⟩

/-! ## Half a width -/

/-- Half of a distance, rounded before and after it is halved, in units. -/
def halfWidth (n : ℕ) : ℕ := units (nearestRank (units (nearestRank n 1)) 2)

/-- The units of the next rank are not more than double. -/
theorem units_succ_le {r : ℕ} (hr : 0 < r) : units (r + 1) ≤ units r * 2 := by
  have hpos : 1 ≤ significand r := by
    rcases rank_cases r with h | ⟨e, f, hf, rfl⟩
    · rwa [significand_of_lt h]
    · rw [significand_eq e hf]
      have := fractionSteps_pos
      omega
  rw [units_succ, units_eq_mul, Nat.mul_right_comm]
  exact Nat.mul_le_mul_right _ (by omega)

/-- Rounding does not double a distance, so its half is not longer. -/
theorem halfWidth_le (n : ℕ) : halfWidth n ≤ n := by
  have hspec := rankOfUnits_spec n
  rcases Nat.eq_zero_or_pos (rankOfUnits n) with hzero | hpos
  · have hone : units 1 = 1 := units_of_lt (by decide)
    obtain rfl : n = 0 := by
      rw [hzero, Nat.zero_add, hone] at hspec
      omega
    decide
  · have hround : nearestRank n 1 ≤ rankOfUnits n + 1 :=
      nearestRank_le_of_le Nat.one_pos (by omega)
    have hhalf : nearestRank (units (nearestRank n 1)) 2 ≤ rankOfUnits n :=
      nearestRank_le_of_le two_pos
        (le_trans (units_strictMono.monotone hround) (units_succ_le hpos))
    exact le_trans (units_strictMono.monotone hhalf) hspec.1

/-- What is representable and not above a distance is not above the rounded distance. -/
theorem units_le_round {n r : ℕ} (hn : nearestRank n 1 < infinityRank) (h : units r ≤ n) :
    units r ≤ units (nearestRank n 1) := by
  have hrank := le_nearestRank (n := n) Nat.one_pos (by rwa [Nat.mul_one])
  exact units_strictMono.monotone (by omega)

theorem le_halfWidth {n r s : ℕ} (hn : nearestRank n 1 < infinityRank) (hr : units r ≤ n)
    (hs : units s * 2 ≤ units r) : units s ≤ halfWidth n := by
  have hround := units_le_round hn hr
  have hrank := le_nearestRank (n := units (nearestRank n 1)) two_pos (le_trans hs hround)
  have hhalf : nearestRank (units (nearestRank n 1)) 2 ≤ nearestRank n 1 :=
    nearestRank_le_of_le two_pos (by omega)
  exact units_strictMono.monotone (by omega)

/-- Half of two steps is more than half of the first one, as the second is at least half as
long. -/
theorem lt_two_mul_halfWidth {n e e' : ℕ} (hn : nearestRank n 1 < infinityRank)
    (he : e ≤ e' + 1) (h : 2 ^ e + 2 ^ e' ≤ n) : 2 ^ e < 2 * halfWidth n := by
  have hsmall {k : ℕ} (hk : k < 4) : units k = k := units_of_lt (lt_of_lt_of_le hk (by decide))
  have hpos : 0 < 2 ^ e' := Nat.two_pow_pos e'
  match e, he with
  | 0, _ =>
    have hhalf := le_halfWidth (r := 2) (s := 1) hn (by rw [hsmall (by omega)]; omega)
      (by rw [hsmall (by omega), hsmall (by omega)])
    rw [hsmall (by omega)] at hhalf
    omega
  | 1, _ =>
    -- half of three units lies in the middle between one and two
    have hround := units_le_round (r := 3) hn (by rw [hsmall (by omega)]; omega)
    rw [hsmall (by omega)] at hround
    have hrank := add_mod_le_nearestRank (n := units (nearestRank n 1)) (r := 1) two_pos
      (by decide) (by rw [hsmall (by omega), hsmall (by omega)]; omega)
    have hhalf : units 2 ≤ halfWidth n := units_strictMono.monotone hrank
    rw [hsmall (by omega)] at hhalf
    omega
  | e + 2, he =>
    obtain ⟨r, hr⟩ := exists_units_mul_pow (n := 3) (by decide) (e + 1)
    obtain ⟨s, hs⟩ := exists_units_mul_pow (n := 3) (by decide) e
    have hfirst : 2 ^ (e + 2) = 2 ^ e * 4 := Nat.pow_add 2 e 2
    have hsecond : 2 ^ (e + 1) ≤ 2 ^ e' := Nat.pow_le_pow_right two_pos (by omega)
    have hhalf := le_halfWidth (r := r) (s := s) hn (by rw [hr]; omega) (by rw [hr, hs]; omega)
    rw [hs] at hhalf
    have hpos' : 0 < 2 ^ e := Nat.two_pow_pos e
    omega

/-- A power of two is halved exactly, but one unit is halved to nothing. -/
theorem two_mul_halfWidth_pow {e : ℕ} (hn : nearestRank (2 ^ e) 1 < infinityRank) :
    2 * halfWidth (2 ^ e) = if e = 0 then 0 else 2 ^ e := by
  cases e with
  | zero => decide
  | succ e =>
    obtain ⟨r, hr⟩ := exists_units_mul_pow (n := 1) (by decide) (e + 1)
    obtain ⟨s, hs⟩ := exists_units_mul_pow (n := 1) (by decide) e
    rw [Nat.one_mul] at hr hs
    have hupper : nearestRank (2 ^ (e + 1)) 1 ≤ r :=
      nearestRank_le_of_le Nat.one_pos (by rw [hr, Nat.mul_one])
    have hround : units (nearestRank (2 ^ (e + 1)) 1) ≤ units s * 2 := by
      rw [hs, ← Nat.pow_succ, ← hr]
      exact units_strictMono.monotone (hr ▸ hupper)
    have hhalf : nearestRank (units (nearestRank (2 ^ (e + 1)) 1)) 2 ≤ s :=
      nearestRank_le_of_le two_pos hround
    have hlower := le_halfWidth hn hr.le (by rw [hs, hr, Nat.pow_succ])
    have heq : halfWidth (2 ^ (e + 1)) = 2 ^ e :=
      le_antisymm (hs ▸ units_strictMono.monotone hhalf) (hs ▸ hlower)
    rw [heq, if_neg (Nat.succ_ne_zero e), Nat.pow_succ]
    omega

/-! ## The midpoint of finite numbers -/

theorem isNaN_ofSignedUnits (zeroNegative : Bool) (v : ℤ) :
    isNaN (ofSignedUnits zeroNegative v) = false := by
  have hle := nearestRank_le v.natAbs 1
  rw [isNaN_eq_false_iff, ofSignedUnits, rank_ofRank _ (lt_of_le_of_lt hle infinityRank_lt)]
  exact hle

section Width

variable {a b : Binary64} {n : ℕ} (ha : a.rank < infinityRank) (hb : b.rank < infinityRank)
  (hpos : 0 < n) (hn : unitsAt b.level = unitsAt a.level + n)

include ha hb hpos hn

/-- The width of two numbers is their distance, rounded. -/
theorem sub_eq_width : b - a = ofRank false (nearestRank n 1) := by
  have hwidth : unitsAt b.level - unitsAt a.level = n := by omega
  rw [sub_of_finite hb ha, hwidth, ofSignedUnits, if_neg (by omega), Int.natAbs_natCast,
    decide_eq_false (by omega)]

/-- Half of the width is added to the lower number. -/
theorem midpoint_eq (hfinite : nearestRank n 1 < infinityRank) :
    ∃ zeroNegative, ThresholdSplit.midpoint a b =
      ofSignedUnits zeroNegative (unitsAt a.level + halfWidth n) := by
  have hle : nearestRank (units (nearestRank n 1)) 2 ≤ nearestRank n 1 :=
    nearestRank_le_of_le two_pos (by omega)
  have hhalf := lt_of_le_of_lt hle hfinite
  have hrank : (ofRank false (nearestRank (units (nearestRank n 1)) 2)).rank < infinityRank := by
    rwa [rank_ofRank_of_lt hhalf]
  rw [ThresholdSplit.midpoint, sub_eq_width ha hb hpos hn, ofRank_div_two hfinite false,
    add_of_finite ha hrank, level_ofRank hhalf, if_neg Bool.false_ne_true, unitsAt_natCast]
  exact ⟨_, rfl⟩

/-- Half of an overflowing width leads out of the numbers. -/
theorem midpoint_eq_infinite (hinfinite : nearestRank n 1 = infinityRank) :
    ThresholdSplit.midpoint a b = infinite false := by
  have hhalf : infinite false / 2 = infinite false := by decide +kernel
  have hwidth : b - a = infinite false := by rw [sub_eq_width ha hb hpos hn, hinfinite, infinite]
  rw [ThresholdSplit.midpoint, hwidth, hhalf, add_infinite_of_lt ha]

end Width

/-! ## Between the two numbers -/

/-- What it takes for the midpoint to lie above the lower one of two numbers and not above the
upper one. -/
structure Bisectable (a b : Binary64) : Prop where
  /-- The lower number is finite. -/
  bounded : a ≠ infinite true
  /-- The width of finite numbers does not overflow. -/
  width : b.isFinite = true → (b - a).isFinite = true
  /-- Of neighbours the lower one is odd, and they are more than one unit apart. -/
  apart : a.level + 1 = b.level → a.rank % 2 = 1 ∧ 2 * fractionSteps ≤ min a.rank b.rank

/-- A defined value is finite or one of the infinities. -/
theorem cases_of_defined {x : Binary64} (h : isNaN x = false) :
    x.rank < infinityRank ∨ x = infinite false ∨ x = infinite true := by
  rcases Nat.lt_or_eq_of_le (isNaN_eq_false_iff.1 h) with hlt | heq
  · exact .inl hlt
  · rw [← ofRank_rank x, heq]
    cases x.isNegative
    · exact .inr (.inl rfl)
    · exact .inr (.inr rfl)

theorem stepExponent_eq_zero_iff {l : ℤ} :
    stepExponent l = 0 ↔ min l.natAbs (l + 1).natAbs < 2 * fractionSteps := by
  have hsteps : fractionSteps = 4503599627370496 := by decide
  rw [stepExponent, unitExponent, hsteps]
  omega

/-- The middle of neighbours is rounded away from the lower one when they are more than one unit
apart and the lower one is odd. -/
theorem lt_nearestLevel_halfStep_iff {l : ℤ} (hl : l < infinityRank) (hl' : -infinityRank ≤ l)
    (hfinite : nearestRank (2 ^ stepExponent l) 1 < infinityRank) :
    l < nearestLevel (unitsAt l + halfWidth (2 ^ stepExponent l)) ↔
      l % 2 = 1 ∧ 2 * fractionSteps ≤ min l.natAbs (l + 1).natAbs := by
  have hhalf := two_mul_halfWidth_pow hfinite
  rw [← not_lt (a := min l.natAbs _), ← stepExponent_eq_zero_iff]
  split_ifs at hhalf with hzero
  · have hnone : halfWidth (2 ^ stepExponent l) = 0 := by omega
    rw [hnone, Nat.cast_zero, add_zero]
    refine iff_of_false (not_lt.2 ?_) fun h => h.2 hzero
    exact nearestLevel_le hl' (le_refl _)
  · have hmiddle : 2 * (unitsAt l + halfWidth (2 ^ stepExponent l)) =
        unitsAt l + unitsAt (l + 1) := by
      have hcast : (2 * halfWidth (2 ^ stepExponent l) : ℤ) = 2 ^ stepExponent l := by
        exact_mod_cast hhalf
      rw [unitsAt_succ]
      omega
    rw [nearestLevel_of_middle hl hl' hmiddle]
    simp only [hzero, not_false_eq_true, and_true]
    omega

/-- Half of the way is more than half a step when there is another number in between. -/
theorem lt_nearestLevel_of_far {l : ℤ} {n : ℕ} (hl : l < infinityRank)
    (hfinite : nearestRank n 1 < infinityRank) (hfar : unitsAt (l + 1 + 1) ≤ unitsAt l + n) :
    l < nearestLevel (unitsAt l + halfWidth n) := by
  have hsucc := unitsAt_succ l
  have hsucc' := unitsAt_succ (l + 1)
  have hsteps : 2 ^ stepExponent l + 2 ^ stepExponent (l + 1) ≤ n := by
    have hcast : (2 : ℤ) ^ stepExponent l + 2 ^ stepExponent (l + 1) ≤ n := by omega
    exact_mod_cast hcast
  have hhalf : (2 : ℤ) ^ stepExponent l < 2 * halfWidth n := by
    exact_mod_cast lt_two_mul_halfWidth hfinite (stepExponent_le_succ l) hsteps
  exact lt_nearestLevel hl (by omega)

theorem lt_nearestLevel_half_iff {l l' : ℤ} {n : ℕ} (hl : l < infinityRank)
    (hl' : -infinityRank ≤ l) (hlt : l < l') (hn : unitsAt l' = unitsAt l + n)
    (hfinite : nearestRank n 1 < infinityRank) :
    l < nearestLevel (unitsAt l + halfWidth n) ↔
      (l + 1 = l' → l % 2 = 1 ∧ 2 * fractionSteps ≤ min l.natAbs l'.natAbs) := by
  rcases eq_or_lt_of_le (Int.add_one_le_of_lt hlt) with rfl | hfar
  · have hstep : n = 2 ^ stepExponent l := by
      have hcast : (n : ℤ) = 2 ^ stepExponent l := by
        have hsucc := unitsAt_succ l
        omega
      exact_mod_cast hcast
    rw [hstep] at hfinite ⊢
    rw [lt_nearestLevel_halfStep_iff hl hl' hfinite]
    exact ⟨fun h _ => h, fun h => h rfl⟩
  · have hmono := unitsAt_le (Int.add_one_le_of_lt hfar)
    exact iff_of_true (lt_nearestLevel_of_far hl hfinite (hn ▸ hmono)) fun h => absurd h hfar.ne

section Finite

variable {a b : Binary64} (ha : a.rank < infinityRank) (hb : b.rank < infinityRank)
  (hlevel : a.level < b.level)

include ha hb hlevel

theorem midpoint_between_iff_of_finite :
    (Scalar.lt a (ThresholdSplit.midpoint a b) = true ∧
      Scalar.le (ThresholdSplit.midpoint a b) b = true) ↔ Bisectable a b := by
  have hmono := unitsAt_lt hlevel
  obtain ⟨n, hn⟩ : ∃ n : ℕ, unitsAt b.level = unitsAt a.level + n :=
    ⟨(unitsAt b.level - unitsAt a.level).toNat, by omega⟩
  have hpos : 0 < n := by omega
  have hbound := natAbs_level a
  have hbound' := natAbs_level b
  have hdefined : isNaN a = false := isNaN_eq_false_iff.2 ha.le
  have hdefined' : isNaN b = false := isNaN_eq_false_iff.2 hb.le
  have hwidth := sub_eq_width ha hb hpos hn
  rcases Nat.lt_or_eq_of_le (nearestRank_le n 1) with hfinite | hinfinite
  · have hbisectable : Bisectable a b ↔
        (a.level + 1 = b.level → a.rank % 2 = 1 ∧ 2 * fractionSteps ≤ min a.rank b.rank) := by
      refine ⟨Bisectable.apart, fun h => ⟨?_, fun _ => ?_, h⟩⟩
      · rintro rfl
        exact absurd ha (by decide +kernel)
      · rwa [hwidth, isFinite, rank_ofRank_of_lt hfinite, decide_eq_true_eq]
    obtain ⟨zeroNegative, hmidpoint⟩ := midpoint_eq ha hb hpos hn hfinite
    have hle : nearestLevel (unitsAt a.level + halfWidth n) ≤ b.level :=
      nearestLevel_le (by omega) (by have := halfWidth_le n; omega)
    have hparity : a.level % 2 = 1 ↔ a.rank % 2 = 1 := by omega
    rw [hbisectable, hmidpoint, lt_iff_level, le_iff_level, isNaN_ofSignedUnits,
      level_ofSignedUnits, lt_nearestLevel_half_iff (by omega) (by omega) hlevel hn hfinite,
      hparity, hbound, hbound']
    simp only [hdefined, hdefined', hle, true_and, and_true]
  · have hlast : (infinite false).level = infinityRank := level_infinite false
    rw [midpoint_eq_infinite ha hb hpos hn hinfinite, le_iff_level, hlast]
    refine iff_of_false (fun h => ?_) fun h => ?_
    · have habove := h.2.2.2
      omega
    · have hoverflow := h.width (decide_eq_true hb)
      rw [hwidth, hinfinite] at hoverflow
      exact absurd hoverflow (by decide +kernel)

end Finite

/-! ## Infinite ends -/

theorem infinite_sub {a : Binary64} (ha : a.rank < infinityRank) :
    infinite false - a = infinite false := by
  have hfinite : a.neg.isInfinite = false := isInfinite_of_lt (by rwa [rank_neg])
  have hlast : (infinite false).isUndefined = false ∧ (infinite false).isInfinite = true := by
    decide +kernel
  change onNumbers (fun x y => sum x y.neg) (infinite false) a = _
  rw [onNumbers, hlast.1, isUndefined_of_lt ha, if_neg Bool.false_ne_true,
    if_neg Bool.false_ne_true, sum, hlast.2, hfinite, if_pos rfl,
    if_neg fun h => Bool.false_ne_true h.1]

theorem sub_infinite {b : Binary64} (hb : b.rank < infinityRank) :
    b - infinite true = infinite false := by
  have hneg : (infinite true).neg = infinite false := by decide +kernel
  have hfirst : (infinite true).isUndefined = false := by decide +kernel
  have hlast : (infinite false).isInfinite = true := by decide +kernel
  change onNumbers (fun x y => sum x y.neg) b (infinite true) = _
  rw [onNumbers, isUndefined_of_lt hb, hfirst, if_neg Bool.false_ne_true,
    if_neg Bool.false_ne_true, hneg, sum, isInfinite_of_lt hb, if_neg Bool.false_ne_true, hlast,
    if_pos rfl]

/-- Upward from minus infinity the midpoint is undefined. -/
theorem isNaN_midpoint_infinite {b : Binary64} (hb : b.rank < infinityRank ∨ b = infinite false) :
    isNaN (ThresholdSplit.midpoint (infinite true) b) = true := by
  have hwidth : b - infinite true = infinite false := by
    rcases hb with hb | rfl
    · exact sub_infinite hb
    · decide +kernel
  rw [ThresholdSplit.midpoint, hwidth]
  decide +kernel

theorem midpoint_infinite {a : Binary64} (ha : a.rank < infinityRank) :
    ThresholdSplit.midpoint a (infinite false) = infinite false := by
  have hhalf : infinite false / 2 = infinite false := by decide +kernel
  rw [ThresholdSplit.midpoint, infinite_sub ha, hhalf, add_infinite_of_lt ha]

theorem bisectable_infinite {a : Binary64} (ha : a.rank < infinityRank) :
    Bisectable a (infinite false) where
  bounded := by
    rintro rfl
    exact absurd ha (by decide +kernel)
  width h := absurd h (by decide +kernel)
  apart h := by
    have hlast : (infinite false).level = infinityRank := level_infinite false
    have hrank : infinityRank = 2047 * fractionSteps := rfl
    have hsteps : fractionSteps = 4503599627370496 := by decide
    have hbound := natAbs_level a
    have hbound' := natAbs_level (infinite false)
    rw [hlast] at h hbound'
    omega

/-- The midpoint of two numbers lies above the lower one and not above the upper one just when
they are bisectable. -/
theorem midpoint_between_iff {a b : Binary64} (h : Scalar.lt a b = true) :
    (Scalar.lt a (ThresholdSplit.midpoint a b) = true ∧
      Scalar.le (ThresholdSplit.midpoint a b) b = true) ↔ Bisectable a b := by
  obtain ⟨hadefined, hbdefined, hlevel⟩ := lt_iff_level.1 h
  have hfirst : (infinite true).level = -infinityRank := level_infinite true
  have hlast : (infinite false).level = infinityRank := level_infinite false
  have hbound := natAbs_level a
  have hbound' := natAbs_level b
  have hrank := isNaN_eq_false_iff.1 hadefined
  have hrank' := isNaN_eq_false_iff.1 hbdefined
  have hb : b.rank < infinityRank ∨ b = infinite false := by
    rcases cases_of_defined hbdefined with hb | hb | rfl
    · exact .inl hb
    · exact .inr hb
    · omega
  rcases cases_of_defined hadefined with ha | rfl | rfl
  · rcases hb with hb | rfl
    · exact midpoint_between_iff_of_finite ha hb hlevel
    · refine iff_of_true ?_ (bisectable_infinite ha)
      rw [midpoint_infinite ha]
      exact ⟨h, by decide +kernel⟩
  · omega
  · refine iff_of_false (fun hbetween => ?_) fun hbisectable => hbisectable.bounded rfl
    have hundefined := isNaN_midpoint_infinite hb
    rw [(lt_iff_level.1 hbetween.1).2.1] at hundefined
    exact Bool.false_ne_true hundefined

/-- Between one and the next number there is none, and one is even. -/
example : ThresholdSplit.midpoint (1 : Binary64) ⟨0x3ff0000000000001⟩ = 1 := by decide +kernel

end GradientForest.Binary64
