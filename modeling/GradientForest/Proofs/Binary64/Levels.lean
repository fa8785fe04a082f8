import Mathlib.Algebra.Order.Ring.Int
import Mathlib.Order.WellFounded
import Mathlib.Tactic.Ring
import GradientForest.Proofs.Binary64.Nearest
import GradientForest.Proofs.Scalar.Ordered

/-!
# Rounding and order

Rounding keeps the order of numbers.  A quotient at or above the units of a rank is not
rounded below this rank, and one at or below them not above it (`le_nearestRank`,
`nearestRank_le_of_le`).  Between two neighbours the middle decides, and in the middle the
even rank is taken (`add_mod_le_nearestRank`, `nearestRank_of_middle`).

A level is a rank with a sign, and `unitsAt` its number of units.  On levels the same
holds across zero (`le_nearestLevel` and the lemmas behind it).  Comparisons of numbers
are comparisons of their levels (`lt_iff_level`, `le_iff_level`, `beq_iff_level`).
-/

namespace GradientForest.Binary64

open Scalar

/-! ## Ranks -/

section Ranks

variable {n d r : ℕ}

/-- The rank at or below a quotient is the largest one whose units do not exceed it. -/
theorem le_rankOfUnits_iff (hd : 0 < d) :
    r ≤ rankOfUnits (n / d) ↔ units r * d ≤ n := by
  obtain ⟨hlow, hhigh⟩ := rankOfUnits_div_spec n hd
  constructor
  · intro h
    exact le_trans (Nat.mul_le_mul_right _ (units_strictMono.monotone h)) hlow
  · intro h
    by_contra hlt
    have hle : units (rankOfUnits (n / d) + 1) * d ≤ units r * d :=
      Nat.mul_le_mul_right _ (units_strictMono.monotone (by omega))
    omega

theorem le_nearestRank (hd : 0 < d) (h : units r * d ≤ n) :
    min infinityRank r ≤ nearestRank n d := by
  have hr := (le_rankOfUnits_iff hd).2 h
  rw [nearestRank]
  refine min_le_min_left _ ?_
  split_ifs <;> omega

/-- From the middle between a rank and the next one on, a quotient is not rounded below
the even one of the two. -/
theorem add_mod_le_nearestRank (hd : 0 < d) (hr : r < infinityRank)
    (h : (units r + units (r + 1)) * d ≤ 2 * n) : r + r % 2 ≤ nearestRank n d := by
  have hlt := units_lt_succ r
  have hle : r ≤ rankOfUnits (n / d) := by
    rw [le_rankOfUnits_iff hd]
    have := Nat.mul_le_mul_right d hlt.le
    rw [Nat.add_mul] at h
    omega
  rw [nearestRank, twiceMidpoint_eq]
  refine le_min (by omega) ?_
  rcases Nat.eq_or_lt_of_le hle with rfl | hle
  · rw [if_neg (by omega)]
    split_ifs <;> omega
  · split_ifs <;> omega

/-- Past the middle between a rank and the next one a quotient is rounded up. -/
theorem lt_nearestRank (hd : 0 < d) (hr : r < infinityRank)
    (h : (units r + units (r + 1)) * d < 2 * n) : r < nearestRank n d := by
  have hlt := units_lt_succ r
  have hle : r ≤ rankOfUnits (n / d) := by
    rw [le_rankOfUnits_iff hd]
    have := Nat.mul_le_mul_right d hlt.le
    rw [Nat.add_mul] at h
    omega
  rw [nearestRank, twiceMidpoint_eq]
  refine lt_min hr ?_
  rcases Nat.eq_or_lt_of_le hle with rfl | hle
  · split_ifs <;> omega
  · split_ifs <;> omega

/-- Before the middle between a rank and the next one a quotient is rounded down. -/
theorem nearestRank_le_of_lt (hd : 0 < d)
    (h : 2 * n < (units r + units (r + 1)) * d) : nearestRank n d ≤ r := by
  have hlt := units_lt_succ r
  have hle : rankOfUnits (n / d) ≤ r := by
    by_contra hlt'
    have hnext : units (r + 1) * d ≤ n := (le_rankOfUnits_iff hd).1 (not_le.1 hlt')
    have := Nat.mul_le_mul_right d hlt.le
    rw [Nat.add_mul] at h
    omega
  rw [nearestRank, twiceMidpoint_eq]
  refine min_le_of_right_le ?_
  rcases Nat.eq_or_lt_of_le hle with heq | hle
  · rw [heq, if_pos h]
  · split_ifs <;> omega

theorem nearestRank_le_of_le (hd : 0 < d) (h : n ≤ units r * d) :
    nearestRank n d ≤ r := by
  refine nearestRank_le_of_lt hd ?_
  have := Nat.mul_lt_mul_of_pos_right (units_lt_succ r) hd
  rw [Nat.add_mul]
  omega

/-- In the middle between two neighbours the even rank is taken. -/
theorem nearestRank_of_middle (hd : 0 < d) (hr : r < infinityRank)
    (h : 2 * n = (units r + units (r + 1)) * d) : nearestRank n d = r + r % 2 := by
  have hlt := Nat.mul_lt_mul_of_pos_right (units_lt_succ r) hd
  have hrank : rankOfUnits (n / d) = r := by
    have hbelow : r ≤ rankOfUnits (n / d) := by
      rw [le_rankOfUnits_iff hd]
      rw [Nat.add_mul] at h
      omega
    have habove : ¬ r + 1 ≤ rankOfUnits (n / d) := by
      rw [le_rankOfUnits_iff hd]
      rw [Nat.add_mul] at h
      omega
    omega
  rw [nearestRank, hrank, twiceMidpoint_eq, h, if_neg (lt_irrefl _), if_neg (lt_irrefl _)]
  exact min_eq_right (by omega)

end Ranks

/-! ## Levels -/

/-- The units of a level, with its sign. -/
def unitsAt (l : ℤ) : ℤ := l.sign * units l.natAbs

/-- The level nearest to a signed number of units. -/
def nearestLevel (v : ℤ) : ℤ := v.sign * nearestRank v.natAbs 1

/-- The exponent of the distance between a level and the next one. -/
def stepExponent (l : ℤ) : ℕ := unitExponent (min l.natAbs (l + 1).natAbs)

@[simp] theorem unitsAt_neg (l : ℤ) : unitsAt (-l) = -unitsAt l := by
  simp [unitsAt]

@[simp] theorem nearestLevel_neg (v : ℤ) : nearestLevel (-v) = -nearestLevel v := by
  simp [nearestLevel]

@[simp] theorem unitsAt_natCast (r : ℕ) : unitsAt r = units r := by
  rcases Nat.eq_zero_or_pos r with rfl | hr
  · simp [unitsAt, units_of_lt fractionSteps_pos]
  · rw [unitsAt, Int.sign_natCast_of_ne_zero (by omega), one_mul, Int.natAbs_natCast]

@[simp] theorem nearestLevel_natCast (n : ℕ) : nearestLevel n = nearestRank n 1 := by
  rcases Nat.eq_zero_or_pos n with rfl | hn
  · simp [nearestLevel, nearestRank_eq_zero]
  · rw [nearestLevel, Int.sign_natCast_of_ne_zero (by omega), one_mul, Int.natAbs_natCast]

/-- The next level is one step of a power of two ahead. -/
theorem unitsAt_succ (l : ℤ) : unitsAt (l + 1) = unitsAt l + 2 ^ stepExponent l := by
  have hstep (r : ℕ) : (units (r + 1) : ℤ) = units r + 2 ^ unitExponent r := by
    rw [units_succ, units_eq_mul, Nat.add_mul, Nat.one_mul]
    push_cast
    rfl
  cases l with
  | ofNat r =>
    have hmin : min (r : ℤ).natAbs ((r : ℤ) + 1).natAbs = r := by omega
    have hnext : ((r : ℤ) + 1) = ((r + 1 : ℕ) : ℤ) := rfl
    rw [Int.ofNat_eq_natCast, stepExponent, hmin, hnext, unitsAt_natCast, unitsAt_natCast, hstep]
  | negSucc r =>
    have hmin : min (Int.negSucc r).natAbs (Int.negSucc r + 1).natAbs = r := by omega
    have hthis : Int.negSucc r = -((r + 1 : ℕ) : ℤ) := rfl
    have hnext : Int.negSucc r + 1 = -(r : ℤ) := by omega
    rw [stepExponent, hmin, hnext, hthis, unitsAt_neg, unitsAt_neg, unitsAt_natCast,
      unitsAt_natCast, hstep]
    ring

theorem unitsAt_lt {l l' : ℤ} (h : l < l') : unitsAt l < unitsAt l' := by
  have hstep (l : ℤ) : unitsAt l < unitsAt (l + 1) := by
    rw [unitsAt_succ]
    exact lt_add_of_pos_right _ (pow_pos two_pos _)
  exact strictMono_int_of_lt_succ hstep h

theorem unitsAt_le {l l' : ℤ} (h : l ≤ l') : unitsAt l ≤ unitsAt l' := by
  rcases eq_or_lt_of_le h with rfl | hlt
  · exact le_refl _
  · exact (unitsAt_lt hlt).le

/-- Steps get shorter by a factor of two at most. -/
theorem stepExponent_le_succ (l : ℤ) : stepExponent l ≤ stepExponent (l + 1) + 1 := by
  have hsteps : fractionSteps = 4503599627370496 := by decide
  simp only [stepExponent, unitExponent, hsteps]
  omega

theorem le_nearestLevel {l v : ℤ} (hl : l ≤ infinityRank) (h : unitsAt l ≤ v) :
    l ≤ nearestLevel v := by
  obtain ⟨r, rfl | rfl⟩ := l.eq_nat_or_neg <;> obtain ⟨n, rfl | rfl⟩ := v.eq_nat_or_neg
  · rw [unitsAt_natCast] at h
    have hrank := le_nearestRank (n := n) (r := r) Nat.one_pos (by omega)
    rw [nearestLevel_natCast]
    omega
  · rw [unitsAt_natCast] at h
    have hunits := units_strictMono.le_apply (x := r)
    obtain rfl : n = 0 := by omega
    obtain rfl : r = 0 := by omega
    simp [nearestLevel]
  · rw [nearestLevel_natCast]
    omega
  · rw [unitsAt_neg, unitsAt_natCast] at h
    have hrank := nearestRank_le_of_le (n := n) (r := r) Nat.one_pos (by omega)
    rw [nearestLevel_neg, nearestLevel_natCast]
    omega

theorem nearestLevel_le {l v : ℤ} (hl : -infinityRank ≤ l) (h : v ≤ unitsAt l) :
    nearestLevel v ≤ l := by
  have hneg := le_nearestLevel (l := -l) (v := -v) (by omega) (by rw [unitsAt_neg]; omega)
  rw [nearestLevel_neg] at hneg
  omega

/-- Past the middle between a level and the next one a number is rounded up. -/
theorem lt_nearestLevel {l v : ℤ} (hl : l < infinityRank)
    (h : unitsAt l + unitsAt (l + 1) < 2 * v) : l < nearestLevel v := by
  obtain ⟨n, rfl | rfl⟩ := v.eq_nat_or_neg
  · rw [nearestLevel_natCast]
    cases l with
    | ofNat r =>
      have hnext : Int.ofNat r + 1 = ((r + 1 : ℕ) : ℤ) := rfl
      rw [hnext, Int.ofNat_eq_natCast, unitsAt_natCast, unitsAt_natCast] at h
      rw [Int.ofNat_eq_natCast] at hl ⊢
      have hrank := lt_nearestRank (n := n) (r := r) Nat.one_pos (by omega) (by omega)
      omega
    | negSucc r => omega
  · rw [nearestLevel_neg, nearestLevel_natCast]
    cases l with
    | ofNat r =>
      have hnext : Int.ofNat r + 1 = ((r + 1 : ℕ) : ℤ) := rfl
      rw [hnext, Int.ofNat_eq_natCast, unitsAt_natCast, unitsAt_natCast] at h
      omega
    | negSucc r =>
      have hthis : Int.negSucc r = -((r + 1 : ℕ) : ℤ) := rfl
      have hnext : Int.negSucc r + 1 = -(r : ℤ) := by omega
      rw [hnext, hthis, unitsAt_neg, unitsAt_neg, unitsAt_natCast, unitsAt_natCast] at h
      have hrank := nearestRank_le_of_lt (n := n) (r := r) Nat.one_pos (by omega)
      omega

/-- In the middle between two neighbours the even level is taken. -/
theorem nearestLevel_of_middle {l v : ℤ} (hl : l < infinityRank) (hl' : -infinityRank ≤ l)
    (h : 2 * v = unitsAt l + unitsAt (l + 1)) : nearestLevel v = l + l % 2 := by
  cases l with
  | ofNat r =>
    have hnext : Int.ofNat r + 1 = ((r + 1 : ℕ) : ℤ) := rfl
    rw [hnext, Int.ofNat_eq_natCast, unitsAt_natCast, unitsAt_natCast] at h
    obtain ⟨n, rfl⟩ := Int.eq_ofNat_of_zero_le (a := v) (by omega)
    rw [Int.ofNat_eq_natCast] at hl ⊢
    have hrank := nearestRank_of_middle (n := n) (r := r) Nat.one_pos (by omega) (by omega)
    rw [nearestLevel_natCast, hrank]
    omega
  | negSucc r =>
    have hthis : Int.negSucc r = -((r + 1 : ℕ) : ℤ) := rfl
    have hnext : Int.negSucc r + 1 = -(r : ℤ) := by omega
    rw [hnext, hthis, unitsAt_neg, unitsAt_neg, unitsAt_natCast, unitsAt_natCast] at h
    obtain ⟨n, hn⟩ := Int.eq_ofNat_of_zero_le (a := -v) (by omega)
    have hrank := nearestRank_of_middle (n := n) (r := r) Nat.one_pos (by omega) (by omega)
    rw [← neg_neg v, hn, nearestLevel_neg, nearestLevel_natCast, hrank]
    omega

/-! ## Numbers and their levels -/

theorem signedUnits_eq (x : Binary64) : x.signedUnits = unitsAt x.level := by
  rw [signedUnits, level]
  cases x.isNegative <;> simp

theorem natAbs_level (x : Binary64) : x.level.natAbs = x.rank := by
  rw [level]
  cases x.isNegative <;> simp

theorem level_neg (x : Binary64) : x.neg.level = -x.level := by
  rw [level, level, neg, isNegative_ofRank _ x.rank_lt, rank_ofRank _ x.rank_lt]
  cases x.isNegative <;> simp

theorem level_ofSignedUnits (zeroNegative : Bool) (v : ℤ) :
    (ofSignedUnits zeroNegative v).level = nearestLevel v := by
  have hrank : nearestRank v.natAbs 1 < signBit.toNat :=
    lt_of_le_of_lt (Nat.min_le_left _ _) infinityRank_lt
  rw [ofSignedUnits, level, isNegative_ofRank _ hrank, rank_ofRank _ hrank, nearestLevel]
  rcases lt_trichotomy v 0 with hv | rfl | hv
  · rw [if_neg hv.ne, if_pos (decide_eq_true hv), Int.sign_eq_neg_one_of_neg hv, neg_one_mul]
  · simp [nearestRank_eq_zero]
  · rw [if_neg hv.ne', decide_eq_false (not_lt.2 hv.le), if_neg Bool.false_ne_true,
      Int.sign_eq_one_of_pos hv, one_mul]

theorem lt_iff_level {x y : Binary64} :
    Scalar.lt x y = true ↔ isNaN x = false ∧ isNaN y = false ∧ x.level < y.level := by
  rw [isNaN_eq_false_iff, isNaN_eq_false_iff]
  refine (lt_iff x y).trans ?_
  simp [comparable, isUndefined, and_assoc]

theorem le_iff_level {x y : Binary64} :
    Scalar.le x y = true ↔ isNaN x = false ∧ isNaN y = false ∧ x.level ≤ y.level := by
  rw [isNaN_eq_false_iff, isNaN_eq_false_iff]
  refine (le_iff x y).trans ?_
  simp [comparable, isUndefined, and_assoc]

theorem beq_iff_level {x y : Binary64} :
    Scalar.beq x y = true ↔ isNaN x = false ∧ isNaN y = false ∧ x.level = y.level := by
  rw [isNaN_eq_false_iff, isNaN_eq_false_iff]
  refine (beq_iff x y).trans ?_
  simp [comparable, isUndefined, and_assoc]

theorem scalar_le_of_lt {x y : Binary64} (h : Scalar.lt x y = true) : Scalar.le x y = true := by
  obtain ⟨hx, hy, hlt⟩ := lt_iff_level.1 h
  exact le_iff_level.2 ⟨hx, hy, hlt.le⟩

theorem scalar_le_trans {x y z : Binary64} (h : Scalar.le x y = true)
    (h' : Scalar.le y z = true) : Scalar.le x z = true := by
  obtain ⟨hx, -, hle⟩ := le_iff_level.1 h
  obtain ⟨-, hz, hle'⟩ := le_iff_level.1 h'
  exact le_iff_level.2 ⟨hx, hz, hle.trans hle'⟩

theorem scalar_lt_of_lt_of_le {x y z : Binary64} (h : Scalar.lt x y = true)
    (h' : Scalar.le y z = true) : Scalar.lt x z = true := by
  obtain ⟨hx, -, hlt⟩ := lt_iff_level.1 h
  obtain ⟨-, hz, hle⟩ := le_iff_level.1 h'
  exact lt_iff_level.2 ⟨hx, hz, hlt.trans_le hle⟩

/-- Of two defined values, the one that is not at or below the other is above it. -/
theorem scalar_lt_of_not_le {x y : Binary64} (hx : isNaN x = false) (hy : isNaN y = false)
    (h : ¬ Scalar.le x y = true) : Scalar.lt y x = true :=
  lt_iff_level.2 ⟨hy, hx, not_le.1 fun hle => h (le_iff_level.2 ⟨hx, hy, hle⟩)⟩

/-- The total order refines the order of the numbers. -/
theorem level_le_of_orderKey_le {x y : Binary64} (h : x.orderKey ≤ y.orderKey) :
    x.level ≤ y.level := by
  rw [orderKey, orderKey] at h
  rw [level, level]
  split_ifs at h ⊢ <;> omega

/-- Infinity is above every other number. -/
theorem lt_infinity_iff {x : Binary64} :
    Scalar.lt x infinity = true ↔ isNaN x = false ∧ x ≠ infinity := by
  have hinfinite : isNaN (infinity : Binary64) = false := by decide
  rw [lt_iff_level]
  constructor
  · rintro ⟨hx, -, hlt⟩
    exact ⟨hx, fun heq => absurd hlt (heq ▸ lt_irrefl _)⟩
  · rintro ⟨hx, hne⟩
    have hlt := orderKey_lt_infinite (isNaN_eq_false_iff.1 hx) hne
    have hkey : (infinite false).orderKey = infinityRank := by decide +kernel
    have hpositive : (0 : ℤ) < infinityRank := by decide
    refine ⟨hx, hinfinite, ?_⟩
    change x.level < (infinite false).level
    rw [hkey, orderKey] at hlt
    rw [level_infinite, level]
    rw [if_neg Bool.false_ne_true]
    split_ifs at hlt ⊢ <;> omega

end GradientForest.Binary64
