import GradientForest.Proofs.Binary64.Nearest
import GradientForest.Proofs.Scalar.Ordered
import GradientForest.Proofs.Scalar.SignedZeros

/-!
# Zeros of binary64 numbers

The values of rank 0 are the two zeros (`isZero_iff`).  A zero is added and subtracted
without effect, unless the other operand is a zero too (`sum_of_rank_eq_zero`).  Rounding
makes no zero of a sum that is none, so of all sums only that of two minus zeros is minus
zero (`isPlain_add`), and binary64 has the laws of `Scalar.SignedZeros`.
-/

namespace GradientForest.Binary64

open Scalar

/-! ## Zeros and indicators -/

theorem level_eq_zero_iff {x : Binary64} : x.level = 0 ↔ x.rank = 0 := by
  rw [level]
  cases x.isNegative <;> simp

theorem isZero_iff_rank {x : Binary64} : IsZero x ↔ x.rank = 0 := by
  have hzero : (0 : Binary64).rank = 0 := by decide +kernel
  have hlevel : (0 : Binary64).level = 0 := by decide +kernel
  change Binary64.beq x 0 = true ↔ _
  rw [beq_iff, hlevel, level_eq_zero_iff, comparable, isUndefined, isUndefined, hzero]
  simp only [Bool.and_eq_true, Bool.not_eq_true', decide_eq_false_iff_not]
  exact ⟨And.right, fun h => ⟨⟨by rw [h]; decide, by decide⟩, h⟩⟩

/-- There are two zeros. -/
theorem isZero_iff {x : Binary64} : IsZero x ↔ x = 0 ∨ x = -0 := by
  rw [isZero_iff_rank]
  constructor
  · intro h
    rw [← ofRank_rank x, h]
    cases x.isNegative with
    | false => exact .inl (by decide +kernel)
    | true => exact .inr (by decide +kernel)
  · rintro (rfl | rfl) <;> decide +kernel

theorem isIndicator_iff {x : Binary64} : isIndicator x = true ↔ x = 0 ∨ x = -0 ∨ x = 1 := by
  have hone : Scalar.beq x 1 = true ↔ x = 1 := by
    have hrank : (1 : Binary64).isZero = false := by decide +kernel
    have hself : comparable (1 : Binary64) 1 = true := by decide +kernel
    change (comparable x 1 && (x = 1 || (x.isZero && (1 : Binary64).isZero))) = true ↔ _
    rw [hrank, Bool.and_false, Bool.or_false, Bool.and_eq_true, decide_eq_true_eq]
    refine ⟨And.right, ?_⟩
    rintro rfl
    exact ⟨hself, rfl⟩
  rw [isIndicator, Bool.or_eq_true, hone, ← or_assoc]
  exact or_congr_left isZero_iff

/-! ## Sums with a zero -/

theorem units_eq_zero_iff {r : ℕ} : units r = 0 ↔ r = 0 := by
  constructor
  · intro h
    by_contra hr
    have hlt : units 0 < units r := units_strictMono (Nat.pos_of_ne_zero hr)
    omega
  · rintro rfl
    exact units_of_lt fractionSteps_pos

theorem signedUnits_eq_zero_iff {x : Binary64} : x.signedUnits = 0 ↔ x.rank = 0 := by
  rw [signedUnits]
  cases x.isNegative <;> simp [units_eq_zero_iff]

/-- A finite number other than zero is the nearest to its units. -/
theorem ofSignedUnits_signedUnits {x : Binary64} (hfinite : x.rank < infinityRank)
    (hx : x.rank ≠ 0) (zeroNegative : Bool) : ofSignedUnits zeroNegative x.signedUnits = x := by
  have hunits : units x.rank ≠ 0 := mt units_eq_zero_iff.1 hx
  have hsign : decide (x.signedUnits < 0) = x.isNegative := by
    rw [signedUnits]
    cases x.isNegative
    · simp
    · simp
      omega
  have habs : x.signedUnits.natAbs = units x.rank := by
    rw [signedUnits]
    cases x.isNegative <;> simp
  rw [ofSignedUnits, if_neg (mt signedUnits_eq_zero_iff.1 hx), hsign, habs,
    nearestRank_units (Nat.le_of_lt hfinite), ofRank_rank]

section Sum

variable {x z : Binary64} (hx : x.isUndefined = false) (hz : z.rank = 0)

include hz

theorem sum_comm_of_rank_eq_zero : sum z x = sum x z := by
  have hfinite : z.isInfinite = false := by rw [isInfinite, hz]; decide
  rw [sum, sum, hfinite, Int.add_comm, Bool.and_comm]
  cases x.isInfinite <;> simp

include hx

/-- A zero is added without effect, unless it is added to a zero. -/
theorem sum_of_rank_eq_zero :
    sum x z = if x.rank = 0 then ofRank (x.isNegative && z.isNegative) 0 else x := by
  have hfinite : z.isInfinite = false := by rw [isInfinite, hz]; decide
  have hzero : z.signedUnits = 0 := signedUnits_eq_zero_iff.2 hz
  rw [isUndefined, decide_eq_false_iff_not] at hx
  rw [sum, hfinite, hzero, Int.add_zero]
  by_cases hinfinite : x.rank = infinityRank
  · have hrank : x.rank ≠ 0 := by rw [hinfinite]; decide
    rw [isInfinite, if_pos (decide_eq_true hinfinite),
      if_neg fun h => Bool.false_ne_true h.1, if_neg hrank]
  · rw [isInfinite, if_neg (by simpa using hinfinite), if_neg Bool.false_ne_true]
    by_cases hrank : x.rank = 0
    · rw [signedUnits_eq_zero_iff.2 hrank, if_pos hrank]
      rfl
    · rw [if_neg hrank, ofSignedUnits_signedUnits (by omega) hrank]

end Sum

/-! ## Plain values -/

/-- Not minus zero, and quiet if undefined. -/
structure IsPlain (x : Binary64) : Prop where
  ne : x ≠ -0
  quiet_eq : x.isUndefined = true → x.quiet = x

theorem isPlain_of_rank {x : Binary64} (hpos : x.rank ≠ 0) (hle : x.rank ≤ infinityRank) :
    IsPlain x where
  ne := by
    rintro rfl
    exact hpos (by decide +kernel)
  quiet_eq h := by
    rw [isUndefined, decide_eq_true_eq] at h
    omega

theorem isPlain_quiet {x : Binary64} (hx : x.isUndefined = true) : IsPlain x.quiet := by
  have hhalf : quietRank + fractionSteps / 2 = signBit.toNat := by decide
  have hquiet : quietRank = infinityRank + fractionSteps / 2 := rfl
  have hrank : quietRank ≤ x.quiet.rank := by
    rw [isUndefined, decide_eq_true_eq] at hx
    rw [quiet]
    split_ifs with hlow
    · rw [rank_ofRank _ (by omega)]
      omega
    · exact Nat.le_of_not_lt hlow
  refine ⟨?_, fun _ => by rw [quiet, if_neg (Nat.not_lt.2 hrank)]⟩
  intro h
  rw [h] at hrank
  exact absurd hrank (by decide +kernel)

theorem nearestRank_pos {n : ℕ} (hn : 0 < n) : nearestRank n 1 ≠ 0 := by
  have hone : units 1 = 1 := units_of_lt (by decide)
  have hspec := (rankOfUnits_spec n).2
  have hrank : rankOfUnits n ≠ 0 := by
    intro h
    rw [h, hone] at hspec
    omega
  have hinfinity : infinityRank ≠ 0 := by decide
  rw [nearestRank, Nat.div_one]
  split_ifs <;> omega

theorem nearestRank_le (num den : ℕ) : nearestRank num den ≤ infinityRank := Nat.min_le_left _ _

/-- Rounding makes a zero of no other number. -/
theorem isPlain_ofSignedUnits {zeroNegative : Bool} {v : ℤ} (h : v = 0 → zeroNegative = false) :
    IsPlain (ofSignedUnits zeroNegative v) := by
  by_cases hv : v = 0
  · have hzero : ofSignedUnits false 0 = 0 := by decide +kernel
    rw [hv, h hv, hzero]
    exact ⟨by decide +kernel, fun h => absurd h (by decide +kernel)⟩
  · have hle := nearestRank_le v.natAbs 1
    have hrank : (ofSignedUnits zeroNegative v).rank = nearestRank v.natAbs 1 :=
      rank_ofRank _ (Nat.lt_of_le_of_lt hle infinityRank_lt)
    refine isPlain_of_rank ?_ (hrank ▸ hle)
    rw [hrank]
    exact nearestRank_pos (Int.natAbs_pos.2 hv)

/-- A sum that starts with a plain value is plain. -/
theorem isPlain_add {s : Binary64} (hs : IsPlain s) (x : Binary64) : IsPlain (s + x) := by
  change IsPlain (onNumbers sum s x)
  rw [onNumbers]
  by_cases hsdef : s.isUndefined = true
  · rw [if_pos hsdef]
    exact isPlain_quiet hsdef
  rw [if_neg hsdef]
  by_cases hxdef : x.isUndefined = true
  · rw [if_pos hxdef]
    exact isPlain_quiet hxdef
  rw [if_neg hxdef, sum]
  split_ifs with hinfinite hopposite hinfinite'
  · exact ⟨by decide +kernel, fun _ => by decide +kernel⟩
  · exact hs
  · have hrank : x.rank = infinityRank := of_decide_eq_true hinfinite'
    exact isPlain_of_rank (by rw [hrank]; decide) hrank.le
  · refine isPlain_ofSignedUnits fun hv => ?_
    by_contra hneg
    rw [Bool.not_eq_false, Bool.and_eq_true] at hneg
    rw [signedUnits, signedUnits, if_pos hneg.1, if_pos hneg.2] at hv
    have hrank : s.rank = 0 := units_eq_zero_iff.1 (by omega)
    refine hs.ne ?_
    rw [neg_zero_eq, ← ofRank_rank s, hneg.1, hrank]

theorem rank_eq_zero {z : Binary64} (hz : IsZero z) : z.rank = 0 := isZero_iff_rank.1 hz

theorem isUndefined_of_isZero {z : Binary64} (hz : IsZero z) : z.isUndefined = false := by
  rw [isUndefined, rank_eq_zero hz]
  decide

/-- Plain values are the settled ones. -/
theorem settled_iff {x : Binary64} : Settled x ↔ IsPlain x := by
  constructor
  · intro h
    refine ⟨?_, fun hx => ?_⟩
    · rintro rfl
      exact absurd (h 0 (isZero_iff.2 (.inl rfl))) (by decide +kernel)
    · have hsum : onNumbers sum x 0 = x := h 0 (isZero_iff.2 (.inl rfl))
      rwa [onNumbers, if_pos hx] at hsum
  · intro hx z hz
    change onNumbers sum x z = x
    cases hdef : x.isUndefined with
    | true => rw [onNumbers, if_pos hdef, hx.quiet_eq hdef]
    | false =>
      rw [onNumbers, hdef, isUndefined_of_isZero hz, if_neg Bool.false_ne_true,
        if_neg Bool.false_ne_true, sum_of_rank_eq_zero hdef (rank_eq_zero hz)]
      split_ifs with hrank
      · cases hneg : x.isNegative with
        | true => exact absurd (by rw [neg_zero_eq, ← ofRank_rank x, hneg, hrank]) hx.ne
        | false => rw [Bool.false_and, ← hneg, ← hrank, ofRank_rank]
      · rfl

/-! ## Operations on a zero -/

theorem isZero_ofRank_zero (negative : Bool) : IsZero (ofRank negative 0) :=
  isZero_iff_rank.2 (rank_ofRank negative (by decide))

theorem rank_neg (x : Binary64) : x.neg.rank = x.rank := rank_ofRank _ x.rank_lt

section Operations

variable {z : Binary64} (hz : IsZero z) (x : Binary64)

include hz

theorem sub_isZero : x - z =
    if x.isUndefined then x.quiet
    else if x.rank = 0 then ofRank (x.isNegative && z.neg.isNegative) 0 else x := by
  have hneg : z.neg.rank = 0 := (rank_neg z).trans (rank_eq_zero hz)
  change onNumbers (fun x y => sum x y.neg) x z = _
  rw [onNumbers, isUndefined_of_isZero hz, if_neg Bool.false_ne_true]
  cases hx : x.isUndefined with
  | true => rfl
  | false =>
    rw [if_neg Bool.false_ne_true, if_neg Bool.false_ne_true]
    exact sum_of_rank_eq_zero hx hneg

theorem isZero_sub : z - x =
    if x.isUndefined then x.quiet
    else if x.rank = 0 then ofRank (x.neg.isNegative && z.isNegative) 0 else x.neg := by
  change onNumbers (fun x y => sum x y.neg) z x = _
  rw [onNumbers, isUndefined_of_isZero hz, if_neg Bool.false_ne_true]
  cases hx : x.isUndefined with
  | true => rfl
  | false =>
    have hneg : x.neg.isUndefined = false := by
      rw [isUndefined, rank_neg]
      exact hx
    rw [if_neg Bool.false_ne_true, if_neg Bool.false_ne_true,
      sum_comm_of_rank_eq_zero (rank_eq_zero hz), sum_of_rank_eq_zero hneg (rank_eq_zero hz),
      rank_neg]

theorem mul_isZero : x * z =
    if x.isUndefined then x.quiet
    else if x.isInfinite then invalid else ofRank (jointSign x z) 0 := by
  have hrank : z.isZero = true := decide_eq_true (rank_eq_zero hz)
  have hfinite : z.isInfinite = false := by
    rw [isInfinite, rank_eq_zero hz]
    decide
  have hunits : nearestRank (units x.rank * units z.rank) unitsPerOne = 0 := by
    rw [units_eq_zero_iff.2 (rank_eq_zero hz), Nat.mul_zero]
    exact nearestRank_eq_zero unitsPerOne_pos
  change onNumbers product x z = _
  rw [onNumbers, isUndefined_of_isZero hz, product, hunits, hrank, hfinite]
  simp

end Operations

theorem add_infinite_of_lt {x : Binary64} (hx : x.rank < infinityRank) (negative : Bool) :
    x + infinite negative = infinite negative := by
  have hundefined : x.isUndefined = false := decide_eq_false (by omega)
  have hfinite : x.isInfinite = false := decide_eq_false (by omega)
  have hinfinite : (infinite negative).isInfinite = true ∧
      (infinite negative).isUndefined = false := by
    cases negative <;> decide +kernel
  change onNumbers sum x (infinite negative) = _
  rw [onNumbers, hundefined, hinfinite.2, sum, hfinite, hinfinite.1]
  rfl

instance : SignedZeros Binary64 where
  isZero_zero := isZero_iff.2 (.inl rfl)
  settled_zero := settled_iff.2 ⟨by decide +kernel, fun h => absurd h (by decide +kernel)⟩
  settled_add x hs := settled_iff.2 (isPlain_add (settled_iff.1 hs) x)
  sub_left := by
    intro z z' x hz hz'
    rw [isZero_sub hz, isZero_sub hz']
    split_ifs
    · exact .refl _
    · exact .inr ⟨isZero_ofRank_zero _, isZero_ofRank_zero _⟩
    · exact .refl _
  sub_right := by
    intro z z' x hz hz'
    rw [sub_isZero hz, sub_isZero hz']
    split_ifs
    · exact .refl _
    · exact .inr ⟨isZero_ofRank_zero _, isZero_ofRank_zero _⟩
    · exact .refl _
  mul_right := by
    intro z z' x hz hz'
    rw [mul_isZero hz, mul_isZero hz']
    split_ifs
    · exact .refl _
    · exact .refl _
    · exact .inr ⟨isZero_ofRank_zero _, isZero_ofRank_zero _⟩
  square_eq := by
    intro z z' hz hz'
    rcases isZero_iff.1 hz with rfl | rfl <;> rcases isZero_iff.1 hz' with rfl | rfl <;>
      decide +kernel
  half_add := by
    intro z z' hz hz'
    rcases isZero_iff.1 hz with rfl | rfl <;> rcases isZero_iff.1 hz' with rfl | rfl <;>
      exact isZero_iff_rank.2 (by decide +kernel)
  odds := by
    intro z hz
    rcases isZero_iff.1 hz with rfl | rfl <;> exact isZero_iff_rank.2 (by decide +kernel)
  variance := by
    intro z hz
    rcases isZero_iff.1 hz with rfl | rfl <;> exact isZero_iff_rank.2 (by decide +kernel)
  lt_epsilon := by
    intro z hz
    rcases isZero_iff.1 hz with rfl | rfl <;> decide +kernel
  not_isOne := by
    intro z hz
    rcases isZero_iff.1 hz with rfl | rfl <;> decide +kernel
  isNaN_indicator := by
    intro x hx
    rcases isIndicator_iff.1 hx with rfl | rfl | rfl <;> decide +kernel
  lt_indicator := by
    intro x y hx hy
    rw [isZero_iff_rank, isZero_iff_rank]
    rcases isIndicator_iff.1 hx with rfl | rfl | rfl <;>
      rcases isIndicator_iff.1 hy with rfl | rfl | rfl <;> decide +kernel
  add_neg_infinity := by
    intro x hx
    rw [scalar_isFinite, isFinite, decide_eq_true_eq] at hx
    exact add_infinite_of_lt hx true
  neg_neg_infinity := by decide +kernel

end GradientForest.Binary64
