/-!
# Binary64 numbers

A binary64 number is a word of 64 bits: a sign in front and the rank of its
magnitude behind.  Ranks number the magnitudes in increasing order: rank 0 is
zero, rank 1 the smallest positive number, and `infinityRank` infinity.  The
ranks above it are not numbers.  Such values are undefined, and they differ in
their sign and their rank.

`units r` is the number of rank `r` counted in units of `2 ^ -1074`, the
smallest positive number, so every finite number is a whole number of units.
-/

namespace GradientForest

/-- A binary64 number as its bit pattern. -/
structure Binary64 where
  /-- The sign, and behind it the rank. -/
  bits : UInt64
deriving DecidableEq, Repr

namespace Binary64

/-- The number of fraction bits. -/
def fractionBits : Nat := 52

/-- The number of ranks between one power of two and the next. -/
def fractionSteps : Nat := Nat.pow 2 fractionBits

/-- The rank of infinity. -/
def infinityRank : Nat := 2047 * fractionSteps

/-- The bit pattern of minus zero. -/
def signBit : UInt64 := 0x8000000000000000

/-- The rank of the magnitude of a number. -/
def rank (x : Binary64) : Nat := (x.bits % signBit).toNat

/-- Whether the sign bit is set. -/
def isNegative (x : Binary64) : Bool := signBit ≤ x.bits

/-- The number of a sign and a rank. -/
def ofRank (negative : Bool) (r : Nat) : Binary64 :=
  ⟨(if negative then signBit else 0) + .ofNat r⟩

/-- Whether a value is no number. -/
def isUndefined (x : Binary64) : Bool := infinityRank < x.rank

/-- Whether a number is infinite, with any sign. -/
def isInfinite (x : Binary64) : Bool := x.rank = infinityRank

/-- Neither undefined nor infinite. -/
def isFinite (x : Binary64) : Bool := x.rank < infinityRank

/-- One of the two zeros. -/
def isZero (x : Binary64) : Bool := x.rank = 0

/-- Infinity with a sign. -/
def infinite (negative : Bool) : Binary64 := ofRank negative infinityRank

/-- The least rank of a quiet undefined value, which operations pass on
unchanged. -/
def quietRank : Nat := infinityRank + fractionSteps / 2

/-- The least quiet undefined value of a sign. -/
def undefined (negative : Bool) : Binary64 := ofRank negative quietRank

/-- An undefined value as operations pass it on, with its sign and otherwise
its own rank. -/
def quiet (x : Binary64) : Binary64 :=
  if x.rank < quietRank then ofRank x.isNegative (x.rank + fractionSteps / 2) else x

/-- The number with the other sign. -/
def neg (x : Binary64) : Binary64 := ofRank (!x.isNegative) x.rank

/-- The number without its sign. -/
def abs (x : Binary64) : Binary64 := ofRank false x.rank

/-- The exponent of rank `r` in units.  The ranks below the first power of two
have exponent 0 like the ones just above. -/
def unitExponent (r : Nat) : Nat := r / fractionSteps - 1

/-- The leading bits of rank `r`, with the implied first one. -/
def significand (r : Nat) : Nat := r - unitExponent r * fractionSteps

/-- The number of rank `r` in units of `2 ^ -1074`. -/
def units (r : Nat) : Nat := significand r <<< unitExponent r

/-- The number of units in one. -/
def unitsPerOne : Nat := Nat.pow 2 1074

/-! ## Sign and rank -/

/-- The number of bit patterns without a sign. -/
theorem signBit_toNat : signBit.toNat = 0x8000000000000000 := rfl

theorem isNegative_iff (x : Binary64) : x.isNegative ↔ signBit.toNat ≤ x.bits.toNat := by
  simp [isNegative, UInt64.le_iff_toNat_le]

theorem rank_lt (x : Binary64) : x.rank < signBit.toNat := by
  rw [rank, UInt64.toNat_mod]
  exact Nat.mod_lt _ (by decide)

theorem bits_toNat_ofRank (negative : Bool) {r : Nat} (h : r < signBit.toNat) :
    (ofRank negative r).bits.toNat = (if negative then signBit.toNat else 0) + r := by
  rw [signBit_toNat] at h
  cases negative <;> simp [ofRank, UInt64.toNat_add, signBit_toNat] <;> omega

@[simp] theorem rank_ofRank (negative : Bool) {r : Nat} (h : r < signBit.toNat) :
    (ofRank negative r).rank = r := by
  rw [rank, UInt64.toNat_mod, bits_toNat_ofRank negative h]
  cases negative <;> simp [Nat.mod_eq_of_lt h]

@[simp] theorem isNegative_ofRank (negative : Bool) {r : Nat} (h : r < signBit.toNat) :
    (ofRank negative r).isNegative = negative := by
  rw [Bool.eq_iff_iff, isNegative_iff, bits_toNat_ofRank negative h]
  cases negative
  · simpa using h
  · simp

/-- A number is determined by its sign and its rank. -/
@[simp] theorem ofRank_rank (x : Binary64) : ofRank x.isNegative x.rank = x := by
  have hx := x.bits.toNat_lt
  have hbits : (ofRank x.isNegative x.rank).bits.toNat = x.bits.toNat := by
    rw [bits_toNat_ofRank _ x.rank_lt, rank, UInt64.toNat_mod]
    simp only [isNegative_iff, signBit_toNat]
    split <;> omega
  cases x
  exact congrArg Binary64.mk (UInt64.toNat_inj.1 hbits)

end Binary64

end GradientForest
