import GradientForest.Binary64.Basic

/-!
# Rounding to binary64

`nearestRank` rounds an exact quotient of units to the nearest rank, a tie to
the even one.  Decimals and natural numbers become numbers by it, and `natural?`
is the way back from numbers that are whole and not below zero.
-/

namespace GradientForest.Binary64

/-- The largest rank with at most `q` units. -/
def rankOfUnits (q : Nat) : Nat :=
  let e := q.log2 - fractionBits
  e * fractionSteps + q >>> e

/-- The sum of the units of rank `r` and of the next one. -/
def twiceMidpoint (r : Nat) : Nat := (2 * significand r + 1) <<< unitExponent r

/-- The rank nearest to `num / den` units.  A tie goes to the even rank, and
everything from half a step above the largest finite number is infinite. -/
def nearestRank (num den : Nat) : Nat :=
  let r := rankOfUnits (num / den)
  let midpoint := twiceMidpoint r * den
  min infinityRank <|
    if 2 * num < midpoint then r
    else if midpoint < 2 * num then r + 1
    else r + r % 2

/-- Powers of ten beyond this one leave the range of binary64. -/
def exponentLimit : Nat := 400

/-- The rank nearest to `m * 10 ^ e`.  Exponents far outside the range are
answered without the power. -/
def rankOfDecimal (m : Nat) : Int → Nat
  | .ofNat e =>
    if m = 0 then 0
    else if exponentLimit < e then infinityRank
    else nearestRank (m * Nat.pow 10 e * unitsPerOne) 1
  | .negSucc e =>
    if m.log2 + exponentLimit < e then 0
    else nearestRank (m * unitsPerOne) (Nat.pow 10 (e + 1))

/-- The number nearest to `m * 10 ^ e` with the given sign. -/
def ofDecimal (negative : Bool) (m : Nat) (e : Int) : Binary64 :=
  ofRank negative (rankOfDecimal m e)

/-- The number nearest to a natural number. -/
def ofNat (n : Nat) : Binary64 := ofRank false (nearestRank (n * unitsPerOne) 1)

/-- The natural number that a number is.  Both zeros are 0. -/
def natural? (x : Binary64) : Option Nat :=
  if x.isFinite ∧ (x.isNegative → x.isZero) ∧ units x.rank % unitsPerOne = 0 then
    some (units x.rank / unitsPerOne)
  else none

end GradientForest.Binary64
