import GradientForest.Binary64.Rounding

/-!
# Arithmetic on binary64 numbers

Sums, products and quotients of numbers are the exact results, in units,
rounded once.  What the exact result leaves open is decided by sign and
infinity: the sum of opposite numbers is zero without a sign, an infinite
operand makes the result infinite or zero, and where neither makes sense the
result is `invalid`.

An undefined operand is the result of every operation, made quiet.  Of two
undefined operands it is the first.
-/

namespace GradientForest.Binary64

/-- The result of an operation on numbers that has no result.  It is undefined
and has a sign. -/
def invalid : Binary64 := undefined true

/-- An operation on two numbers, for all values. -/
def onNumbers (f : Binary64 → Binary64 → Binary64) (x y : Binary64) : Binary64 :=
  if x.isUndefined then x.quiet
  else if y.isUndefined then y.quiet
  else f x y

/-! ## Sums -/

/-- A finite number in units, with its sign. -/
def signedUnits (x : Binary64) : Int := if x.isNegative then -units x.rank else units x.rank

/-- The number nearest to a signed number of units.  Zero gets the given
sign. -/
def ofSignedUnits (zeroNegative : Bool) (v : Int) : Binary64 :=
  ofRank (if v = 0 then zeroNegative else v < 0) (nearestRank v.natAbs 1)

/-- The sum of two numbers. -/
def sum (x y : Binary64) : Binary64 :=
  if x.isInfinite then
    if y.isInfinite ∧ x.isNegative ≠ y.isNegative then invalid else x
  else if y.isInfinite then y
  else ofSignedUnits (x.isNegative && y.isNegative) (x.signedUnits + y.signedUnits)

/-- Addition. -/
def add : Binary64 → Binary64 → Binary64 := onNumbers sum

/-- Subtraction. -/
def sub : Binary64 → Binary64 → Binary64 := onNumbers fun x y => sum x y.neg

/-! ## Products and quotients -/

/-- The sign of a product or quotient. -/
def jointSign (x y : Binary64) : Bool := x.isNegative != y.isNegative

/-- The product of two numbers. -/
def product (x y : Binary64) : Binary64 :=
  if x.isInfinite ∨ y.isInfinite then
    if x.isZero ∨ y.isZero then invalid else infinite (jointSign x y)
  else ofRank (jointSign x y) (nearestRank (units x.rank * units y.rank) unitsPerOne)

/-- Multiplication. -/
def mul : Binary64 → Binary64 → Binary64 := onNumbers product

/-- The quotient of two numbers. -/
def quotient (x y : Binary64) : Binary64 :=
  if x.isInfinite then
    if y.isInfinite then invalid else infinite (jointSign x y)
  else if y.isInfinite then ofRank (jointSign x y) 0
  else if y.isZero then
    if x.isZero then invalid else infinite (jointSign x y)
  else ofRank (jointSign x y) (nearestRank (units x.rank * unitsPerOne) (units y.rank))

/-- Division. -/
def div : Binary64 → Binary64 → Binary64 := onNumbers quotient

/-! ## Functions of the machine -/

/-- A function that the machine computes, for all values. -/
def ofMachine (f : Float → Float) (x : Binary64) : Binary64 :=
  if x.isUndefined then x.quiet
  else
    let y := f (.ofBits x.bits)
    if y.isNaN then invalid else ⟨y.toBits⟩

/-- The square root, rounded to nearest. -/
def sqrt : Binary64 → Binary64 := ofMachine Float.sqrt

/-- The exponential. -/
def exp : Binary64 → Binary64 := ofMachine Float.exp

/-- The natural logarithm. -/
def ln : Binary64 → Binary64 := ofMachine Float.log

end GradientForest.Binary64
