import GradientForest.Binary64.Rounding

/-!
# The shortest decimal of a binary64 number

A decimal is a natural number times a power of ten.  The numbers that read
back as the positive number of rank `r` form an interval around it, from half
way to the number below to half way to the number above, ends included when
`r` is even.  `shortest` takes the coarsest decimal grid with a point in this
interval, and the nearest of its points there.  It is enough to try, on each
grid, the two neighbours of the number itself: when a point of the grid lies in
the interval, so does one of those.

All comparisons are between natural numbers, in half units of `2 ^ -1075`.
-/

namespace GradientForest

/-- A natural number times a power of ten. -/
structure Decimal where
  /-- The digits, as a natural number. -/
  coefficient : Nat
  /-- The power of ten. -/
  exponent : Int
deriving DecidableEq, Repr

/-- Where a decimal that is exactly half way between two neighbours goes. -/
inductive Tie where
  /-- To the larger neighbour. -/
  | up
  /-- To the neighbour with an even last digit. -/
  | even
deriving DecidableEq, Repr

namespace Decimal

/-- The digits of the coefficient. -/
def digits (d : Decimal) : List Char := Nat.toDigits 10 d.coefficient

/-- The exponent of the first power of ten above the decimal, so that
`10 ^ (magnitude - 1)` is at most the decimal. -/
def magnitude (d : Decimal) : Int := d.digits.length + d.exponent

/-- Drops up to `n` zeros at the end of the coefficient. -/
def dropZeros : Nat → Decimal → Decimal
  | 0, d => d
  | n + 1, d =>
    if d.coefficient ≠ 0 ∧ d.coefficient % 10 = 0 then
      dropZeros n ⟨d.coefficient / 10, d.exponent + 1⟩
    else d

/-- The number nearest to a decimal, with the given sign. -/
def toBinary64 (negative : Bool) (d : Decimal) : Binary64 :=
  Binary64.ofDecimal negative d.coefficient d.exponent

end Decimal

namespace Shortest

/-- The numbers that read back as one positive number, in half units. -/
structure Interval where
  /-- The lower end. -/
  low : Nat
  /-- Twice the number itself in units. -/
  value : Nat
  /-- The upper end. -/
  high : Nat
  /-- Whether the ends belong to the interval. -/
  closed : Bool

/-- The interval around the number of rank `r`. -/
def Interval.ofRank (r : Nat) : Interval where
  low := Binary64.units (r - 1) + Binary64.units r
  value := 2 * Binary64.units r
  high := Binary64.units r + Binary64.units (r + 1)
  closed := r % 2 = 0

/-- A point `c * up / down` of a grid lies in the interval. -/
def Interval.contains (i : Interval) (up down c : Nat) : Bool :=
  if i.closed then i.low * down ≤ c * up && c * up ≤ i.high * down
  else i.low * down < c * up && c * up < i.high * down

/-- The numerator of one step of the grid `10 ^ p` in half units. -/
def stepUp (p : Int) : Nat := Nat.pow 10 p.toNat * (2 * Binary64.unitsPerOne)

/-- The denominator of one step of the grid `10 ^ p` in half units. -/
def stepDown (p : Int) : Nat := Nat.pow 10 (-p).toNat

/-- The point of the grid `10 ^ p` nearest to the number, when one of the
number's two neighbours on the grid lies in the interval. -/
def onGrid (tie : Tie) (i : Interval) (p : Int) : Option Decimal :=
  let up := stepUp p
  let down := stepDown p
  let below := i.value * down / up
  let rest := i.value * down % up
  let above := below + 1
  let preferred :=
    if 2 * rest < up then below
    else if up < 2 * rest then above
    else match tie with
      | .up => above
      | .even => if below % 2 = 0 then below else above
  let other := if preferred = below then above else below
  if i.contains up down preferred then some ⟨preferred, p⟩
  else if i.contains up down other then some ⟨other, p⟩
  else none

/-- The exponent of the first power of ten above the number: an estimate from
the length in bits, moved by one where the estimate is off. -/
def magnitudeOf (i : Interval) : Int :=
  let guess : Int := ((i.value.log2 : Int) - 1075) * 30103 / 100000 + 1
  if i.value * stepDown guess < stepUp guess then
    if i.value * stepDown (guess - 1) < stepUp (guess - 1) then guess - 1 else guess
  else guess + 1

/-- The first grid with a hit, from `10 ^ p` down, over `n` grids. -/
def search (tie : Tie) (i : Interval) : Nat → Int → Option Decimal
  | 0, _ => none
  | n + 1, p =>
    match onGrid tie i p with
    | some d => some d
    | none => search tie i n (p - 1)

/-- The number of digits that always suffice. -/
def maxDigits : Nat := 17

/-- The number of rank `r` written exactly. -/
def exact (r : Nat) : Decimal := ⟨Binary64.units r * Nat.pow 5 1074, -1074⟩

/-- The shortest decimal that reads back as the positive finite number of rank
`r`, and the nearest to it of that length. -/
def ofRank (tie : Tie) (r : Nat) : Decimal :=
  let i := Interval.ofRank r
  match search tie i maxDigits (magnitudeOf i - 1) with
  | some d => d.dropZeros maxDigits
  | none => exact r

end Shortest

end GradientForest
