import GradientForest.Scalar.Basic

/-!
# Exact numbers

The rational numbers as scalars, with the two infinities and one undefined value.
Nothing is rounded: sums, products and quotients are those of the rational numbers.
The infinities and the undefined value behave as in binary64, but there is one zero
only, without a sign.

Square roots, exponentials and logarithms are not rational, so they are given from
outside: `Exact.Functions` may be any functions.
-/

namespace GradientForest

/-- A rational number, an infinity or the undefined value. -/
inductive Exact where
  /-- A rational number. -/
  | rational (q : Rat)
  /-- An infinity with its sign. -/
  | infinite (negative : Bool)
  /-- The undefined value. -/
  | undefined
deriving DecidableEq, Repr

namespace Exact

/-- The functions that leave the rational numbers. -/
class Functions where
  /-- The square root. -/
  sqrt : Exact → Exact
  /-- The exponential. -/
  exp : Exact → Exact
  /-- The natural logarithm. -/
  ln : Exact → Exact

/-- The sum.  Opposite infinities have none. -/
def add : Exact → Exact → Exact
  | .rational a, .rational b => .rational (a + b)
  | .rational _, .infinite negative => .infinite negative
  | .infinite negative, .rational _ => .infinite negative
  | .infinite a, .infinite b => if a = b then .infinite a else .undefined
  | _, _ => .undefined

/-- The number with the other sign. -/
def neg : Exact → Exact
  | .rational a => .rational (-a)
  | .infinite negative => .infinite !negative
  | .undefined => .undefined

/-- The difference. -/
def sub (x y : Exact) : Exact := add x (neg y)

/-- An infinity times a rational number.  Zero times infinity has no value. -/
def scale (negative : Bool) (a : Rat) : Exact :=
  if a = 0 then .undefined else .infinite (negative != decide (a < 0))

/-- The product. -/
def mul : Exact → Exact → Exact
  | .rational a, .rational b => .rational (a * b)
  | .rational a, .infinite negative => scale negative a
  | .infinite negative, .rational a => scale negative a
  | .infinite a, .infinite b => .infinite (a != b)
  | _, _ => .undefined

/-- A rational number by zero: an infinity with the sign of the number. -/
def byZero (a : Rat) : Exact := if a = 0 then .undefined else .infinite (decide (a < 0))

/-- The quotient. -/
def div : Exact → Exact → Exact
  | .rational a, .rational b => if b = 0 then byZero a else .rational (a / b)
  | .rational _, .infinite _ => .rational 0
  | .infinite negative, .rational a => .infinite (negative != decide (a < 0))
  | _, _ => .undefined

/-- The value without its sign. -/
def abs : Exact → Exact
  | .rational a => .rational (if a < 0 then -a else a)
  | .infinite _ => .infinite false
  | .undefined => .undefined

/-- Whether a value is undefined. -/
def isUndefined : Exact → Bool
  | .undefined => true
  | _ => false

/-- Strictly before in the total order, which ends with the undefined value. -/
def precedes : Exact → Exact → Bool
  | .rational a, .rational b => a < b
  | .rational _, .infinite negative => !negative
  | .infinite negative, .rational _ => negative
  | .infinite a, .infinite b => a && !b
  | .undefined, _ => false
  | _, .undefined => true

/-- Strictly below. -/
def lt (x y : Exact) : Bool := !x.isUndefined && !y.isUndefined && precedes x y

/-- Below or equal. -/
def le (x y : Exact) : Bool := !x.isUndefined && !y.isUndefined && !precedes y x

/-- Equal as numbers. -/
def beq (x y : Exact) : Bool := !x.isUndefined && x = y

/-- How a number is written in messages. -/
def text : Exact → String
  | .rational a => toString a
  | .infinite negative => if negative then "-inf" else "inf"
  | .undefined => "NaN"

instance [Functions] : Scalar Exact where
  add := add
  sub := sub
  mul := mul
  div := div
  neg := neg
  ofNat n := .rational n
  nan := .undefined
  infinity := .infinite false
  lt := lt
  le := le
  beq := beq
  precedes := precedes
  abs := abs
  sqrt := Functions.sqrt
  exp := Functions.exp
  ln := Functions.ln
  text := text

end Exact

end GradientForest
