/-!
# Scalars

Growing a tree, walking it and measuring its predictions need numbers with
arithmetic, comparisons that an undefined value fails, and a second, total
order.  `Scalar` names exactly these operations.  Every algorithm of the
library is written for an arbitrary `Scalar`, so it runs on binary
floating-point numbers and can be reasoned about over any other numbers.

A class of operations carries no laws.  A statement about all scalars
therefore says what an algorithm does whatever its arithmetic rounds to.
-/

namespace GradientForest

/-- The operations on numbers that the algorithms use. -/
class Scalar (α : Type) extends Add α, Sub α, Mul α, Div α, Neg α where
  /-- The number nearest to a natural number. -/
  ofNat : Nat → α
  /-- An undefined value.  Such values are the ones that differ from
  themselves. -/
  nan : α
  /-- The value above every number. -/
  infinity : α
  /-- Strictly below.  False when a side is undefined. -/
  lt : α → α → Bool
  /-- Below or equal.  False when a side is undefined. -/
  le : α → α → Bool
  /-- Equal as numbers: the two zeros are equal, an undefined value is not. -/
  beq : α → α → Bool
  /-- Strictly before in the total order, where minus zero comes before zero
  and undefined values come first or last. -/
  precedes : α → α → Bool
  /-- The absolute value. -/
  abs : α → α
  /-- The square root. -/
  sqrt : α → α
  /-- The exponential. -/
  exp : α → α
  /-- The natural logarithm. -/
  ln : α → α
  /-- How a number is written in messages. -/
  text : α → String

namespace Scalar

variable {α : Type} [Scalar α]

/-- Numerals are read as the nearest scalar. -/
scoped instance (n : Nat) : OfNat α n := ⟨ofNat n⟩

/-- An undefined value is recognised by differing from itself. -/
def isNaN (x : α) : Bool := !beq x x

/-- Neither undefined nor infinite. -/
def isFinite (x : α) : Bool := lt (-infinity) x && lt x infinity

/-- The sum in list order.  It starts at minus zero, which changes nothing it
is added to, so the sum of nothing is minus zero. -/
def sum (xs : List α) : α := xs.foldl (· + ·) (-0)

/-- The sum in list order, starting at zero. -/
def sumFromZero (xs : List α) : α := xs.foldl (· + ·) 0

/-- The square. -/
def square (x : α) : α := x * x

/-- Held between two bounds.  An undefined value stays undefined. -/
def clamp (low high x : α) : α :=
  if lt x low then low else if lt high x then high else x

/-- An indicator holds exactly 0 or 1. -/
def isIndicator (x : α) : Bool := beq x 0 || beq x 1

end Scalar

end GradientForest
