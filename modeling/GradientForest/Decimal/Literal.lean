import GradientForest.Decimal.Shortest

/-!
# Reading numbers

The literals that settings, tables and data files use for numbers.

* A number is an optional sign before `inf`, `infinity` or `nan` in any case,
  or before digits with at most one point and an optional exponent.  There is
  at least one digit before the exponent, on either side of the point.
* A count is an optional plus sign before decimal digits, below `2 ^ 64`.

No blanks and no separators are allowed inside.
-/

namespace GradientForest

/-- Why a text is not a number. -/
inductive NumberFault where
  /-- There is no text. -/
  | empty
  /-- The text does not have the form of a number. -/
  | invalid
deriving DecidableEq, Repr

namespace NumberFault

/-- The wording of a fault. -/
def message : NumberFault → String
  | .empty => "cannot parse float from empty string"
  | .invalid => "invalid float literal"

end NumberFault

namespace Literal

/-- The value of a decimal digit. -/
def digitValue (c : Char) : Nat := c.toNat - '0'.toNat

/-- The value of a run of decimal digits behind the value `acc`. -/
def digitsValue (acc : Nat) (ds : List Char) : Nat :=
  ds.foldl (fun acc d => 10 * acc + digitValue d) acc

/-- The bound that an exponent reaches before its further digits are ignored. -/
def exponentBound : Nat := 65536

/-- The value of the digits of an exponent, as far as they are read.  An exponent
that reaches the bound is far outside the range of the numbers, unless there
are tens of thousands of digits before it. -/
def exponentValue (ds : List Nat) : Nat :=
  ds.foldl (fun acc d => if acc < exponentBound then 10 * acc + d else acc) 0

/-- Splits a text behind its leading digits. -/
def spanDigits (cs : List Char) : List Char × List Char := cs.span Char.isDigit

/-- Splits off a sign.  True means minus. -/
def sign : List Char → Bool × List Char
  | '-' :: cs => (true, cs)
  | '+' :: cs => (false, cs)
  | cs => (false, cs)

/-- An exponent that fills the rest of the text, or no exponent. -/
def exponent? : List Char → Option Int
  | [] => some 0
  | c :: cs =>
    if c = 'e' ∨ c = 'E' then
      let (negative, ds) := sign cs
      if ds.isEmpty ∨ !ds.all Char.isDigit then none
      else
        let e : Int := exponentValue (ds.map digitValue)
        some (if negative then -e else e)
    else none

/-- The digits behind a point, if there is one, and what follows them. -/
def fraction : List Char → List Char × List Char
  | '.' :: cs => spanDigits cs
  | cs => ([], cs)

/-- An unsigned decimal literal. -/
def decimal? (cs : List Char) : Option Decimal :=
  let (whole, rest) := spanDigits cs
  let (places, rest) := fraction rest
  if whole.isEmpty ∧ places.isEmpty then none
  else (exponent? rest).map fun e =>
    ⟨digitsValue (digitsValue 0 whole) places, e - places.length⟩

/-- The special words, in any case. -/
def word? (negative : Bool) (cs : List Char) : Option Binary64 :=
  let w := cs.map Char.toLower
  if w = ['i', 'n', 'f'] ∨ w = ['i', 'n', 'f', 'i', 'n', 'i', 't', 'y'] then
    some (Binary64.infinite negative)
  else if w = ['n', 'a', 'n'] then some (Binary64.undefined negative)
  else none

/-- Reads a number. -/
def number (cs : List Char) : Except NumberFault Binary64 :=
  if cs.isEmpty then .error .empty
  else
    let (negative, body) := sign cs
    match word? negative body with
    | some x => .ok x
    | none =>
      match decimal? body with
      | some d => .ok (d.toBinary64 negative)
      | none => .error .invalid

/-- Reads a number from a text. -/
def number? (s : String) : Option Binary64 :=
  match number s.toList with
  | .ok x => some x
  | .error _ => none

/-- Reads a count below `2 ^ 64`. -/
def count? (s : String) : Option UInt64 :=
  let ds := match s.toList with
    | '+' :: cs => cs
    | cs => cs
  if ds.isEmpty ∨ !ds.all Char.isDigit then none
  else
    let n := digitsValue 0 ds
    if n < UInt64.size then some (.ofNat n) else none

end Literal

end GradientForest
