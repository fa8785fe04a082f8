import GradientForest.Decimal.Shortest

/-!
# Layouts of numbers

How a binary64 number is written: which digits, where positional notation
ends, and how undefined and infinite values look.  A `NumberStyle` fixes these
choices.  The library has three: `plain` for messages and tables, `toml` and
`json` for documents.  `fixedSix` is the layout of a number with six places.
-/

namespace GradientForest

/-- The choices in writing a number with its shortest digits. -/
structure NumberStyle where
  /-- Where exact ties between shortest candidates go. -/
  tie : Tie
  /-- The magnitudes written positionally, from the first up to the second.
  Without bounds every number is. -/
  positional : Option (Int × Int)
  /-- Whether a whole number written positionally ends in `.0`. -/
  pointZero : Bool
  /-- The text of undefined values, whatever their sign. -/
  nan : String
  /-- The text of infinity. -/
  infinity : String

namespace NumberStyle

/-- Shortest digits without exponent, as in messages and tables. -/
def plain : NumberStyle := ⟨.up, none, false, "NaN", "inf"⟩

/-- Shortest digits without exponent, whole numbers with `.0`. -/
def toml : NumberStyle := ⟨.up, none, true, "nan", "inf"⟩

/-- Positional from `1e-5` up to `1e16`, otherwise with a signed exponent. -/
def json : NumberStyle := ⟨.even, some (-4, 16), true, "null", "null"⟩

end NumberStyle

namespace Layout

/-- `n` zeros. -/
def zeros (n : Nat) : List Char := List.replicate n '0'

/-- Digits and an exponent in positional notation. -/
def positional (pointZero : Bool) (digits : List Char) : Int → List Char
  | .ofNat e => digits ++ zeros e ++ if pointZero then ['.', '0'] else []
  | .negSucc e =>
    if e + 1 < digits.length then
      digits.take (digits.length - (e + 1)) ++ '.' :: digits.drop (digits.length - (e + 1))
    else '0' :: '.' :: zeros (e + 1 - digits.length) ++ digits

/-- An exponent with its sign. -/
def exponent : Int → List Char
  | .ofNat e => 'e' :: '+' :: Nat.toDigits 10 e
  | .negSucc e => 'e' :: '-' :: Nat.toDigits 10 (e + 1)

/-- Digits with one place before the point and an exponent. -/
def scientific (digits : List Char) (magnitude : Int) : List Char :=
  match digits with
  | [] => []
  | [d] => d :: exponent (magnitude - 1)
  | d :: ds => d :: '.' :: ds ++ exponent (magnitude - 1)

/-- A decimal in a style. -/
def decimal (style : NumberStyle) (d : Decimal) : List Char :=
  let ds := d.digits
  let m := d.magnitude
  match style.positional with
  | none => positional style.pointZero ds d.exponent
  | some (low, high) =>
    if low ≤ m && m ≤ high then positional style.pointZero ds d.exponent else scientific ds m

/-- The magnitude of the finite number of rank `r`. -/
def magnitude (style : NumberStyle) (r : Nat) : List Char :=
  if r = 0 then positional style.pointZero ['0'] 0
  else decimal style (Shortest.ofRank style.tie r)

end Layout

namespace NumberStyle

/-- The characters of a number in a style. -/
def chars (style : NumberStyle) (x : Binary64) : List Char :=
  if x.isUndefined then style.nan.toList
  else
    let body := if x.isInfinite then style.infinity.toList else Layout.magnitude style x.rank
    if x.isNegative then '-' :: body else body

/-- A number in a style. -/
def render (style : NumberStyle) (x : Binary64) : String := .ofList (style.chars x)

end NumberStyle

namespace Layout

/-- `num / den` rounded to a natural number, a tie to the even neighbour. -/
def roundEven (num den : Nat) : Nat :=
  let q := num / den
  let rest := num % den
  if 2 * rest < den then q
  else if den < 2 * rest then q + 1
  else q + q % 2

/-- A natural number of millionths with six places. -/
def millionths (n : Nat) : List Char :=
  let places := Nat.toDigits 10 (n % 1000000)
  Nat.toDigits 10 (n / 1000000) ++ '.' :: zeros (6 - places.length) ++ places

/-- A number rounded to six places.  The sign stays when the digits are all
zero. -/
def fixedSix (x : Binary64) : String :=
  if x.isUndefined then "NaN"
  else
    let body := if x.isInfinite then "inf".toList
      else millionths (roundEven (Binary64.units x.rank * 1000000) Binary64.unitsPerOne)
    .ofList (if x.isNegative then '-' :: body else body)

end Layout

end GradientForest
