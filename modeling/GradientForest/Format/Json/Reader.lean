import GradientForest.Decimal.Literal
import GradientForest.Format.Json.Value
import GradientForest.Text.Utf8

/-!
# Reading JSON

A reader of the JSON grammar over symbols.  Blanks are space, tab, line feed
and carriage return.  A number has no leading zeros, and at least one digit on
both sides of its point and in its exponent.  Of a whole part with more digits
than decide a rounding, the rest counts as nonzero.  A text holds no control
characters, and its escapes are those of the grammar.

The readers of values, items and fields call each other with a budget that the
number of symbols bounds.
-/

namespace GradientForest.Json

open Text (Symbol)

namespace Reader

/-- Drops blanks. -/
def skipBlanks : List Symbol → List Symbol :=
  List.dropWhile fun c => c = some ' ' ∨ c = some '\n' ∨ c = some '\t' ∨ c = some '\x0d'

/-! ## Texts -/

/-- A piece of a text between its quotes. -/
inductive Piece where
  /-- A character. -/
  | char (c : Char)
  /-- Half of a surrogate pair, by its code. -/
  | half (code : Nat)
  /-- A stray byte. -/
  | stray
deriving DecidableEq, Repr

/-- The value of a hexadecimal digit. -/
def hexDigit? (c : Char) : Option Nat :=
  if c.isDigit then some (c.toNat - '0'.toNat)
  else if 'a' ≤ c ∧ c ≤ 'f' then some (c.toNat - 'a'.toNat + 10)
  else if 'A' ≤ c ∧ c ≤ 'F' then some (c.toNat - 'A'.toNat + 10)
  else none

/-- The value of hexadecimal digits. -/
def hexValue? (cs : List Char) : Option Nat :=
  cs.foldl (fun acc c => do
    let a ← acc
    let d ← hexDigit? c
    return 16 * a + d) (some 0)

/-- The piece with a code below `2 ^ 16`. -/
def Piece.ofCode (code : Nat) : Piece :=
  if 0xD800 ≤ code ∧ code < 0xE000 then .half code else .char (Char.ofNat code)

/-- The character of an escape of one letter. -/
def simpleEscape? : Char → Option Char
  | '"' => some '"'
  | '\\' => some '\\'
  | '/' => some '/'
  | 'b' => some '\x08'
  | 'f' => some '\x0c'
  | 'n' => some '\n'
  | 'r' => some '\x0d'
  | 't' => some '\t'
  | _ => none

/-- The pieces up to the closing quote, and what follows it. -/
def pieces? : List Symbol → Option (List Piece × List Symbol)
  | [] => none
  | some '"' :: rest => some ([], rest)
  | some '\\' :: some 'u' :: some a :: some b :: some c :: some d :: rest => do
    let code ← hexValue? [a, b, c, d]
    let (ps, rest) ← pieces? rest
    return (.ofCode code :: ps, rest)
  | some '\\' :: some e :: rest => do
    let c ← simpleEscape? e
    let (ps, rest) ← pieces? rest
    return (.char c :: ps, rest)
  | some '\\' :: _ => none
  | some c :: rest =>
    if c.toNat < 0x20 then none
    else do
      let (ps, rest) ← pieces? rest
      return (.char c :: ps, rest)
  | none :: rest => do
    let (ps, rest) ← pieces? rest
    return (.stray :: ps, rest)

/-- The characters of pieces.  A leading half joins the trailing half behind
it; halves alone and stray bytes have no characters. -/
def joinPieces? : List Piece → Option (List Char)
  | [] => some []
  | .char c :: rest => (joinPieces? rest).map (c :: ·)
  | .half high :: .half low :: rest =>
    if high < 0xDC00 ∧ 0xDC00 ≤ low then
      let code := 0x10000 + (high - 0xD800) * 0x400 + (low - 0xDC00)
      (joinPieces? rest).map (Char.ofNat code :: ·)
    else none
  | .half _ :: _ => none
  | .stray :: _ => none

/-- The text behind an opening quote, and what follows its closing quote. -/
def textBody? (cs : List Symbol) : Option (Option String × List Symbol) :=
  (pieces? cs).map fun (ps, rest) => ((joinPieces? ps).map String.ofList, rest)

/-! ## Numbers -/

/-- The leading digits, and what follows them. -/
def spanDigits : List Symbol → List Char × List Symbol
  | some c :: rest =>
    if c.isDigit then
      let (ds, rest) := spanDigits rest
      (c :: ds, rest)
    else ([], some c :: rest)
  | cs => ([], cs)

/-- One digit, or several that do not start with zero. -/
def wholePart? (cs : List Symbol) : Option (List Char × List Symbol) :=
  match spanDigits cs with
  | ([], _) => none
  | (d :: ds, rest) =>
    if d = '0' then some (['0'], ds.map some ++ rest) else some (d :: ds, rest)

/-- The digits behind a point, if there is a point. -/
def fraction? : List Symbol → Option (List Char × List Symbol)
  | some '.' :: rest =>
    match spanDigits rest with
    | ([], _) => none
    | (ds, rest) => some (ds, rest)
  | cs => some ([], cs)

/-- A sign in front of an exponent.  True means minus. -/
def exponentSign : List Symbol → Bool × List Symbol
  | some '-' :: rest => (true, rest)
  | some '+' :: rest => (false, rest)
  | cs => (false, cs)

/-- The exponent, if there is one, and whether there is one. -/
def exponent? : List Symbol → Option (Option Int × List Symbol)
  | some c :: rest =>
    if c = 'e' ∨ c = 'E' then
      let (negative, body) := exponentSign rest
      match spanDigits body with
      | ([], _) => none
      | (ds, rest) =>
        let e : Int := Literal.digitsValue 0 ds
        some (some (if negative then -e else e), rest)
    else some (none, some c :: rest)
  | cs => some (none, cs)

/-- The digits that decide how a number is rounded.  No number half way between
two neighbours in binary64 has more of them. -/
def decisiveDigits : Nat := 768

/-- The digits before and behind a point, as a natural number and the power of ten
that it counts.  When the decisive digits all stand before the point, what
follows them counts as a small excess, even if it is zero. -/
def significand (whole places : List Char) : Nat × Int :=
  if whole.length ≤ decisiveDigits then
    (Literal.digitsValue (Literal.digitsValue 0 whole) places, -places.length)
  else
    (10 * Literal.digitsValue 0 (whole.take decisiveDigits) + 1,
      (whole.length : Int) - decisiveDigits - 1)

/-- With no more digits than the decisive ones before the point, the digits count
for what they are. -/
theorem significand_of_length_le {whole : List Char} (h : whole.length ≤ decisiveDigits)
    (places : List Char) :
    significand whole places =
      (Literal.digitsValue (Literal.digitsValue 0 whole) places, -(places.length : Int)) := by
  simp [significand, h]

/-- A number without its sign. -/
def unsigned? (negative : Bool) (cs : List Symbol) : Option (JsonNumber × List Symbol) := do
  let (whole, rest) ← wholePart? cs
  let (places, rest) ← fraction? rest
  let (e, rest) ← exponent? rest
  let (coefficient, shift) := significand whole places
  return (
    { negative
      integral := places.isEmpty && e.isNone
      coefficient
      exponent := e.getD 0 + shift }, rest)

/-- A number. -/
def number? : List Symbol → Option (JsonNumber × List Symbol)
  | some '-' :: rest => unsigned? true rest
  | cs => unsigned? false cs

/-! ## Values -/

mutual

/-- A value, and what follows it. -/
def value? : Nat → List Symbol → Option (Json × List Symbol)
  | 0, _ => none
  | n + 1, cs =>
    match skipBlanks cs with
    | some 'n' :: some 'u' :: some 'l' :: some 'l' :: rest => some (.null, rest)
    | some 't' :: some 'r' :: some 'u' :: some 'e' :: rest => some (.bool true, rest)
    | some 'f' :: some 'a' :: some 'l' :: some 's' :: some 'e' :: rest =>
      some (.bool false, rest)
    | some '"' :: rest => (textBody? rest).map fun (s, rest) => (.text s, rest)
    | some '[' :: rest =>
      match skipBlanks rest with
      | some ']' :: rest => some (.list [], rest)
      | rest => (items? n rest).map fun (items, rest) => (.list items, rest)
    | some '\x7b' :: rest =>
      match skipBlanks rest with
      | some '\x7d' :: rest => some (.object [], rest)
      | rest => (fields? n rest).map fun (fields, rest) => (.object fields, rest)
    | cs => (number? cs).map fun (x, rest) => (.number x, rest)

/-- The items of a list, from the first one to the closing bracket. -/
def items? : Nat → List Symbol → Option (List Json × List Symbol)
  | 0, _ => none
  | n + 1, cs =>
    match value? n cs with
    | none => none
    | some (v, rest) =>
      match skipBlanks rest with
      | some ',' :: rest => (items? n rest).map fun (vs, rest) => (v :: vs, rest)
      | some ']' :: rest => some ([v], rest)
      | _ => none

/-- The fields of an object, from the first one to the closing brace. -/
def fields? : Nat → List Symbol → Option (List (Option String × Json) × List Symbol)
  | 0, _ => none
  | n + 1, cs =>
    match skipBlanks cs with
    | some '"' :: rest =>
      match textBody? rest with
      | none => none
      | some (key, rest) =>
        match skipBlanks rest with
        | some ':' :: rest =>
          match value? n rest with
          | none => none
          | some (v, rest) =>
            match skipBlanks rest with
            | some ',' :: rest => (fields? n rest).map fun (fs, rest) => ((key, v) :: fs, rest)
            | some '\x7d' :: rest => some ([(key, v)], rest)
            | _ => none
        | _ => none
    | _ => none

end

end Reader

/-- Reads a document: one value with blanks around it. -/
def ofSymbols? (cs : List Symbol) : Option Json :=
  match Reader.value? (2 * cs.length + 1) cs with
  | some (v, rest) => if Reader.skipBlanks rest = [] then some v else none
  | none => none

/-- Reads a document from text. -/
def ofString? (s : String) : Option Json := ofSymbols? (s.toList.map some)

/-- Reads a document from bytes. -/
def ofBytes? (bytes : List UInt8) : Option Json := ofSymbols? (Text.symbols bytes)

end GradientForest.Json
