/-!
# UTF-8 with stray bytes

A byte sequence is read as a list of symbols.  A symbol is a character or, for
a byte that starts no valid encoding, nothing.  So a reader can skip over text
that it does not need to understand, and still find the quotes around it.
-/

namespace GradientForest.Text

/-- A character, or nothing for a stray byte. -/
abbrev Symbol := Option Char

/-- The six payload bits of a continuation byte. -/
def continuation? (b : UInt8) : Option Nat :=
  if 0x80 ≤ b ∧ b < 0xC0 then some (b.toNat - 0x80) else none

/-- A code point encoded in no fewer bytes than it needs, as a character. -/
def charFrom? (least code : Nat) : Option Char :=
  if h : least ≤ code ∧ code.isValidChar then some (Char.ofNatAux code h.2) else none

/-- The character at the head of a byte sequence, with the bytes behind its
encoding. -/
def decodeHead? : List UInt8 → Option (Char × List UInt8)
  | [] => none
  | b :: bs =>
    if b < 0x80 then (charFrom? 0 b.toNat).map (·, bs)
    else if 0xC0 ≤ b ∧ b < 0xE0 then
      match bs with
      | b₁ :: rest => do
        let x ← continuation? b₁
        let c ← charFrom? 0x80 ((b.toNat - 0xC0) * 64 + x)
        return (c, rest)
      | _ => none
    else if 0xE0 ≤ b ∧ b < 0xF0 then
      match bs with
      | b₁ :: b₂ :: rest => do
        let x ← continuation? b₁
        let y ← continuation? b₂
        let c ← charFrom? 0x800 (((b.toNat - 0xE0) * 64 + x) * 64 + y)
        return (c, rest)
      | _ => none
    else if 0xF0 ≤ b ∧ b < 0xF8 then
      match bs with
      | b₁ :: b₂ :: b₃ :: rest => do
        let x ← continuation? b₁
        let y ← continuation? b₂
        let z ← continuation? b₃
        let c ← charFrom? 0x10000 ((((b.toNat - 0xF0) * 64 + x) * 64 + y) * 64 + z)
        return (c, rest)
      | _ => none
    else none

/-- The symbols of a byte sequence, for at most `n` symbols. -/
def symbolsFrom : Nat → List UInt8 → List Symbol
  | 0, _ => []
  | _, [] => []
  | n + 1, b :: bs =>
    match decodeHead? (b :: bs) with
    | some (c, rest) => some c :: symbolsFrom n rest
    | none => none :: symbolsFrom n bs

/-- The symbols of a byte sequence. -/
def symbols (bytes : List UInt8) : List Symbol := symbolsFrom bytes.length bytes

/-- The text of a byte sequence without stray bytes. -/
def ofUtf8? (bytes : List UInt8) : Option String :=
  (List.mapM id (symbols bytes)).map String.ofList

/-- The bytes of a text. -/
def toUtf8 (s : String) : List UInt8 := s.toByteArray.data.toList

end GradientForest.Text
