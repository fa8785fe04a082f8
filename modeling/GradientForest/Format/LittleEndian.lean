import GradientForest.Binary64.Basic

/-!
# Little-endian words

Numbers as bytes, the lowest byte first.  A reader takes what it needs from the
front of the bytes and returns the rest, or nothing when there are too few.
-/

namespace GradientForest.LittleEndian

/-- The lowest `n` bytes of a number. -/
def bytes : Nat → Nat → List UInt8
  | 0, _ => []
  | n + 1, v => .ofNat v :: bytes n (v / 256)

/-- The number whose lowest bytes are given. -/
def value : List UInt8 → Nat
  | [] => 0
  | b :: bs => b.toNat + 256 * value bs

/-- Takes `n` bytes as a number. -/
def take? (n : Nat) (bs : List UInt8) : Option (Nat × List UInt8) :=
  if n ≤ bs.length then some (value (bs.take n), bs.drop n) else none

/-- A word of 64 bits. -/
def word (w : UInt64) : List UInt8 := bytes 8 w.toNat

/-- Takes a word of 64 bits. -/
def word? (bs : List UInt8) : Option (UInt64 × List UInt8) :=
  (take? 8 bs).map fun (v, rest) => (.ofNat v, rest)

/-- A number as its bit pattern. -/
def float (x : Binary64) : List UInt8 := word x.bits

/-- Takes a number. -/
def float? (bs : List UInt8) : Option (Binary64 × List UInt8) :=
  (word? bs).map fun (w, rest) => (⟨w⟩, rest)

/-- A tag of 32 bits. -/
def tag (n : Nat) : List UInt8 := bytes 4 n

/-- Takes a tag of 32 bits. -/
def tag? : List UInt8 → Option (Nat × List UInt8) := take? 4

/-- Items behind their number. -/
def list {β : Type} (item : β → List UInt8) (xs : List β) : List UInt8 :=
  word (.ofNat xs.length) ++ xs.flatMap item

/-- Takes `n` items. -/
def items? {β : Type} (item? : List UInt8 → Option (β × List UInt8)) :
    Nat → List UInt8 → Option (List β × List UInt8)
  | 0, bs => some ([], bs)
  | n + 1, bs => do
    let (x, rest) ← item? bs
    let (xs, rest) ← items? item? n rest
    return (x :: xs, rest)

/-- Takes items behind their number. -/
def list? {β : Type} (item? : List UInt8 → Option (β × List UInt8)) (bs : List UInt8) :
    Option (List β × List UInt8) := do
  let (n, rest) ← word? bs
  items? item? n.toNat rest

end GradientForest.LittleEndian
