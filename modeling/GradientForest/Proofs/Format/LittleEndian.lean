import Mathlib.Algebra.Group.Nat.Defs
import Mathlib.Data.List.Basic
import GradientForest.Format.LittleEndian

/-!
# Little-endian words read back

The bytes of a number are taken as this number when there are enough of them
(`take?_bytes`).  `Takes` says this of any encoding: what is written is taken from the
front, and what follows is left.  Words, numbers and lists of what is taken are taken,
the lists as long as a word can count their items (`takes_list`).
-/

namespace GradientForest.LittleEndian

theorem length_bytes (n v : ℕ) : (bytes n v).length = n := by
  induction n generalizing v with
  | zero => rfl
  | succ n ih => rw [bytes, List.length_cons, ih]

theorem value_bytes {n v : ℕ} (hv : v < 256 ^ n) : value (bytes n v) = v := by
  induction n generalizing v with
  | zero =>
    rw [Nat.pow_zero] at hv
    rw [bytes, value]
    omega
  | succ n ih =>
    have hdiv : v / 256 < 256 ^ n := by
      rw [Nat.div_lt_iff_lt_mul (by decide), ← Nat.pow_succ]
      exact hv
    have hbyte : (UInt8.ofNat v).toNat = v % 256 := UInt8.toNat_ofNat'
    rw [bytes, value, ih hdiv, hbyte]
    omega

theorem take?_bytes {n v : ℕ} (hv : v < 256 ^ n) (rest : List UInt8) :
    take? n (bytes n v ++ rest) = some (v, rest) := by
  have hlength := length_bytes n v
  rw [take?, if_pos (by rw [List.length_append]; omega), List.take_left' hlength,
    List.drop_left' hlength, value_bytes hv]

/-- What is written for `x` is taken as `x`, whatever follows it. -/
def Takes {β : Type} (encode : β → List UInt8) (take? : List UInt8 → Option (β × List UInt8))
    (x : β) : Prop :=
  ∀ rest, take? (encode x ++ rest) = some (x, rest)

theorem takes_word (w : UInt64) : Takes word word? w := by
  intro rest
  rw [word, word?, take?_bytes w.toNat_lt, Option.map_some]
  exact congrArg (fun w => some (w, rest)) UInt64.ofNat_toNat

theorem takes_float (x : Binary64) : Takes float float? x := by
  intro rest
  rw [float, float?, takes_word x.bits rest, Option.map_some]

theorem takes_tag {n : ℕ} (hn : n < 256 ^ 4) : Takes tag tag? n := take?_bytes hn

section Lists

variable {β : Type} {encode : β → List UInt8} {item? : List UInt8 → Option (β × List UInt8)}

theorem takes_items {xs : List β} (h : ∀ x ∈ xs, Takes encode item? x) (rest : List UInt8) :
    items? item? xs.length (xs.flatMap encode ++ rest) = some (xs, rest) := by
  induction xs with
  | nil => rfl
  | cons x xs ih =>
    obtain ⟨hx, hxs⟩ := List.forall_mem_cons.1 h
    rw [List.flatMap_cons, List.append_assoc, List.length_cons, items?, hx]
    simp only [Option.bind_eq_bind, Option.bind_some, ih hxs]
    rfl

theorem takes_list {xs : List β} (h : ∀ x ∈ xs, Takes encode item? x)
    (hlength : xs.length < 2 ^ 64) : Takes (list encode) (list? item?) xs := by
  intro rest
  have hcount : (UInt64.ofNat xs.length).toNat = xs.length :=
    UInt64.toNat_ofNat_of_lt' (show xs.length < 2 ^ 64 from hlength)
  rw [list, list?, List.append_assoc, takes_word _ _]
  simp only [Option.bind_eq_bind, Option.bind_some, hcount, takes_items h]

end Lists

end GradientForest.LittleEndian
