import Mathlib.Data.List.Basic
import GradientForest.Text.Utf8

/-!
# Text through bytes

The encoding of a character is decoded to this character, whatever follows it
(`decodeHead?_encode`).  The four lengths of encodings have first bytes in four
ranges, and the payloads of the bytes are the digits of the code point in base 64.  So
the bytes of a text are read as its characters (`symbols_toUtf8`).

A text in ASCII has one byte for each character, and the first bytes of the text are those
of its first characters (`exists_prefix_of_toUtf8`).
-/

namespace GradientForest.Text

/-! ## Bytes of an encoding -/

theorem toNat_ofNat {n : ℕ} (h : n < 256) : (UInt8.ofNat n).toNat = n :=
  UInt8.toNat_ofNat_of_lt' h

/-- A byte in a range of numbers is in the range of bytes. -/
theorem between_ofNat (low high : UInt8) {n : ℕ} (hlow : low.toNat ≤ n) (hhigh : n < high.toNat) :
    low ≤ UInt8.ofNat n ∧ UInt8.ofNat n < high := by
  rw [UInt8.le_iff_toNat_le, UInt8.lt_iff_toNat_lt,
    toNat_ofNat (Nat.lt_trans hhigh high.toNat_lt)]
  exact ⟨hlow, hhigh⟩

theorem not_lt_ofNat (high : UInt8) {n : ℕ} (h : high.toNat ≤ n) (hn : n < 256) :
    ¬ UInt8.ofNat n < high := by
  rw [UInt8.lt_iff_toNat_lt, toNat_ofNat hn]
  exact Nat.not_lt.2 h

/-- A continuation byte gives back its payload. -/
theorem continuation?_ofNat (v : ℕ) : continuation? (.ofNat (v % 64 + 0x80)) = some (v % 64) := by
  have hrange : 0x80 ≤ v % 64 + 0x80 ∧ v % 64 + 0x80 < 0xC0 := by omega
  rw [continuation?, if_pos (between_ofNat 0x80 0xC0 hrange.1 hrange.2), toNat_ofNat (by omega),
    Nat.add_sub_cancel]

theorem charFrom?_val (c : Char) (least : ℕ) {code : ℕ} (hcode : code = c.val.toNat)
    (hleast : least ≤ code) : charFrom? least code = some c := by
  subst hcode
  have hvalid : least ≤ c.val.toNat ∧ c.val.toNat.isValidChar := ⟨hleast, c.valid⟩
  rw [charFrom?, dif_pos hvalid]
  rfl

/-! ## Characters -/

/-- An encoded character is decoded. -/
theorem decodeHead?_encode (c : Char) (rest : List UInt8) :
    decodeHead? (String.utf8EncodeChar c ++ rest) = some (c, rest) := by
  have hc : c.val.toNat < 0x110000 := by
    have := c.valid
    simp only [UInt32.isValidChar, Nat.isValidChar] at this
    omega
  have hchar := charFrom?_val c
  simp only [String.utf8EncodeChar]
  generalize c.val.toNat = v at hc hchar
  split_ifs with hone htwo hthree
  · simp only [List.cons_append, List.nil_append, decodeHead?]
    rw [if_pos (between_ofNat 0 0x80 (Nat.zero_le v) (Nat.lt_succ_of_le hone)).2,
      toNat_ofNat (by omega), hchar 0 rfl (Nat.zero_le _)]
    rfl
  · have hlead : 0xC0 ≤ v / 64 % 32 + 0xC0 ∧ v / 64 % 32 + 0xC0 < 0xE0 := by omega
    simp only [List.cons_append, List.nil_append, decodeHead?]
    rw [if_neg (not_lt_ofNat 0x80 (by change 128 ≤ _; omega) (by omega)),
      if_pos (between_ofNat 0xC0 0xE0 hlead.1 hlead.2), toNat_ofNat (by omega),
      continuation?_ofNat, Nat.add_sub_cancel]
    simp [hchar 0x80 (by omega : v / 64 % 32 * 64 + v % 64 = v) (by omega)]
  · have hlead : 0xE0 ≤ v / 4096 % 16 + 0xE0 ∧ v / 4096 % 16 + 0xE0 < 0xF0 := by omega
    simp only [List.cons_append, List.nil_append, decodeHead?]
    rw [if_neg (not_lt_ofNat 0x80 (by change 128 ≤ _; omega) (by omega)),
      if_neg fun h => not_lt_ofNat 0xE0 (by change 224 ≤ _; omega) (by omega) h.2,
      if_pos (between_ofNat 0xE0 0xF0 hlead.1 hlead.2), toNat_ofNat (by omega),
      continuation?_ofNat, continuation?_ofNat, Nat.add_sub_cancel]
    simp [hchar 0x800 (by omega : (v / 4096 % 16 * 64 + v / 64 % 64) * 64 + v % 64 = v) (by omega)]
  · have hlead : 0xF0 ≤ v / 262144 % 8 + 0xF0 ∧ v / 262144 % 8 + 0xF0 < 0xF8 := by omega
    simp only [List.cons_append, List.nil_append, decodeHead?]
    rw [if_neg (not_lt_ofNat 0x80 (by change 128 ≤ _; omega) (by omega)),
      if_neg fun h => not_lt_ofNat 0xE0 (by change 224 ≤ _; omega) (by omega) h.2,
      if_neg fun h => not_lt_ofNat 0xF0 (by change 240 ≤ _; omega) (by omega) h.2,
      if_pos (between_ofNat 0xF0 0xF8 hlead.1 hlead.2), toNat_ofNat (by omega),
      continuation?_ofNat, continuation?_ofNat, continuation?_ofNat, Nat.add_sub_cancel]
    simp [hchar 0x10000 (by omega :
      ((v / 262144 % 8 * 64 + v / 4096 % 64) * 64 + v / 64 % 64) * 64 + v % 64 = v) (by omega)]

/-! ## Texts -/

theorem symbolsFrom_encode {n : ℕ} (cs : List Char)
    (hn : (cs.flatMap String.utf8EncodeChar).length ≤ n) :
    symbolsFrom n (cs.flatMap String.utf8EncodeChar) = cs.map some := by
  induction cs generalizing n with
  | nil => cases n <;> rfl
  | cons c cs ih =>
    have hdecode := decodeHead?_encode c (cs.flatMap String.utf8EncodeChar)
    rw [List.flatMap_cons, List.length_append] at hn
    rw [List.flatMap_cons, List.map_cons]
    obtain ⟨b, bs, hbs⟩ := List.exists_cons_of_ne_nil (String.utf8EncodeChar_ne_nil (c := c))
    rw [hbs] at hdecode hn ⊢
    rw [List.length_cons] at hn
    obtain ⟨m, rfl⟩ : ∃ m, n = m + 1 := ⟨n - 1, by omega⟩
    rw [List.cons_append] at hdecode ⊢
    rw [symbolsFrom, hdecode]
    exact congrArg (some c :: ·) (ih (by omega))

theorem toUtf8_eq_flatMap (s : String) : toUtf8 s = s.toList.flatMap String.utf8EncodeChar := by
  rw [toUtf8, ← String.utf8Encode_toList, List.utf8Encode, List.data_toByteArray]

/-- The bytes of a text are read as its characters. -/
theorem symbols_toUtf8 (s : String) : symbols (toUtf8 s) = s.toList.map some := by
  rw [symbols, toUtf8_eq_flatMap]
  exact symbolsFrom_encode _ (Nat.le_refl _)

theorem ofUtf8?_toUtf8 (s : String) : ofUtf8? (toUtf8 s) = some s := by
  have hmapM (cs : List Char) : List.mapM id (cs.map some) = some cs := by
    induction cs with
    | nil => rfl
    | cons c cs ih =>
      rw [List.map_cons, List.mapM_cons, ih]
      rfl
  rw [ofUtf8?, symbols_toUtf8, hmapM, Option.map_some, String.ofList_toList]

/-! ## ASCII -/

/-- The characters that take one byte. -/
def IsAscii (c : Char) : Prop := c.toNat < 0x80

instance (c : Char) : Decidable (IsAscii c) := inferInstanceAs (Decidable (c.toNat < 0x80))

/-- The byte of a character in ASCII. -/
def byte (c : Char) : UInt8 := .ofNat c.toNat

theorem toNat_byte {c : Char} (h : IsAscii c) : (byte c).toNat = c.toNat :=
  toNat_ofNat (Nat.lt_trans h (by decide))

theorem utf8EncodeChar_ascii {c : Char} (h : IsAscii c) : String.utf8EncodeChar c = [byte c] := by
  rw [String.utf8EncodeChar]
  exact if_pos (Nat.le_of_lt_succ h)

theorem toUtf8_ascii {cs : List Char} (h : ∀ c ∈ cs, IsAscii c) :
    toUtf8 (.ofList cs) = cs.map byte := by
  rw [toUtf8_eq_flatMap, String.toList_ofList, List.map_eq_flatMap]
  exact List.flatMap_congr fun c hc => utf8EncodeChar_ascii (h c hc)

/-- The first bytes of a text in ASCII are its first characters. -/
theorem exists_prefix_of_toUtf8 {cs : List Char} (h : ∀ c ∈ cs, IsAscii c) {front : List UInt8}
    (hcut : front <+: toUtf8 (.ofList cs)) :
    ∃ ds, ds <+: cs ∧ front = toUtf8 (.ofList ds) := by
  rw [toUtf8_ascii h] at hcut
  obtain ⟨ds, hds, hfront⟩ := List.prefix_map_iff.1 hcut
  exact ⟨ds, hds, hfront.trans (toUtf8_ascii fun c hc => h c (hds.mem hc)).symm⟩

end GradientForest.Text
