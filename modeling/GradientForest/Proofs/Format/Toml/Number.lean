import GradientForest.Format.Toml.Document
import GradientForest.Proofs.Binary64.Whole
import GradientForest.Proofs.Decimal.PlainNumber

/-!
# Numbers in TOML

A run of digits at the end of a line is an integer, and with a point inside it is a number.
Positional notation has such runs (`Positional`), and its decimal is the one that is read
(`number?_signed`).  The digits are not taken for a date or a time of day, since these go on
with a dash or a colon (`moment?_eq_none`).
-/

namespace GradientForest.Toml

open Lexer

/-! ## Digits -/

theorem digitBelow?_of_isDigit {c : Char} (h : c.isDigit = true) :
    digitBelow? 10 c = some (Literal.digitValue c) := by
  have hbelow : c.toNat - '0'.toNat < 10 := by
    rw [Char.isDigit, Bool.and_eq_true, decide_eq_true_eq, decide_eq_true_eq] at h
    have hnine : c.toNat ≤ 57 := UInt32.le_iff_toNat_le.1 h.2
    change c.toNat - 48 < 10
    omega
  rw [digitBelow?, hexDigit?, if_pos h, Option.filter_some, if_pos (decide_eq_true hbelow)]
  rfl

/-- What ends a run of digits: the end of the line, or a point. -/
inductive Ends : List Char → Prop where
  /-- The end of the line. -/
  | newline (rest : List Char) : Ends ('\n' :: rest)
  /-- A point. -/
  | point (rest : List Char) : Ends ('.' :: rest)

section Runs

variable {ds rest : List Char}

theorem digits?_append (hds : ∀ c ∈ ds, c.isDigit = true) (hne : ds ≠ []) (hrest : Ends rest) :
    digits? (digitBelow? 10) (ds ++ rest) = some (ds.map Literal.digitValue, rest) := by
  induction ds with
  | nil => exact absurd rfl hne
  | cons d ds ih =>
    obtain ⟨hd, hds⟩ := List.forall_mem_cons.1 hds
    rw [List.cons_append, digits?, digitBelow?_of_isDigit hd]
    cases ds with
    | nil => cases hrest <;> rfl
    | cons d' ds =>
      have hd' : d' ≠ '_' := Literal.ne_of_isDigit (hds d' List.mem_cons_self) rfl
      have htail := ih hds (List.cons_ne_nil d' ds)
      rw [List.cons_append] at htail
      simp [htail, hd']

/-- Digits that do not start with zero are read, and so is zero alone. -/
theorem whole?_append (hds : ∀ c ∈ ds, c.isDigit = true) (hne : ds ≠ [])
    (hleading : ds.head? = some '0' → ds = ['0']) (hrest : Ends rest) :
    whole? (ds ++ rest) = some (ds.map Literal.digitValue, rest) := by
  by_cases hzero : ds.head? = some '0'
  · rw [hleading hzero]
    rfl
  · have hread := digits?_append hds hne hrest
    obtain ⟨d, ds, rfl⟩ := List.exists_cons_of_ne_nil hne
    have hd : d ≠ '0' := by simpa using hzero
    rw [List.cons_append] at hread ⊢
    simp [whole?, hread, hd]

theorem radixValue_map (ds : List Char) :
    radixValue 10 (ds.map Literal.digitValue) = Literal.digitsValue 0 ds := by
  rw [radixValue, List.foldl_map]
  rfl

theorem radixValue_map_append (ds ds' : List Char) :
    radixValue 10 (ds.map Literal.digitValue ++ ds'.map Literal.digitValue) =
      Literal.digitsValue (Literal.digitsValue 0 ds) ds' := by
  rw [← List.map_append, radixValue_map, Layout.digitsValue_append]

end Runs

/-! ## Integers -/

theorem sign_of_isDigit {d : Char} (hd : d.isDigit = true) (cs : List Char) :
    sign (d :: cs) = (false, d :: cs) := by
  have hminus : d ≠ '-' := Literal.ne_of_isDigit hd rfl
  have hplus : d ≠ '+' := Literal.ne_of_isDigit hd rfl
  simp [sign, hminus, hplus]

theorem special?_of_isDigit {d : Char} (hd : d.isDigit = true) (negative : Bool)
    (cs : List Char) : special? negative (d :: cs) = none := by
  have hi : d ≠ 'i' := Literal.ne_of_isDigit hd rfl
  have hn : d ≠ 'n' := Literal.ne_of_isDigit hd rfl
  simp [special?, hi, hn]

/-- The digits of a natural number. -/
theorem whole?_toDigits (n : ℕ) (rest : List Char) :
    whole? (Nat.toDigits 10 n ++ '\n' :: rest) =
      some ((Nat.toDigits 10 n).map Literal.digitValue, '\n' :: rest) :=
  whole?_append (fun _ => Layout.isDigit_toDigits) Nat.toDigits_ne_nil (Layout.toDigits_leading n)
    (.newline rest)

/-- What follows the first digit announces no other base. -/
theorem integer?_eq {d c : Char} (hd : d.isDigit = true) (hc : c.isDigit = true ∨ c = '\n')
    {cs rest : List Char} {ds : List ℕ} {v : Toml}
    (hwhole : whole? (d :: c :: cs) = some (ds, rest))
    (hvalue : bounded? (radixValue 10 ds) = some v) :
    integer? (d :: c :: cs) = some (v, rest) := by
  have hother {letter : Char} (h : ¬ (letter.isDigit = true ∨ letter = '\n')) : c ≠ letter := by
    rintro rfl
    exact h hc
  have hx : c ≠ 'x' := hother (by decide)
  have ho : c ≠ 'o' := hother (by decide)
  have hb : c ≠ 'b' := hother (by decide)
  simp [integer?, hx, ho, hb, sign_of_isDigit hd, hwhole, hvalue]

theorem integer?_toDigits {n : ℕ} (hn : (n : ℤ) ≤ Int64.maxValue.toInt) (rest : List Char) :
    integer? (Nat.toDigits 10 n ++ '\n' :: rest) = some (.integer n, '\n' :: rest) := by
  have hdigits : ∀ c ∈ Nat.toDigits 10 n, c.isDigit = true := fun _ => Layout.isDigit_toDigits
  have hwhole := whole?_toDigits n rest
  have hbounds : Int64.minValue.toInt ≤ (n : ℤ) ∧ (n : ℤ) ≤ Int64.maxValue.toInt :=
    ⟨le_trans (by decide) (Int.natCast_nonneg n), hn⟩
  have hvalue : bounded? (radixValue 10 ((Nat.toDigits 10 n).map Literal.digitValue)) =
      some (.integer n) := by
    rw [radixValue_map, Layout.digitsValue_toDigits, bounded?, if_pos hbounds]
  obtain ⟨d, ds, hds⟩ := List.exists_cons_of_ne_nil (Nat.toDigits_ne_nil (n := n) (b := 10))
  rw [hds] at hdigits hwhole hvalue ⊢
  have hd := hdigits d List.mem_cons_self
  cases ds with
  | nil =>
    rw [List.cons_append, List.nil_append] at hwhole ⊢
    exact integer?_eq hd (.inr rfl) hwhole hvalue
  | cons c ds =>
    have hc := hdigits c (List.mem_cons_of_mem _ List.mem_cons_self)
    rw [List.cons_append, List.cons_append] at hwhole ⊢
    exact integer?_eq hd (.inl hc) hwhole hvalue

theorem number?_toDigits {n : ℕ} (hn : (n : ℤ) ≤ Int64.maxValue.toInt) (rest : List Char) :
    number? (Nat.toDigits 10 n ++ '\n' :: rest) = some (.integer n, '\n' :: rest) := by
  have hnumeral : numeral (Nat.toDigits 10 n ++ '\n' :: rest) = .other := by
    rw [numeral, whole?_toDigits]
    rfl
  have hinteger := integer?_toDigits hn rest
  obtain ⟨d, ds, hds⟩ := List.exists_cons_of_ne_nil (Nat.toDigits_ne_nil (n := n) (b := 10))
  have hd : d.isDigit = true := Layout.isDigit_toDigits (n := n) (hds ▸ List.mem_cons_self)
  rw [hds, List.cons_append] at hnumeral hinteger ⊢
  simp only [number?, sign_of_isDigit hd, hnumeral, special?_of_isDigit hd, hinteger]

/-! ## Numbers with a point -/

section Points

variable (p : Positional) (hplaces : p.places ≠ [])

include hplaces in
theorem chars_eq : p.chars = p.whole ++ '.' :: p.places := by
  obtain ⟨c, cs, hcs⟩ := List.exists_cons_of_ne_nil hplaces
  rw [Positional.chars, hcs]

include hplaces in
theorem numeral_chars (rest : List Char) :
    numeral (p.chars ++ '\n' :: rest) =
      .float (p.whole.map Literal.digitValue) (p.places.map Literal.digitValue) 0
        ('\n' :: rest) := by
  have hwhole : whole? (p.whole ++ '.' :: (p.places ++ '\n' :: rest)) = some (_, _) :=
    whole?_append p.whole_digits p.whole_ne_nil p.leading (.point _)
  have hnone : exponent? ('.' :: (p.places ++ '\n' :: rest)) = none := rfl
  have hpoint : places? ('.' :: (p.places ++ '\n' :: rest)) = some (_, _) :=
    digits?_append p.places_digits hplaces (.newline rest)
  have hend : exponent? ('\n' :: rest) = none := rfl
  rw [chars_eq p hplaces, List.append_assoc, List.cons_append]
  simp only [numeral, hwhole, hnone, hpoint, hend]

theorem floatOf?_positional (hfinite : p.decimal.rank < Binary64.infinityRank)
    (negative : Bool) :
    floatOf? negative (p.whole.map Literal.digitValue) (p.places.map Literal.digitValue) 0 =
      some (.float (p.decimal.toBinary64 negative)) := by
  have hvalue : Binary64.ofDecimal negative
      (radixValue 10 (p.whole.map Literal.digitValue ++ p.places.map Literal.digitValue))
      (0 - (p.places.map Literal.digitValue).length) = p.decimal.toBinary64 negative := by
    rw [radixValue_map_append, List.length_map, Int.zero_sub]
    rfl
  have hrank : Binary64.rank (p.decimal.toBinary64 negative) = p.decimal.rank :=
    Binary64.rank_ofRank negative (hfinite.trans Binary64.infinityRank_lt)
  rw [floatOf?, hvalue, hrank, if_neg fun h => hfinite.ne h.2]

include hplaces in
/-- A numeral with a point is read as its decimal. -/
theorem number?_signed (hfinite : p.decimal.rank < Binary64.infinityRank) (negative : Bool)
    (rest : List Char) :
    number? (p.signed negative ++ '\n' :: rest) =
      some (.float (p.decimal.toBinary64 negative), '\n' :: rest) := by
  have hnumeral := numeral_chars p hplaces rest
  have hvalue := floatOf?_positional p hfinite negative
  cases negative with
  | true =>
    rw [Positional.signed, if_pos rfl, List.cons_append]
    simp only [number?, sign, hnumeral, hvalue, Option.map_some]
  | false =>
    obtain ⟨d, ds, hchars, hd⟩ := Literal.exists_chars_eq p
    rw [Positional.signed, if_neg Bool.false_ne_true]
    rw [hchars, List.cons_append] at hnumeral ⊢
    simp only [number?, sign_of_isDigit hd, hnumeral, hvalue, Option.map_some]

end Points

/-! ## Dates and times -/

/-- A number of fixed width is made of digits, and its text goes on behind them. -/
theorem fixed?_eq_some {n low high v : ℕ} {cs rest : List Char}
    (h : fixed? n low high cs = some (v, rest)) :
    (cs.take n).length = n ∧ (∀ c ∈ cs.take n, c.isDigit = true) ∧ rest = cs.drop n := by
  simp only [fixed?] at h
  split_ifs at h with hdigits
  obtain ⟨-, rfl⟩ := Prod.mk.inj (Option.some.inj h)
  exact ⟨hdigits.1, List.all_eq_true.1 hdigits.2, rfl⟩

/-- Behind the digits of a line stands a character of the line or its end. -/
theorem mem_of_fixed? {n low high v : ℕ} {c : Char} {cs rest rest' : List Char}
    (h : fixed? n low high (cs ++ '\n' :: rest) = some (v, c :: rest')) : c ∈ cs ∨ c = '\n' := by
  obtain ⟨-, hdigits, hdrop⟩ := fixed?_eq_some h
  have hwithin : n ≤ cs.length := by
    by_contra hlong
    have hmem : '\n' ∈ (cs ++ '\n' :: rest).take n := by
      obtain ⟨m, hm⟩ : ∃ m, n - cs.length = m + 1 := ⟨n - cs.length - 1, by omega⟩
      rw [List.take_append, hm, List.take_succ_cons]
      exact List.mem_append_right _ List.mem_cons_self
    cases hdigits _ hmem
  rw [List.drop_append_of_le_length hwithin] at hdrop
  cases hbehind : cs.drop n with
  | nil =>
    rw [hbehind, List.nil_append] at hdrop
    exact .inr (List.cons.inj hdrop).1
  | cons d ds =>
    rw [hbehind, List.cons_append] at hdrop
    obtain rfl := (List.cons.inj hdrop).1
    exact .inl (List.mem_of_mem_drop (hbehind ▸ List.mem_cons_self))

theorem exactly?_eq_some {c : Char} {cs rest : List Char} (h : exactly? c cs = some rest) :
    cs = c :: rest := by
  cases cs with
  | nil => cases h
  | cons d ds =>
    rw [exactly?] at h
    split_ifs at h with hd
    rw [hd, Option.some.inj h]

/-- A line without dashes and colons is no date and no time of day. -/
theorem moment?_eq_none {cs : List Char} (hdash : '-' ∉ cs) (hcolon : ':' ∉ cs)
    (rest : List Char) : moment? (cs ++ '\n' :: rest) = none := by
  have hseparator {n low high v : ℕ} {c : Char} {rest' : List Char}
      (hfixed : fixed? n low high (cs ++ '\n' :: rest) = some (v, rest')) (hc : c ∉ cs)
      (hnewline : c ≠ '\n') : exactly? c rest' = none := by
    rw [Option.eq_none_iff_forall_ne_some]
    intro rest'' h
    rw [exactly?_eq_some h] at hfixed
    rcases mem_of_fixed? hfixed with hmem | hend
    · exact hc hmem
    · exact hnewline hend
  have hdate : date? (cs ++ '\n' :: rest) = none := by
    rw [date?]
    cases hyear : fixed? 4 0 9999 (cs ++ '\n' :: rest) with
    | none => rfl
    | some year =>
      simp [hseparator hyear hdash (by decide)]
  have htime : time? (cs ++ '\n' :: rest) = none := by
    rw [time?]
    cases hhour : fixed? 2 0 23 (cs ++ '\n' :: rest) with
    | none => rfl
    | some hour => simp [hseparator hhour hcolon (by decide)]
  rw [moment?, hdate, htime]

theorem moment?_minus (cs : List Char) : moment? ('-' :: cs) = none := by
  have hfixed (n low high : ℕ) : fixed? (n + 1) low high ('-' :: cs) = none := by
    simp [fixed?]
  simp [moment?, date?, time?, hfixed]

end GradientForest.Toml
