import Mathlib.Data.List.Basic
import GradientForest.Format.Json.Reader
import GradientForest.Format.Json.Writer
import GradientForest.Proofs.Decimal.Positional

/-!
# Numbers in JSON

A numeral has a whole part, places behind a point and an exponent.  `Numeral` carries
what the reader asks of these parts, so every numeral is read
(`Numeral.unsigned?_chars`), provided that what follows cannot belong to it
(`Delimited`).

Counts are numerals, and so are the finite numbers without their signs.  The layouts
may move zeros between the digits and the exponent, which does not change the number.
So a finite number is read as it was (`number?_signed`).
-/

namespace GradientForest.Json

open Text (Symbol)

/-- What follows a numeral in a document. -/
inductive Delimited : List Symbol → Prop where
  /-- The end. -/
  | nil : Delimited []
  /-- The comma before the next item. -/
  | comma (rest : List Symbol) : Delimited (some ',' :: rest)
  /-- The line break before a closing bracket. -/
  | newline (rest : List Symbol) : Delimited (some '\n' :: rest)

/-- The parts of a numeral. -/
structure Numeral where
  /-- The digits before the point. -/
  whole : List Char
  /-- The digits behind the point. -/
  places : List Char
  /-- The exponent, if it is written. -/
  exponent : Option ℤ
  /-- The whole part has digits only. -/
  whole_digits : ∀ c ∈ whole, c.isDigit = true
  /-- The places are digits. -/
  places_digits : ∀ c ∈ places, c.isDigit = true
  /-- There is a digit before the point. -/
  whole_ne_nil : whole ≠ []
  /-- Zero does not lead other digits. -/
  leading : whole.head? = some '0' → whole = ['0']
  /-- All digits before the point are decisive. -/
  length_le : whole.length ≤ Reader.decisiveDigits

namespace Numeral

/-- The places behind their point. -/
def point : List Char → List Char
  | [] => []
  | ds => '.' :: ds

/-- The exponent behind its sign. -/
def power : Option ℤ → List Char
  | none => []
  | some e => Layout.exponent e

/-- The characters of a numeral. -/
def chars (n : Numeral) : List Char := n.whole ++ (point n.places ++ power n.exponent)

/-- The decimal of a numeral. -/
def decimal (n : Numeral) : Decimal where
  coefficient := Literal.digitsValue (Literal.digitsValue 0 n.whole) n.places
  exponent := n.exponent.getD 0 + -(n.places.length : ℤ)

/-- A numeral with a sign as a number literal. -/
def toNumber (negative : Bool) (n : Numeral) : JsonNumber where
  negative
  integral := n.places.isEmpty && n.exponent.isNone
  coefficient := n.decimal.coefficient
  exponent := n.decimal.exponent

/-! ## Reading the parts -/

theorem spanDigits_append {ds : List Char} (hds : ∀ c ∈ ds, c.isDigit = true) {rest : List Symbol}
    (hrest : Reader.spanDigits rest = ([], rest)) :
    Reader.spanDigits (ds.map some ++ rest) = (ds, rest) := by
  induction ds with
  | nil => exact hrest
  | cons d ds ih =>
    obtain ⟨hd, hds⟩ := List.forall_mem_cons.1 hds
    rw [List.map_cons, List.cons_append, Reader.spanDigits, if_pos hd, ih hds]

theorem spanDigits_delimited {rest : List Symbol} (h : Delimited rest) :
    Reader.spanDigits rest = ([], rest) := by
  cases h <;> rfl

theorem exponent?_digits (negative : Bool) (k : ℕ) {rest : List Symbol} (h : Delimited rest) :
    Reader.exponent? (some 'e' :: some (if negative then '-' else '+') ::
      ((Nat.toDigits 10 k).map some ++ rest)) =
        some (some (if negative then -(k : ℤ) else k), rest) := by
  have hspan : Reader.spanDigits ((Nat.toDigits 10 k).map some ++ rest) =
      (Nat.toDigits 10 k, rest) :=
    spanDigits_append (fun _ => Layout.isDigit_toDigits) (spanDigits_delimited h)
  have hvalue := Layout.digitsValue_toDigits k
  have hne := Nat.toDigits_ne_nil (n := k) (b := 10)
  generalize (Nat.toDigits 10 k).map some ++ rest = body at hspan ⊢
  generalize Nat.toDigits 10 k = ds at hspan hvalue hne
  cases ds with
  | nil => exact absurd rfl hne
  | cons d ds => cases negative <;> simp [Reader.exponent?, Reader.exponentSign, hspan, hvalue]

theorem exponent?_power (e : Option ℤ) {rest : List Symbol} (h : Delimited rest) :
    Reader.exponent? ((power e).map some ++ rest) = some (e, rest) := by
  rcases e with _ | e | e
  · cases h <;> rfl
  · exact exponent?_digits false e h
  · exact exponent?_digits true (e + 1) h

/-- No digit follows the places, whether there is an exponent or not. -/
theorem spanDigits_power (e : Option ℤ) {rest : List Symbol} (h : Delimited rest) :
    Reader.spanDigits ((power e).map some ++ rest) = ([], (power e).map some ++ rest) := by
  rcases e with _ | e | e
  · exact spanDigits_delimited h
  · rfl
  · rfl

theorem fraction?_point {places : List Char} (hplaces : ∀ c ∈ places, c.isDigit = true)
    (e : Option ℤ) {rest : List Symbol} (h : Delimited rest) :
    Reader.fraction? ((point places ++ power e).map some ++ rest) =
      some (places, (power e).map some ++ rest) := by
  rw [List.map_append, List.append_assoc]
  rcases places with _ | ⟨d, ds⟩
  · rcases e with _ | e | e
    · cases h <;> rfl
    · rfl
    · rfl
  · have hspan := spanDigits_append hplaces (spanDigits_power e h)
    simp only [point, List.map_cons, List.cons_append, Reader.fraction?] at hspan ⊢
    rw [hspan]

/-- No digit follows the whole part. -/
theorem spanDigits_point (places : List Char) (e : Option ℤ) {rest : List Symbol}
    (h : Delimited rest) :
    Reader.spanDigits ((point places ++ power e).map some ++ rest) =
      ([], (point places ++ power e).map some ++ rest) := by
  rcases places with _ | ⟨d, ds⟩
  · exact spanDigits_power e h
  · rfl

theorem wholePart?_chars (n : Numeral) {rest : List Symbol} (h : Delimited rest) :
    Reader.wholePart? (n.chars.map some ++ rest) =
      some (n.whole, (point n.places ++ power n.exponent).map some ++ rest) := by
  have hspan := spanDigits_append n.whole_digits (spanDigits_point n.places n.exponent h)
  rw [chars, List.map_append, List.append_assoc, Reader.wholePart?, hspan]
  obtain ⟨d, ds, hwhole⟩ := List.exists_cons_of_ne_nil n.whole_ne_nil
  have hleading := n.leading
  rw [hwhole] at hleading ⊢
  by_cases hd : d = '0'
  · obtain rfl : ds = [] := by
      rw [hd] at hleading
      exact (List.cons_eq_cons.1 (hleading rfl)).2
    rw [hd]
    rfl
  · exact if_neg hd

/-- A numeral is read, and nothing of what follows it. -/
theorem unsigned?_chars (n : Numeral) (negative : Bool) {rest : List Symbol} (h : Delimited rest) :
    Reader.unsigned? negative (n.chars.map some ++ rest) = some (n.toNumber negative, rest) := by
  simp only [Reader.unsigned?, wholePart?_chars n h, Option.bind_eq_bind, Option.bind_some,
    fraction?_point n.places_digits n.exponent h, exponent?_power n.exponent h,
    Reader.significand_of_length_le n.length_le]
  rfl

/-- A numeral starts with a digit. -/
theorem exists_chars_eq (n : Numeral) : ∃ d ds, n.chars = d :: ds ∧ d.isDigit = true := by
  obtain ⟨d, ds, hwhole⟩ := List.exists_cons_of_ne_nil n.whole_ne_nil
  have hd := n.whole_digits d (by rw [hwhole]; exact List.mem_cons_self)
  exact ⟨d, ds ++ (point n.places ++ power n.exponent), by rw [chars, hwhole]; rfl, hd⟩

end Numeral

/-! ## Counts -/

/-- A count as a numeral. -/
def Numeral.ofCount (n : UInt64) : Numeral where
  whole := Nat.toDigits 10 n.toNat
  places := []
  exponent := none
  whole_digits _ := Layout.isDigit_toDigits
  places_digits := by simp
  whole_ne_nil := Nat.toDigits_ne_nil
  leading := Layout.toDigits_leading _
  length_le := ((Nat.length_toDigits_le_iff (by decide) (by decide : 0 < 20)).2
    (n.toNat_lt.trans_le (by decide))).trans (by decide)

theorem count?_ofCount (n : UInt64) :
    (Json.number ((Numeral.ofCount n).toNumber false)).count? = some n := by
  have hcoefficient : ((Numeral.ofCount n).toNumber false).coefficient = n.toNat :=
    Layout.digitsValue_toDigits _
  rw [count?, hcoefficient, if_pos ⟨rfl, rfl, n.toNat_lt⟩, UInt64.ofNat_toNat]

/-! ## Layouts as numerals -/

/-- Positional notation as a numeral. -/
def Numeral.ofPositional (p : Positional) (h : p.whole.length ≤ Reader.decisiveDigits) :
    Numeral where
  whole := p.whole
  places := p.places
  exponent := none
  whole_digits := p.whole_digits
  places_digits := p.places_digits
  whole_ne_nil := p.whole_ne_nil
  leading := p.leading
  length_le := h

theorem Numeral.chars_ofPositional (p : Positional)
    (h : p.whole.length ≤ Reader.decisiveDigits) : (ofPositional p h).chars = p.chars := by
  change p.whole ++ (point p.places ++ []) = p.whole ++ _
  rw [List.append_nil]
  cases p.places <;> rfl

theorem Numeral.decimal_ofPositional (p : Positional)
    (h : p.whole.length ≤ Reader.decisiveDigits) : (ofPositional p h).decimal = p.decimal :=
  congrArg (Decimal.mk _) (Int.zero_add _)

section Layouts

variable {d : Decimal}

theorem exists_positional (hd : d.coefficient ≠ 0) (hm : d.magnitude ≤ 16) :
    ∃ n : Numeral, Layout.positional true d.digits d.exponent = n.chars ∧
      n.decimal.rank = d.rank := by
  obtain ⟨p, hchars, hrank, hlength⟩ := Layout.exists_positional hd true
  have hdecisive : p.whole.length ≤ Reader.decisiveDigits :=
    (by omega : p.whole.length ≤ 16).trans (by decide)
  refine ⟨.ofPositional p hdecisive, ?_, ?_⟩
  · rw [Numeral.chars_ofPositional, hchars]
  · rw [Numeral.decimal_ofPositional, hrank]

theorem exists_scientific (hd : d.coefficient ≠ 0) :
    ∃ n : Numeral, Layout.scientific d.digits d.magnitude = n.chars ∧
      n.decimal.rank = d.rank := by
  obtain ⟨c, cs, hcs⟩ := List.exists_cons_of_ne_nil (Layout.digits_ne_nil d)
  have hdigits : ∀ x ∈ c :: cs, x.isDigit = true := fun x hx => Layout.isDigit_digits (hcs ▸ hx)
  let n : Numeral :=
    { whole := [c]
      places := cs
      exponent := some (d.magnitude - 1)
      whole_digits := fun x hx => hdigits x (List.mem_singleton.1 hx ▸ List.mem_cons_self)
      places_digits := fun x hx => hdigits x (List.mem_cons_of_mem _ hx)
      whole_ne_nil := List.cons_ne_nil _ _
      leading := Layout.leading_of_digits hd (by rw [hcs]; rfl)
      length_le := (by decide : 1 ≤ Reader.decisiveDigits) }
  have hdecimal : n.decimal = d := by
    refine congrArg₂ Decimal.mk ?_ ?_
    · change Literal.digitsValue (Literal.digitsValue 0 [c]) cs = _
      rw [← Layout.digitsValue_append, ← Layout.digitsValue_digits, hcs]
      rfl
    · change d.magnitude - 1 + -(cs.length : ℤ) = _
      rw [Decimal.magnitude, hcs, List.length_cons]
      omega
  refine ⟨n, ?_, congrArg Decimal.rank hdecimal⟩
  rw [hcs]
  cases cs with
  | nil => rfl
  | cons c' cs => rfl

theorem exists_decimal (hd : d.coefficient ≠ 0) :
    ∃ n : Numeral, Layout.decimal .json d = n.chars ∧ n.decimal.rank = d.rank := by
  change ∃ n : Numeral, (if (decide (-4 ≤ d.magnitude) && decide (d.magnitude ≤ 16)) = true
    then Layout.positional true d.digits d.exponent
    else Layout.scientific d.digits d.magnitude) = n.chars ∧ n.decimal.rank = d.rank
  split_ifs with h
  · rw [Bool.and_eq_true, decide_eq_true_eq, decide_eq_true_eq] at h
    exact exists_positional hd h.2
  · exact exists_scientific hd

end Layouts

/-! ## Numbers -/

/-- Zero with a place behind the point. -/
def Numeral.zero : Numeral where
  whole := ['0']
  places := ['0']
  exponent := none
  whole_digits := List.forall_mem_singleton.2 rfl
  places_digits := List.forall_mem_singleton.2 rfl
  whole_ne_nil := by decide
  leading _ := rfl
  length_le := by decide

theorem exists_magnitude {r : ℕ} (hr : r ≤ Binary64.infinityRank) :
    ∃ n : Numeral, Layout.magnitude .json r = n.chars ∧ n.decimal.rank = r := by
  by_cases h0 : r = 0
  · rw [h0]
    have hzero : Numeral.zero.decimal = ⟨0, -1⟩ := rfl
    exact ⟨Numeral.zero, rfl, (congrArg Decimal.rank hzero).trans (Decimal.rank_zero _)⟩
  · have hrank : (Shortest.ofRank .even r).rank = r := Shortest.rank_ofRank .even hr
    have hd : (Shortest.ofRank .even r).coefficient ≠ 0 := by
      intro hzero
      rw [Decimal.rank, hzero] at hrank
      exact h0 (hrank.symm.trans (Decimal.rank_zero _))
    obtain ⟨n, hn, hnrank⟩ := exists_decimal hd
    refine ⟨n, ?_, hnrank.trans hrank⟩
    rw [Layout.magnitude, if_neg h0]
    exact hn

/-- A numeral behind its sign. -/
def Numeral.signed (negative : Bool) (n : Numeral) : List Char :=
  if negative then '-' :: n.chars else n.chars

theorem number?_signed (negative : Bool) (n : Numeral) {rest : List Symbol} (h : Delimited rest) :
    Reader.number? ((n.signed negative).map some ++ rest) = some (n.toNumber negative, rest) := by
  cases negative with
  | true => exact n.unsigned?_chars true h
  | false =>
    have hread := n.unsigned?_chars false h
    obtain ⟨d, ds, hchars, hd⟩ := n.exists_chars_eq
    rw [Numeral.signed, if_neg Bool.false_ne_true]
    rw [hchars] at hread ⊢
    rw [← hread, Reader.number?]
    rintro _ heq
    cases heq
    exact absurd hd (by decide)

/-- A finite number is written as a numeral that is read as this number. -/
theorem exists_signed {x : Binary64} (hx : x.isFinite = true) :
    ∃ n : Numeral, NumberStyle.json.chars x = n.signed x.isNegative ∧
      (Json.number (n.toNumber x.isNegative)).float? = some x := by
  rw [Binary64.isFinite, decide_eq_true_eq] at hx
  obtain ⟨n, hn, hrank⟩ := exists_magnitude hx.le
  refine ⟨n, ?_, ?_⟩
  · have hdefined : x.isUndefined = false := decide_eq_false (by omega)
    have hinfinite : x.isInfinite = false := decide_eq_false (by omega)
    simp only [NumberStyle.chars, hdefined, hinfinite, Bool.false_eq_true, if_false, hn]
    rfl
  · have hread : Binary64.rankOfDecimal (n.toNumber x.isNegative).coefficient
        (n.toNumber x.isNegative).exponent = x.rank := hrank
    rw [float?, hread, if_pos hx]
    exact congrArg some x.ofRank_rank

end GradientForest.Json
