import Mathlib.Data.List.Basic
import GradientForest.Decimal.Layout
import GradientForest.Decimal.Literal
import GradientForest.Proofs.Decimal.ReadBack

/-!
# Positional notation

A decimal in positional notation is a run of digits, a point and another run of digits, or
the first run alone.  `Positional` has these runs, and `Positional.decimal` is the decimal
they stand for.  The layout may move zeros between the digits and the exponent of the
decimal that it is given, which does not change the number (`exists_positional`).
-/

namespace GradientForest

/-- The digits of a decimal without exponent. -/
structure Positional where
  /-- The digits before the point. -/
  whole : List Char
  /-- The digits behind the point. -/
  places : List Char
  /-- The whole part has digits only. -/
  whole_digits : ∀ c ∈ whole, c.isDigit = true
  /-- The places are digits. -/
  places_digits : ∀ c ∈ places, c.isDigit = true
  /-- There is a digit before the point. -/
  whole_ne_nil : whole ≠ []
  /-- Zero does not lead other digits. -/
  leading : whole.head? = some '0' → whole = ['0']

namespace Positional

/-- The characters in positional notation. -/
def chars (p : Positional) : List Char :=
  p.whole ++ match p.places with
    | [] => []
    | ds => '.' :: ds

/-- The characters behind a sign. -/
def signed (p : Positional) (negative : Bool) : List Char :=
  if negative then '-' :: p.chars else p.chars

/-- The decimal in positional notation. -/
def decimal (p : Positional) : Decimal where
  coefficient := Literal.digitsValue (Literal.digitsValue 0 p.whole) p.places
  exponent := -p.places.length

/-- Zero has positional notation, with a place behind the point if there has to be one. -/
theorem exists_zero (pointZero : Bool) :
    ∃ p : Positional, p.chars = Layout.positional pointZero ['0'] 0 ∧
      p.decimal.coefficient = 0 := by
  have hwhole : ∀ c ∈ ['0'], c.isDigit = true := List.forall_mem_singleton.2 rfl
  cases pointZero with
  | true => exact ⟨⟨['0'], ['0'], hwhole, hwhole, List.cons_ne_nil _ _, fun _ => rfl⟩, rfl, rfl⟩
  | false =>
    exact ⟨⟨['0'], [], hwhole, List.forall_mem_nil _, List.cons_ne_nil _ _, fun _ => rfl⟩,
      rfl, rfl⟩

theorem isDigit_or_point {p : Positional} {c : Char} (h : c ∈ p.chars) :
    c.isDigit = true ∨ c = '.' := by
  rw [chars, List.mem_append] at h
  rcases h with h | h
  · exact .inl (p.whole_digits c h)
  · have hplaces := p.places_digits
    cases hp : p.places with
    | nil =>
      rw [hp] at h
      cases h
    | cons d ds =>
      rw [hp] at h hplaces
      rcases List.mem_cons.1 h with rfl | h
      · exact .inr rfl
      · exact .inl (hplaces c h)

/-- Where a point is written, places follow it. -/
theorem places_ne_nil (p : Positional) (h : '.' ∈ p.chars) : p.places ≠ [] := by
  intro hnil
  rw [chars, hnil, List.append_nil] at h
  cases p.whole_digits _ h

end Positional

namespace Layout

/-! ## Digits -/

theorem digitsValue_toDigits (n : ℕ) : Literal.digitsValue 0 (Nat.toDigits 10 n) = n :=
  Nat.ofDigitChars_ten_toDigits

theorem isDigit_toDigits {n : ℕ} {c : Char} (h : c ∈ Nat.toDigits 10 n) : c.isDigit = true :=
  Nat.isDigit_of_mem_toDigits (by decide) (by decide) h

theorem head?_toDigits {n : ℕ} (hn : n ≠ 0) : (Nat.toDigits 10 n).head? ≠ some '0' := by
  induction n using Nat.strong_induction_on with
  | _ n ih =>
    rw [Nat.toDigits_eq_if (by decide)]
    split_ifs with hlt
    · have hchar : ∀ m < 10, m ≠ 0 → m.digitChar ≠ '0' := by decide
      simpa using hchar n hlt hn
    · rw [List.head?_append_of_ne_nil _ Nat.toDigits_ne_nil]
      exact ih (n / 10) (Nat.div_lt_self (Nat.pos_of_ne_zero hn) (by decide)) (by omega)

theorem toDigits_leading (n : ℕ) (h : (Nat.toDigits 10 n).head? = some '0') :
    Nat.toDigits 10 n = ['0'] := by
  by_cases hn : n = 0
  · rw [hn]
    rfl
  · exact absurd h (head?_toDigits hn)

theorem digitsValue_append (acc : ℕ) (ds ds' : List Char) :
    Literal.digitsValue acc (ds ++ ds') = Literal.digitsValue (Literal.digitsValue acc ds) ds' :=
  List.foldl_append

theorem digitsValue_zeros (acc n : ℕ) : Literal.digitsValue acc (zeros n) = 10 ^ n * acc :=
  Nat.ofDigitChars_replicate_zero

theorem isDigit_zeros {n : ℕ} {c : Char} (h : c ∈ zeros n) : c.isDigit = true := by
  rw [List.eq_of_mem_replicate h]
  rfl

/-! ## Layouts -/

variable {d : Decimal}

theorem isDigit_digits {c : Char} (h : c ∈ d.digits) : c.isDigit = true := isDigit_toDigits h

theorem digitsValue_digits (d : Decimal) : Literal.digitsValue 0 d.digits = d.coefficient :=
  digitsValue_toDigits _

theorem digits_ne_nil (d : Decimal) : d.digits ≠ [] := Nat.toDigits_ne_nil

/-- A run of digits that starts like those of a positive decimal has no zero in front. -/
theorem leading_of_digits (hd : d.coefficient ≠ 0) {whole : List Char}
    (h : whole.head? = d.digits.head?) : whole.head? = some '0' → whole = ['0'] := by
  intro hzero
  exact absurd (h.symm.trans hzero) (head?_toDigits hd)

theorem exists_positional_ofNat (hd : d.coefficient ≠ 0) {e : ℕ} (he : d.exponent = e)
    (pointZero : Bool) :
    ∃ p : Positional, positional pointZero d.digits e = p.chars ∧ p.decimal.rank = d.rank ∧
      (p.whole.length : ℤ) ≤ max 1 d.magnitude := by
  have hhead : (d.digits ++ zeros e).head? = d.digits.head? :=
    List.head?_append_of_ne_nil _ (digits_ne_nil d)
  have hvalue : Literal.digitsValue 0 (d.digits ++ zeros e) = 10 ^ e * d.coefficient := by
    rw [digitsValue_append, digitsValue_digits, digitsValue_zeros]
  have hlength : ((d.digits ++ zeros e).length : ℤ) ≤ max 1 d.magnitude := by
    rw [Decimal.magnitude, he, List.length_append, zeros, List.length_replicate]
    omega
  let p : Positional :=
    { whole := d.digits ++ zeros e
      places := if pointZero then ['0'] else []
      whole_digits := fun c hc => (List.mem_append.1 hc).elim isDigit_digits isDigit_zeros
      places_digits := by
        cases pointZero with
        | false => exact List.forall_mem_nil _
        | true => exact List.forall_mem_singleton.2 rfl
      whole_ne_nil := List.append_ne_nil_of_left_ne_nil (digits_ne_nil d) _
      leading := leading_of_digits hd hhead }
  refine ⟨p, ?_, ?_, hlength⟩
  · cases pointZero <;> rfl
  · cases pointZero with
    | false =>
      refine Decimal.rank_eq_of_shift e hvalue ?_
      change (0 : ℤ) = _
      omega
    | true =>
      refine Decimal.rank_eq_of_shift (e + 1) ?_ ?_
      · change 10 * Literal.digitsValue 0 (d.digits ++ zeros e) + 0 = _
        rw [hvalue, Nat.add_zero, Nat.pow_succ', Nat.mul_assoc]
      · change (-1 : ℤ) = _
        omega

theorem exists_positional_inside (hd : d.coefficient ≠ 0) {e : ℕ} (he : d.exponent = -(e : ℤ))
    (hpos : 0 < e) (hlt : e < d.digits.length) :
    ∃ p : Positional, d.digits.take (d.digits.length - e) ++
        '.' :: d.digits.drop (d.digits.length - e) = p.chars ∧ p.decimal.rank = d.rank ∧
      (p.whole.length : ℤ) ≤ max 1 d.magnitude := by
  have hhead : (d.digits.take (d.digits.length - e)).head? = d.digits.head? :=
    List.head?_take.trans (if_neg (by omega))
  have hlength : ((d.digits.take (d.digits.length - e)).length : ℤ) ≤ max 1 d.magnitude := by
    rw [Decimal.magnitude, he, List.length_take]
    omega
  have hdrop : (d.digits.drop (d.digits.length - e)).length = e := by
    rw [List.length_drop]
    omega
  let p : Positional :=
    { whole := d.digits.take (d.digits.length - e)
      places := d.digits.drop (d.digits.length - e)
      whole_digits := fun c hc => isDigit_digits (List.mem_of_mem_take hc)
      places_digits := fun c hc => isDigit_digits (List.mem_of_mem_drop hc)
      whole_ne_nil := by
        have := digits_ne_nil d
        simp only [ne_eq, List.take_eq_nil_iff, not_or]
        exact ⟨by omega, this⟩
      leading := leading_of_digits hd hhead }
  have hdecimal : p.decimal = d := by
    refine congrArg₂ Decimal.mk ?_ ?_
    · change Literal.digitsValue (Literal.digitsValue 0 (d.digits.take _)) (d.digits.drop _) = _
      rw [← digitsValue_append, List.take_append_drop, digitsValue_digits]
    · change -((d.digits.drop _).length : ℤ) = _
      rw [hdrop, he]
  refine ⟨p, ?_, congrArg Decimal.rank hdecimal, hlength⟩
  obtain ⟨c, cs, hcs⟩ := List.exists_cons_of_ne_nil
    (List.ne_nil_of_length_pos (hdrop.symm ▸ hpos : 0 < (d.digits.drop _).length))
  change _ = d.digits.take _ ++ match d.digits.drop _ with
    | [] => []
    | ds => '.' :: ds
  rw [hcs]

theorem exists_positional_below {e : ℕ} (he : d.exponent = -(e : ℤ)) (hpos : 0 < e)
    (hle : d.digits.length ≤ e) :
    ∃ p : Positional, '0' :: '.' :: zeros (e - d.digits.length) ++ d.digits = p.chars ∧
      p.decimal.rank = d.rank ∧ (p.whole.length : ℤ) ≤ max 1 d.magnitude := by
  have hplaces : (zeros (e - d.digits.length) ++ d.digits).length = e := by
    rw [List.length_append, zeros, List.length_replicate]
    omega
  let p : Positional :=
    { whole := ['0']
      places := zeros (e - d.digits.length) ++ d.digits
      whole_digits := List.forall_mem_singleton.2 rfl
      places_digits := fun c hc => (List.mem_append.1 hc).elim isDigit_zeros isDigit_digits
      whole_ne_nil := by decide
      leading := fun _ => rfl }
  have hdecimal : p.decimal = d := by
    refine congrArg₂ Decimal.mk ?_ ?_
    · change Literal.digitsValue 0 (zeros _ ++ d.digits) = _
      rw [digitsValue_append, digitsValue_zeros, Nat.mul_zero, digitsValue_digits]
    · change -((zeros _ ++ d.digits).length : ℤ) = _
      rw [hplaces, he]
  refine ⟨p, ?_, congrArg Decimal.rank hdecimal, Int.le_max_left 1 _⟩
  obtain ⟨c, cs, hcs⟩ := List.exists_cons_of_ne_nil
    (List.ne_nil_of_length_pos (hplaces.symm ▸ hpos : 0 < (zeros _ ++ d.digits).length))
  change '0' :: '.' :: (zeros _ ++ d.digits) = ['0'] ++ match zeros _ ++ d.digits with
    | [] => []
    | ds => '.' :: ds
  rw [hcs]
  rfl

/-- The layout of a positive decimal is in positional notation, and stands for the same
number.  As many digits stand before the point as the magnitude says, or a zero does. -/
theorem exists_positional (hd : d.coefficient ≠ 0) (pointZero : Bool) :
    ∃ p : Positional, positional pointZero d.digits d.exponent = p.chars ∧
      p.decimal.rank = d.rank ∧ (p.whole.length : ℤ) ≤ max 1 d.magnitude := by
  rcases he : d.exponent with e | e
  · exact exists_positional_ofNat hd he pointZero
  · rw [positional]
    split_ifs with hlt
    · exact exists_positional_inside hd he (Nat.succ_pos e) hlt
    · exact exists_positional_below he (Nat.succ_pos e) (by omega)

/-- A whole number that ends in `.0` has a point, like every other one. -/
theorem point_mem_positional (ds : List Char) (e : ℤ) : '.' ∈ positional true ds e := by
  rcases e with e | e
  · simp [positional]
  · rw [positional]
    split_ifs <;> simp

end Layout

namespace Shortest

/-- The shortest decimal of a positive number is positive. -/
theorem coefficient_ofRank_ne_zero (tie : Tie) {r : ℕ} (hr : r ≤ Binary64.infinityRank)
    (h0 : r ≠ 0) : (ofRank tie r).coefficient ≠ 0 := by
  intro hzero
  have hrank := rank_ofRank tie hr
  rw [Decimal.rank, hzero] at hrank
  exact h0 (hrank.symm.trans (Decimal.rank_zero _))

end Shortest

end GradientForest
