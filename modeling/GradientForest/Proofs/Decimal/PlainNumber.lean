import Mathlib.Data.List.TakeDrop
import GradientForest.Proofs.Decimal.Positional

/-!
# Numbers without exponent read back

In the plain style every finite number is in positional notation, however large or small it
is.  The reader of literals takes the digits on both sides of the point, and the number
nearest to the decimal is the one that was written, since the shortest decimal is read back
as it was (`Shortest.rank_ofRank`).  Infinities have a word each, with their signs, and all
undefined values share one word without a sign (`Literal.number_plain`).  A count is its
digits (`Literal.count?_toString`).
-/

namespace GradientForest

open Binary64

namespace Literal

/-! ## Positional notation -/

/-- Digits end where another character or nothing follows. -/
theorem spanDigits_append {ds : List Char} (hds : ∀ c ∈ ds, c.isDigit = true) {rest : List Char}
    (hrest : ∀ c ∈ rest.head?, c.isDigit = false) : spanDigits (ds ++ rest) = (ds, rest) := by
  have htake : rest.takeWhile Char.isDigit = [] := by
    cases rest with
    | nil => rfl
    | cons c cs => exact List.takeWhile_cons_of_neg (by simp [hrest c rfl])
  have hdrop : rest.dropWhile Char.isDigit = rest := by
    cases rest with
    | nil => rfl
    | cons c cs => exact List.dropWhile_cons_of_neg (by simp [hrest c rfl])
  rw [spanDigits, List.span_eq_takeWhile_dropWhile, List.takeWhile_append_of_pos hds,
    List.dropWhile_append_of_pos hds, htake, hdrop, List.append_nil]

theorem spanDigits_digits {ds : List Char} (hds : ∀ c ∈ ds, c.isDigit = true) :
    spanDigits ds = (ds, []) := by
  have h : spanDigits (ds ++ []) = (ds, []) := spanDigits_append hds nofun
  rwa [List.append_nil] at h

theorem decimal?_chars (p : Positional) : decimal? p.chars = some p.decimal := by
  have hne : p.whole.isEmpty = false := List.isEmpty_eq_false_iff.2 p.whole_ne_nil
  have hdigits := p.places_digits
  rw [Positional.chars, Positional.decimal]
  cases hplaces : p.places with
  | nil =>
    rw [List.append_nil]
    simp only [decimal?, spanDigits_digits p.whole_digits, fraction, hne]
    rfl
  | cons c cs =>
    rw [hplaces] at hdigits
    have hwhole : spanDigits (p.whole ++ '.' :: c :: cs) = (p.whole, '.' :: c :: cs) := by
      refine spanDigits_append p.whole_digits fun d hd => ?_
      cases hd
      rfl
    simp only [decimal?, hwhole, fraction, spanDigits_digits hdigits, hne]
    simp [exponent?]

/-! ## Signs and words -/

/-- The characters of a positional numeral start with a digit. -/
theorem exists_chars_eq (p : Positional) : ∃ d ds, p.chars = d :: ds ∧ d.isDigit = true := by
  obtain ⟨d, ds, hwhole⟩ := List.exists_cons_of_ne_nil p.whole_ne_nil
  have hd := p.whole_digits d (by rw [hwhole]; exact List.mem_cons_self)
  exact ⟨d, _, by rw [Positional.chars, hwhole]; rfl, hd⟩

theorem toLower_digit {d : Char} (hd : d.isDigit = true) : d.toLower = d := by
  rw [Char.isDigit, Bool.and_eq_true, decide_eq_true_eq, decide_eq_true_eq] at hd
  exact dif_neg fun hupper => absurd (UInt32.le_trans hupper.1 hd.2) (by decide)

theorem ne_of_isDigit {c d : Char} (hd : d.isDigit = true) (hc : c.isDigit = false) : d ≠ c := by
  rintro rfl
  exact Bool.false_ne_true (hc.symm.trans hd)

/-- Words do not start with a digit. -/
theorem word?_digit (negative : Bool) {d : Char} (hd : d.isDigit = true) (ds : List Char) :
    word? negative (d :: ds) = none := by
  have hi : d ≠ 'i' := ne_of_isDigit hd rfl
  have hn : d ≠ 'n' := ne_of_isDigit hd rfl
  simp [word?, toLower_digit hd, hi, hn]

theorem sign_digit {d : Char} (hd : d.isDigit = true) (ds : List Char) :
    sign (d :: ds) = (false, d :: ds) := by
  unfold sign
  split
  next heq =>
    cases heq
    cases hd
  next heq =>
    cases heq
    cases hd
  next => rfl

theorem number_signed (p : Positional) (negative : Bool) :
    number (p.signed negative) = .ok (p.decimal.toBinary64 negative) := by
  obtain ⟨d, ds, hchars, hd⟩ := exists_chars_eq p
  have hdecimal := decimal?_chars p
  rw [Positional.signed]
  rw [hchars] at hdecimal ⊢
  cases negative with
  | true =>
    rw [if_pos rfl]
    simp only [number, sign, word?_digit true hd, hdecimal]
    rfl
  | false =>
    rw [if_neg Bool.false_ne_true]
    simp only [number, sign_digit hd, word?_digit false hd, hdecimal]
    rfl

/-! ## Styles without exponents -/

/-- Without bounds for positional notation every finite number is in it, and the style says
whether there are places for whole numbers too. -/
theorem exists_magnitude (style : NumberStyle) (hstyle : style.positional = none) {r : ℕ}
    (hr : r ≤ infinityRank) :
    ∃ p : Positional, Layout.magnitude style r = p.chars ∧ p.decimal.rank = r ∧
      (style.pointZero = true → p.places ≠ []) := by
  suffices h : ∃ p : Positional, Layout.magnitude style r = p.chars ∧ p.decimal.rank = r by
    obtain ⟨p, hp, hrank⟩ := h
    refine ⟨p, hp, hrank, fun hpoint => p.places_ne_nil ?_⟩
    rw [← hp, Layout.magnitude, Layout.decimal, hstyle, hpoint]
    split_ifs <;> exact Layout.point_mem_positional _ _
  by_cases h0 : r = 0
  · obtain ⟨p, hp, hzero⟩ := Positional.exists_zero style.pointZero
    refine ⟨p, ?_, ?_⟩
    · rw [h0, Layout.magnitude, if_pos rfl, hp]
    · rw [h0, Decimal.rank, hzero]
      exact Decimal.rank_zero _
  · obtain ⟨p, hp, hrank, -⟩ := Layout.exists_positional
      (Shortest.coefficient_ofRank_ne_zero style.tie hr h0) style.pointZero
    refine ⟨p, ?_, hrank.trans (Shortest.rank_ofRank style.tie hr)⟩
    rw [Layout.magnitude, if_neg h0, Layout.decimal, hstyle]
    exact hp

/-- A finite number is written as a numeral that stands for this number. -/
theorem exists_signed (style : NumberStyle) (hstyle : style.positional = none) {x : Binary64}
    (hx : x.isFinite = true) :
    ∃ p : Positional, style.chars x = p.signed x.isNegative ∧
      p.decimal.rank < infinityRank ∧ p.decimal.toBinary64 x.isNegative = x ∧
      (style.pointZero = true → p.places ≠ []) := by
  rw [isFinite, decide_eq_true_eq] at hx
  have hdefined : x.isUndefined = false := decide_eq_false (Nat.lt_asymm hx)
  have hinfinite : x.isInfinite = false := decide_eq_false hx.ne
  obtain ⟨p, hp, hrank, hplaces⟩ := exists_magnitude style hstyle hx.le
  refine ⟨p, ?_, hrank ▸ hx, ?_, hplaces⟩
  · simp only [NumberStyle.chars, hdefined, hinfinite, Bool.false_eq_true, if_false, hp]
    rfl
  · rw [Decimal.toBinary64, ofDecimal, ← Decimal.rank, hrank, ofRank_rank]

/-! ## The plain style -/

theorem number_infinity (negative : Bool) :
    number (if negative then '-' :: "inf".toList else "inf".toList) = .ok (infinite negative) := by
  cases negative <;> rfl

/-- A number in the plain style is read as it was, and an undefined value as the least quiet
one. -/
theorem number_plain (x : Binary64) :
    number (NumberStyle.plain.chars x) = .ok (if x.isUndefined then undefined false else x) := by
  by_cases hundefined : x.isUndefined = true
  · rw [NumberStyle.chars, if_pos hundefined, if_pos hundefined]
    rfl
  · rw [if_neg hundefined]
    by_cases hinfinite : x.isInfinite = true
    · have hx : infinite x.isNegative = x := by
        rw [infinite, ← of_decide_eq_true hinfinite, ofRank_rank]
      rw [NumberStyle.chars, if_neg hundefined, if_pos hinfinite]
      exact (number_infinity x.isNegative).trans (congrArg Except.ok hx)
    · have hfinite : x.isFinite = true := by
        have hle : ¬ infinityRank < x.rank := fun h => hundefined (decide_eq_true h)
        have hne : x.rank ≠ infinityRank := fun h => hinfinite (decide_eq_true h)
        exact decide_eq_true (lt_of_le_of_ne (Nat.le_of_not_lt hle) hne)
      obtain ⟨p, hchars, -, hread, -⟩ := exists_signed .plain rfl hfinite
      rw [hchars, number_signed, hread]

theorem number?_render {x : Binary64} (hx : x.isUndefined = false) :
    number? (NumberStyle.plain.render x) = some x := by
  rw [number?, NumberStyle.render, String.toList_ofList, number_plain, hx]
  rfl

/-! ## Counts -/

theorem toList_toString (n : UInt64) : (toString n).toList = Nat.toDigits 10 n.toNat := by
  change (Nat.repr n.toNat).toList = _
  rw [Nat.repr_eq_ofList_toDigits, String.toList_ofList]

/-- A count is read as it was written. -/
theorem count?_toString (n : UInt64) : count? (toString n) = some n := by
  have hdigits : ∀ c ∈ Nat.toDigits 10 n.toNat, c.isDigit = true :=
    fun _ => Layout.isDigit_toDigits
  have hvalue := Layout.digitsValue_toDigits n.toNat
  obtain ⟨d, ds, hds⟩ := List.exists_cons_of_ne_nil (Nat.toDigits_ne_nil (n := n.toNat) (b := 10))
  rw [hds] at hdigits hvalue
  have hplus : d ≠ '+' := ne_of_isDigit (hdigits d List.mem_cons_self) rfl
  have hall : (d :: ds).all Char.isDigit = true := List.all_eq_true.2 hdigits
  have hsize : n.toNat < UInt64.size := n.toNat_lt
  rw [count?, toList_toString, hds]
  simp [hplus, hall, hvalue, hsize]

end Literal

end GradientForest
