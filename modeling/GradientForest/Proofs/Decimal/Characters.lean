import Mathlib.Data.Int.Notation
import Mathlib.Data.List.Basic
import GradientForest.Decimal.Layout

/-!
# The characters of numbers

A number is written with digits, signs, a point and the letter of an exponent, or as one
of the words of its style (`NumberStyle.uses_of_mem_chars`).  So what has to be avoided in
a line or a document is checked once, for these few characters.
-/

namespace GradientForest

/-- The characters of decimals. -/
def Layout.IsDecimal (c : Char) : Prop :=
  c ∈ ['0', '1', '2', '3', '4', '5', '6', '7', '8', '9', '-', '+', '.', 'e']

instance (c : Char) : Decidable (Layout.IsDecimal c) :=
  inferInstanceAs (Decidable (c ∈ ['0', '1', '2', '3', '4', '5', '6', '7', '8', '9', '-', '+', '.',
    'e']))

/-- The characters that a style writes numbers with. -/
def NumberStyle.Uses (style : NumberStyle) (c : Char) : Prop :=
  Layout.IsDecimal c ∨ c ∈ style.nan.toList ∨ c ∈ style.infinity.toList

namespace Layout

variable {c : Char}

theorem isDecimal_of_isDigit (h : c.isDigit = true) : IsDecimal c := by
  have hcode : ∀ n < 58, 48 ≤ n → IsDecimal (Char.ofNat n) := by decide
  rw [Char.isDigit, Bool.and_eq_true, decide_eq_true_eq, decide_eq_true_eq] at h
  have hdecimal := hcode c.toNat (Nat.lt_succ_of_le (UInt32.le_iff_toNat_le.1 h.2))
    (UInt32.le_iff_toNat_le.1 h.1)
  rwa [Char.ofNat_toNat] at hdecimal

theorem isDecimal_toDigits {n : ℕ} (h : c ∈ Nat.toDigits 10 n) : IsDecimal c :=
  isDecimal_of_isDigit (Nat.isDigit_of_mem_toDigits (by decide) (by decide) h)

theorem isDecimal_zeros {n : ℕ} (h : c ∈ zeros n) : IsDecimal c := by
  rw [List.eq_of_mem_replicate h]
  decide

theorem isDecimal_positional {pointZero : Bool} {ds : List Char} (hds : ∀ c ∈ ds, IsDecimal c)
    {e : ℤ} (h : c ∈ positional pointZero ds e) : IsDecimal c := by
  have hpoint : IsDecimal '.' := by decide
  have hzero : IsDecimal '0' := by decide
  rcases e with e | e
  · rw [positional, List.mem_append, List.mem_append] at h
    obtain (h | h) | h := h
    · exact hds c h
    · exact isDecimal_zeros h
    · cases pointZero with
      | false => cases h
      | true =>
        obtain rfl | rfl : c = '.' ∨ c = '0' := by simpa using h
        · exact hpoint
        · exact hzero
  · rw [positional] at h
    split_ifs at h
    · obtain h | rfl | h : c ∈ ds.take _ ∨ c = '.' ∨ c ∈ ds.drop _ := by
        rwa [List.mem_append, List.mem_cons] at h
      · exact hds c (List.mem_of_mem_take h)
      · exact hpoint
      · exact hds c (List.mem_of_mem_drop h)
    · obtain rfl | rfl | h | h : c = '0' ∨ c = '.' ∨ c ∈ zeros _ ∨ c ∈ ds := by
        rwa [List.cons_append, List.cons_append, List.mem_cons, List.mem_cons,
          List.mem_append] at h
      · exact hzero
      · exact hpoint
      · exact isDecimal_zeros h
      · exact hds c h

theorem isDecimal_exponent {e : ℤ} (h : c ∈ exponent e) : IsDecimal c := by
  rcases e with e | e
  all_goals
    obtain rfl | rfl | h := by simpa [exponent] using h
    · decide
    · decide
    · exact isDecimal_toDigits h

theorem isDecimal_scientific {ds : List Char} (hds : ∀ c ∈ ds, IsDecimal c) {m : ℤ}
    (h : c ∈ scientific ds m) : IsDecimal c := by
  rcases ds with _ | ⟨d, _ | ⟨d', ds⟩⟩
  · cases h
  · obtain rfl | h := List.mem_cons.1 h
    · exact hds c List.mem_cons_self
    · exact isDecimal_exponent h
  · obtain rfl | rfl | h | h : c = d ∨ c = '.' ∨ c ∈ d' :: ds ∨ c ∈ exponent (m - 1) := by
      rw [scientific] at h
      · rwa [List.cons_append, List.cons_append, List.mem_cons, List.mem_cons,
          List.mem_append] at h
      · exact List.cons_ne_nil _ _
    · exact hds c List.mem_cons_self
    · decide
    · exact hds c (List.mem_cons_of_mem _ h)
    · exact isDecimal_exponent h

theorem isDecimal_magnitude {style : NumberStyle} {r : ℕ} (h : c ∈ magnitude style r) :
    IsDecimal c := by
  rw [magnitude] at h
  split_ifs at h
  · exact isDecimal_positional (List.forall_mem_singleton.2 (by decide)) h
  · have hdigits : ∀ c ∈ (Shortest.ofRank style.tie r).digits, IsDecimal c :=
      fun _ => isDecimal_toDigits
    unfold decimal at h
    dsimp only at h
    split at h
    next => exact isDecimal_positional hdigits h
    next =>
      split_ifs at h
      · exact isDecimal_positional hdigits h
      · exact isDecimal_scientific hdigits h

end Layout

namespace NumberStyle

theorem uses_of_mem_chars {style : NumberStyle} {x : Binary64} {c : Char}
    (h : c ∈ style.chars x) : style.Uses c := by
  have hbody (hc : c ∈ if x.isInfinite then style.infinity.toList
      else Layout.magnitude style x.rank) : style.Uses c := by
    split_ifs at hc
    · exact .inr (.inr hc)
    · exact .inl (Layout.isDecimal_magnitude hc)
  by_cases hundefined : x.isUndefined = true
  · rw [chars, if_pos hundefined] at h
    exact .inr (.inl h)
  · rw [chars, if_neg hundefined] at h
    dsimp only at h
    by_cases hnegative : x.isNegative = true
    · rw [if_pos hnegative] at h
      obtain rfl | h := List.mem_cons.1 h
      · exact .inl (by decide)
      · exact hbody h
    · rw [if_neg hnegative] at h
      exact hbody h

end NumberStyle

end GradientForest
