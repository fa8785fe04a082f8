import GradientForest.Binary64.Basic

/-!
# Orders of binary64 numbers

Numbers are compared by sign and then by rank, and the two zeros are equal.  A
comparison with an undefined value fails.  `lt_iff`, `le_iff` and `beq_iff` say
the same with `level`, the rank as an integer with its sign.

The total order by `orderKey` has a place for every bit pattern: first the
undefined values with a sign, then the numbers with minus zero just before
zero, then the undefined values without a sign.
-/

namespace GradientForest.Binary64

/-- Both values are numbers. -/
def comparable (x y : Binary64) : Bool := !x.isUndefined && !y.isUndefined

/-- A number is strictly below another. -/
def below (x y : Binary64) : Bool :=
  match x.isNegative, y.isNegative with
  | false, false => x.rank < y.rank
  | false, true => false
  | true, false => !(x.isZero && y.isZero)
  | true, true => y.rank < x.rank

/-- Strictly below. -/
def lt (x y : Binary64) : Bool := comparable x y && below x y

/-- Below or equal. -/
def le (x y : Binary64) : Bool := comparable x y && !below y x

/-- Equal as numbers. -/
def beq (x y : Binary64) : Bool := comparable x y && (x = y || (x.isZero && y.isZero))

/-- The place in the total order. -/
def orderKey (x : Binary64) : Int := if x.isNegative then -(x.rank : Int) - 1 else x.rank

/-- Strictly before in the total order. -/
def precedes (x y : Binary64) : Bool := x.orderKey < y.orderKey

/-! ## Levels -/

/-- The rank as an integer with the sign of the number. -/
def level (x : Binary64) : Int := if x.isNegative then -x.rank else x.rank

theorem below_iff (x y : Binary64) : below x y ↔ x.level < y.level := by
  unfold below level isZero
  cases x.isNegative <;> cases y.isNegative <;> simp
  omega

/-- Below means a lower level. -/
theorem lt_iff (x y : Binary64) : lt x y ↔ comparable x y ∧ x.level < y.level := by
  simp [lt, below_iff]

/-- Below or equal means no higher level. -/
theorem le_iff (x y : Binary64) : le x y ↔ comparable x y ∧ x.level ≤ y.level := by
  rw [le, Bool.and_eq_true, Bool.not_eq_true', ← Bool.not_eq_true, below_iff, Int.not_lt]

/-- Equal means the same level. -/
theorem beq_iff (x y : Binary64) : beq x y ↔ comparable x y ∧ x.level = y.level := by
  have hsame : x = y ↔ x.isNegative = y.isNegative ∧ x.rank = y.rank :=
    ⟨fun h => by simp [h], fun ⟨hs, hr⟩ => by rw [← ofRank_rank x, hs, hr, ofRank_rank]⟩
  have hlevel : x.level = y.level ↔ x = y ∨ (x.rank = 0 ∧ y.rank = 0) := by
    rw [hsame, level, level]
    cases x.isNegative <;> cases y.isNegative <;> simp <;> omega
  simp [beq, isZero, hlevel]

end GradientForest.Binary64
