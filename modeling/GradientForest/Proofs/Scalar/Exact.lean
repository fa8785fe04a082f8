import Mathlib.Algebra.Order.Ring.Rat
import Mathlib.Data.Rat.Sqrt
import Mathlib.Order.WithBot
import Mathlib.Tactic.Ring
import GradientForest.Scalar.Exact

/-!
# Laws of exact numbers

The operations of a `Scalar` on rational numbers are those of the rational numbers, and
the comparisons are theirs.

Sums do not depend on the order or the grouping of their terms, not even with the
infinities and the undefined value among them (`add_comm`, `add_assoc`).  The values are
in a linear order with the undefined value at its end, and all comparisons can be read
off this order (`lt_iff`, `le_iff`, `beq_iff`, `precedes_iff`).
-/

namespace GradientForest.Exact

open Scalar

/-! ## Rational numbers -/

section Rational

variable [Functions] (a b : ℚ)

@[simp] theorem rational_add : (rational a + rational b : Exact) = rational (a + b) := rfl

@[simp] theorem rational_sub : (rational a - rational b : Exact) = rational (a - b) :=
  congrArg rational (sub_eq_add_neg a b).symm

@[simp] theorem rational_mul : (rational a * rational b : Exact) = rational (a * b) := rfl

theorem rational_div {b : ℚ} (hb : b ≠ 0) : (rational a / rational b : Exact) = rational (a / b) :=
  if_neg hb

@[simp] theorem zero_eq : (0 : Exact) = rational 0 := rfl

@[simp] theorem one_eq : (1 : Exact) = rational 1 := rfl

@[simp] theorem two_eq : (2 : Exact) = rational 2 := rfl

@[simp] theorem lt_rational : Scalar.lt (rational a) (rational b) = decide (a < b) := rfl

@[simp] theorem le_rational : Scalar.le (rational a) (rational b) = decide (a ≤ b) := by
  rw [Bool.eq_iff_iff, decide_eq_true_eq, ← not_lt]
  change (!decide (b < a)) = true ↔ _
  rw [Bool.not_eq_true', decide_eq_false_iff_not]

@[simp] theorem beq_rational : Scalar.beq (rational a) (rational b) = decide (a = b) := by
  change (true && decide (rational a = rational b)) = _
  rw [Bool.true_and, Bool.eq_iff_iff, decide_eq_true_eq, decide_eq_true_eq, rational.injEq]

@[simp] theorem isNaN_rational : isNaN (rational a) = false := by
  rw [isNaN, beq_rational, decide_eq_true rfl, Bool.not_true]

/-- Finite values are the rational numbers. -/
theorem isFinite_iff {x : Exact} : isFinite x = true ↔ ∃ q, x = rational q := by
  rcases x with q | (_ | _) | _
  · exact iff_of_true rfl ⟨q, rfl⟩
  all_goals exact iff_of_false nofun nofun

end Rational

/-! ## Sums -/

theorem add_comm (x y : Exact) : add x y = add y x := by
  cases x with
  | rational a =>
    cases y with
    | rational b => exact congrArg rational (Rat.add_comm a b)
    | infinite negative => rfl
    | undefined => rfl
  | infinite negative =>
    cases y with
    | rational b => rfl
    | infinite negative' => cases negative <;> cases negative' <;> rfl
    | undefined => rfl
  | undefined => cases y <;> rfl

theorem add_assoc (x y z : Exact) : add (add x y) z = add x (add y z) := by
  rcases x with a | (_ | _) | _ <;> rcases y with b | (_ | _) | _ <;>
    rcases z with c | (_ | _) | _
  case rational.rational.rational => exact congrArg rational (Rat.add_assoc a b c)
  all_goals rfl

theorem add_right_comm (x y z : Exact) : add (add x y) z = add (add x z) y := by
  rw [add_assoc, add_comm y z, ← add_assoc]

/-! ## Order -/

/-- The place of a value in the order: the rational numbers between the infinities, the
undefined value above all. -/
def place : Exact → WithTop (WithBot (WithTop ℚ))
  | .rational a => ((a : WithTop ℚ) : WithBot (WithTop ℚ))
  | .infinite true => (⊥ : WithBot (WithTop ℚ))
  | .infinite false => ((⊤ : WithTop ℚ) : WithBot (WithTop ℚ))
  | .undefined => ⊤

theorem place_injective : Function.Injective place := by
  intro x y h
  rcases x with a | (_ | _) | _ <;> rcases y with b | (_ | _) | _ <;> simp_all [place]

instance : LinearOrder Exact := LinearOrder.lift' place place_injective

theorem lt_iff_place (x y : Exact) : x < y ↔ place x < place y := Iff.rfl

section Comparisons

variable [Functions] (x y : Exact)

theorem precedes_iff : Scalar.precedes x y = true ↔ x < y := by
  change precedes x y = true ↔ _
  rw [lt_iff_place]
  rcases x with a | (_ | _) | _ <;> rcases y with b | (_ | _) | _ <;>
    simp [precedes, place, lt_top_iff_ne_top, bot_lt_iff_ne_bot]

theorem isNaN_iff : isNaN x = true ↔ x = undefined := by
  change (!(!x.isUndefined && decide (x = x))) = true ↔ _
  cases x <;> simp [isUndefined]

theorem isNaN_eq_false_iff : isNaN x = false ↔ x ≠ undefined := by
  rw [ne_eq, ← isNaN_iff, Bool.not_eq_true]

variable {x y}

/-- Comparisons of defined values are those of the order. -/
theorem lt_iff (hx : x ≠ undefined) (hy : y ≠ undefined) : Scalar.lt x y = true ↔ x < y := by
  rw [← precedes_iff]
  change (!x.isUndefined && !y.isUndefined && precedes x y) = true ↔ precedes x y = true
  cases x <;> cases y <;> simp_all [isUndefined]

theorem le_iff (hx : x ≠ undefined) (hy : y ≠ undefined) : Scalar.le x y = true ↔ x ≤ y := by
  rw [← not_lt, ← precedes_iff]
  change (!x.isUndefined && !y.isUndefined && !precedes y x) = true ↔ ¬ precedes y x = true
  cases x <;> cases y <;> simp_all [isUndefined]

theorem beq_iff : Scalar.beq x y = true ↔ x ≠ undefined ∧ x = y := by
  change (!x.isUndefined && decide (x = y)) = true ↔ _
  cases x <;> simp [isUndefined]

end Comparisons

/-! ## Rational values of the functions -/

/-- A root that is rational. -/
def root (q : ℚ) : Exact :=
  if Rat.sqrt q * Rat.sqrt q = q then rational (Rat.sqrt q) else undefined

/-- The three functions where their values are rational or infinite, and undefined
elsewhere. -/
scoped instance whereRational : Functions where
  sqrt
    | .rational q => root q
    | .infinite negative => if negative then .undefined else .infinite false
    | .undefined => .undefined
  exp
    | .rational q => if q = 0 then .rational 1 else .undefined
    | .infinite negative => if negative then .rational 0 else .infinite false
    | .undefined => .undefined
  ln
    | .rational q => if q = 1 then .rational 0 else if q = 0 then .infinite true else .undefined
    | .infinite negative => if negative then .undefined else .infinite false
    | .undefined => .undefined

end GradientForest.Exact
