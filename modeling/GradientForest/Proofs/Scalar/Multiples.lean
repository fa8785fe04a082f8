import GradientForest.Proofs.Scalar.Exact

/-!
# Multiples of exact numbers

A rational factor other than zero distributes over sums and moves through products and
quotients, also where infinities and the undefined value take part.  A positive factor
changes no comparison.

So an expression in exact numbers scales with them, whether or not its value is rational.
-/

namespace GradientForest.Exact

open Scalar

/-! ## Signs -/

theorem decide_mul_neg {a b : ℚ} (ha : a ≠ 0) (hb : b ≠ 0) :
    decide (a * b < 0) = (decide (a < 0) != decide (b < 0)) := by
  have hpos {q : ℚ} (hq : q ≠ 0) : 0 < q ↔ ¬q < 0 :=
    ⟨not_lt_of_gt, fun h => lt_of_le_of_ne (not_lt.1 h) hq.symm⟩
  rw [Bool.eq_iff_iff, decide_eq_true_iff, mul_neg_iff, hpos ha, hpos hb]
  by_cases h : a < 0 <;> by_cases h' : b < 0 <;> simp [h, h']

theorem scale_of_ne_zero {a : ℚ} (ha : a ≠ 0) (negative : Bool) :
    scale negative a = .infinite (negative != decide (a < 0)) := if_neg ha

theorem mul_infinite {a : ℚ} (ha : a ≠ 0) (negative : Bool) :
    mul (.rational a) (.infinite negative) = .infinite (negative != decide (a < 0)) :=
  scale_of_ne_zero ha negative

theorem mul_scale {a : ℚ} (ha : a ≠ 0) (negative : Bool) (b : ℚ) :
    mul (.rational a) (scale negative b) = scale negative (a * b) := by
  by_cases hb : b = 0
  · rw [hb, mul_zero, scale, if_pos rfl]
    rfl
  · rw [scale_of_ne_zero hb, scale_of_ne_zero (mul_ne_zero ha hb), mul_infinite ha,
      decide_mul_neg ha hb]
    cases negative <;> cases decide (a < 0) <;> cases decide (b < 0) <;> rfl

/-! ## A factor other than zero -/

section Factor

variable [Functions] {a : ℚ} (ha : a ≠ 0) (x y : Exact)

theorem mul_comm : x * y = y * x := by
  change mul x y = mul y x
  cases x with
  | rational p =>
    cases y with
    | rational q => exact congrArg rational (Rat.mul_comm p q)
    | infinite negative => rfl
    | undefined => rfl
  | infinite negative =>
    cases y with
    | rational q => rfl
    | infinite negative' => cases negative <;> cases negative' <;> rfl
    | undefined => rfl
  | undefined => cases y <;> rfl

include ha

theorem factor_mul : rational a * x * y = rational a * (x * y) := by
  change mul (mul _ x) y = mul _ (mul x y)
  cases x with
  | rational p =>
    cases y with
    | rational q => exact congrArg rational (Rat.mul_assoc a p q)
    | infinite negative => exact (mul_scale ha negative p).symm
    | undefined => rfl
  | infinite negative =>
    rw [mul_infinite ha]
    cases y with
    | rational q =>
      rw [mul, mul, mul_scale ha]
      by_cases hq : q = 0
      · rw [hq, mul_zero]
        rfl
      · rw [scale_of_ne_zero hq, scale_of_ne_zero (mul_ne_zero ha hq), decide_mul_neg ha hq]
        cases negative <;> cases decide (a < 0) <;> cases decide (q < 0) <;> rfl
    | infinite negative' =>
      rw [mul, mul, mul_infinite ha]
      cases negative <;> cases negative' <;> cases decide (a < 0) <;> rfl
    | undefined => rfl
  | undefined => cases y <;> rfl

theorem mul_factor : x * (rational a * y) = rational a * (x * y) := by
  rw [mul_comm x, factor_mul ha, mul_comm y]

theorem factor_add : rational a * (x + y) = rational a * x + rational a * y := by
  change mul _ (add x y) = add (mul _ x) (mul _ y)
  cases x with
  | rational p =>
    cases y with
    | rational q => exact congrArg rational (Rat.mul_add a p q)
    | infinite negative => rw [add, mul_infinite ha]; rfl
    | undefined => rfl
  | infinite negative =>
    rw [mul_infinite ha]
    cases y with
    | rational q => exact mul_infinite ha negative
    | infinite negative' =>
      rw [mul_infinite ha, add, add, apply_ite (mul (rational a)), mul_infinite ha]
      cases negative <;> cases negative' <;> cases decide (a < 0) <;> rfl
    | undefined => rfl
  | undefined => cases y <;> rfl

theorem factor_sub : rational a * (x - y) = rational a * x - rational a * y := by
  have hneg : rational a * neg y = neg (rational a * y) := by
    change mul _ (neg y) = neg (mul _ y)
    cases y with
    | rational q => exact congrArg rational (Rat.mul_neg a q)
    | infinite negative =>
      rw [neg, mul_infinite ha, mul_infinite ha, neg]
      cases negative <;> cases decide (a < 0) <;> rfl
    | undefined => rfl
  exact (factor_add ha x (neg y)).trans (congrArg (rational a * x + ·) hneg)

theorem factor_div : rational a * x / y = rational a * (x / y) := by
  change div (mul _ x) y = mul _ (div x y)
  cases x with
  | rational p =>
    cases y with
    | rational q =>
      rw [mul, div, div]
      split_ifs with hq
      · by_cases hp : p = 0
        · rw [hp, mul_zero, byZero, if_pos rfl]
          rfl
        · rw [byZero, if_neg (mul_ne_zero ha hp), byZero, if_neg hp, mul_infinite ha,
            decide_mul_neg ha hp]
          exact congrArg infinite (Bool.xor_comm _ _)
      · exact congrArg rational (mul_div_assoc a p q)
    | infinite negative => exact congrArg rational (mul_zero a).symm
    | undefined => rfl
  | infinite negative =>
    rw [mul_infinite ha]
    cases y with
    | rational q =>
      rw [div, div, mul_infinite ha]
      cases negative <;> cases decide (a < 0) <;> cases decide (q < 0) <;> rfl
    | infinite negative' => rfl
    | undefined => rfl
  | undefined => cases y <;> rfl

theorem isNaN_factor : isNaN (rational a * x) = isNaN x := by
  rw [Bool.eq_iff_iff, isNaN_iff, isNaN_iff]
  change mul _ x = _ ↔ _
  cases x with
  | rational p => exact iff_of_false nofun nofun
  | infinite negative =>
    rw [mul_infinite ha]
    exact iff_of_false nofun nofun
  | undefined => exact iff_of_true rfl rfl

theorem factor_mul_factor : rational a * x * (rational a * y) = rational (a * a) * (x * y) := by
  rw [mul_factor ha, factor_mul ha, ← factor_mul ha (rational a), rational_mul]

theorem square_factor : square (rational a * x) = rational (a * a) * square x :=
  factor_mul_factor ha x x

theorem foldl_factor (xs : List Exact) (x : Exact) :
    (xs.map (rational a * ·)).foldl (· + ·) (rational a * x) =
      rational a * xs.foldl (· + ·) x := by
  rw [List.foldl_map]
  exact List.foldl_hom (rational a * ·) fun x y => (factor_add ha x y).symm

omit ha in
theorem factor_zero : rational a * 0 = 0 := congrArg rational (mul_zero a)

omit ha in
theorem factor_neg_zero : rational a * -0 = -0 := factor_zero

omit ha in
theorem ite_factor (p : Prop) [Decidable p] :
    (if p then 0 else rational a * x) = rational a * if p then 0 else x := by
  rw [apply_ite (rational a * ·), factor_zero]

theorem sum_factor (xs : List Exact) :
    Scalar.sum (xs.map (rational a * ·)) = rational a * Scalar.sum xs := by
  rw [Scalar.sum, Scalar.sum, ← foldl_factor ha, factor_neg_zero]

theorem sumFromZero_factor (xs : List Exact) :
    sumFromZero (xs.map (rational a * ·)) = rational a * sumFromZero xs := by
  rw [sumFromZero, sumFromZero, ← foldl_factor ha, factor_zero]

end Factor

/-! ## A positive factor -/

section Positive

variable [Functions] {c : ℚ} (hc : 0 < c) (x y : Exact)

include hc

theorem factor_infinite (negative : Bool) :
    rational c * infinite negative = infinite negative := by
  refine (mul_infinite hc.ne' negative).trans (congrArg infinite ?_)
  rw [decide_eq_false (not_lt_of_gt hc)]
  exact Bool.xor_false negative

theorem precedes_factor :
    Scalar.precedes (rational c * x) (rational c * y) = Scalar.precedes x y := by
  cases x with
  | rational p =>
    cases y with
    | rational q => exact decide_eq_decide.2 (mul_lt_mul_iff_right₀ hc)
    | infinite negative => rw [factor_infinite hc]; rfl
    | undefined => rfl
  | infinite negative =>
    rw [factor_infinite hc]
    cases y with
    | rational q => rfl
    | infinite negative' => rw [factor_infinite hc]
    | undefined => rfl
  | undefined => cases y <;> rfl

theorem lt_factor : Scalar.lt (rational c * x) (rational c * y) = Scalar.lt x y := by
  have hdefined (z : Exact) : isUndefined (rational c * z) = z.isUndefined := by
    cases z with
    | rational p => rfl
    | infinite negative => rw [factor_infinite hc]
    | undefined => rfl
  change (!isUndefined _ && !isUndefined _ &&
    Scalar.precedes (rational c * x) (rational c * y)) = _
  rw [hdefined, hdefined, precedes_factor hc]
  rfl

end Positive

end GradientForest.Exact
