import Mathlib.Algebra.BigOperators.Ring.List
import Mathlib.Algebra.Order.BigOperators.Group.List
import Mathlib.Tactic.Linarith
import GradientForest.Proofs.Split.Exhaustive
import GradientForest.Proofs.Split.Selection

/-!
# The ranking is by least squares

In exact arithmetic the error of a column is a minimum.  No line for the rows with a value
and no constant for the rows without one leave a smaller sum of squares
(`isLeast_leastError`).  So the chosen column is the leftmost one of those that can explain
the residuals best (`select_leastSquares`).

What a fit leaves is orthogonal to whatever another line would add to it, and to add
something orthogonal makes no sum of squares smaller (`sum_sq_le`, `lineError_least`).
-/

namespace GradientForest

open Scalar

/-! ## Least sums of squares -/

section Squares

variable {κ : Type} (l : List κ) (x y : κ → ℚ)

/-- A sum of squares does not get smaller by adding something orthogonal. -/
theorem sum_sq_le {e d : κ → ℚ} (h : (l.map fun k => e k * d k).sum = 0) :
    (l.map fun k => e k ^ 2).sum ≤ (l.map fun k => (e k + d k) ^ 2).sum := by
  have hterm (k : κ) : (e k + d k) ^ 2 = e k ^ 2 + 2 * (e k * d k) + d k ^ 2 := by ring
  have hadded : 0 ≤ (l.map fun k => d k ^ 2).sum :=
    List.sum_nonneg (List.forall_mem_map.2 fun k _ => sq_nonneg (d k))
  simp only [hterm, List.sum_map_add, List.sum_map_mul_left, h]
  linarith

/-- The mean of some numbers, and zero for none. -/
def rationalMean : ℚ := (l.map y).sum / l.length

/-- The distance of a number from the mean. -/
def deviation (k : κ) : ℚ := y k - rationalMean l y

/-- The products of the distances from two means, summed. -/
def comoment : ℚ := (l.map fun k => deviation l x k * deviation l y k).sum

/-- The slope of the least-squares line, and zero for equal first coordinates. -/
def lineSlope : ℚ := comoment l x y / comoment l x x

/-- The value of the least-squares line at zero. -/
def lineIntercept : ℚ := rationalMean l y - lineSlope l x y * rationalMean l x

/-- The squared distances from a line, summed. -/
def lineError (a b : ℚ) : ℚ := (l.map fun k => (y k - (a + b * x k)) ^ 2).sum

theorem sum_deviation : (l.map (deviation l y)).sum = 0 := by
  by_cases hl : l = []
  · rw [hl, List.map_nil, List.sum_nil]
  have hlength : (l.length : ℚ) ≠ 0 := by
    exact_mod_cast (List.length_pos_of_ne_nil hl).ne'
  have hterm : deviation l y = fun k => y k + -rationalMean l y := funext fun k => by
    rw [deviation, sub_eq_add_neg]
  rw [hterm, List.sum_map_add, List.map_const', List.sum_replicate, nsmul_eq_mul, rationalMean,
    mul_neg, mul_div_cancel₀ _ hlength, add_neg_cancel]

theorem comoment_self_nonneg : 0 ≤ comoment l x x :=
  List.sum_nonneg (List.forall_mem_map.2 fun k _ => mul_self_nonneg (deviation l x k))

/-- Equal first coordinates have no products of distances either. -/
theorem lineSlope_mul : lineSlope l x y * comoment l x x = comoment l x y := by
  by_cases hequal : comoment l x x = 0
  · have hzero : ∀ k ∈ l, deviation l x k = 0 := fun k hk => by
      have hsquares := List.forall_mem_map.2 fun k (_ : k ∈ l) => mul_self_nonneg (deviation l x k)
      exact mul_self_eq_zero.1 (List.all_zero_of_le_zero_le_of_sum_eq_zero hsquares hequal
        (List.mem_map_of_mem hk))
    have hproducts : comoment l x y = 0 :=
      List.sum_eq_zero (List.forall_mem_map.2 fun k hk => by rw [hzero k hk, zero_mul])
    rw [hequal, mul_zero, hproducts]
  · exact div_mul_cancel₀ _ hequal

/-- No line is closer than the least-squares line. -/
theorem lineError_least (a b : ℚ) :
    lineError l x y (lineIntercept l x y) (lineSlope l x y) ≤ lineError l x y a b := by
  set slope := lineSlope l x y with hslope
  have hmul : slope * comoment l x x = comoment l x y := lineSlope_mul l x y
  let e (k : κ) : ℚ := y k - (lineIntercept l x y + slope * x k)
  let d (k : κ) : ℚ := lineIntercept l x y - a + (slope - b) * x k
  let shift := lineIntercept l x y - a + (slope - b) * rationalMean l x
  have horthogonal : (l.map fun k => e k * d k).sum = 0 := by
    have hterm (k : κ) : e k * d k =
        shift * deviation l y k + -(shift * slope) * deviation l x k +
          ((slope - b) * (deviation l x k * deviation l y k) +
            -(slope * (slope - b)) * (deviation l x k * deviation l x k)) := by
      simp only [e, d, shift, lineIntercept, ← hslope, deviation]
      ring
    simp only [hterm, List.sum_map_add, List.sum_map_mul_left, sum_deviation]
    change _ + ((slope - b) * comoment l x y + -(slope * (slope - b)) * comoment l x x) = 0
    rw [← hmul]
    ring
  have hle := sum_sq_le l horthogonal
  have hother (k : κ) : e k + d k = y k - (a + b * x k) := by ring
  simp only [hother] at hle
  exact hle

/-- No constant is closer than the mean. -/
theorem sum_sq_deviation_le (c : ℚ) :
    (l.map fun k => deviation l y k ^ 2).sum ≤ (l.map fun k => (y k - c) ^ 2).sum := by
  have horthogonal : (l.map fun k => deviation l y k * (rationalMean l y - c)).sum = 0 := by
    rw [List.sum_map_mul_right, sum_deviation, zero_mul]
  have hle := sum_sq_le l horthogonal
  have hother (k : κ) : deviation l y k + (rationalMean l y - c) = y k - c :=
    sub_add_sub_cancel _ _ _
  simp only [hother] at hle
  exact hle

end Squares

/-! ## Statistics of rational numbers -/

section Exact

variable [Exact.Functions] {κ : Type} (l : List κ) (x y : κ → ℚ)

theorem Exact.foldl_add_rational (q : ℚ) :
    (l.map fun k => rational (y k)).foldl (· + ·) (rational q) =
      rational (q + (l.map y).sum) := by
  induction l generalizing q with
  | nil => simp
  | cons k l ih =>
    rw [List.map_cons, List.foldl_cons, rational_add, ih, List.map_cons, List.sum_cons]
    exact congrArg rational (by ring)

theorem Exact.sum_rational :
    Scalar.sum (l.map fun k => rational (y k)) = rational (l.map y).sum :=
  (foldl_add_rational l y 0).trans (congrArg rational (zero_add _))

theorem Statistics.mean_rational :
    mean (l.map fun k => Exact.rational (y k)) = .rational (rationalMean l y) := by
  have hsum : sumFromZero (l.map fun k => Exact.rational (y k)) = .rational (l.map y).sum :=
    (Exact.foldl_add_rational l y 0).trans (congrArg Exact.rational (zero_add _))
  rw [mean, hsum, List.length_map]
  cases l with
  | nil => simp [rationalMean]
  | cons k l =>
    exact Exact.rational_div _ (by exact_mod_cast (Nat.succ_ne_zero l.length))

theorem Ranking.variation_rational :
    variation (l.map fun k => Exact.rational (y k)) =
      .rational (l.map fun k => deviation l y k ^ 2).sum := by
  have hterm (k : κ) : square (Exact.rational (y k) - .rational (rationalMean l y)) =
      .rational (deviation l y k ^ 2) := by
    rw [Exact.rational_sub, square, Exact.rational_mul, sq, deviation]
  rw [variation, Statistics.mean_rational]
  split_ifs with hempty
  · rw [List.isEmpty_map, List.isEmpty_iff] at hempty
    rw [hempty]
    rfl
  · refine Eq.trans ?_ (Exact.sum_rational l fun k => deviation l y k ^ 2)
    simp only [List.map_map, ← hterm]
    rfl

namespace LinearFit

theorem moments_rational :
    moments (.rational (rationalMean l x)) (.rational (rationalMean l y))
        (l.map fun k => (Exact.rational (x k), Exact.rational (y k))) =
      (.rational (comoment l x y), .rational (comoment l x x)) := by
  have hfold (xMean yMean p q : ℚ) :
      (l.map fun k => (Exact.rational (x k), Exact.rational (y k))).foldl
          (fun (sxy, sxx) (x, y) =>
            let dx := x - .rational xMean
            (sxy + dx * (y - .rational yMean), sxx + dx * dx)) (.rational p, .rational q) =
        (.rational (p + (l.map fun k => (x k - xMean) * (y k - yMean)).sum),
          .rational (q + (l.map fun k => (x k - xMean) * (x k - xMean)).sum)) := by
    induction l generalizing p q with
    | nil => simp
    | cons k l ih =>
      simp only [List.map_cons, List.foldl_cons, List.sum_cons, Exact.rational_sub,
        Exact.rational_mul, Exact.rational_add] at ih ⊢
      rw [ih, add_assoc, add_assoc]
  refine (hfold _ _ 0 0).trans ?_
  rw [zero_add, zero_add]
  rfl

theorem residualSum_rational (intercept slope : ℚ) :
    residualSum (.rational intercept) (.rational slope)
        (l.map fun k => (Exact.rational (x k), Exact.rational (y k))) =
      .rational (lineError l x y intercept slope) := by
  have hterm (k : κ) : square (Exact.rational (y k) -
      (.rational intercept + .rational slope * .rational (x k))) =
        .rational ((y k - (intercept + slope * x k)) ^ 2) := by
    rw [Exact.rational_mul, Exact.rational_add, Exact.rational_sub, square, Exact.rational_mul, sq]
  refine Eq.trans ?_ (Exact.sum_rational l fun k => (y k - (intercept + slope * x k)) ^ 2)
  simp only [residualSum, List.map_map, ← hterm]
  rfl

/-- The fit is the least-squares line. -/
theorem ssr_rational :
    (ofLists (l.map fun k => Exact.rational (x k)) (l.map fun k => Exact.rational (y k))).ssr =
      .rational (lineError l x y (lineIntercept l x y) (lineSlope l x y)) := by
  have hslope : (if lt 0 (Exact.rational (comoment l x x)) then
      Exact.rational (comoment l x y) / .rational (comoment l x x) else 0) =
        .rational (lineSlope l x y) := by
    simp only [Exact.zero_eq, Exact.lt_rational, decide_eq_true_eq]
    split_ifs with hvaries
    · exact Exact.rational_div _ hvaries.ne'
    · have hequal : comoment l x x = 0 :=
        le_antisymm (not_lt.1 hvaries) (comoment_self_nonneg l x)
      rw [lineSlope, hequal, div_zero]
  cases l with
  | nil => rfl
  | cons k l =>
    rw [ofLists, if_neg (by simp)]
    simp only [Statistics.mean_rational, List.zip_map', moments_rational, hslope,
      Exact.rational_mul, Exact.rational_sub, residualSum_rational]
    rfl

end LinearFit

end Exact

/-! ## The error of a column -/

namespace Ranking

variable {ι : Type}

section Column

variable (value : ι → Option ℚ) (residual : ι → ℚ) (rows : List ι)

/-- What remains unexplained when the rows with a value `x` are given `a + b * x` and the
others `c`. -/
def unexplained (a b c : ℚ) : ℚ :=
  (rows.map fun i => match value i with
    | some x => (residual i - a - b * x) ^ 2
    | none => (residual i - c) ^ 2).sum

/-- The rows with a value. -/
def present : List ι := rows.filter fun i => (value i).isSome

/-- The rows without a value. -/
def missing : List ι := rows.filter fun i => (value i).isNone

/-- What the least-squares line leaves of the rows with a value, and the mean of the
others. -/
def leastError : ℚ :=
  let x (i : ι) := (value i).getD 0
  let l := present value rows
  let l' := missing value rows
  lineError l x residual (lineIntercept l x residual) (lineSlope l x residual) +
    (l'.map fun i => deviation l' residual i ^ 2).sum

theorem unexplained_eq (a b c : ℚ) : unexplained value residual rows a b c =
    lineError (present value rows) (fun i => (value i).getD 0) residual a b +
      ((missing value rows).map fun i => (residual i - c) ^ 2).sum := by
  induction rows with
  | nil => exact (add_zero _).symm
  | cons i rows ih =>
    simp only [unexplained, present, missing, lineError, List.map_cons, List.sum_cons,
      List.filter_cons] at ih ⊢
    rw [ih]
    cases hv : value i with
    | none => simp [add_left_comm]
    | some x => simp [hv, sub_sub, add_assoc]

/-- No line and no constant leave less. -/
theorem isLeast_leastError :
    IsLeast (Set.range fun p : ℚ × ℚ × ℚ => unexplained value residual rows p.1 p.2.1 p.2.2)
      (leastError value residual rows) := by
  constructor
  · exact ⟨(_, _, _), unexplained_eq value residual rows _ _ _⟩
  · rintro - ⟨⟨a, b, c⟩, rfl⟩
    refine le_of_le_of_eq ?_ (unexplained_eq value residual rows a b c).symm
    exact add_le_add (lineError_least _ _ _ a b) (sum_sq_deviation_le _ _ c)

variable [Exact.Functions]

theorem isNaN_ofOption (v : Option ℚ) : isNaN (Exact.ofOption v) = v.isNone := by
  cases v with
  | none => rfl
  | some x => exact Exact.isNaN_rational x

theorem fitError_rational :
    fitError (fun i => Exact.ofOption (value i)) (fun i => .rational (residual i)) rows =
      .rational (leastError value residual rows) := by
  have hvalues : (present value rows).map (fun i => Exact.ofOption (value i)) =
      (present value rows).map fun i => Exact.rational ((value i).getD 0) :=
    List.map_congr_left fun i hi => by
      obtain ⟨x, hx⟩ := Option.isSome_iff_exists.1 (List.mem_filter.1 hi).2
      rw [hx]
      rfl
  have hpresent :
      (rows.filter fun i => !isNaN (Exact.ofOption (value i))) = present value rows := by
    simp only [isNaN_ofOption, Option.not_isNone, present]
  have hmissing : (rows.filter fun i => isNaN (Exact.ofOption (value i))) = missing value rows := by
    simp only [isNaN_ofOption, missing]
  simp only [fitError, hpresent, hmissing, hvalues, LinearFit.ssr_rational, variation_rational]
  rfl

/-- A column varies when it has two different values. -/
theorem varies_rational_iff : Varies (fun i => Exact.ofOption (value i)) rows ↔
    1 < (ThresholdSplit.valuesOn value rows).card := by
  simp only [Varies, isNaN_ofOption, Option.isNone_eq_false_iff, Option.isSome_iff_exists,
    Finset.one_lt_card, ThresholdSplit.valuesOn, List.mem_toFinset, List.mem_filterMap]
  constructor
  · rintro ⟨i, hi, k, hk, ⟨x, hx⟩, ⟨y, hy⟩, hne⟩
    rw [hx, hy, Exact.ofOption, Exact.ofOption, Exact.beq_rational, decide_eq_false_iff_not] at hne
    exact ⟨x, ⟨i, hi, hx⟩, y, ⟨k, hk, hy⟩, hne⟩
  · rintro ⟨x, ⟨i, hi, hx⟩, y, ⟨k, hk, hy⟩, hne⟩
    refine ⟨i, hi, k, hk, ⟨x, hx⟩, ⟨y, hy⟩, ?_⟩
    rw [hx, hy, Exact.ofOption, Exact.ofOption, Exact.beq_rational, decide_eq_false_iff_not]
    exact hne

/-- The error of a column that varies is what remains unexplained at least. -/
theorem columnError_rational (h : 1 < (ThresholdSplit.valuesOn value rows).card) :
    columnError (fun i => Exact.ofOption (value i)) (fun i => .rational (residual i)) rows =
      .rational (leastError value residual rows) := by
  have hbeq {x y z : Exact} (hx : beq x z = true) (hy : beq y z = true) : beq x y = true := by
    rw [Exact.beq_iff] at hx hy ⊢
    exact ⟨hx.1, hx.2.trans hy.2.symm⟩
  rw [columnError_of_varies hbeq ((varies_rational_iff value rows).2 h), fitError_rational,
    Exact.isNaN_rational, if_neg Bool.false_ne_true]

end Column

/-- The errors of the columns that vary are minima, and the leftmost one with the least error is
chosen.  When no column varies the first one is chosen, and none when there are none. -/
theorem select_leastSquares [Exact.Functions] {n : ℕ} (value : Fin n → ι → Option ℚ)
    (residual : ι → ℚ) (rows : List ι) :
    (∀ j, 1 < (ThresholdSplit.valuesOn (value j) rows).card →
      columnError (fun i => Exact.ofOption (value j i)) (fun i => .rational (residual i)) rows =
        .rational (leastError (value j) residual rows) ∧
      IsLeast (Set.range fun p : ℚ × ℚ × ℚ =>
        unexplained (value j) residual rows p.1 p.2.1 p.2.2)
          (leastError (value j) residual rows)) ∧
    (n = 0 → select (fun j i => Exact.ofOption (value j i)) (fun i => .rational (residual i))
      rows = none) ∧
    ((∀ j, ¬ 1 < (ThresholdSplit.valuesOn (value j) rows).card) → ∀ j : Fin n, j.val = 0 →
      select (fun j i => Exact.ofOption (value j i)) (fun i => .rational (residual i)) rows =
        some j) ∧
    ((∃ j, 1 < (ThresholdSplit.valuesOn (value j) rows).card) → ∃ j,
      select (fun j i => Exact.ofOption (value j i)) (fun i => .rational (residual i)) rows =
        some j ∧
      1 < (ThresholdSplit.valuesOn (value j) rows).card ∧
      ∀ k, 1 < (ThresholdSplit.valuesOn (value k) rows).card →
        leastError (value j) residual rows ≤ leastError (value k) residual rows ∧
          (leastError (value k) residual rows = leastError (value j) residual rows → j ≤ k)) := by
  have hmarked (j : Fin n) (h : ¬ 1 < (ThresholdSplit.valuesOn (value j) rows).card) :
      columnError (fun i => Exact.ofOption (value j i)) (fun i => .rational (residual i)) rows =
        infinity :=
    columnError_of_not_varies (mt (varies_rational_iff (value j) rows).1 h)
  refine ⟨fun j h => ⟨columnError_rational (value j) residual rows h,
    isLeast_leastError (value j) residual rows⟩, select_eq_none_iff.2, fun h j hj => ?_, ?_⟩
  · refine select_eq_some_iff.2 fun k => .inr ⟨?_, Fin.le_def.2 (hj ▸ Nat.zero_le _)⟩
    rw [hmarked j (h j), hmarked k (h k)]
  · rintro ⟨l, hl⟩
    obtain ⟨j, hj⟩ := exists_select (fun j i => Exact.ofOption (value j i))
      (fun i => .rational (residual i)) rows l.pos
    have hahead := select_eq_some_iff.1 hj
    have hvaries : 1 < (ThresholdSplit.valuesOn (value j) rows).card := by
      by_contra hconstant
      -- the mark is not ahead of the error of a column that varies
      have hl := columnError_rational (value l) residual rows hl
      rcases hahead l with h | ⟨heq, -⟩
      · rw [hmarked j hconstant, hl] at h
        cases h
      · rw [hmarked j hconstant, hl] at heq
        cases heq
    refine ⟨j, hj, hvaries, fun k hk => ?_⟩
    have hahead := hahead k
    rw [Ahead, columnError_rational (value j) residual rows hvaries,
      columnError_rational (value k) residual rows hk] at hahead
    rcases hahead with h | ⟨heq, hle⟩
    · have hlt := of_decide_eq_true h
      exact ⟨hlt.le, fun heq => absurd heq hlt.ne'⟩
    · exact ⟨(Exact.rational.inj heq).le, fun _ => hle⟩

open scoped Exact

/-- The first column explains the rows with a value and nothing of the others, so the second one
is chosen. -/
example :
    let value : Fin 2 → Fin 4 → Option ℚ :=
      ![![some 1, some 2, none, none], ![some 1, some 2, some 3, some 4]]
    select (fun j i => Exact.ofOption (value j i)) (fun i => .rational (![1, 2, 0, 9] i))
      [0, 1, 2, 3] = some 1 := by
  decide +kernel

end Ranking

end GradientForest
