import GradientForest.Proofs.Scalar.Multiples
import GradientForest.Proofs.Split.Scan
import GradientForest.Split.Search

/-!
# The split search on multiplied residuals

What happens to the search for a split when all residuals are multiplied by one rational
number other than zero, in exact arithmetic and with the weights left as they are.  Leaf
values are multiplied by the number, and everything that is a square of residuals by its
square: the errors that rank the columns, the scores and the gains.

The square is positive.  So no comparison comes out differently: the same column is
chosen (`Ranking.select_multiply`), and the scan accepts the same threshold with the
multiplied gain (`ThresholdSplit.search_multiply`).  The gains start against zero and
infinity, which the factor does not move.
-/

namespace GradientForest

open Scalar
open Exact hiding beq lt precedes

variable [Exact.Functions] {a : ℚ} (ha : a ≠ 0)

/-! ## Scores and leaf values -/

namespace GradientSum

variable {ι : Type}

/-- The sums with a multiple of the residuals. -/
def multiply (a : ℚ) (s : GradientSum Exact) : GradientSum Exact :=
  ⟨rational a * s.residual, s.hessian⟩

theorem zero_multiply : multiply a zero = zero := congrArg (GradientSum.mk · 0) factor_zero

include ha

theorem add_multiply (s : GradientSum Exact) (r h : Exact) :
    (s.multiply a).add (rational a * r) h = (s.add r h).multiply a :=
  congrArg (GradientSum.mk · (s.hessian + h)) (factor_add ha s.residual r).symm

theorem minus_multiply (s t : GradientSum Exact) :
    (s.multiply a).minus (t.multiply a) = (s.minus t).multiply a :=
  congrArg (GradientSum.mk · (s.hessian - t.hessian)) (factor_sub ha s.residual t.residual).symm

theorem plus_multiply (s t : GradientSum Exact) :
    (s.multiply a).plus (t.multiply a) = (s.plus t).multiply a :=
  congrArg (GradientSum.mk · (s.hessian + t.hessian)) (factor_add ha s.residual t.residual).symm

theorem ofRows_multiply (residual hessian : ι → Exact) (rows : List ι) :
    ofRows (fun i => rational a * residual i) hessian rows =
      (ofRows residual hessian rows).multiply a := by
  rw [ofRows, ← zero_multiply (a := a)]
  exact List.foldl_hom (multiply a) fun s i => add_multiply ha s (residual i) (hessian i)

theorem score_multiply (lambda : Exact) (s : GradientSum Exact) :
    (s.multiply a).score lambda = rational (a * a) * s.score lambda := by
  have hquotient : rational a * s.residual * (rational a * s.residual) / (s.hessian + lambda) =
      rational (a * a) * (s.residual * s.residual / (s.hessian + lambda)) := by
    rw [factor_mul_factor ha, factor_div (mul_ne_zero ha ha)]
  exact (congrArg (ite _ 0) hquotient).trans (ite_factor _ _)

theorem value_multiply (lambda : Exact) (s : GradientSum Exact) :
    (s.multiply a).value lambda = rational a * s.value lambda := by
  exact (congrArg (ite _ 0) (factor_div ha _ _)).trans (ite_factor _ _)

theorem gain_multiply (lambda : Exact) (left right whole : GradientSum Exact) :
    gain lambda (left.multiply a) (right.multiply a) (whole.multiply a) =
      rational (a * a) * gain lambda left right whole := by
  have hsquare : a * a ≠ 0 := mul_ne_zero ha ha
  simp only [gain, score_multiply ha, factor_sub hsquare, factor_add hsquare]

end GradientSum

section Rows

variable {ι : Type} (column residual hessian : ι → Exact) (rows : List ι)

include ha

theorem leafValue_multiply (lambda : Exact) :
    leafValue lambda (fun i => rational a * residual i) hessian rows =
      rational a * leafValue lambda residual hessian rows := by
  rw [leafValue, leafValue, GradientSum.ofRows_multiply ha, GradientSum.value_multiply ha,
    ite_factor]

theorem indicatorGain_multiply (lambda : Exact) :
    indicatorGain lambda column (fun i => rational a * residual i) hessian rows =
      rational (a * a) * indicatorGain lambda column residual hessian rows := by
  simp only [indicatorGain, GradientSum.ofRows_multiply ha, GradientSum.plus_multiply ha,
    GradientSum.gain_multiply ha]

end Rows

/-! ## Ranking -/

section Fit

include ha

theorem Statistics.mean_multiply (xs : List Exact) :
    mean (xs.map (rational a * ·)) = rational a * mean xs := by
  rw [mean, mean, List.isEmpty_map, List.length_map, sumFromZero_factor ha, factor_div ha,
    ite_factor]

/-- The squares of multiplied terms have a multiplied sum. -/
theorem sum_squares_multiply {β : Type} (term term' : β → Exact)
    (h : ∀ x, term' x = rational a * term x) (xs : List β) :
    sum (xs.map fun x => square (term' x)) =
      rational (a * a) * sum (xs.map fun x => square (term x)) := by
  have hterm : (fun x => square (term' x)) = (rational (a * a) * ·) ∘ fun x => square (term x) :=
    funext fun x => by rw [h, square_factor ha]; rfl
  rw [hterm, ← List.map_map, sum_factor (mul_ne_zero ha ha)]

theorem Ranking.variation_multiply (ys : List Exact) :
    variation (ys.map (rational a * ·)) = rational (a * a) * variation ys := by
  rw [variation, variation, List.isEmpty_map]
  split_ifs
  · exact factor_zero.symm
  · rw [Statistics.mean_multiply ha]
    exact (congrArg sum List.map_map).trans
      (sum_squares_multiply ha (· - Statistics.mean ys) _ (fun y => (factor_sub ha _ _).symm) ys)

namespace LinearFit

variable (xMean yMean : Exact) (pairs : List (Exact × Exact))

/-- The pairs with multiplied second coordinates. -/
def multiply (a : ℚ) : List (Exact × Exact) → List (Exact × Exact) :=
  List.map (Prod.map id (rational a * ·))

theorem moments_multiply :
    moments xMean (rational a * yMean) (multiply a pairs) =
      Prod.map (rational a * ·) id (moments xMean yMean pairs) := by
  have hstart : ((0, 0) : Exact × Exact) = Prod.map (rational a * ·) id (0, 0) :=
    congrArg (Prod.mk · 0) factor_zero.symm
  rw [moments, hstart, multiply, List.foldl_map]
  refine List.foldl_hom (Prod.map (rational a * ·) id) fun s p => congrArg (Prod.mk · _) ?_
  change rational a * s.1 + (p.1 - xMean) * (rational a * p.2 - _) = rational a * (_ + _)
  rw [← factor_sub ha, mul_factor ha, ← factor_add ha]

theorem residualSum_multiply (intercept slope : Exact) :
    residualSum (rational a * intercept) (rational a * slope) (multiply a pairs) =
      rational (a * a) * residualSum intercept slope pairs := by
  have hterm (p : Exact × Exact) :
      rational a * p.2 - (rational a * intercept + rational a * slope * p.1) =
        rational a * (p.2 - (intercept + slope * p.1)) := by
    rw [factor_mul ha, ← factor_add ha, ← factor_sub ha]
  have hpairs : residualSum (rational a * intercept) (rational a * slope) (multiply a pairs) =
      sum (pairs.map fun p =>
        square (rational a * p.2 - (rational a * intercept + rational a * slope * p.1))) :=
    congrArg sum List.map_map
  exact hpairs.trans (sum_squares_multiply ha _ _ hterm pairs)

/-- A fit to multiplied values leaves the error multiplied by the square. -/
theorem ssr_multiply (xs ys : List Exact) :
    (ofLists xs (ys.map (rational a * ·))).ssr = rational (a * a) * (ofLists xs ys).ssr := by
  have hpairs : xs.zip (ys.map (rational a * ·)) = multiply a (xs.zip ys) := List.zip_map_right
  rw [ofLists, ofLists]
  split_ifs with hempty
  · exact factor_zero.symm
  · simp only [hpairs, Statistics.mean_multiply ha, moments_multiply ha, Prod.map_fst,
      Prod.map_snd, id]
    split_ifs with hvaries
    · rw [factor_div ha, factor_mul ha, ← factor_sub ha, residualSum_multiply ha]
    · rw [← residualSum_multiply ha, factor_sub ha, ← factor_mul ha, factor_zero]

end LinearFit

end Fit

namespace Ranking

section Columns

variable {n : ℕ}

/-- A ranked column with a multiple of its error. -/
def multiply (c : ℚ) (r : Fin n × Exact) : Fin n × Exact := (r.1, rational c * r.2)

theorem better_multiply {c : ℚ} (hc : 0 < c) (r s : Fin n × Exact) :
    better (multiply c r) (multiply c s) = multiply c (better r s) := by
  simp only [better, multiply, precedes_factor hc]
  split_ifs with _ _ h
  · rfl
  · rfl
  · exact if_pos h
  · exact if_neg h

theorem best?_multiply {c : ℚ} (hc : 0 < c) (rs : List (Fin n × Exact)) :
    best? (rs.map (multiply c)) = (best? rs).map (multiply c) := by
  cases rs with
  | nil => rfl
  | cons r rs =>
    refine congrArg some ?_
    rw [List.foldl_map]
    exact List.foldl_hom (multiply c) fun r s => better_multiply hc r s

end Columns

variable {ι : Type} (column residual : ι → Exact) (rows : List ι)

include ha

theorem columnError_multiply :
    columnError column (fun i => rational a * residual i) rows =
      rational (a * a) * columnError column residual rows := by
  have hsquare : a * a ≠ 0 := mul_ne_zero ha ha
  have hinfinity := factor_infinite (mul_self_pos.2 ha) false
  have hmap (rows : List ι) : rows.map (fun i => rational a * residual i) =
      (rows.map residual).map (rational a * ·) := List.map_map.symm
  simp only [columnError, hmap, LinearFit.ssr_multiply ha, variation_multiply ha,
    ← factor_add hsquare, isNaN_factor hsquare]
  split_ifs
  · exact hinfinity.symm
  · exact hinfinity.symm
  · rfl

/-- Multiplied residuals choose the same column. -/
theorem select_multiply {n : ℕ} (columns : Fin n → ι → Exact) :
    select columns (fun i => rational a * residual i) rows = select columns residual rows := by
  have hranked : ((List.finRange n).map fun j =>
      (j, columnError (columns j) (fun i => rational a * residual i) rows)) =
        ((List.finRange n).map fun j => (j, columnError (columns j) residual rows)).map
          (multiply (a * a)) := by
    rw [List.map_map]
    exact congrArg (List.map · _) (funext fun j =>
      congrArg (Prod.mk j) (columnError_multiply ha (columns j) residual rows))
  rw [select, select, hranked, best?_multiply (mul_self_pos.2 ha), Option.map_map]
  rfl

end Ranking

/-! ## Thresholds -/

/-- The sample with a multiple of its residual. -/
def Sample.multiply (a : ℚ) (s : Sample Exact) : Sample Exact :=
  { s with residual := rational a * s.residual }

/-- The split with a multiple of its gain. -/
def ThresholdSplit.multiply (c : ℚ) (s : ThresholdSplit Exact) : ThresholdSplit Exact :=
  { s with gain := rational c * s.gain }

namespace ThresholdSplit

/-- The leader with multiples of its gains. -/
def Leader.multiply (c : ℚ) (l : Leader Exact) : Leader Exact :=
  ⟨rational c * l.bar, l.best.multiply c⟩

theorem none_multiply (c : ℚ) : none.multiply c = none :=
  congrArg (ThresholdSplit.mk false nan) factor_zero

theorem start_multiply {c : ℚ} (hc : 0 < c) : Leader.start.multiply c = Leader.start :=
  congrArg₂ Leader.mk (factor_infinite hc true) (none_multiply c)

theorem consider_multiply {c : ℚ} (hc : 0 < c) (l : Leader Exact) (gain threshold : Exact) :
    (l.multiply c).consider (rational c * gain) threshold =
      (l.consider gain threshold).multiply c := by
  have hpositive : lt 0 (rational c * gain) = lt 0 gain := by
    rw [← lt_factor hc 0 gain, factor_zero]
  simp only [Leader.consider, Leader.multiply, lt_factor hc, hpositive]
  split_ifs <;> rfl

section Search

variable {ι : Type} (column residual hessian : ι → Exact) (rows : List ι)

include ha

theorem scan_multiply (lambda : Exact) (total left : GradientSum Exact) (leader : Leader Exact)
    (xs : List (Sample Exact)) :
    scan lambda (total.multiply a) (left.multiply a) (leader.multiply (a * a))
        (xs.map (Sample.multiply a)) =
      (scan lambda total left leader xs).multiply (a * a) := by
  induction xs generalizing left leader with
  | nil => rfl
  | cons x xs ih =>
    cases xs with
    | nil => rfl
    | cons y xs =>
      have hleft : (left.multiply a).add (x.multiply a).residual (x.multiply a).hessian =
          (left.add x.residual x.hessian).multiply a := GradientSum.add_multiply ha _ _ _
      rw [List.map_cons, List.map_cons, scan, scan, hleft, GradientSum.minus_multiply ha,
        GradientSum.gain_multiply ha, apply_ite (Leader.multiply (a * a)), ← ih, ← ih,
        ← consider_multiply (mul_self_pos.2 ha)]
      rfl

/-- Multiplied residuals accept the same threshold, with the gain multiplied by the
square. -/
theorem search_multiply (lambda : Exact) :
    search lambda column (fun i => rational a * residual i) hessian rows =
      (search lambda column residual hessian rows).multiply (a * a) := by
  rw [search_eq_rows, search_eq_rows]
  generalize Sorting.sort (fun i k => lt (column i) (column k))
    (rows.filter fun i => !isNaN (column i)) = sorted
  have hsamples : (sorted.map fun i => ⟨column i, rational a * residual i, hessian i⟩) =
      (sorted.map fun i => ⟨column i, residual i, hessian i⟩).map (Sample.multiply a) := by
    rw [List.map_map]
    rfl
  have hscan := scan_multiply ha lambda (GradientSum.ofRows residual hessian sorted) .zero .start
    (sorted.map fun i => ⟨column i, residual i, hessian i⟩)
  rw [GradientSum.zero_multiply, start_multiply (mul_self_pos.2 ha),
    ← GradientSum.ofRows_multiply ha, ← hsamples] at hscan
  exact congrArg Leader.best hscan

end Search

end ThresholdSplit

/-! ## The split of a node -/

/-- The split with a multiple of its gain. -/
def Split.multiply {n : ℕ} (c : ℚ) (s : Split Exact n) : Split Exact n :=
  { s with gain := rational c * s.gain }

include ha in
/-- Multiplied residuals split a node in the same way. -/
theorem Split.best?_multiply (lambda : Exact) (m : Matrix Exact) (catalog : Catalog)
    (residual hessian : Fin m.height → Exact) (rows : List (Fin m.height)) :
    best? lambda m catalog (fun i => rational a * residual i) hessian rows =
      (best? lambda m catalog residual hessian rows).map (multiply (a * a)) := by
  have hcolumn (j : Fin m.width) :
      ofColumn lambda m catalog (fun i => rational a * residual i) hessian rows j =
        (ofColumn lambda m catalog residual hessian rows j).multiply (a * a) := by
    rw [ofColumn, ofColumn]
    cases catalog.kind j with
    | scalar => simp only [ThresholdSplit.search_multiply ha]; rfl
    | categorical => simp only [indicatorGain_multiply ha]; rfl
  rw [best?, best?, Ranking.select_multiply ha, Option.map_map]
  exact congrArg (Option.map · _) (funext hcolumn)

end GradientForest
