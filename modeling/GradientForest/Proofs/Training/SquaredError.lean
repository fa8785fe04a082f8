import Mathlib.Algebra.BigOperators.Field
import Mathlib.Algebra.Order.BigOperators.Group.Finset
import Mathlib.Data.Fin.VecNotation
import Mathlib.Tactic.Linarith
import Mathlib.Tactic.Positivity
import GradientForest.Proofs.Training.Rational

/-!
# Boosting does not increase the squared error

In exact arithmetic a round of regression moves the residuals of a leaf by a multiple of
their regularised mean `R / (n + lambda)`.  With a learning rate of at most 2 that does
not increase the sum of their squares (`sum_sub_sq_le`).  The leaves partition the rows,
so the squared error of all rows does not increase either (`squaredError_move_le`).

On rational data thresholds are rational too, so they decide every row
(`Dataset.IsRational.decided`).  Hence each round moves the predictions in just this way
(`Training.exists_move`), and no round of a training increases the squared error
(`Settings.train_squaredError_le`).
-/

namespace GradientForest

open Scalar

/-! ## Moving towards the regularised mean -/

section Move

variable {ι : Type} (lambda rate : ℚ)

/-- The squared differences between labels and predictions, summed. -/
def squaredError [Fintype ι] (label prediction : ι → ℚ) : ℚ :=
  ∑ i, (label i - prediction i) ^ 2

/-- The sum of some numbers by their count, with regularisation. -/
def regularisedMean (rows : Finset ι) (r : ι → ℚ) : ℚ := (∑ i ∈ rows, r i) / (rows.card + lambda)

/-- The predictions after a round whose tree sends the rows to leaves. -/
def move [Fintype ι] (leafOf : ι → ℕ) (label prediction : ι → ℚ) (i : ι) : ℚ :=
  prediction i + rate * regularisedMean lambda {k | leafOf k = leafOf i}
    fun k => label k - prediction k

variable {lambda rate}

theorem sum_sub_sq (rows : Finset ι) (r : ι → ℚ) (c : ℚ) :
    ∑ i ∈ rows, (r i - c) ^ 2 =
      ∑ i ∈ rows, r i ^ 2 - c * (2 * ∑ i ∈ rows, r i - rows.card * c) := by
  have hterm : ∀ i, (r i - c) ^ 2 = r i ^ 2 - (2 * c * r i - c ^ 2) := fun i => by ring
  simp only [hterm, Finset.sum_sub_distrib, ← Finset.mul_sum, Finset.sum_const, nsmul_eq_mul]
  ring

theorem sum_sub_sq_le (hlambda : 0 ≤ lambda) (hrate : 0 ≤ rate) (hrate' : rate ≤ 2)
    (rows : Finset ι) (r : ι → ℚ) :
    ∑ i ∈ rows, (r i - rate * regularisedMean lambda rows r) ^ 2 ≤ ∑ i ∈ rows, r i ^ 2 := by
  rcases rows.eq_empty_or_nonempty with rfl | hrows
  · simp
  have hcard : (0 : ℚ) < rows.card := by exact_mod_cast hrows.card_pos
  set w := regularisedMean lambda rows r with hw
  have hsum : ∑ i ∈ rows, r i = w * (rows.card + lambda) := by
    rw [hw, regularisedMean, div_mul_cancel₀]
    linarith
  have hgain : 0 ≤ rate * w * (2 * (w * (rows.card + lambda)) - rows.card * (rate * w)) := by
    have hfactor : rate * w * (2 * (w * (rows.card + lambda)) - rows.card * (rate * w)) =
        rate * w ^ 2 * (rows.card * (2 - rate) + 2 * lambda) := by ring
    rw [hfactor]
    have hrate'' : 0 ≤ 2 - rate := by linarith
    positivity
  rw [sum_sub_sq, hsum]
  linarith

theorem squaredError_move_le [Fintype ι] (hlambda : 0 ≤ lambda) (hrate : 0 ≤ rate)
    (hrate' : rate ≤ 2) (leafOf : ι → ℕ) (label prediction : ι → ℚ) :
    squaredError label (move lambda rate leafOf label prediction) ≤
      squaredError label prediction := by
  have hleaves : ∀ i ∈ (Finset.univ : Finset ι), leafOf i ∈ Finset.univ.image leafOf :=
    fun i hi => Finset.mem_image_of_mem leafOf hi
  rw [squaredError, squaredError, ← Finset.sum_fiberwise_of_maps_to hleaves,
    ← Finset.sum_fiberwise_of_maps_to hleaves]
  refine Finset.sum_le_sum fun c _ => ?_
  calc ∑ i with leafOf i = c, (label i - move lambda rate leafOf label prediction i) ^ 2
      = ∑ i with leafOf i = c, (label i - prediction i -
          rate * regularisedMean lambda {k | leafOf k = c} fun k => label k - prediction k) ^ 2 :=
        Finset.sum_congr rfl fun i hi => by
          rw [move, (Finset.mem_filter.1 hi).2]
          ring
    _ ≤ ∑ i with leafOf i = c, (label i - prediction i) ^ 2 :=
        sum_sub_sq_le hlambda hrate hrate' _ _

end Move

/-! ## Leaf values -/

section LeafValues

variable [Exact.Functions]

/-- The leaf value of some rows is their regularised mean. -/
theorem leafValue_filter {n : ℕ} (lambda : ℚ) (r : Fin n → ℚ) (P : Fin n → Prop)
    [DecidablePred P] :
    leafValue (.rational lambda) (fun i => .rational (r i)) (fun _ => Exact.rational 1)
      ((List.finRange n).filter fun i => P i) = .rational (regularisedMean lambda {i | P i} r) := by
  rw [leafValue_exact, List.map_const', List.sum_replicate, nsmul_one]
  rfl

end LeafValues

/-! ## Rational data -/

section Data

variable [Exact.Functions] {d : Dataset Exact} {label : Fin d.numRows → ℚ}

/-- The features are rational numbers, and so are the labels. -/
structure Dataset.IsRational (d : Dataset Exact) (label : Fin d.numRows → ℚ) : Prop where
  entry : ∀ i j, ∃ q, d.features.entry i j = .rational q
  labels : ∀ i, d.labels.get i = .rational (label i)

/-- On rational data the splits of a grown tree decide every row. -/
theorem Dataset.IsRational.decided (h : d.IsRational label) {p : GrowthParameters Exact}
    (hdepth : p.maxDepth.toNat < Settings.maxExactLevel) {treeId : UInt64}
    {residual hessian : Vector Exact d.numRows} (i : Fin d.numRows) (c : ℕ) :
    ¬(Growth.grow d p treeId residual hessian).Undecided (d.row i) c := by
  rintro ⟨n, feature, threshold, v, hn, hkind, hv, hlt, hle⟩
  obtain ⟨j, k, l, hfeature, rfl⟩ := Growth.exists_midpoint_of_scalar hdepth hn hkind
  obtain ⟨a, ha⟩ := h.entry k j
  obtain ⟨b, hb⟩ := h.entry l j
  obtain ⟨q, hq⟩ := h.entry i j
  rw [hfeature, d.getElem?_row, hq, Option.some.injEq] at hv
  rw [← hv, ha, hb, Exact.midpoint_rational] at hlt hle
  rw [Exact.lt_rational, decide_eq_false_iff_not] at hlt
  rw [Exact.le_rational, decide_eq_false_iff_not] at hle
  exact hle (not_lt.1 hlt)

end Data

/-! ## Rounds -/

namespace Training

variable [Exact.Functions] {s : Settings Exact} {d : Dataset Exact} {label : Fin d.numRows → ℚ}

section Regression

variable (hd : d.IsRational label) (htask : s.task = .regression)
  (hdepth : s.maxDepth.toNat < Settings.maxExactLevel) {rate lambda : ℚ}
  (hrate : s.learningRate = .rational rate) (hlambda : s.lambda = .rational lambda)

include hd htask hdepth hrate hlambda

/-- One round of regression moves the predictions to the regularised means of the
residuals in the leaves. -/
theorem exists_move {k : ℕ} {st st' : State Exact d.numRows} {prediction : Fin d.numRows → ℚ}
    (hst : stateAfter s d k = .ok st) (hst' : stateAfter s d (k + 1) = .ok st')
    (hprediction : st.Predicts prediction) :
    ∃ leafOf : Fin d.numRows → ℕ, st'.Predicts (move lambda rate leafOf label prediction) := by
  obtain ⟨before, t, leaves, hbefore, ht, hleaves, rfl⟩ := stateAfter_succ_eq_ok_iff.1 hst'
  obtain rfl : before = st := Except.ok.inj (hbefore.symm.trans hst)
  rw [roundTree, Growth.build_toArray] at ht
  obtain rfl := Except.ok.inj ht
  obtain ⟨leafOf, hleafOf⟩ := Growth.exists_leafOf (d.labels.zipWith (· - ·) before.predictions)
    (before.predictions.map s.task.hessian) (.ofNat (k + 1)) (p := s.growth) hdepth
    (hd.decided hdepth)
  simp only [get_residuals hd.labels hprediction, get_hessians htask, Settings.growth, hlambda,
    leafValue_filter] at hleafOf
  rw [Settings.growth, hlambda, Tree.evaluateAll_eq_ok hleafOf] at hleaves
  obtain rfl := Except.ok.inj hleaves
  exact ⟨leafOf, next_predicts htask hrate hprediction _⟩

end Regression

end Training

namespace Settings

open Training

/-- Regression on rational data succeeds, and no round increases the squared error of the
predictions for the training data, if the learning rate is at most 2. -/
theorem train_squaredError_le [Exact.Functions] {s : Settings Exact} {d : Dataset Exact}
    {label : Fin d.numRows → ℚ} (hs : s.validate = .ok ()) (htask : s.task = .regression)
    (hrate : le s.learningRate 2 = true) (hd : d.IsRational label) :
    ∃ f history, s.train d = .ok (f, history) ∧
      ∃ prediction : ℕ → Fin d.numRows → ℚ,
        (∀ i, Statistics.median d.labels.toList = .rational (prediction 0 i)) ∧
        (∀ k ≤ s.numTrees.toNat, ∃ st, stateAfter s d k = .ok st ∧
          st.Predicts (prediction k) ∧ f.predictWith k d.features = .ok st.predictions) ∧
        ∀ k < s.numTrees.toNat,
          squaredError label (prediction (k + 1)) ≤ squaredError label (prediction k) := by
  have hdepth := maxDepth_lt_of_validate hs
  obtain ⟨rate, lambda, hrate_eq, hpos, hlambda, hnonneg⟩ := exists_rational_of_validate hs
  rw [hrate_eq, Exact.two_eq, Exact.le_rational, decide_eq_true_eq] at hrate
  have hstart := bias_rational hd.labels
  choose state hstate using fun k => exists_stateAfter (s := s) (d := d) hdepth k
  choose prediction hprediction using fun k =>
    (exists_predicts hd.labels htask hdepth hrate_eq hlambda (hstate k)).1
  have hzero : (state 0).Predicts fun _ => Statistics.rationalMedian (List.ofFn label) := by
    rw [← Except.ok.inj (hstate 0)]
    exact predicts_start hstart
  have hlabels : d.checkLabels s.task = .ok () := htask ▸ checkLabels_rational hd.labels
  refine ⟨_, _, train_eq_ok_iff.2 ⟨hs, hlabels, _, hstate _, rfl, rfl⟩, prediction,
    fun i => ?_, fun k hk => ⟨state k, hstate k, hprediction k,
      predictWith_stateAfter hk (hstate k) (hstate _)⟩, fun k _ => ?_⟩
  · rw [(hprediction 0).unique hzero]
    exact hstart
  · obtain ⟨leafOf, hmove⟩ := exists_move hd htask hdepth hrate_eq hlambda (hstate k)
      (hstate (k + 1)) (hprediction k)
    rw [(hprediction (k + 1)).unique hmove]
    exact squaredError_move_le hnonneg hpos.le hrate leafOf label (prediction k)

open scoped Exact

/-- Four rows of a scalar and an indicator.  The labels are 2 away from their median. -/
def rationalData : Dataset Exact where
  features := ⟨4, 2, #v[#v[1, 0], #v[.rational (5 / 2), 1], #v[3, 0], #v[7, 1]]⟩
  labels := #v[0, 0, 4, 4]
  catalog := ⟨[.scalar, .categorical]⟩
  names := none
  height_pos := by decide
  catalog_length := by decide
  indicators := by decide +kernel
  height_lt := by decide
  width_lt := by decide

/-- Five rounds of depth two, with a learning rate above 1. -/
def fiveRounds : Settings Exact :=
  { default with numTrees := 5, maxDepth := 2, learningRate := .rational (3 / 2) }

theorem isRational_rationalData : rationalData.IsRational ![0, 0, 4, 4] where
  entry := by
    have hdefined : ∀ i j, isFinite (rationalData.features.entry i j) = true := by decide +kernel
    exact fun i j => Exact.isFinite_iff.1 (hdefined i j)
  labels := by decide +kernel

theorem train_squaredError_le_rationalData :
    fiveRounds.validate = .ok () ∧ fiveRounds.task = .regression ∧
    le fiveRounds.learningRate 2 = true ∧
    rationalData.IsRational ![0, 0, 4, 4] ∧
    ∃ f history, fiveRounds.train rationalData = .ok (f, history) ∧
      ∃ prediction : ℕ → Fin 4 → ℚ,
        (∀ i, Statistics.median rationalData.labels.toList = .rational (prediction 0 i)) ∧
        (∀ k ≤ 5, ∃ st, stateAfter fiveRounds rationalData k = .ok st ∧
          st.Predicts (prediction k) ∧ f.predictWith k rationalData.features = .ok st.predictions) ∧
        ∀ k < 5, squaredError ![0, 0, 4, 4] (prediction (k + 1)) ≤
          squaredError ![0, 0, 4, 4] (prediction k) :=
  ⟨by decide +kernel, rfl, by decide +kernel, isRational_rationalData,
    train_squaredError_le (s := fiveRounds) (by decide +kernel) rfl
      (by decide +kernel) isRational_rationalData⟩

end Settings

end GradientForest
