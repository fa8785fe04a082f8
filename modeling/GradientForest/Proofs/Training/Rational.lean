import GradientForest.Proofs.Growth.Partition
import GradientForest.Proofs.Scalar.Median
import GradientForest.Proofs.Split.Rational
import GradientForest.Proofs.Training.Replay

/-!
# Regression on rational labels stays rational

In exact arithmetic regression makes rational numbers only of rational labels, whatever
the features are.  The bias is the median of the labels (`Training.bias_rational`).  A leaf
value divides a sum of residuals by the number of its rows with the regularisation added.
So leaf values are rational if the predictions are, and predictions move by them
(`Training.exists_predicts`).  The trained forest then predicts rational numbers for any
matrix (`Forest.exists_rational_predict`).

Infinities and undefined values among the features take part in the choice of splits only.
-/

namespace GradientForest

open Scalar

variable [Exact.Functions]

/-! ## Leaf values -/

/-- Leaf values are rational numbers. -/
def Tree.HasRationalLeaves (t : Tree Exact) : Prop :=
  ∀ c v, t.leafAt? c = some v → ∃ q, v = .rational q

theorem Tree.HasRationalLeaves.exists_evaluateAll {t : Tree Exact} (h : t.HasRationalLeaves)
    {m : Matrix Exact} {leaves : Vector Exact m.height} (hleaves : t.evaluateAll m = .ok leaves) :
    ∃ value : Fin m.height → ℚ, leaves = .ofFn fun i => .rational (value i) := by
  have hrational (i : Fin m.height) : ∃ q, leaves[i] = .rational q := by
    obtain ⟨c, hc⟩ := exists_leafAt_of_evaluate (getElem_of_mapM hleaves i i.isLt)
    exact h c _ hc
  choose value hvalue using hrational
  refine ⟨value, Vector.ext fun i hi => ?_⟩
  rw [Vector.getElem_ofFn]
  exact hvalue ⟨i, hi⟩

namespace Training

variable {s : Settings Exact} {d : Dataset Exact} {label : Fin d.numRows → ℚ}

theorem exists_rational_of_validate (hs : s.validate = .ok ()) :
    ∃ rate lambda : ℚ, s.learningRate = .rational rate ∧ 0 < rate ∧
      s.lambda = .rational lambda ∧ 0 ≤ lambda := by
  rw [Settings.validate] at hs
  split_ifs at hs with htrees hrate hshallow hdeep hlambda
  rw [Bool.not_eq_true, Bool.or_eq_false_iff, Bool.not_eq_false', Exact.isFinite_iff]
    at hrate hlambda
  obtain ⟨hpos, rate, hrate⟩ := hrate
  obtain ⟨hnonneg, lambda, hlambda⟩ := hlambda
  rw [hrate, Exact.zero_eq, Exact.le_rational, decide_eq_false_iff_not, not_le] at hpos
  rw [hlambda, Exact.zero_eq, Exact.lt_rational, decide_eq_false_iff_not, not_lt] at hnonneg
  exact ⟨rate, lambda, hrate, hpos, hlambda, hnonneg⟩

/-! ## Labels -/

theorem labels_rational (hlabels : ∀ i, d.labels.get i = .rational (label i)) :
    d.labels.toList = (List.ofFn label).map Exact.rational := by
  refine List.ext_getElem (by simp) fun i hi _ => ?_
  have hlabel := hlabels ⟨i, by simpa using hi⟩
  rw [Vector.getElem_toList, List.getElem_map, List.getElem_ofFn]
  exact hlabel

theorem bias_rational (hlabels : ∀ i, d.labels.get i = .rational (label i)) :
    bias d = .rational (Statistics.rationalMedian (List.ofFn label)) := by
  rw [bias, labels_rational hlabels, Statistics.median_rational]

theorem checkLabels_rational (hlabels : ∀ i, d.labels.get i = .rational (label i)) :
    d.checkLabels .regression = .ok () := by
  have hfinite : d.labels.toList.all isFinite = true := by
    rw [labels_rational hlabels, List.all_map, List.all_eq_true]
    exact fun _ _ => rfl
  rw [Dataset.checkLabels, if_pos hfinite]

/-! ## Rounds -/

/-- The state holds these rational predictions. -/
def State.Predicts {n : ℕ} (st : State Exact n) (prediction : Fin n → ℚ) : Prop :=
  st.predictions = .ofFn fun i => .rational (prediction i)

omit [Exact.Functions] in
theorem State.Predicts.unique {n : ℕ} {st : State Exact n} {p q : Fin n → ℚ}
    (hp : st.Predicts p) (hq : st.Predicts q) : p = q := by
  funext i
  have hi := congrArg (fun v => v[(i : ℕ)]) (hp.symm.trans hq)
  simpa using hi

theorem predicts_start {start : ℚ} (hstart : bias d = .rational start) :
    (Training.start s d (bias d)).Predicts fun _ => start := by
  rw [State.Predicts, Training.start, hstart]
  ext i hi
  simp

section Regression

variable {rate lambda : ℚ}

/-- The residuals of rational predictions. -/
theorem get_residuals (hlabels : ∀ i, d.labels.get i = .rational (label i))
    {st : State Exact d.numRows} {prediction : Fin d.numRows → ℚ}
    (hprediction : st.Predicts prediction) :
    (d.labels.zipWith (· - ·) st.predictions).get =
      fun i => .rational (label i - prediction i) := by
  rw [State.Predicts] at hprediction
  funext i
  have hlabel : d.labels[(i : ℕ)] = .rational (label i) := hlabels i
  simp [get_eq_getElem, hprediction, hlabel]

/-- The weights of regression. -/
theorem get_hessians (htask : s.task = .regression) (predictions : Vector Exact d.numRows) :
    (predictions.map s.task.hessian).get = fun _ => .rational 1 := by
  funext i
  simp [get_eq_getElem, htask, Task.hessian]

theorem next_predicts (htask : s.task = .regression) (hrate : s.learningRate = .rational rate)
    {st : State Exact d.numRows} {prediction value : Fin d.numRows → ℚ}
    (hprediction : st.Predicts prediction) (t : Tree Exact) :
    (st.next s d t (.ofFn fun i => .rational (value i))).Predicts fun i =>
      prediction i + rate * value i := by
  rw [State.Predicts] at hprediction ⊢
  ext i hi
  simp [State.next, Forest.applyTree, htask, Task.update, hrate, hprediction]

variable (hlabels : ∀ i, d.labels.get i = .rational (label i)) (htask : s.task = .regression)
  (hdepth : s.maxDepth.toNat < Settings.maxExactLevel)
  (hrate : s.learningRate = .rational rate) (hlambda : s.lambda = .rational lambda)

include hlabels htask hdepth hlambda

theorem hasRationalLeaves_roundTree {round : ℕ} {st : State Exact d.numRows}
    {prediction : Fin d.numRows → ℚ} (hprediction : st.Predicts prediction) {t : Tree Exact}
    (ht : roundTree s d round st.predictions = .ok t) : t.HasRationalLeaves := by
  rw [roundTree, Growth.build_toArray] at ht
  obtain rfl := Except.ok.inj ht
  intro c v hleaf
  obtain ⟨rows, rfl⟩ := Growth.exists_leafValue (p := s.growth) hdepth hleaf
  rw [get_residuals hlabels hprediction, get_hessians htask, Settings.growth, hlambda]
  exact ⟨_, leafValue_exact lambda _ _ rows⟩

include hrate

/-- The predictions stay rational, from the median on, and so do the leaf values. -/
theorem exists_predicts {k : ℕ} {st : State Exact d.numRows} (hst : stateAfter s d k = .ok st) :
    (∃ prediction, st.Predicts prediction) ∧ ∀ t ∈ st.trees, t.HasRationalLeaves := by
  induction k generalizing st with
  | zero =>
    obtain rfl := Except.ok.inj hst
    exact ⟨⟨_, predicts_start (bias_rational hlabels)⟩, nofun⟩
  | succ k ih =>
    obtain ⟨before, t, leaves, hbefore, ht, hleaves, rfl⟩ := stateAfter_succ_eq_ok_iff.1 hst
    obtain ⟨⟨prediction, hprediction⟩, htrees⟩ := ih hbefore
    have hrational := hasRationalLeaves_roundTree hlabels htask hdepth hlambda hprediction ht
    obtain ⟨value, rfl⟩ := hrational.exists_evaluateAll hleaves
    refine ⟨⟨_, next_predicts htask hrate hprediction t⟩, fun t' ht' => ?_⟩
    rcases Array.mem_push.1 ht' with ht' | rfl
    · exact htrees t' ht'
    · exact hrational

end Regression

end Training

/-- Rational predictions stay rational. -/
theorem Forest.exists_rational_predictFrom {rate : ℚ} {m : Matrix Exact}
    (start : Fin m.height → ℚ) {trees : List (Tree Exact)}
    (htrees : ∀ t ∈ trees, t.HasRationalLeaves) {v : Vector Exact m.height}
    (hv : predictFrom .regression (.rational rate) m (.ofFn fun i => .rational (start i)) trees =
      .ok v) : ∃ prediction : Fin m.height → ℚ, v = .ofFn fun i => .rational (prediction i) := by
  induction trees generalizing start with
  | nil => exact ⟨start, (Except.ok.inj hv).symm⟩
  | cons t trees ih =>
    rw [predictFrom, bind_eq_ok_iff] at hv
    obtain ⟨leaves, hleaves, hv⟩ := hv
    obtain ⟨value, rfl⟩ := (htrees t List.mem_cons_self).exists_evaluateAll hleaves
    have happly : applyTree .regression (Exact.rational rate) (.ofFn fun i => .rational (start i))
        (.ofFn fun i => .rational (value i)) =
          .ofFn fun i => .rational (start i + rate * value i) := by
      ext i hi
      simp [applyTree, Task.update]
    rw [happly] at hv
    exact ih _ (fun t' ht' => htrees t' (List.mem_cons_of_mem _ ht')) hv

/-- A forest of rational numbers predicts rational numbers. -/
theorem Forest.exists_rational_predict {f : Forest Exact} (htask : f.task = .regression)
    {start rate : ℚ} (hbias : f.bias = .rational start) (hrate : f.learningRate = .rational rate)
    (htrees : ∀ t ∈ f.trees, t.HasRationalLeaves) {m : Matrix Exact} {v : Vector Exact m.height}
    (hv : f.predict m = .ok v) :
    ∃ prediction : Fin m.height → ℚ, v = .ofFn fun i => .rational (prediction i) := by
  have hstart : Vector.replicate m.height f.bias = .ofFn fun _ => .rational start := by
    ext i hi
    simp [hbias]
  rw [predict_eq, hstart, htask, hrate] at hv
  exact exists_rational_predictFrom _ (fun t ht => htrees t (Array.mem_toList_iff.1 ht)) hv

end GradientForest
