import Mathlib.Data.Fin.VecNotation
import GradientForest.Proofs.Growth.LeafValues
import GradientForest.Proofs.Split.Multiples
import GradientForest.Proofs.Training.Rational
import GradientForest.Proofs.Training.RowOrder

/-!
# Regression on affinely changed labels

In exact arithmetic, regression on the labels `a * y + b` trains the forest for the
labels `y` with its bias changed in the same way and its leaf values multiplied by `a`,
for every `a` other than zero (`Settings.train_affine`).

The median changes as the labels do.  So the predictions start out changed, the
differences between labels and predictions are multiplied by `a`, and the same tree grows
of them but for its leaf values (`Training.roundTree_affine`).  These move the predictions
to changed ones again, and this goes on over all rounds (`Training.stateAfter_affine`).
-/

namespace GradientForest

open Scalar
open Exact hiding beq lt precedes

/-! ## Affine changes -/

namespace Exact

variable [Functions] {a : ℚ} (b : ℚ)

/-- An affine change of exact numbers. -/
def affine (a b : ℚ) (x : Exact) : Exact := rational a * x + rational b

theorem affine_rational (q : ℚ) : affine a b (.rational q) = .rational (a * q + b) := rfl

theorem add_rational_sub_add_rational (x y : Exact) :
    x + rational b - (y + rational b) = x - y := by
  change add (add x (rational b)) (neg (add y (rational b))) = add x (neg y)
  rcases x with p | n | _ <;> rcases y with q | m | _
  case rational.rational => exact congrArg rational (by ring)
  all_goals rfl

variable (ha : a ≠ 0) (x y : Exact)

include ha

theorem affine_sub_affine : affine a b x - affine a b y = rational a * (x - y) := by
  rw [affine, affine, add_rational_sub_add_rational, factor_sub ha]

theorem affine_add : affine a b x + rational a * y = affine a b (x + y) := by
  rw [affine, affine, factor_add ha]
  exact add_right_comm _ _ _

end Exact

section Equivariance

variable [Exact.Functions] {a : ℚ} (b : ℚ)

/-! ## Growth on multiplied residuals -/

/-- The dataset with other labels. -/
@[reducible] def Dataset.withLabels (d : Dataset Exact) (labels : Vector Exact d.numRows) :
    Dataset Exact :=
  { d with labels }

namespace Growth

variable {d : Dataset Exact} {p : GrowthParameters Exact} (ha : a ≠ 0)
  (htask : p.task = .regression) (labels residual hessian : Vector Exact d.numRows)

theorem divide_mapLeaf (f : Exact → Exact) (mask : Mask) (s : Split Exact d.numFeatures) :
    (divide d mask s).mapLeaf f = divide d mask s := by
  rw [divide]
  cases s.kind <;> rfl

include ha htask

/-- A node on multiplied residuals resolves to the same split or to the multiplied leaf. -/
theorem resolve_multiply (id : NodeId) (mask : Mask) :
    resolve (d.withLabels labels) p (residual.map (rational a * ·)) hessian id mask =
      (resolve d p residual hessian id mask).mapLeaf (rational a * ·) := by
  have hresidual : (residual.map (rational a * ·)).get = fun i => rational a * residual.get i := by
    funext i
    simp [get_eq_getElem]
  have hmixed (labels : Vector Exact d.numRows) (rows : List (Fin d.numRows)) :
      isPure (d.withLabels labels) p.task rows = false := by
    rw [htask]
    cases rows <;> rfl
  rw [resolve, resolve, resolveRows, resolveRows, hresidual, hmixed, hmixed d.labels,
    leafValue_multiply ha, Split.best?_multiply ha]
  rw [apply_ite (Resolution.mapLeaf _)]
  refine congrArg (ite _ _) ?_
  cases Split.best? p.lambda d.features d.catalog residual.get hessian.get
      (mask.activeRows d.numRows) with
  | none => rfl
  | some s =>
    dsimp only
    rw [apply_ite (Resolution.mapLeaf _), divide_mapLeaf]
    rfl

/-- The same tree grows, but for its multiplied leaf values. -/
theorem grow_multiply (treeId : UInt64) :
    grow (d.withLabels labels) p treeId (residual.map (rational a * ·)) hessian =
      (grow d p treeId residual hessian).mapLeaves (rational a * ·) :=
  congrArg (Tree.mk treeId) <| nodes_copy (fun _ _ _ => rfl)
    (resolve_multiply ha htask labels residual hessian) _ _

end Growth

/-! ## Rounds -/

theorem Forest.applyTree_affine (ha : a ≠ 0) (learningRate : Exact) {n : ℕ}
    (predictions leaves : Vector Exact n) :
    applyTree .regression learningRate (predictions.map (Exact.affine a b))
        (leaves.map (rational a * ·)) =
      (applyTree .regression learningRate predictions leaves).map (Exact.affine a b) := by
  ext i hi
  simp [applyTree, Task.update, mul_factor ha, affine_add b ha]

namespace Training

variable {s : Settings Exact} {d : Dataset Exact} (ha : a ≠ 0) (htask : s.task = .regression)

/-- The dataset with affinely changed labels. -/
abbrev affineLabels (a b : ℚ) (d : Dataset Exact) : Dataset Exact :=
  d.withLabels (d.labels.map (affine a b))

include ha htask

theorem roundTree_affine (round : ℕ) (predictions : Vector Exact d.numRows) :
    roundTree s (affineLabels a b d) round (predictions.map (affine a b)) =
      (roundTree s d round predictions).map (Tree.mapLeaves (rational a * ·)) := by
  have hresidual : (d.labels.map (affine a b)).zipWith (· - ·) (predictions.map (affine a b)) =
      (d.labels.zipWith (· - ·) predictions).map (rational a * ·) := by
    ext i hi
    simp [affine_sub_affine b ha]
  have hhessian : (predictions.map (affine a b)).map s.task.hessian =
      predictions.map s.task.hessian := by
    ext i hi
    simp [htask, Task.hessian]
  rw [roundTree, roundTree, hhessian, hresidual, Growth.build_toArray, Growth.build_toArray]
  exact congrArg Except.ok (Growth.grow_multiply ha htask _ _ _ _)

/-- Two states that differ by an affine change of the predictions, their histories apart. -/
structure State.Affine {n : ℕ} (a b : ℚ) (st st' : State Exact n) : Prop where
  predictions : st'.predictions = st.predictions.map (affine a b)
  trees : st'.trees = st.trees.map (Tree.mapLeaves (rational a * ·))

omit ha htask in
theorem affine_start (hbias : bias (affineLabels a b d) = affine a b (bias d)) :
    State.Affine a b (start s d (bias d))
      (start s (affineLabels a b d) (bias (affineLabels a b d))) where
  predictions := by
    rw [hbias]
    exact (Vector.map_replicate).symm
  trees := Array.map_empty.symm

/-- After as many rounds the predictions differ by the affine change of the labels, and the
trees by the factor of their leaf values. -/
theorem stateAfter_affine (hbias : bias (affineLabels a b d) = affine a b (bias d)) {k : ℕ}
    {st : State Exact d.numRows} (h : stateAfter s d k = .ok st) :
    ∃ st', stateAfter s (affineLabels a b d) k = .ok st' ∧ State.Affine a b st st' := by
  induction k generalizing st with
  | zero =>
    obtain rfl := Except.ok.inj h
    exact ⟨_, rfl, affine_start b hbias⟩
  | succ k ih =>
    obtain ⟨st, t, leaves, hst, ht, hleaves, rfl⟩ := stateAfter_succ_eq_ok_iff.1 h
    obtain ⟨st', hst', hpredictions, htrees⟩ := ih hst
    have ht' : roundTree s (affineLabels a b d) (k + 1) st'.predictions =
        .ok (t.mapLeaves (rational a * ·)) := by
      rw [hpredictions, roundTree_affine b ha htask, ht]
      rfl
    have hleaves' : (t.mapLeaves (rational a * ·)).evaluateAll d.features =
        .ok (leaves.map (rational a * ·)) := by
      rw [Tree.evaluateAll_mapLeaves, hleaves]
      rfl
    refine ⟨_, stateAfter_succ_eq_ok_iff.2 ⟨st', _, _, hst', ht', hleaves', rfl⟩, ?_, ?_⟩
    · simp only [State.next, hpredictions, htask, Forest.applyTree_affine b ha]
    · simp only [State.next, htrees, Array.map_push]

end Training

/-- The forest with an affinely changed bias and multiplied leaf values. -/
def Forest.affine (a b : ℚ) (f : Forest Exact) : Forest Exact :=
  { f with
    bias := Exact.affine a b f.bias
    trees := f.trees.map (Tree.mapLeaves (rational a * ·)) }

theorem Forest.predictFrom_affine (ha : a ≠ 0) (learningRate : Exact) (m : Matrix Exact)
    (predictions : Vector Exact m.height) (trees : List (Tree Exact)) :
    predictFrom .regression learningRate m (predictions.map (Exact.affine a b))
        (trees.map (Tree.mapLeaves (rational a * ·))) =
      (predictFrom .regression learningRate m predictions trees).map
        (Vector.map (Exact.affine a b)) := by
  induction trees generalizing predictions with
  | nil => rfl
  | cons t trees ih =>
    rw [List.map_cons, predictFrom, predictFrom, Tree.evaluateAll_mapLeaves]
    cases t.evaluateAll m with
    | error e => rfl
    | ok leaves =>
      have happly := applyTree_affine b ha learningRate predictions leaves
      exact (congrArg (predictFrom .regression learningRate m · _) happly).trans (ih _)

/-- The changed forest predicts changed values, and fails as the forest does. -/
theorem Forest.predict_affine (ha : a ≠ 0) {f : Forest Exact} (htask : f.task = .regression)
    (m : Matrix Exact) :
    (f.affine a b).predict m = (f.predict m).map (Vector.map (Exact.affine a b)) := by
  have htrees : (f.affine a b).trees.toList =
      f.trees.toList.map (Tree.mapLeaves (rational a * ·)) := Array.toList_map
  have hstart : Vector.replicate m.height (f.affine a b).bias =
      (Vector.replicate m.height f.bias).map (Exact.affine a b) := by
    rw [Vector.map_replicate]
    rfl
  have hpredict := predictFrom_affine b ha f.learningRate m (.replicate m.height f.bias)
    f.trees.toList
  rw [← htrees, ← hstart, ← htask] at hpredict
  rw [predict_eq, predict_eq]
  exact hpredict

/-! ## Labels -/

namespace Training

variable {d : Dataset Exact} {label : Fin d.numRows → ℚ} (a : ℚ)
  (hlabels : ∀ i, d.labels.get i = .rational (label i))

include hlabels

theorem map_affine_labels :
    d.labels.map (affine a b) = .ofFn fun i => .rational (a * label i + b) := by
  refine Vector.ext fun i hi => ?_
  have hlabel : d.labels[i] = .rational (label ⟨i, hi⟩) := hlabels ⟨i, hi⟩
  rw [Vector.getElem_map, Vector.getElem_ofFn, hlabel, affine_rational]

theorem get_affineLabels (i : Fin d.numRows) :
    (affineLabels a b d).labels.get i = .rational (a * label i + b) := by
  change (d.labels.map (affine a b)).get i = _
  rw [map_affine_labels b a hlabels, get_eq_getElem, Vector.getElem_ofFn]

/-- The median label changes as the labels do. -/
theorem bias_affine : bias (affineLabels a b d) = affine a b (bias d) := by
  have hne : List.ofFn label ≠ [] := by
    rw [ne_eq, List.ofFn_eq_nil_iff]
    exact d.height_pos.ne'
  rw [bias_rational hlabels, bias_rational (get_affineLabels b a hlabels), affine_rational,
    ← Statistics.rationalMedian_affine hne, List.map_ofFn]
  rfl

end Training

end Equivariance

/-! ## The whole training -/

namespace Settings

open Training

/-- Regression on affinely changed labels gives the affinely changed forest.  Where the
forest predicts, it predicts rational numbers, and the changed forest predicts the changed
ones.  Where it fails, the changed forest fails in the same way. -/
theorem train_affine [Exact.Functions] {s : Settings Exact} {d : Dataset Exact}
    {label : Fin d.numRows → ℚ} {a : ℚ} (b : ℚ) (ha : a ≠ 0) (hs : s.validate = .ok ())
    (htask : s.task = .regression) (hlabels : ∀ i, d.labels.get i = .rational (label i)) :
    ∃ f history history', s.train d = .ok (f, history) ∧
      s.train (d.withLabels (.ofFn fun i => .rational (a * label i + b))) =
        .ok (f.affine a b, history') ∧
      (∃ q, f.bias = .rational q ∧ (f.affine a b).bias = .rational (a * q + b)) ∧
      ∀ m : Matrix Exact,
        (∀ v, f.predict m = .ok v → ∃ p : Fin m.height → ℚ, v = .ofFn (fun i => .rational (p i)) ∧
          (f.affine a b).predict m = .ok (.ofFn fun i => .rational (a * p i + b))) ∧
        ∀ e, f.predict m = .error e → (f.affine a b).predict m = .error e := by
  have hdepth := maxDepth_lt_of_validate hs
  obtain ⟨rate, lambda, hrate, -, hlambda, -⟩ := exists_rational_of_validate hs
  have hbias := bias_affine b a hlabels
  obtain ⟨st, hst⟩ := exists_stateAfter (s := s) (d := d) hdepth s.numTrees.toNat
  obtain ⟨st', hst', -, htrees⟩ := stateAfter_affine b ha htask hbias hst
  obtain ⟨-, hrational⟩ := exists_predicts hlabels htask hdepth hrate hlambda hst
  let f : Forest Exact := ⟨bias d, st.trees, s.learningRate, s.task⟩
  have hf : f.affine a b = ⟨bias (affineLabels a b d), st'.trees, s.learningRate, s.task⟩ := by
    rw [Forest.affine, hbias, htrees]
  have htrain : s.train d = .ok (f, st.history) :=
    train_eq_ok_iff.2 ⟨hs, htask ▸ checkLabels_rational hlabels, st, hst, rfl, rfl⟩
  have htrain' : s.train (affineLabels a b d) = .ok (f.affine a b, st'.history) :=
    train_eq_ok_iff.2 ⟨hs, htask ▸ checkLabels_rational (get_affineLabels b a hlabels), st', hst',
      hf, rfl⟩
  have hchanged : s.train (affineLabels a b d) =
      s.train (d.withLabels (.ofFn fun i => .rational (a * label i + b))) :=
    congrArg (fun labels => s.train (d.withLabels labels)) (map_affine_labels b a hlabels)
  refine ⟨f, st.history, st'.history, htrain, hchanged.symm.trans htrain',
    ⟨_, bias_rational hlabels, ?_⟩, fun m => ⟨fun v hv => ?_, fun e he => ?_⟩⟩
  · rw [Forest.affine]
    exact congrArg (Exact.affine a b) (bias_rational hlabels)
  · obtain ⟨p, rfl⟩ :=
      Forest.exists_rational_predict htask (bias_rational hlabels) hrate hrational hv
    refine ⟨p, rfl, ?_⟩
    rw [Forest.predict_affine b ha htask, hv]
    exact congrArg Except.ok Vector.map_ofFn
  · rw [Forest.predict_affine b ha htask, he]
    rfl

open scoped Exact

theorem labels_tiedData : ∀ i, tiedData.labels.get i = .rational (![0, 1, 1, 0, 1, 1] i) := by
  decide +kernel

theorem train_affine_tiedData :
    (-2 : ℚ) ≠ 0 ∧ (fewRounds .regression).validate = .ok () ∧
    (fewRounds .regression).task = .regression ∧
    (∀ i, tiedData.labels.get i = .rational (![0, 1, 1, 0, 1, 1] i)) ∧
    ∃ f history history', (fewRounds .regression).train tiedData = .ok (f, history) ∧
      (fewRounds .regression).train
          (tiedData.withLabels (.ofFn fun i => .rational (-2 * ![0, 1, 1, 0, 1, 1] i + 1 / 3))) =
        .ok (f.affine (-2) (1 / 3), history') ∧
      (∃ q, f.bias = .rational q ∧
        (f.affine (-2) (1 / 3)).bias = .rational (-2 * q + 1 / 3)) ∧
      ∀ m : Matrix Exact,
        (∀ v, f.predict m = .ok v → ∃ p : Fin m.height → ℚ, v = .ofFn (fun i => .rational (p i)) ∧
          (f.affine (-2) (1 / 3)).predict m =
            .ok (.ofFn fun i => .rational (-2 * p i + 1 / 3))) ∧
        ∀ e, f.predict m = .error e → (f.affine (-2) (1 / 3)).predict m = .error e :=
  ⟨by decide, by decide +kernel, rfl, labels_tiedData,
    train_affine (1 / 3) (by decide) (by decide +kernel) rfl labels_tiedData⟩

end Settings

end GradientForest
