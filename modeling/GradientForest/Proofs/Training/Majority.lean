import GradientForest.Proofs.Growth.LeafValues
import GradientForest.Proofs.Growth.Partition
import GradientForest.Proofs.Split.SignedZeros
import GradientForest.Proofs.Training.Replay
import GradientForest.Proofs.Training.RowOrder

/-!
# Classification with a majority of zeros

If more than half of the labels are 0, the median label is a zero, and classification
starts at probability 0.  It never leaves it.  The log-odds of 0 are minus infinity, no
finite step moves them, and the probability of minus infinity is 0 again
(`Task.update_of_isZero`).

So every round sees the residuals and weights of the first one, up to the signs of zeros,
and grows its tree once more (`Training.roundTree_replicate`).  The predictions stay 0 for
the training data and for every other matrix, and the metric does not move either
(`Settings.train_zeroMajority`).
-/

namespace GradientForest

open Scalar

/-! ## The median -/

namespace Statistics

variable {α : Type} [Scalar α]

/-- Zeros come before the ones. -/
def indicatorRank (y : α) : ℕ := if beq y 0 then 0 else 1

theorem indicatorRank_lt_iff {x y : α} :
    indicatorRank x < indicatorRank y ↔ IsZero x ∧ ¬IsZero y := by
  rw [indicatorRank, indicatorRank, IsZero, IsZero]
  split_ifs with hx hy hy <;> simp [hx, hy]

/-- The first values of sorted indicators are the zeros. -/
theorem isZero_getD {ys : List α} (hys : ys.Pairwise fun x y => indicatorRank x ≤ indicatorRank y)
    {k : ℕ} (hk : k < ys.countP (beq · 0)) : IsZero (ys.getD k 0) := by
  induction ys generalizing k with
  | nil => cases hk
  | cons y ys ih =>
    obtain ⟨hy, hys⟩ := List.pairwise_cons.1 hys
    by_cases hzero : beq y 0 = true
    · cases k with
      | zero => exact hzero
      | succ k =>
        rw [List.countP_cons_of_pos (p := (beq · 0)) hzero] at hk
        exact ih hys (Nat.lt_of_succ_lt_succ hk)
    · have hnone : ∀ x ∈ ys, ¬beq x 0 = true := by
        intro x hx hxzero
        exact Nat.not_lt.2 (hy x hx) (indicatorRank_lt_iff.2 ⟨hxzero, hzero⟩)
      rw [List.countP_cons_of_neg (p := (beq · 0)) hzero, List.countP_eq_zero.2 hnone] at hk
      cases hk

variable [SignedZeros α]

/-- The median of indicators is a zero if more than half of them are. -/
theorem isZero_median {ys : List α} (hys : ∀ y ∈ ys, isIndicator y = true)
    (hmajority : ys.length < 2 * ys.countP (beq · 0)) : IsZero (median ys) := by
  have hdefined : ys.any isNaN = false := by
    rw [List.any_eq_false]
    intro y hy
    rw [SignedZeros.isNaN_indicator (hys y hy)]
    exact Bool.false_ne_true
  have hcompares : Sorting.ComparesBy lt indicatorRank ys := fun x hx y hy => by
    rw [SignedZeros.lt_indicator (hys x hx) (hys y hy), indicatorRank_lt_iff]
  have hperm := Sorting.sort_perm lt ys
  have hsorted := Sorting.pairwise_sort hcompares
  rw [← hperm.length_eq, ← hperm.countP_eq] at hmajority
  rw [median]
  split_ifs
  · exact SignedZeros.isZero_zero
  · rw [sorted_of_defined hdefined, middle]
    split_ifs with heven
    · exact SignedZeros.half_add (isZero_getD hsorted (by omega)) (isZero_getD hsorted (by omega))
    · exact isZero_getD hsorted (by omega)

end Statistics

variable {α : Type} [Scalar α] [SignedZeros α]

/-! ## Probability zero -/

/-- The learning rate times every leaf value is finite. -/
def Tree.HasFiniteSteps (learningRate : α) (t : Tree α) : Prop :=
  ∀ n ∈ t.nodes, ∀ v ∈ n.leafValue?, Scalar.isFinite (learningRate * v) = true

instance (learningRate : α) (t : Tree α) : Decidable (t.HasFiniteSteps learningRate) :=
  inferInstanceAs (Decidable (∀ n ∈ t.nodes, ∀ v ∈ n.leafValue?, _))

omit [SignedZeros α] in
theorem Tree.HasFiniteSteps.of_evaluate {learningRate : α} {t : Tree α}
    (ht : t.HasFiniteSteps learningRate) {row : Array α} {v : α} (hv : t.evaluate row = .ok v) :
    Scalar.isFinite (learningRate * v) = true := by
  obtain ⟨c, hc⟩ := exists_leafAt_of_evaluate hv
  obtain ⟨n, hn, hleaf⟩ := Option.bind_eq_some_iff.1 hc
  exact ht n (Array.mem_of_getElem? hn) v hleaf

theorem Task.isZero_hessian {z : α} (hz : IsZero z) : IsZero (hessian .classification z) :=
  SignedZeros.variance hz

/-- The metric of probability 0 does not depend on the sign of the zero. -/
theorem Metrics.logLoss_replicate {z z' : α} (hz : IsZero z) (hz' : IsZero z') (n : ℕ)
    (labels : List α) : logLoss (.replicate n z) labels = logLoss (.replicate n z') labels := by
  have hterm (z : α) (hz : IsZero z) (y : α) : crossEntropy z y = crossEntropyAt epsilon y := by
    rw [crossEntropy, clamp, if_pos (SignedZeros.lt_epsilon hz)]
  have hsum : List.zipWith crossEntropy (.replicate n z) labels =
      List.zipWith crossEntropy (.replicate n z') labels := by
    refine List.ext_getElem (by simp) fun i hi hi' => ?_
    rw [List.getElem_zipWith, List.getElem_zipWith, List.getElem_replicate,
      List.getElem_replicate, hterm z hz, hterm z' hz']
  simp only [logLoss, averageOf, hsum, List.length_replicate, List.isEmpty_replicate]

section Saturated

variable (hln : ∀ z : α, IsZero z → ln z = -infinity) (hexp : 1 / (1 + exp infinity) = (0 : α))

include hln in
theorem Logistic.logit_of_isZero {z : α} (hz : IsZero z) : logit z = -infinity := by
  rw [logit, SignedZeros.not_isOne hz, if_neg Bool.false_ne_true, hln _ (SignedZeros.odds hz)]

include hexp in
theorem Logistic.sigmoid_neg_infinity : sigmoid (-infinity : α) = 0 := by
  rw [sigmoid, SignedZeros.neg_neg_infinity, hexp]

include hln hexp

/-- No finite step leaves probability 0. -/
theorem Task.update_of_isZero {z : α} (hz : IsZero z) {learningRate leaf : α}
    (hfinite : isFinite (learningRate * leaf) = true) :
    update .classification learningRate z leaf = 0 := by
  rw [update, Logistic.logit_of_isZero hln hz, SignedZeros.add_neg_infinity hfinite,
    Logistic.sigmoid_neg_infinity hexp]

theorem Forest.applyTree_replicate {z learningRate : α} (hz : IsZero z) {t : Tree α}
    (ht : t.HasFiniteSteps learningRate) {m : Matrix α} {leaves : Vector α m.height}
    (hleaves : t.evaluateAll m = .ok leaves) :
    applyTree .classification learningRate (.replicate m.height z) leaves =
      .replicate m.height 0 := by
  ext i hi
  have hfinite := ht.of_evaluate (getElem_of_mapM hleaves i hi)
  rw [applyTree, Vector.getElem_zipWith, Vector.getElem_replicate, Vector.getElem_replicate,
    Task.update_of_isZero hln hexp hz hfinite]

/-- Predictions that start at a zero stay there, and from the first tree on the zero has no
sign. -/
theorem Forest.predictFrom_replicate {learningRate : α} {m : Matrix α} {trees : List (Tree α)}
    (htrees : ∀ t ∈ trees, t.HasFiniteSteps learningRate) {z : α} (hz : IsZero z)
    {v : Vector α m.height}
    (hv : predictFrom .classification learningRate m (.replicate m.height z) trees = .ok v) :
    v = .replicate m.height (if trees.isEmpty then z else 0) := by
  induction trees generalizing z with
  | nil => exact (Except.ok.inj hv).symm
  | cons t trees ih =>
    obtain ⟨ht, htrees⟩ := List.forall_mem_cons.1 htrees
    rw [predictFrom, bind_eq_ok_iff] at hv
    obtain ⟨leaves, hleaves, hv⟩ := hv
    rw [applyTree_replicate hln hexp hz ht hleaves] at hv
    rw [ih htrees SignedZeros.isZero_zero hv, ite_self]
    rfl

end Saturated

/-! ## Growth -/

section Growth

variable {d : Dataset α} {p : GrowthParameters α} {residual residual' hessian hessian' :
  Vector α d.numRows}

/-- The same tree grows whatever signs the zeros have. -/
theorem Growth.grow_alike (hresidual : ∀ i, Alike (residual.get i) (residual'.get i))
    (hhessian : ∀ i, Alike (hessian.get i) (hessian'.get i)) (treeId : UInt64) :
    grow d p treeId residual hessian = grow d p treeId residual' hessian' := by
  have hresolve : resolve d p residual hessian = resolve d p residual' hessian' := by
    funext id mask
    rw [resolve, resolve, resolveRows, resolveRows, leafValue_alike hresidual hhessian,
      Split.best?_alike _ _ _ hresidual hhessian]
  rw [grow, grow, hresolve]

end Growth

/-! ## Rounds -/

namespace Training

variable {s : Settings α} {d : Dataset α}

/-- The tree that classification grows at probability 0, without a number. -/
def treeAtZero (s : Settings α) (d : Dataset α) : Tree α :=
  Growth.grow d s.growth 0 (d.labels.map (· - 0))
    (.replicate d.numRows (Task.classification.hessian 0))

/-- At probability 0 every round grows the same tree. -/
theorem roundTree_replicate (htask : s.task = .classification) {z : α} (hz : IsZero z)
    (round : ℕ) : roundTree s d round (.replicate d.numRows z) =
      .ok ((treeAtZero s d).withId (.ofNat round)) := by
  have hzero : IsZero (0 : α) := SignedZeros.isZero_zero
  rw [roundTree, Growth.build_toArray, treeAtZero, ← Growth.grow_withId]
  refine congrArg Except.ok (Growth.grow_alike (fun i => ?_) (fun i => ?_) _)
  · rw [get_eq_getElem, get_eq_getElem, Vector.getElem_zipWith, Vector.getElem_replicate,
      Vector.getElem_map]
    exact SignedZeros.sub_right _ hz hzero
  · rw [get_eq_getElem, get_eq_getElem, Vector.getElem_map, Vector.getElem_replicate,
      Vector.getElem_replicate, htask]
    exact .inr ⟨Task.isZero_hessian hz, Task.isZero_hessian hzero⟩

/-- The predictions are all the same zero, and no round has been different from another. -/
structure AtZero (s : Settings α) (d : Dataset α) (z : α) (st : State α d.numRows) : Prop where
  predictions : st.predictions = .replicate d.numRows z
  trees : ∀ t ∈ st.trees, t = (treeAtZero s d).withId t.id
  initial : st.history.initial = Metrics.logLoss (.replicate d.numRows 0) d.labels.toList
  rounds : ∀ r ∈ st.history.rounds, r = st.history.initial

theorem atZero_start (htask : s.task = .classification) (hbias : IsZero (bias d)) :
    AtZero s d (bias d) (start s d (bias d)) where
  predictions := rfl
  trees := nofun
  initial := by
    rw [start, htask]
    exact Metrics.logLoss_replicate hbias SignedZeros.isZero_zero _ _
  rounds := nofun

section Saturated

variable (hln : ∀ z : α, IsZero z → ln z = -infinity) (hexp : 1 / (1 + exp infinity) = (0 : α))

include hln hexp

theorem AtZero.next (htask : s.task = .classification) {z : α} (hz : IsZero z) {round : ℕ}
    {st : State α d.numRows} (h : AtZero s d z st) {t : Tree α}
    (ht : roundTree s d round st.predictions = .ok t) (hfinite : t.HasFiniteSteps s.learningRate)
    {leaves : Vector α d.numRows} (hleaves : t.evaluateAll d.features = .ok leaves) :
    AtZero s d 0 (st.next s d t leaves) := by
  have hpredictions : Forest.applyTree s.task s.learningRate st.predictions leaves =
      .replicate d.numRows 0 := by
    rw [h.predictions, htask]
    exact Forest.applyTree_replicate hln hexp hz hfinite hleaves
  rw [h.predictions, roundTree_replicate htask hz] at ht
  refine ⟨hpredictions, fun t' ht' => ?_, h.initial, fun r hr => ?_⟩
  · rcases Array.mem_push.1 ht' with ht' | rfl
    · exact h.trees t' ht'
    · rw [← Except.ok.inj ht]
      rfl
  · rcases Array.mem_push.1 hr with hr | rfl
    · exact h.rounds r hr
    · rw [hpredictions, htask]
      exact h.initial.symm

/-- Every round leaves the predictions at 0. -/
theorem atZero_stateAfter (htask : s.task = .classification) (hbias : IsZero (bias d)) {k : ℕ}
    {st : State α d.numRows} (hst : stateAfter s d k = .ok st)
    (hfinite : ∀ t ∈ st.trees, t.HasFiniteSteps s.learningRate) :
    AtZero s d (if k = 0 then bias d else 0) st := by
  induction k generalizing st with
  | zero =>
    obtain rfl := Except.ok.inj hst
    exact atZero_start htask hbias
  | succ k ih =>
    obtain ⟨before, t, leaves, hbefore, ht, hleaves, rfl⟩ := stateAfter_succ_eq_ok_iff.1 hst
    have hatZero := ih hbefore fun t' ht' => hfinite t' (Array.mem_push_of_mem t ht')
    refine hatZero.next hln hexp htask ?_ ht (hfinite t Array.mem_push_self) hleaves
    split_ifs
    · exact hbias
    · exact SignedZeros.isZero_zero

end Saturated

/-- What a training at probability 0 gives: the predictions of all rounds, the metric, the
trees and the predictions of the forest. -/
structure StaysAtZero (s : Settings α) (d : Dataset α) (f : Forest α) (history : History α) :
    Prop where
  bias : IsZero f.bias
  predictions : ∀ k, 1 ≤ k → k ≤ s.numTrees.toNat →
    ∃ st, stateAfter s d k = .ok st ∧ st.predictions = .replicate d.numRows 0
  history : ∀ r ∈ history.rounds, r = history.initial
  trees : ∀ t ∈ f.trees, ∀ t' ∈ f.trees, t' = t.withId t'.id
  predicts : ∀ (m : Matrix α) (v : Vector α m.height), f.predict m = .ok v →
    v = .replicate m.height 0

end Training

namespace Settings

open Training

omit [SignedZeros α] in
theorem numTrees_ne_zero_of_validate {s : Settings α} (hs : s.validate = .ok ()) :
    s.numTrees.toNat ≠ 0 := by
  intro hzero
  have htrees : s.numTrees < 1 := by
    rw [UInt64.lt_iff_toNat_lt, hzero]
    decide
  exact (validate_eq_ok_iff.1 hs).numTrees htrees

/-- Classification succeeds on indicators more than half of which are 0, and if the leaf
values make finite steps, it never leaves probability 0. -/
theorem train_zeroMajority {s : Settings α} {d : Dataset α} (hs : s.validate = .ok ())
    (htask : s.task = .classification) (hlabels : ∀ y ∈ d.labels.toList, isIndicator y = true)
    (hmajority : d.numRows < 2 * d.labels.toList.countP (beq · 0))
    (hln : ∀ z : α, IsZero z → ln z = -infinity)
    (hexp : 1 / (1 + exp infinity) = (0 : α)) :
    ∃ f history, s.train d = .ok (f, history) ∧
      ((∀ t ∈ f.trees, t.HasFiniteSteps s.learningRate) → StaysAtZero s d f history) := by
  obtain ⟨st, hst⟩ := exists_stateAfter (s := s) (d := d) (maxDepth_lt_of_validate hs)
    s.numTrees.toNat
  have hcheck : d.checkLabels s.task = .ok () := by
    rw [htask, Dataset.checkLabels_eq_ok_iff]
    exact hlabels
  have hbias : IsZero (bias d) :=
    Statistics.isZero_median hlabels (by rwa [Vector.length_toList])
  refine ⟨_, _, train_eq_ok_iff.2 ⟨hs, hcheck, st, hst, rfl, rfl⟩, fun hfinite => ?_⟩
  have hatZero := atZero_stateAfter hln hexp htask hbias hst hfinite
  refine ⟨hbias, fun k hpos hk => ?_, hatZero.rounds, fun t ht t' ht' => ?_, fun m v hv => ?_⟩
  · obtain ⟨before, hbefore, hext⟩ := exists_stateAfter_of_le hk hst
    have hmem : ∀ t ∈ before.trees, t ∈ st.trees := fun t ht =>
      Array.mem_toList_iff.1 (hext.trees.subset (Array.mem_toList_iff.2 ht))
    have hzero := atZero_stateAfter hln hexp htask hbias hbefore fun t ht => hfinite t (hmem t ht)
    rw [if_neg (Nat.ne_of_gt hpos)] at hzero
    exact ⟨before, hbefore, hzero.predictions⟩
  · rw [hatZero.trees t ht, hatZero.trees t' ht']
    exact (Tree.withId_withId _ _ _).symm
  · have hne : st.trees.toList.isEmpty = false := by
      rw [List.isEmpty_eq_false_iff, ← List.length_pos_iff, Array.length_toList,
        (size_stateAfter hst).1]
      exact Nat.pos_of_ne_zero (numTrees_ne_zero_of_validate hs)
    rw [Forest.predict, Forest.predictWith, if_neg (Nat.lt_irrefl _), Forest.numTrees,
      ← Array.length_toList, List.take_length, htask] at hv
    rw [Forest.predictFrom_replicate hln hexp (fun t ht => hfinite t (Array.mem_toList_iff.1 ht))
      hbias hv, hne]
    rfl

open scoped Exact

/-- Six rows with a column of numbers and a categorical one, and two labels 1. -/
def sparseData : Dataset Exact :=
  { tiedData with labels := (#v[0, 1, 0, 0, 1, 0] : Vector Exact 6) }

theorem train_zeroMajority_sparseData :
    (fewRounds .classification).validate = .ok () ∧
    (fewRounds .classification).task = .classification ∧
    (∀ y ∈ sparseData.labels.toList, isIndicator y = true) ∧
    sparseData.numRows < 2 * sparseData.labels.toList.countP (beq · 0) ∧
    (∀ z : Exact, IsZero z → ln z = -infinity) ∧ 1 / (1 + exp infinity) = (0 : Exact) ∧
    ∃ f history, (fewRounds .classification).train sparseData = .ok (f, history) ∧
      (∀ t ∈ f.trees, t.HasFiniteSteps (fewRounds .classification).learningRate) ∧
      StaysAtZero (fewRounds .classification) sparseData f history := by
  have hlabels : ∀ y ∈ sparseData.labels.toList, isIndicator y = true := by decide +kernel
  have hmajority : sparseData.numRows < 2 * sparseData.labels.toList.countP (beq · 0) := by
    decide +kernel
  have hln : ∀ z : Exact, IsZero z → ln z = -infinity := fun z hz => by
    rw [Exact.isZero_iff.1 hz]
    rfl
  have hexp : 1 / (1 + exp infinity) = (0 : Exact) := by decide +kernel
  obtain ⟨f, history, htrain, hstays⟩ := train_zeroMajority (s := fewRounds .classification)
    (by decide +kernel) rfl hlabels hmajority hln hexp
  have hsteps : ((fewRounds .classification).train sparseData).map (fun p =>
      decide (∀ t ∈ p.1.trees, t.HasFiniteSteps (fewRounds .classification).learningRate)) =
        .ok true := by
    decide +kernel
  rw [htrain] at hsteps
  have hfinite : ∀ t ∈ f.trees, t.HasFiniteSteps (fewRounds .classification).learningRate :=
    of_decide_eq_true (Except.ok.inj hsteps)
  exact ⟨by decide +kernel, rfl, hlabels, hmajority, hln, hexp, f, history, htrain, hfinite,
    hstays hfinite⟩

end Settings

end GradientForest
