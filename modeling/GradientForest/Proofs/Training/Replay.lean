import GradientForest.Proofs.Training.Rounds

/-!
# Prediction replays training

Training moves the prediction of every row by each new tree.  Prediction starts
again at the bias and moves by the finished trees.  These are two loops, and
`Recorded` ties them together: the trees so far predict what training holds, and the
last recorded metric is the metric of it.  A round keeps this (`Recorded.next`), so
it is true after any number of rounds (`recorded_stateAfter`).

Hence the first `k` trees of a trained forest predict for the training data what
training held after round `k`, and the history has the metrics of these predictions
(`Settings.train_replays`).
-/

namespace GradientForest

open Scalar

variable {α : Type} [Scalar α]

theorem Forest.predictFrom_append (task : Task) (rate : α) (m : Matrix α)
    (predictions : Vector α m.height) (ts us : List (Tree α)) :
    predictFrom task rate m predictions (ts ++ us) =
      predictFrom task rate m predictions ts >>= fun v => predictFrom task rate m v us := by
  induction ts generalizing predictions with
  | nil => rfl
  | cons t ts ih =>
    rw [List.cons_append, predictFrom, predictFrom, bind_assoc]
    exact bind_congr fun leaves => ih _

omit [Scalar α] in
theorem History.last_push (h : History α) (value : α) : (h.push value).last = value := by
  rw [last, push, Array.back?_push]
  rfl

omit [Scalar α] in
theorem History.getElem?_of_last {h : History α} {k : ℕ} (hsize : h.rounds.size = k) (hk : 0 < k) :
    h.rounds[k - 1]? = some h.last := by
  have hlt : k - 1 < h.rounds.size := by omega
  rw [last, Array.back?_eq_getElem?, hsize, Array.getElem?_eq_getElem hlt]
  rfl

namespace Training

variable {s : Settings α} {d : Dataset α}

/-- The trees so far predict what training holds, and the metrics are of these
predictions. -/
structure Recorded (s : Settings α) (d : Dataset α) (st : State α d.numRows) : Prop where
  predictions : Forest.predictFrom s.task s.learningRate d.features
    (.replicate d.numRows (bias d)) st.trees.toList = .ok st.predictions
  initial : st.history.initial =
    s.task.metric (List.replicate d.numRows (bias d)) d.labels.toList
  last : st.history.last = s.task.metric st.predictions.toList d.labels.toList

theorem recorded_start : Recorded s d (start s d (bias d)) where
  predictions := rfl
  initial := by simp only [start, History.start, Vector.toList_replicate]
  last := rfl

/-- Training moves its predictions by the new tree as prediction does. -/
theorem Recorded.next {st : State α d.numRows} (h : Recorded s d st) {t : Tree α}
    {leaves : Vector α d.numRows} (hleaves : t.evaluateAll d.features = .ok leaves) :
    Recorded s d (st.next s d t leaves) where
  predictions := by
    have hstep : Forest.predictFrom s.task s.learningRate d.features st.predictions [t] =
        .ok (Forest.applyTree s.task s.learningRate st.predictions leaves) := by
      rw [Forest.predictFrom, hleaves]
      rfl
    rw [State.next, Array.toList_push, Forest.predictFrom_append, h.predictions]
    exact hstep
  initial := h.initial
  last := History.last_push _ _

theorem recorded_stateAfter {k : ℕ} {st : State α d.numRows} (h : stateAfter s d k = .ok st) :
    Recorded s d st := by
  induction k generalizing st with
  | zero =>
    cases h
    exact recorded_start
  | succ k ih =>
    obtain ⟨st, t, leaves, hst, -, hleaves, rfl⟩ := stateAfter_succ_eq_ok_iff.1 h
    exact (ih hst).next hleaves

/-- The first `k` trees of the finished forest predict what training held after round `k`. -/
theorem predictWith_stateAfter {k n : ℕ} (hkn : k ≤ n) {st last : State α d.numRows}
    (hst : stateAfter s d k = .ok st) (hlast : stateAfter s d n = .ok last) :
    Forest.predictWith ⟨bias d, last.trees, s.learningRate, s.task⟩ k d.features =
      .ok st.predictions := by
  obtain ⟨st', hst', hext⟩ := exists_stateAfter_of_le hkn hlast
  obtain rfl : st = st' := Except.ok.inj (hst.symm.trans hst')
  have hlt : ¬ last.trees.size < k := by
    rw [(size_stateAfter hlast).1]
    exact Nat.not_lt.2 hkn
  rw [Forest.predictWith, Forest.numTrees, if_neg hlt, ← toList_take, ← (hext.take hst).1]
  exact (recorded_stateAfter hst).predictions

end Training

namespace Settings

open Training

/-- The first `k` trees of a trained forest predict for the training data what training
held after round `k`, and the metrics of the history are those of these predictions. -/
theorem train_replays {s : Settings α} {d : Dataset α} {f : Forest α} {history : History α}
    (h : s.train d = .ok (f, history)) :
    history.initial = s.task.metric (List.replicate d.numRows f.bias) d.labels.toList ∧
    ∀ k ≤ s.numTrees.toNat, ∃ st, stateAfter s d k = .ok st ∧
      f.predictWith k d.features = .ok st.predictions ∧
      (0 < k → history.rounds[k - 1]? =
        some (s.task.metric st.predictions.toList d.labels.toList)) := by
  obtain ⟨-, -, last, hlast, rfl, rfl⟩ := train_eq_ok_iff.1 h
  refine ⟨(recorded_stateAfter hlast).initial, fun k hk => ?_⟩
  obtain ⟨st, hst, hext⟩ := exists_stateAfter_of_le hk hlast
  obtain ⟨htrees, hhistory⟩ := hext.take hst
  obtain ⟨hsize, hrounds⟩ := size_stateAfter hst
  have hrecorded := recorded_stateAfter hst
  refine ⟨st, hst, ?_, fun hpos => ?_⟩
  · have hlt : ¬ last.trees.size < k := by
      rw [(size_stateAfter hlast).1]
      exact Nat.not_lt.2 hk
    rw [Forest.predictWith, Forest.numTrees, if_neg hlt, ← toList_take, ← htrees]
    exact hrecorded.predictions
  · have hprefix : st.history.rounds[k - 1]? = last.history.rounds[k - 1]? := by
      rw [hhistory, ← Array.getElem?_toList, toList_take, List.getElem?_take_of_lt (by omega),
        Array.getElem?_toList]
    rw [← hprefix, History.getElem?_of_last hrounds hpos, hrecorded.last]

theorem train_replays_mixedData :
    ∃ f history, (threeRounds .regression).train Growth.mixedData = .ok (f, history) ∧
      history.initial = (threeRounds .regression).task.metric
        (List.replicate Growth.mixedData.numRows f.bias) Growth.mixedData.labels.toList ∧
      ∃ st, stateAfter (threeRounds .regression) Growth.mixedData 3 = .ok st ∧
        f.predictWith 3 Growth.mixedData.features = .ok st.predictions ∧
        history.rounds[2]? = some ((threeRounds .regression).task.metric st.predictions.toList
          Growth.mixedData.labels.toList) := by
  obtain ⟨f, history, h⟩ := exists_train (s := threeRounds .regression) (d := Growth.mixedData)
    (by decide +kernel) (by decide +kernel)
  obtain ⟨hinitial, hrounds⟩ := train_replays h
  obtain ⟨st, hst, hpredict, hmetric⟩ := hrounds 3 (by decide +kernel)
  exact ⟨f, history, h, hinitial, st, hst, hpredict, hmetric (by decide)⟩

end Settings

end GradientForest
