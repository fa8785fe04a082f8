import Mathlib.Data.List.Infix
import GradientForest.Proofs.Outcome
import GradientForest.Proofs.Training.Success

/-!
# Training round by round

Training is one loop, and `stateAfter` is the loop cut off after some rounds.  It
asks the settings for everything but the number of rounds, so it does not change
with that number (`stateAfter_numTrees`).  A successful training ends in the state
after its last round (`train_eq_ok_iff`).

A round only appends: its tree to the trees and its metric to the history.  So the
state after more rounds extends the state after fewer (`exists_stateAfter_of_le`),
and a training of `k` rounds returns the first `k` trees and metrics of a longer
one (`Settings.train_take`).
-/

namespace GradientForest

open Scalar

namespace Training

variable {α : Type} [Scalar α] {s : Settings α} {d : Dataset α}

/-! ## The loop cut off -/

/-- The prediction that every row starts at. -/
def bias (d : Dataset α) : α := Statistics.median d.labels.toList

/-- The state that training holds after its first `k` rounds. -/
def stateAfter (s : Settings α) (d : Dataset α) (k : ℕ) : Except Error (State α d.numRows) :=
  rounds s d k 1 (start s d (bias d))

/-- The state after one more round, from its tree and the leaf values of the rows. -/
def State.next (s : Settings α) (d : Dataset α) (st : State α d.numRows) (t : Tree α)
    (leaves : Vector α d.numRows) : State α d.numRows :=
  let predictions := Forest.applyTree s.task s.learningRate st.predictions leaves
  { predictions
    trees := st.trees.push t
    history := st.history.push (s.task.metric predictions.toList d.labels.toList) }

theorem step_eq_ok_iff {round : ℕ} {st st' : State α d.numRows} :
    step s d round st = .ok st' ↔
      ∃ t leaves, roundTree s d round st.predictions = .ok t ∧
        t.evaluateAll d.features = .ok leaves ∧ st' = st.next s d t leaves := by
  simp only [step, bind_eq_ok_iff, pure_eq_ok_iff]
  constructor
  · rintro ⟨t, ht, leaves, hleaves, rfl⟩
    exact ⟨t, leaves, ht, hleaves, rfl⟩
  · rintro ⟨t, leaves, ht, hleaves, rfl⟩
    exact ⟨t, ht, leaves, hleaves, rfl⟩

theorem rounds_succ (n round : ℕ) (st : State α d.numRows) :
    rounds s d (n + 1) round st = rounds s d n round st >>= step s d (round + n) := by
  induction n generalizing round st with
  | zero =>
    rw [rounds]
    exact bind_pure _
  | succ n ih =>
    rw [rounds, rounds, bind_assoc]
    refine bind_congr fun st' => ?_
    rw [ih, Nat.add_right_comm round 1 n]
    rfl

theorem stateAfter_succ (k : ℕ) :
    stateAfter s d (k + 1) = stateAfter s d k >>= step s d (k + 1) := by
  rw [stateAfter, rounds_succ, Nat.add_comm 1 k]
  rfl

theorem stateAfter_succ_eq_ok_iff {k : ℕ} {st' : State α d.numRows} :
    stateAfter s d (k + 1) = .ok st' ↔
      ∃ st t leaves, stateAfter s d k = .ok st ∧ roundTree s d (k + 1) st.predictions = .ok t ∧
        t.evaluateAll d.features = .ok leaves ∧ st' = st.next s d t leaves := by
  rw [stateAfter_succ, bind_eq_ok_iff]
  constructor
  · rintro ⟨st, hst, hstep⟩
    obtain ⟨t, leaves, ht, hleaves, rfl⟩ := step_eq_ok_iff.1 hstep
    exact ⟨st, t, leaves, hst, ht, hleaves, rfl⟩
  · rintro ⟨st, t, leaves, hst, ht, hleaves, rfl⟩
    exact ⟨st, hst, step_eq_ok_iff.2 ⟨t, leaves, ht, hleaves, rfl⟩⟩

/-- The number of rounds decides when the loop stops and nothing else. -/
theorem stateAfter_numTrees (n : UInt64) (k : ℕ) :
    stateAfter { s with numTrees := n } d k = stateAfter s d k := by
  induction k with
  | zero => rfl
  | succ k ih =>
    rw [stateAfter_succ, stateAfter_succ, ih]
    rfl

/-- A training succeeds when its checks and all its rounds do, and it returns what the
last round leaves. -/
theorem train_eq_ok_iff {f : Forest α} {history : History α} :
    s.train d = .ok (f, history) ↔
      s.validate = .ok () ∧ d.checkLabels s.task = .ok () ∧
        ∃ st, stateAfter s d s.numTrees.toNat = .ok st ∧
          f = ⟨bias d, st.trees, s.learningRate, s.task⟩ ∧ history = st.history := by
  simp only [Settings.train, run, bind_eq_ok_iff, pure_eq_ok_iff, Prod.mk.injEq]
  constructor
  · rintro ⟨_, hs, _, hlabels, st, hst, rfl, rfl⟩
    exact ⟨hs, hlabels, st, hst, rfl, rfl⟩
  · rintro ⟨hs, hlabels, st, hst, rfl, rfl⟩
    exact ⟨(), hs, (), hlabels, st, hst, rfl, rfl⟩

theorem exists_stateAfter (hdepth : s.maxDepth.toNat < Settings.maxExactLevel) (k : ℕ) :
    ∃ st, stateAfter s d k = .ok st := by
  obtain ⟨st, hst, -, -⟩ := exists_rounds hdepth k (invariant_start (s := s) (d := d) (bias d))
  exact ⟨st, hst⟩

theorem exists_train (hs : s.validate = .ok ()) (hlabels : d.checkLabels s.task = .ok ()) :
    ∃ f history, s.train d = .ok (f, history) := by
  obtain ⟨st, hst, -, -⟩ := exists_rounds (maxDepth_lt_of_validate hs) s.numTrees.toNat
    (invariant_start (s := s) (d := d) (bias d))
  exact ⟨_, _, train_eq_ok_iff.2 ⟨hs, hlabels, st, hst, rfl, rfl⟩⟩

/-! ## Sizes -/

theorem size_stateAfter {k : ℕ} {st : State α d.numRows} (h : stateAfter s d k = .ok st) :
    st.trees.size = k ∧ st.history.rounds.size = k := by
  induction k generalizing st with
  | zero =>
    cases h
    exact ⟨rfl, rfl⟩
  | succ k ih =>
    obtain ⟨st, t, leaves, hst, -, -, rfl⟩ := stateAfter_succ_eq_ok_iff.1 h
    obtain ⟨htrees, hrounds⟩ := ih hst
    simp [State.next, History.push, htrees, hrounds]

/-! ## The trees of a training -/

theorem invariant_stateAfter (hdepth : s.maxDepth.toNat < Settings.maxExactLevel) {k : ℕ}
    {st : State α d.numRows} (h : stateAfter s d k = .ok st) : Invariant s d st := by
  obtain ⟨st', hst', hinvariant, -⟩ :=
    exists_rounds hdepth k (invariant_start (s := s) (d := d) (bias d))
  obtain rfl : st' = st := Except.ok.inj (hst'.symm.trans h)
  exact hinvariant

theorem grown_of_train {f : Forest α} {history : History α}
    (h : s.train d = .ok (f, history)) {t : Tree α} (ht : t ∈ f.trees) :
    s.maxDepth.toNat < Settings.maxExactLevel ∧ ∃ round ≤ s.numTrees.toNat, Grown s d round t := by
  obtain ⟨hs, -, st, hst, rfl, -⟩ := train_eq_ok_iff.1 h
  have hdepth := maxDepth_lt_of_validate hs
  obtain ⟨k, hk⟩ := Array.mem_iff_getElem?.1 ht
  have hlt : k < st.trees.size := (Array.getElem?_eq_some_iff.1 hk).1
  rw [(size_stateAfter hst).1] at hlt
  exact ⟨hdepth, k + 1, hlt, (invariant_stateAfter hdepth hst).grown k t hk⟩

/-! ## Later states extend earlier ones -/

/-- A later state has the trees and the metrics of an earlier one, and maybe more. -/
structure Extends {n : ℕ} (st st' : State α n) : Prop where
  trees : st.trees.toList <+: st'.trees.toList
  rounds : st.history.rounds.toList <+: st'.history.rounds.toList
  metric : st'.history.metric = st.history.metric
  initial : st'.history.initial = st.history.initial

omit [Scalar α] in
theorem Extends.refl {n : ℕ} (st : State α n) : Extends st st :=
  ⟨List.prefix_rfl, List.prefix_rfl, rfl, rfl⟩

theorem Extends.next {st st' : State α d.numRows} (h : Extends st st') (t : Tree α)
    (leaves : Vector α d.numRows) : Extends st (st'.next s d t leaves) where
  trees := by
    rw [State.next, Array.toList_push]
    exact h.trees.trans (List.prefix_append _ _)
  rounds := by
    rw [State.next, History.push, Array.toList_push]
    exact h.rounds.trans (List.prefix_append _ _)
  metric := h.metric
  initial := h.initial

theorem exists_stateAfter_of_le {k n : ℕ} (hkn : k ≤ n) {last : State α d.numRows}
    (h : stateAfter s d n = .ok last) :
    ∃ st, stateAfter s d k = .ok st ∧ Extends st last := by
  induction hkn generalizing last with
  | refl => exact ⟨last, h, .refl last⟩
  | step _ ih =>
    obtain ⟨before, t, leaves, hbefore, -, -, rfl⟩ := stateAfter_succ_eq_ok_iff.1 h
    obtain ⟨st, hst, hext⟩ := ih hbefore
    exact ⟨st, hst, hext.next t leaves⟩

theorem toList_take {β : Type} (xs : Array β) (k : ℕ) : (xs.take k).toList = xs.toList.take k := by
  rw [Array.take_eq_extract, Array.toList_extract, List.extract_eq_take_drop, List.drop_zero,
    Nat.sub_zero]

theorem Extends.take {k : ℕ} {st last : State α d.numRows} (h : Extends st last)
    (hst : stateAfter s d k = .ok st) :
    st.trees = last.trees.take k ∧
      st.history = ⟨last.history.metric, last.history.initial, last.history.rounds.take k⟩ := by
  obtain ⟨htrees, hrounds⟩ := size_stateAfter hst
  have ht := List.prefix_iff_eq_take.1 h.trees
  have hr := List.prefix_iff_eq_take.1 h.rounds
  rw [Array.length_toList, htrees, ← toList_take] at ht
  rw [Array.length_toList, hrounds, ← toList_take] at hr
  refine ⟨Array.toList_inj.1 ht, ?_⟩
  rw [← Array.toList_inj.1 hr, h.metric, h.initial]

end Training

/-! ## Fewer rounds -/

/-- A forest cut off after some trees predicts like the whole forest with that many. -/
theorem Forest.predict_take {α : Type} [Scalar α] (f : Forest α) {k : ℕ} (hk : k ≤ f.numTrees)
    (m : Matrix α) : Forest.predict { f with trees := f.trees.take k } m = f.predictWith k m := by
  have hsize : Forest.numTrees { f with trees := f.trees.take k } = k := by
    rw [numTrees, Array.take_eq_extract, Array.size_extract, Nat.sub_zero]
    exact Nat.min_eq_left hk
  rw [predict, hsize, predictWith, predictWith, hsize, if_neg (Nat.lt_irrefl k),
    if_neg (Nat.not_lt.2 hk), Training.toList_take, List.take_take, Nat.min_self]

namespace Settings

open Training

variable {α : Type} [Scalar α]

/-- Of two trainings that differ in the number of rounds, the shorter one returns what
the longer one had after as many rounds. -/
theorem train_take (s : Settings α) (d : Dataset α) {k n : UInt64} (hkn : k ≤ n)
    {f g : Forest α} {short long : History α}
    (hf : { s with numTrees := k }.train d = .ok (f, short))
    (hg : { s with numTrees := n }.train d = .ok (g, long)) :
    f.numTrees = k.toNat ∧ f = { g with trees := g.trees.take k.toNat } ∧
      short = { long with rounds := long.rounds.take k.toNat } ∧
      ∀ m : Matrix α, f.predict m = g.predictWith k.toNat m := by
  obtain ⟨-, -, st, hst, rfl, rfl⟩ := train_eq_ok_iff.1 hf
  obtain ⟨-, -, last, hlast, rfl, rfl⟩ := train_eq_ok_iff.1 hg
  rw [stateAfter_numTrees] at hst hlast
  obtain ⟨st', hst', hext⟩ := exists_stateAfter_of_le (UInt64.le_iff_toNat_le.1 hkn) hlast
  obtain rfl : st = st' := Except.ok.inj (hst.symm.trans hst')
  obtain ⟨htrees, hhistory⟩ := hext.take hst
  refine ⟨(size_stateAfter hst).1, ?_, hhistory, fun m => ?_⟩
  · rw [htrees]
  · have hk : k.toNat ≤ last.trees.size := by
      rw [(size_stateAfter hlast).1]
      exact UInt64.le_iff_toNat_le.1 hkn
    rw [← Forest.predict_take _ hk, htrees]

theorem train_take_mixedData :
    ∃ f g short long,
      { threeRounds .regression with numTrees := 2 }.train Growth.mixedData = .ok (f, short) ∧
      { threeRounds .regression with numTrees := 3 }.train Growth.mixedData = .ok (g, long) ∧
      (2 : UInt64) ≤ 3 ∧
      f.numTrees = 2 ∧ f = { g with trees := g.trees.take 2 } ∧
      short = { long with rounds := long.rounds.take 2 } ∧
      ∀ m : Matrix Binary64, f.predict m = g.predictWith 2 m := by
  obtain ⟨f, short, hf⟩ := exists_train
    (s := { threeRounds .regression with numTrees := 2 }) (d := Growth.mixedData)
    (by decide +kernel) (by decide +kernel)
  obtain ⟨g, long, hg⟩ := exists_train
    (s := { threeRounds .regression with numTrees := 3 }) (d := Growth.mixedData)
    (by decide +kernel) (by decide +kernel)
  exact ⟨f, g, short, long, hf, hg, by decide,
    train_take (threeRounds .regression) Growth.mixedData (by decide) hf hg⟩

end Settings

end GradientForest
