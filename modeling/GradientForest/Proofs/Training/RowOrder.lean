import Mathlib.Data.Fin.Rev
import GradientForest.Proofs.Growth.RowOrder
import GradientForest.Proofs.Training.Rounds

/-!
# Training and the order of the rows

In exact arithmetic a trained forest and its history do not depend on the order of the
rows (`Settings.train_permute`).

Labels that pass their check are defined, so sorting puts them into one order and their
median is the same.  Metrics are averages over the rows.  A round makes the same tree of
the reordered rows, and each row moves by the leaf value that it moved by before.  So
after any number of rounds the two trainings differ in the order of their predictions
only (`Training.stateAfter_permute`).
-/

namespace GradientForest

open Scalar

/-! ## Labels and metrics -/

section Reorder

variable {α : Type} {n : ℕ} (σ : Equiv.Perm (Fin n))

theorem toList_eq_map (xs : Vector α n) : xs.toList = (List.finRange n).map xs.get :=
  List.ext_getElem (by simp) (by simp [get_eq_getElem])

theorem toList_reorder_perm (xs : Vector α n) : (reorder σ xs).toList.Perm xs.toList := by
  rw [toList_eq_map, toList_eq_map, get_reorder]
  exact map_perm σ.map_finRange_perm xs.get

end Reorder

section Labels

variable {α : Type} [Scalar α]

/-- A label that suits a task. -/
def Task.admits (task : Task) (y : α) : Bool :=
  match task with
  | .regression => isFinite y
  | .classification => isIndicator y

theorem Dataset.checkLabels_eq_ok_iff {d : Dataset α} {task : Task} :
    d.checkLabels task = .ok () ↔ ∀ y ∈ d.labels.toList, task.admits y = true := by
  cases task with
  | regression =>
    rw [checkLabels, ← List.all_eq_true]
    split_ifs with hfinite
    · exact iff_of_true rfl hfinite
    · exact iff_of_false nofun hfinite
  | classification =>
    rw [checkLabels]
    cases hfind : d.labels.toList.find? fun y => !isIndicator y with
    | none => simpa [Task.admits] using hfind
    | some y =>
      have hy := List.find?_some hfind
      refine iff_of_false nofun fun h => ?_
      rw [show isIndicator y = true from h y (List.mem_of_find?_eq_some hfind)] at hy
      cases hy

theorem Dataset.checkLabels_permute {d : Dataset α} (σ : Equiv.Perm (Fin d.numRows)) (task : Task) :
    (d.permute σ).checkLabels task = .ok () ↔ d.checkLabels task = .ok () := by
  rw [checkLabels_eq_ok_iff, checkLabels_eq_ok_iff]
  simp only [(toList_reorder_perm σ d.labels).mem_iff]

end Labels

section Exact

variable [Exact.Functions]

theorem Task.ne_undefined_of_admits {task : Task} {y : Exact} (h : task.admits y = true) :
    y ≠ .undefined := by
  rintro rfl
  cases task <;> cases h

/-- The median of defined values does not depend on their order. -/
theorem Statistics.median_perm {xs ys : List Exact} (h : xs.Perm ys)
    (hdefined : ∀ x ∈ ys, x ≠ .undefined) : median xs = median ys := by
  have hcompares : Sorting.ComparesBy lt id ys := fun x hx y hy =>
    Exact.lt_iff (hdefined x hx) (hdefined y hy)
  have hsame := Sorting.map_sort_eq_of_perm h hcompares
  have hys : ys.any isNaN = false := by
    rw [List.any_eq_false]
    intro y hy
    rw [Exact.isNaN_iff]
    exact hdefined y hy
  have hxs : xs.any isNaN = false := h.any_eq.trans hys
  rw [List.map_id, List.map_id] at hsame
  rw [median, median, h.isEmpty_eq, sorted_of_defined hxs, sorted_of_defined hys, hsame]

theorem Metrics.averageOf_reorder {n : ℕ} (σ : Equiv.Perm (Fin n)) (term : Exact → Exact → Exact)
    (predictions truth : Vector Exact n) :
    averageOf term (reorder σ predictions).toList (reorder σ truth).toList =
      averageOf term predictions.toList truth.toList := by
  have hpredictions := toList_reorder_perm σ predictions
  have hterms := toList_reorder_perm σ (predictions.zipWith term truth)
  rw [← zipWith_reorder, Vector.toList_zipWith, Vector.toList_zipWith] at hterms
  rw [averageOf, averageOf, hpredictions.isEmpty_eq, hpredictions.length_eq,
    Exact.sum_perm hterms]

theorem Task.metric_reorder {n : ℕ} (σ : Equiv.Perm (Fin n)) (task : Task)
    (predictions labels : Vector Exact n) :
    task.metric (reorder σ predictions).toList (reorder σ labels).toList =
      task.metric predictions.toList labels.toList := by
  cases task with
  | regression => exact congrArg sqrt (Metrics.averageOf_reorder σ _ predictions labels)
  | classification => exact Metrics.averageOf_reorder σ _ predictions labels

/-! ## Rounds -/

namespace Training

variable {s : Settings Exact} {d : Dataset Exact} (σ : Equiv.Perm (Fin d.numRows))

/-- The state with its predictions in another order. -/
def State.reorder {n : ℕ} (σ : Equiv.Perm (Fin n)) (st : State Exact n) : State Exact n :=
  { st with predictions := GradientForest.reorder σ st.predictions }

theorem start_permute (bias : Exact) : start s (d.permute σ) bias = (start s d bias).reorder σ := by
  have hmetric := s.task.metric_reorder σ (.replicate d.numRows bias) d.labels
  rw [reorder_replicate] at hmetric
  rw [start, start, State.reorder, reorder_replicate, ← hmetric]

theorem next_permute (st : State Exact d.numRows) (t : Tree Exact)
    (leaves : Vector Exact d.numRows) :
    (st.reorder σ).next s (d.permute σ) t (reorder σ leaves) =
      (st.next s d t leaves).reorder σ := by
  have happly : Forest.applyTree s.task s.learningRate (reorder σ st.predictions)
      (reorder σ leaves) =
        reorder σ (Forest.applyTree s.task s.learningRate st.predictions leaves) :=
    zipWith_reorder σ _ st.predictions leaves
  simp only [State.next, State.reorder, happly, Task.metric_reorder]

/-- The tree of a round does not depend on the order of the rows. -/
theorem roundTree_permute (hdepth : s.maxDepth.toNat < Settings.maxExactLevel) (round : ℕ)
    (predictions : Vector Exact d.numRows) :
    roundTree s (d.permute σ) round (reorder σ predictions) = roundTree s d round predictions := by
  rw [roundTree, roundTree, Growth.build_toArray, Growth.build_toArray, zipWith_reorder,
    map_reorder]
  exact congrArg Except.ok (Growth.grow_permute _ _ hdepth _)

/-- The rows reach the leaves that they reached before. -/
theorem evaluateAll_permute (hdepth : s.maxDepth.toNat < Settings.maxExactLevel) {round : ℕ}
    {t : Tree Exact} (ht : Grown s d round t) {leaves : Vector Exact d.numRows}
    (hleaves : t.evaluateAll d.features = .ok leaves) :
    t.evaluateAll (d.permute σ).features = .ok (reorder σ leaves) := by
  choose values hvalue using fun i => ht.exists_evaluate hdepth (suits_row (d := d) i)
  rw [Tree.evaluateAll_eq_ok hvalue, Except.ok.injEq] at hleaves
  rw [← hleaves, reorder_ofFn]
  refine Tree.evaluateAll_eq_ok fun i => ?_
  rw [Dataset.row_permute, hvalue]
  rfl

/-- After as many rounds the two trainings differ in the order of their predictions. -/
theorem stateAfter_permute (hdepth : s.maxDepth.toNat < Settings.maxExactLevel)
    (hbias : bias (d.permute σ) = bias d) {k : ℕ} {st : State Exact d.numRows}
    (h : stateAfter s d k = .ok st) : stateAfter s (d.permute σ) k = .ok (st.reorder σ) := by
  induction k generalizing st with
  | zero =>
    obtain rfl := Except.ok.inj h
    rw [← start_permute, ← hbias]
    rfl
  | succ k ih =>
    obtain ⟨st, t, leaves, hst, ht, hleaves, rfl⟩ := stateAfter_succ_eq_ok_iff.1 h
    obtain ⟨t', ht', hgrown⟩ := exists_roundTree (s := s) (d := d) (k + 1) st.predictions
    obtain rfl : t' = t := Except.ok.inj (ht'.symm.trans ht)
    refine stateAfter_succ_eq_ok_iff.2 ⟨st.reorder σ, t', reorder σ leaves, ih hst, ?_,
      evaluateAll_permute σ hdepth hgrown hleaves, (next_permute σ st t' leaves).symm⟩
    rw [State.reorder, roundTree_permute σ hdepth, ht]

end Training

end Exact

namespace Settings

open Training

/-- Training on the rows in another order gives the same forest and the same history. -/
theorem train_permute [Exact.Functions] (s : Settings Exact) (d : Dataset Exact)
    (σ : Equiv.Perm (Fin d.numRows)) (hs : s.validate = .ok ()) :
    (∀ f history, s.train (d.permute σ) = .ok (f, history) ↔ s.train d = .ok (f, history)) ∧
    (d.checkLabels s.task = .ok () → ∃ f history, s.train d = .ok (f, history) ∧
      s.train (d.permute σ) = .ok (f, history)) := by
  have hpermute : ∀ {f history}, s.train d = .ok (f, history) →
      s.train (d.permute σ) = .ok (f, history) := by
    intro f history h
    obtain ⟨-, hlabels, st, hst, rfl, rfl⟩ := train_eq_ok_iff.1 h
    have hbias : bias (d.permute σ) = bias d :=
      Statistics.median_perm (toList_reorder_perm σ d.labels) fun y hy =>
        Task.ne_undefined_of_admits (Dataset.checkLabels_eq_ok_iff.1 hlabels y hy)
    have hst' := stateAfter_permute σ (maxDepth_lt_of_validate hs) hbias hst
    exact train_eq_ok_iff.2 ⟨hs, (d.checkLabels_permute σ s.task).2 hlabels, _, hst',
      by rw [hbias]; rfl, rfl⟩
  refine ⟨fun f history => ⟨fun h => ?_, hpermute⟩, fun hlabels => ?_⟩
  · obtain ⟨-, hlabels, -⟩ := train_eq_ok_iff.1 h
    obtain ⟨g, record, hg⟩ := exists_train hs ((Dataset.checkLabels_permute σ s.task).1 hlabels)
    exact hg.trans ((hpermute hg).symm.trans h)
  · obtain ⟨f, history, h⟩ := exists_train hs hlabels
    exact ⟨f, history, h, hpermute h⟩

open scoped Exact

/-- Six rows of a scalar, with ties and one undefined value, and an indicator. -/
def tiedData : Dataset Exact where
  features := ⟨6, 2, #v[#v[2, 0], #v[2, 1], #v[.undefined, 0], #v[1, 1], #v[5, 0], #v[2, 1]]⟩
  labels := #v[0, 1, 1, 0, 1, 1]
  catalog := ⟨[.scalar, .categorical]⟩
  names := none
  height_pos := by decide
  catalog_length := by decide
  indicators := by decide +kernel
  height_lt := by decide
  width_lt := by decide

/-- The default settings with fewer rounds and levels. -/
def fewRounds (task : Task) : Settings Exact := { default with task, numTrees := 3, maxDepth := 2 }

theorem train_permute_tiedData :
    (fewRounds .classification).validate = .ok () ∧ (fewRounds .regression).validate = .ok () ∧
    tiedData.checkLabels .classification = .ok () ∧ tiedData.checkLabels .regression = .ok () ∧
    (∃ f history, (fewRounds .classification).train tiedData = .ok (f, history) ∧
      (fewRounds .classification).train (tiedData.permute Fin.revPerm) = .ok (f, history)) ∧
    ∃ f history, (fewRounds .regression).train tiedData = .ok (f, history) ∧
      (fewRounds .regression).train (tiedData.permute Fin.revPerm) = .ok (f, history) :=
  ⟨by decide +kernel, by decide +kernel, by decide +kernel, by decide +kernel,
    (train_permute (fewRounds .classification) tiedData Fin.revPerm (by decide +kernel)).2
      (by decide +kernel),
    (train_permute (fewRounds .regression) tiedData Fin.revPerm (by decide +kernel)).2
      (by decide +kernel)⟩

end Settings

end GradientForest
