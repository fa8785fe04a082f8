import GradientForest.Forest.Training
import GradientForest.Proofs.Growth.FullBinary
import GradientForest.Proofs.Growth.Walk
import GradientForest.Proofs.Settings.Allowed

/-!
# Training succeeds

Once the settings and the labels have passed their checks, training cannot fail.
A tree is `Grown` in a round when growth on the dataset made it there.  Grown trees
pass `Tree.validate`, and every row that suits the dataset walks through them
without an error, above all the rows of the dataset.

So one round succeeds and leaves one more grown tree (`Training.exists_step`), any
number of rounds does (`Training.exists_rounds`), and so does the prediction for
every row that suits the dataset (`Training.exists_predictFrom`).
-/

namespace GradientForest

open Scalar

theorem exists_mapM_eq_ok {ε β γ : Type} {n : ℕ} {xs : Vector β n} {f : β → Except ε γ}
    (h : ∀ x ∈ xs, ∃ y, f x = .ok y) : ∃ ys, xs.mapM f = .ok ys := by
  choose g hg using fun x : {x // x ∈ xs} => h x.1 x.2
  have hf : f ∘ Subtype.val = fun x => pure (g x) := funext hg
  have hattach : (xs.attach.map Subtype.val).mapM f = .ok (xs.attach.map g) := by
    rw [Vector.mapM_map, hf, Vector.mapM_pure]
    rfl
  rw [xs.attach_map_subtype_val] at hattach
  exact ⟨_, hattach⟩

namespace Training

variable {α : Type} [Scalar α] {s : Settings α} {d : Dataset α}

/-! ## Grown trees -/

/-- Growth on the dataset made the tree in a round. -/
def Grown (s : Settings α) (d : Dataset α) (round : ℕ) (t : Tree α) : Prop :=
  ∃ residual hessian, t = Growth.grow d s.growth (.ofNat round) residual hessian

theorem exists_roundTree (round : ℕ) (predictions : Vector α d.numRows) :
    ∃ t, roundTree s d round predictions = .ok t ∧ Grown s d round t :=
  ⟨_, Growth.build_toArray d s.growth _ _ _, _, _, rfl⟩

theorem Grown.validate_eq {round : ℕ} {t : Tree α} (h : Grown s d round t)
    (hdepth : s.maxDepth.toNat < Settings.maxExactLevel) : t.validate = .ok () := by
  obtain ⟨residual, hessian, rfl⟩ := h
  exact Growth.validate_grow (p := s.growth) hdepth

/-- Every row that suits the dataset reaches a leaf of a grown tree. -/
theorem Grown.exists_evaluate {round : ℕ} {t : Tree α} (h : Grown s d round t)
    (hdepth : s.maxDepth.toNat < Settings.maxExactLevel) {row : Array α} (hrow : Suits d row) :
    ∃ v, t.evaluate row = .ok v := by
  obtain ⟨residual, hessian, rfl⟩ := h
  obtain ⟨w, hw, -⟩ := Growth.exists_trail (p := s.growth) residual hessian hdepth (.ofNat round)
    hrow
  rw [Tree.evaluate_eq_trail, hw]
  exact ⟨w.value, rfl⟩

theorem Grown.exists_evaluateAll {round : ℕ} {t : Tree α} (h : Grown s d round t)
    (hdepth : s.maxDepth.toNat < Settings.maxExactLevel) {m : Matrix α}
    (hm : ∀ r ∈ m.rows, Suits d r.toArray) : ∃ leaves, t.evaluateAll m = .ok leaves :=
  exists_mapM_eq_ok fun r hr => h.exists_evaluate hdepth (hm r hr)

theorem suits_of_mem_features {r : Vector α d.numFeatures} (h : r ∈ d.features.rows) :
    Suits d r.toArray := by
  obtain ⟨i, hi, rfl⟩ := Vector.mem_iff_getElem.1 h
  exact suits_row ⟨i, hi⟩

/-! ## Rounds -/

/-- The trees so far have grown round by round, and every round has a metric. -/
structure Invariant (s : Settings α) (d : Dataset α) (st : State α d.numRows) : Prop where
  grown : ∀ k t, st.trees[k]? = some t → Grown s d (k + 1) t
  recorded : st.history.rounds.size = st.trees.size

theorem invariant_start (bias : α) : Invariant s d (start s d bias) where
  grown k t ht := by simp [start] at ht
  recorded := rfl

/-- One round succeeds, with one more tree. -/
theorem exists_step (hdepth : s.maxDepth.toNat < Settings.maxExactLevel)
    {st : State α d.numRows} (h : Invariant s d st) :
    ∃ st', step s d (st.trees.size + 1) st = .ok st' ∧ Invariant s d st' ∧
      st'.trees.size = st.trees.size + 1 := by
  obtain ⟨t, ht, hgrown⟩ := exists_roundTree (s := s) (d := d) (st.trees.size + 1) st.predictions
  obtain ⟨leaves, hleaves⟩ := hgrown.exists_evaluateAll hdepth fun _ => suits_of_mem_features
  let predictions := Forest.applyTree s.task s.learningRate st.predictions leaves
  let metric := s.task.metric predictions.toList d.labels.toList
  refine ⟨⟨predictions, st.trees.push t, st.history.push metric⟩, ?_, ⟨?_, ?_⟩, ?_⟩
  · rw [step, ht]
    simp only [bind, Except.bind, hleaves]
    rfl
  · intro k t' ht'
    rw [Array.getElem?_push] at ht'
    split at ht'
    · rename_i hk
      cases ht'
      rw [hk]
      exact hgrown
    · exact h.grown k t' ht'
  · simp only [History.push, Array.size_push, h.recorded]
  · exact Array.size_push t

/-- Any number of rounds succeeds, with as many trees more. -/
theorem exists_rounds (hdepth : s.maxDepth.toNat < Settings.maxExactLevel) (n : ℕ)
    {st : State α d.numRows} (h : Invariant s d st) :
    ∃ st', rounds s d n (st.trees.size + 1) st = .ok st' ∧ Invariant s d st' ∧
      st'.trees.size = st.trees.size + n := by
  induction n generalizing st with
  | zero => exact ⟨st, rfl, h, rfl⟩
  | succ n ih =>
    obtain ⟨st₁, hstep, h₁, hsize₁⟩ := exists_step hdepth h
    obtain ⟨st₂, hrounds, h₂, hsize₂⟩ := ih h₁
    refine ⟨st₂, ?_, h₂, by omega⟩
    rw [hsize₁] at hrounds
    rw [rounds, hstep]
    exact hrounds

/-! ## Predictions -/

theorem exists_predictFrom (hdepth : s.maxDepth.toNat < Settings.maxExactLevel) {m : Matrix α}
    (hm : ∀ r ∈ m.rows, Suits d r.toArray) (predictions : Vector α m.height)
    {trees : List (Tree α)} (htrees : ∀ t ∈ trees, ∃ round, Grown s d round t) :
    ∃ v, Forest.predictFrom s.task s.learningRate m predictions trees = .ok v := by
  induction trees generalizing predictions with
  | nil => exact ⟨predictions, rfl⟩
  | cons t trees ih =>
    obtain ⟨round, hgrown⟩ := htrees t List.mem_cons_self
    obtain ⟨leaves, hleaves⟩ := hgrown.exists_evaluateAll hdepth hm
    obtain ⟨v, hv⟩ := ih (Forest.applyTree s.task s.learningRate predictions leaves) fun t ht =>
      htrees t (List.mem_cons_of_mem _ ht)
    refine ⟨v, ?_⟩
    rw [Forest.predictFrom, hleaves]
    exact hv

/-- A matrix with the columns of the dataset has rows that suit it. -/
theorem suits_of_mem_rows {m : Matrix α} (hwidth : m.width = d.numFeatures)
    (hindicators : ∀ (i : Fin m.height) (j : Fin m.width), d.catalog.kind j = .categorical →
      isIndicator (m.entry i j) = true) {r : Vector α m.width} (hr : r ∈ m.rows) :
    Suits d r.toArray := by
  obtain ⟨i, hi, rfl⟩ := Vector.mem_iff_getElem.1 hr
  intro j
  have hj : (j : ℕ) < m.width := by
    rw [hwidth]
    exact j.isLt
  exact ⟨m.entry ⟨i, hi⟩ ⟨j, hj⟩, Array.getElem?_eq_some_iff.2 ⟨by simpa using hj, rfl⟩,
    hindicators ⟨i, hi⟩ ⟨j, hj⟩⟩

/-! ## The whole training -/

/-- What training promises of the forest and the history that it returns. -/
structure Succeeds (s : Settings α) (d : Dataset α) (f : Forest α) (history : History α) :
    Prop where
  /-- There is a tree for every round. -/
  numTrees_eq : f.numTrees = s.numTrees.toNat
  /-- The trees carry their rounds and pass the check of flat trees. -/
  trees : ∀ k t, f.trees[k]? = some t → t.id.toNat = k + 1 ∧ t.validate = .ok ()
  /-- There is a metric for every round. -/
  rounds_eq : history.length = s.numTrees.toNat
  /-- The forest predicts for every matrix with the columns of the dataset. -/
  predicts : ∀ m : Matrix α, m.width = d.numFeatures →
    (∀ (i : Fin m.height) (j : Fin m.width), d.catalog.kind j = .categorical →
      isIndicator (m.entry i j) = true) → ∃ v, f.predict m = .ok v

theorem maxDepth_lt_of_validate (h : s.validate = .ok ()) :
    s.maxDepth.toNat < Settings.maxExactLevel :=
  (Settings.validate_eq_ok_iff.1 h).maxDepth_lt

theorem succeeds_of_invariant (hdepth : s.maxDepth.toNat < Settings.maxExactLevel)
    {st : State α d.numRows} (h : Invariant s d st) (hsize : st.trees.size = s.numTrees.toNat)
    (bias : α) : Succeeds s d ⟨bias, st.trees, s.learningRate, s.task⟩ st.history where
  numTrees_eq := hsize
  trees k t ht := by
    have hgrown := h.grown k t ht
    refine ⟨?_, hgrown.validate_eq hdepth⟩
    have hk : k < st.trees.size := (Array.getElem?_eq_some_iff.1 ht).1
    have hword := s.numTrees.toNat_lt
    obtain ⟨residual, hessian, rfl⟩ := hgrown
    exact UInt64.toNat_ofNat_of_lt' (show k + 1 < 2 ^ 64 by omega)
  rounds_eq := h.recorded.trans hsize
  predicts m hwidth hindicators := by
    have htrees : ∀ t ∈ st.trees.toList, ∃ round, Grown s d round t := by
      intro t ht
      obtain ⟨k, hk⟩ := Array.mem_iff_getElem?.1 (Array.mem_toList_iff.1 ht)
      exact ⟨k + 1, h.grown k t hk⟩
    obtain ⟨v, hv⟩ := exists_predictFrom hdepth
      (fun r hr => suits_of_mem_rows hwidth hindicators hr) (.replicate m.height bias) htrees
    exact ⟨v, (Forest.predict_eq _ m).trans hv⟩

end Training

namespace Settings

variable {α : Type} [Scalar α]

/-- With settings that are allowed, training succeeds on every dataset whose labels
suit the task, and otherwise fails with what is wrong with the labels. -/
theorem train_succeeds (s : Settings α) (d : Dataset α) (hs : s.validate = .ok ()) :
    (d.checkLabels s.task = .ok () →
      ∃ f history, s.train d = .ok (f, history) ∧ Training.Succeeds s d f history) ∧
    ∀ e, d.checkLabels s.task = .error e → s.train d = .error e := by
  have hdepth := Training.maxDepth_lt_of_validate hs
  have htrain : s.train d = Training.run s d := by
    rw [train, hs]
    rfl
  rw [htrain]
  constructor
  · intro hlabels
    obtain ⟨st, hrounds, hst, hsize⟩ := Training.exists_rounds hdepth s.numTrees.toNat
      (Training.invariant_start (s := s) (d := d) (Statistics.median d.labels.toList))
    refine ⟨_, _, ?_, Training.succeeds_of_invariant hdepth hst
      (hsize.trans (Nat.zero_add _)) (Statistics.median d.labels.toList)⟩
    change Training.rounds s d s.numTrees.toNat 1 _ = .ok st at hrounds
    rw [Training.run, hlabels]
    simp only [bind, Except.bind, hrounds]
    rfl
  · intro e he
    rw [Training.run, he]
    rfl

/-- Three rounds of depth two. -/
def threeRounds (task : Task) : Settings Binary64 :=
  { default with task, numTrees := 3, maxDepth := 2 }

theorem train_succeeds_mixedData :
    (threeRounds .regression).validate = .ok () ∧ (threeRounds .classification).validate = .ok () ∧
    (∃ f history, (threeRounds .regression).train Growth.mixedData = .ok (f, history) ∧
      Training.Succeeds (threeRounds .regression) Growth.mixedData f history) ∧
    (threeRounds .classification).train Growth.mixedData =
      .error (.parameter "labels" "3" "classification labels must be 0 or 1") := by
  refine ⟨by decide +kernel, by decide +kernel, ?_, ?_⟩
  · exact (train_succeeds (threeRounds .regression) Growth.mixedData (by decide +kernel)).1
      (by decide +kernel)
  · exact (train_succeeds (threeRounds .classification) Growth.mixedData (by decide +kernel)).2 _
      (by decide +kernel)

end Settings

end GradientForest
