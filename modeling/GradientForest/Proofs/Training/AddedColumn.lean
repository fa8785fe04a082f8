import GradientForest.Proofs.Growth.Partition
import GradientForest.Proofs.Split.AddedColumn
import GradientForest.Proofs.Training.Rounds

/-!
# Training with a redundant column

One more column on the right that is redundant changes neither the forest nor the history
of a training (`Settings.train_addColumn`), whatever its kind.

The two trainings agree step by step.  A node that is resolved with the column becomes
what it became without it (`Growth.resolve_addColumn`), so the trees of a round are equal
as soon as the predictions are.  No tree tests the column, so the rows reach the leaves
that they reached before (`Tree.evaluate_push`), and the next predictions are equal.
-/

namespace GradientForest

open Scalar

variable {α : Type} [Scalar α]

/-! ## A longer row -/

section Push

variable {t : Tree α} {row : Array α}

theorem NodeKind.turn_push {kind : NodeKind α}
    (hfeature : ∀ f, kind.feature? = some f → f.toNat < row.size) (v : α) :
    kind.turn (row.push v) = kind.turn row := by
  have hvalue : ∀ f, kind.feature? = some f →
      featureValue (row.push v) f = featureValue row f := by
    intro f hf
    have hlt := hfeature f hf
    rw [featureValue, featureValue, Array.getElem?_push_lt hlt, Array.getElem?_eq_getElem hlt]
  cases kind with
  | leaf value => rfl
  | scalar f threshold => rw [turn, turn, hvalue f rfl]
  | categorical f => rw [turn, turn, hvalue f rfl]

/-- A tree does not look behind the features that it tests. -/
theorem Tree.evaluate_push
    (hfeatures : ∀ n ∈ t.nodes, ∀ f, n.feature? = some f → f.toNat < row.size) (v : α) :
    t.evaluate (row.push v) = t.evaluate row := by
  have hwalk : ∀ steps column,
      t.walkFrom (row.push v) steps column = t.walkFrom row steps column := by
    intro steps
    induction steps with
    | zero => exact fun _ => rfl
    | succ steps ih =>
      intro column
      rw [walkFrom, walkFrom]
      cases hn : t.nodes[column.toNat]? with
      | none => rfl
      | some n =>
        have hturn := NodeKind.turn_push (hfeatures n (Array.mem_of_getElem? hn)) v
        simp only [hturn, ih]
  exact hwalk _ _

end Push

/-! ## A dataset with one more column -/

section AddColumn

variable {d : Dataset α} {column : Vector α d.numRows} {kind : FeatureKind}

theorem Dataset.kind_add (j : Fin d.numFeatures) (kind : FeatureKind) :
    (d.catalog.add kind).kind j = d.catalog.kind j :=
  Catalog.kind_add (d.catalog_length.symm ▸ j.isLt) kind

theorem Dataset.kind_add_last (d : Dataset α) (kind : FeatureKind) :
    (d.catalog.add kind).kind (Fin.last d.numFeatures) = kind := by
  have hlast := d.catalog.kind_add_last kind
  rwa [d.catalog_length] at hlast

-- reducible, so that states of one training are at once states of the other

/-- The dataset with one more column behind the others. -/
@[reducible] def Dataset.addColumn (d : Dataset α) (column : Vector α d.numRows)
    (kind : FeatureKind)
    (hkind : kind = .categorical → ∀ i, isIndicator (column.get i) = true)
    (hwidth : d.numFeatures + 1 < Dataset.capacity) : Dataset α where
  features := d.features.addColumn column
  labels := d.labels
  catalog := d.catalog.add kind
  names := none
  height_pos := d.height_pos
  catalog_length := by
    rw [Catalog.length, Catalog.add, List.length_append]
    exact congrArg (· + 1) d.catalog_length
  indicators := by
    intro j
    refine Fin.lastCases (fun hj i => ?_) (fun j hj i => ?_) j
    · rw [Matrix.entry_last]
      exact hkind ((d.kind_add_last kind).symm.trans hj) i
    · rw [Matrix.entry_castSucc]
      exact d.indicators j ((kind_add j kind).symm.trans hj) i
  height_lt := d.height_lt
  width_lt := hwidth

/-- A dataset from the parts of another one with one more column. -/
theorem Dataset.ofParts_addColumn {d' : Dataset α}
    (h : ofParts (d.features.addColumn column) d.labels.toList (d.catalog.add kind) = .ok d') :
    ∃ hkind hwidth, d' = d.addColumn column kind hkind hwidth := by
  rw [ofParts] at h
  split at h
  · cases h
  split at h
  · cases h
  split at h
  · cases h
  split at h
  · cases h
  rename_i hindicators
  split at h
  · rename_i hsize
    cases h
    refine ⟨fun hkind i => ?_, hsize.2, rfl⟩
    rw [← d.features.entry_last column i]
    exact isIndicator_of_nonIndicator?_eq_none hindicators (Fin.last d.numFeatures)
      ((d.kind_add_last kind).trans hkind) i
  · cases h

variable (hkind : kind = .categorical → ∀ i, isIndicator (column.get i) = true)
  (hwidth : d.numFeatures + 1 < Dataset.capacity)

theorem Dataset.row_addColumn (i : Fin d.numRows) :
    (d.addColumn column kind hkind hwidth).row i = (d.row i).push (column.get i) := by
  simp [row, addColumn, Matrix.addColumn, get_eq_getElem]

/-! ## Growth -/

section Growth

variable [TotallyOrdered α] (hpos : 0 < d.numFeatures) (hcolumn : d.features.Redundant column)
variable (p : GrowthParameters α) (residual hessian : Vector α d.numRows)

include hpos hcolumn

/-- A node becomes what it becomes without the column. -/
theorem Growth.resolve_addColumn :
    resolve (d.addColumn column kind hkind hwidth) p residual hessian =
      resolve d p residual hessian := by
  funext id mask
  have hbest := Split.best?_addColumn hpos hcolumn d.catalog_length kind p.lambda residual.get
    hessian.get (mask.activeRows d.numRows)
  have hdivide : ∀ s : Split α d.numFeatures,
      divide (d.addColumn column kind hkind hwidth) mask s.widen = divide d mask s := by
    intro s
    have hcolumn := d.features.column_castSucc column s.feature
    rw [divide, divide, Split.widen]
    simp only [hcolumn, Fin.val_castSucc]
  have hpure : ∀ rows : List (Fin d.numRows),
      isPure (d.addColumn column kind hkind hwidth) p.task rows = isPure d p.task rows := by
    intro rows
    cases p.task <;> cases rows <;> rfl
  rw [resolve, resolve, resolveRows, resolveRows, hbest, hpure]
  cases Split.best? p.lambda d.features d.catalog residual.get hessian.get
      (mask.activeRows d.numRows) with
  | none => rfl
  | some s =>
    simp only [Option.map_some, hdivide]
    rfl

theorem Growth.grow_addColumn (treeId : UInt64) :
    grow (d.addColumn column kind hkind hwidth) p treeId residual hessian =
      grow d p treeId residual hessian := by
  rw [grow, grow, resolve_addColumn hkind hwidth hpos hcolumn]

end Growth

/-! ## Rounds -/

namespace Training

variable {s : Settings α}

/-- A grown tree tests features of the dataset. -/
theorem Grown.feature_lt {round : ℕ} {t : Tree α} (ht : Grown s d round t)
    (hdepth : s.maxDepth.toNat < Settings.maxExactLevel) {n : Node α} (hn : n ∈ t.nodes)
    {f : UInt64} (hf : n.feature? = some f) : f.toNat < d.numFeatures := by
  obtain ⟨residual, hessian, rfl⟩ := ht
  have hleaf : n.isLeaf = false := by
    obtain ⟨id, treeId, offset, kind⟩ := n
    cases kind with
    | leaf value => cases hf
    | scalar f threshold => rfl
    | categorical f => rfl
  obtain ⟨f', j, hf', hj, -⟩ :=
    (Growth.fullBinary_grow (p := s.growth) hdepth).feature_kind n hn hleaf
  obtain rfl : f = f' := Option.some.inj (hf.symm.trans hf')
  exact hj ▸ j.isLt

/-- The rows reach the leaves that they reached before. -/
theorem Grown.evaluateAll_addColumn {round : ℕ} {t : Tree α} (ht : Grown s d round t)
    (hdepth : s.maxDepth.toNat < Settings.maxExactLevel) :
    t.evaluateAll (d.addColumn column kind hkind hwidth).features = t.evaluateAll d.features := by
  choose leaves hleaves using fun i => ht.exists_evaluate hdepth (suits_row (d := d) i)
  have hpush : ∀ i, t.evaluate ((d.row i).push (column.get i)) = .ok (leaves i) := by
    intro i
    have hsize : (d.row i).size = d.numFeatures := Vector.size_toArray _
    rw [Tree.evaluate_push fun n hn f hf => hsize ▸ ht.feature_lt hdepth hn hf, hleaves]
  rw [Tree.evaluateAll_eq_ok hleaves]
  refine Tree.evaluateAll_eq_ok fun i => ?_
  rw [Dataset.row_addColumn, hpush]

variable [TotallyOrdered α] (hpos : 0 < d.numFeatures) (hcolumn : d.features.Redundant column)

include hpos hcolumn

theorem roundTree_addColumn (round : ℕ) (predictions : Vector α d.numRows) :
    roundTree s (d.addColumn column kind hkind hwidth) round predictions =
      roundTree s d round predictions := by
  rw [roundTree, roundTree, Growth.build_toArray, Growth.build_toArray]
  exact congrArg Except.ok (Growth.grow_addColumn hkind hwidth hpos hcolumn _ _ _ _)

variable (hdepth : s.maxDepth.toNat < Settings.maxExactLevel)

include hdepth

theorem step_addColumn (round : ℕ) (st : State α d.numRows) :
    step s (d.addColumn column kind hkind hwidth) round st = step s d round st := by
  obtain ⟨t, ht, hgrown⟩ := exists_roundTree (s := s) (d := d) round st.predictions
  have ht' := roundTree_addColumn hkind hwidth hpos hcolumn (s := s) round st.predictions
  have hleaves := hgrown.evaluateAll_addColumn hkind hwidth hdepth
  simp only [step, ht', ht, bind, Except.bind, hleaves]

theorem rounds_addColumn (n round : ℕ) (st : State α d.numRows) :
    rounds s (d.addColumn column kind hkind hwidth) n round st = rounds s d n round st := by
  induction n generalizing round st with
  | zero => rfl
  | succ n ih =>
    rw [rounds, rounds, step_addColumn hkind hwidth hpos hcolumn hdepth]
    exact bind_congr fun st' => ih (round + 1) st'

theorem run_addColumn : run s (d.addColumn column kind hkind hwidth) = run s d := by
  have hlabels : (d.addColumn column kind hkind hwidth).checkLabels s.task =
      d.checkLabels s.task := by
    cases s.task <;> rfl
  rw [run, run, hlabels]
  refine bind_congr fun _ => ?_
  exact congrArg (· >>= _) (rounds_addColumn hkind hwidth hpos hcolumn hdepth _ _ _)

end Training

end AddColumn

namespace Settings

open Training

/-- Training with a redundant column on the right gives the same forest and the same
history, or the same error. -/
theorem train_addColumn [TotallyOrdered α] (s : Settings α) {d d' : Dataset α}
    {column : Vector α d.numRows} {kind : FeatureKind} (hpos : 0 < d.numFeatures)
    (hcolumn : d.features.Redundant column)
    (hd' : Dataset.ofParts (d.features.addColumn column) d.labels.toList (d.catalog.add kind) =
      .ok d') :
    s.train d' = s.train d ∧
    (s.validate = .ok () → d.checkLabels s.task = .ok () → ∃ f history,
      s.train d = .ok (f, history) ∧ s.train d' = .ok (f, history)) := by
  obtain ⟨hkind, hwidth, rfl⟩ := Dataset.ofParts_addColumn hd'
  have hsame : s.train (d.addColumn column kind hkind hwidth) = s.train d := by
    cases hs : s.validate with
    | error e => simp only [train, hs, bind, Except.bind]
    | ok _ =>
      simp only [train, hs, run_addColumn hkind hwidth hpos hcolumn (maxDepth_lt_of_validate hs)]
  refine ⟨hsame, fun hs hlabels => ?_⟩
  obtain ⟨f, history, h⟩ := exists_train hs hlabels
  exact ⟨f, history, h, hsame.trans h⟩

/-- The indicator of the mixed dataset once more. -/
def secondIndicator : Vector Binary64 6 := #v[0, 1, 0, 1, 0, 1]

/-- A column with one defined value, in some rows. -/
def sparseColumn : Vector Binary64 6 := #v[7, nan, 7, 7, nan, 7]

theorem train_addColumn_mixedData :
    0 < Growth.mixedData.numFeatures ∧
    Growth.mixedData.features.Redundant secondIndicator ∧
    Growth.mixedData.features.Redundant sparseColumn ∧
    (∃ d' f history,
      Dataset.ofParts (Growth.mixedData.features.addColumn secondIndicator)
        Growth.mixedData.labels.toList (Growth.mixedData.catalog.add .categorical) = .ok d' ∧
      (threeRounds .regression).train Growth.mixedData = .ok (f, history) ∧
      (threeRounds .regression).train d' = .ok (f, history)) ∧
    ∃ d' f history,
      Dataset.ofParts (Growth.mixedData.features.addColumn sparseColumn)
        Growth.mixedData.labels.toList (Growth.mixedData.catalog.add .scalar) = .ok d' ∧
      (threeRounds .regression).train Growth.mixedData = .ok (f, history) ∧
      (threeRounds .regression).train d' = .ok (f, history) := by
  have hsecond : Growth.mixedData.features.Redundant secondIndicator :=
    .inl ⟨⟨1, by decide⟩, by decide +kernel⟩
  have hsparse : Growth.mixedData.features.Redundant sparseColumn := .inr (by decide +kernel)
  refine ⟨by decide, hsecond, hsparse, ?_, ?_⟩
  · obtain ⟨d', hd'⟩ := exists_of_isOk (x := Dataset.ofParts
      (Growth.mixedData.features.addColumn secondIndicator) Growth.mixedData.labels.toList
      (Growth.mixedData.catalog.add .categorical)) (by decide +kernel)
    obtain ⟨f, history, hf⟩ := (train_addColumn (threeRounds .regression) (by decide) hsecond
      hd').2 (by decide +kernel) (by decide +kernel)
    exact ⟨d', f, history, hd', hf⟩
  · obtain ⟨d', hd'⟩ := exists_of_isOk (x := Dataset.ofParts
      (Growth.mixedData.features.addColumn sparseColumn) Growth.mixedData.labels.toList
      (Growth.mixedData.catalog.add .scalar)) (by decide +kernel)
    obtain ⟨f, history, hf⟩ := (train_addColumn (threeRounds .regression) (by decide) hsparse
      hd').2 (by decide +kernel) (by decide +kernel)
    exact ⟨d', f, history, hd', hf⟩

end Settings

end GradientForest
