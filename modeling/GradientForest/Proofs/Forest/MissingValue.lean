import GradientForest.Forest.Basic
import GradientForest.Proofs.Binary64.Levels
import GradientForest.Proofs.Forest.RowByRow

/-!
# Missing values at prediction

A missing value is undefined, so it is below no threshold and goes right at every scalar
split.  A value that is not below the thresholds on its column does the same.  If no
categorical split tests the column, the two rows turn to the same side at every node of the
forest (`NodeKind.turn_eq`).  Then their walks are the same walk in tables of any shape, as
the walk knows the row by its turns alone (`Tree.walkFrom_congr`), and it ends with the
same value or the same error.

So a missing value is predicted like infinity, and like every value that is large enough
for the thresholds of the forest (`Forest.predict_missing`).
-/

namespace GradientForest

open Scalar

variable {α : Type} [Scalar α]

/-! ## Turns -/

namespace NodeKind

omit [Scalar α] in
/-- The threshold of a scalar split on a column. -/
def thresholdOn? (j : ℕ) : NodeKind α → Option α
  | .scalar feature threshold => if feature.toNat = j then some threshold else none
  | _ => none

/-- Whether a categorical split tests a column. -/
def testsIndicator (j : ℕ) : NodeKind α → Bool
  | .categorical feature => feature.toNat = j
  | _ => false

/-- Two rows differ in a column at most, and there no threshold of the node tells them
apart. -/
structure Indifferent (kind : NodeKind α) (j : ℕ) (row row' : Array α) : Prop where
  /-- The rows have the same length. -/
  size_eq : row.size = row'.size
  /-- They agree in the other columns. -/
  others : ∀ k ≠ j, row[k]? = row'[k]?
  /-- The column is not tested as an indicator. -/
  scalar : kind.testsIndicator j = false
  /-- The values are on the same side of the threshold. -/
  same : ∀ t, kind.thresholdOn? j = some t → ∀ x x', row[j]? = some x → row'[j]? = some x' →
    lt x t = lt x' t

variable {kind : NodeKind α} {j : ℕ} {row row' : Array α}

theorem Indifferent.featureValue_eq (h : kind.Indifferent j row row') {feature : UInt64}
    (hfeature : feature.toNat ≠ j) : featureValue row feature = featureValue row' feature := by
  rw [featureValue, featureValue, h.others _ hfeature, h.size_eq]

theorem turn_eq (h : kind.Indifferent j row row') : kind.turn row = kind.turn row' := by
  cases kind with
  | leaf value => rfl
  | categorical feature =>
    have hfeature : feature.toNat ≠ j := of_decide_eq_false h.scalar
    rw [turn, turn, h.featureValue_eq hfeature]
  | scalar feature threshold =>
    by_cases hfeature : feature.toNat = j
    · have hthreshold : (NodeKind.scalar feature threshold).thresholdOn? j = some threshold :=
        if_pos hfeature
      rcases Nat.lt_or_ge j row.size with hj | hj
      · have hj' : j < row'.size := h.size_eq ▸ hj
        have hsame := h.same threshold hthreshold row[j] row'[j]
          (Array.getElem?_eq_getElem hj) (Array.getElem?_eq_getElem hj')
        simp only [turn, featureValue, hfeature, Array.getElem?_eq_getElem hj,
          Array.getElem?_eq_getElem hj', bind, Except.bind, hsame]
      · have hj' : row'.size ≤ j := h.size_eq ▸ hj
        simp only [turn, featureValue, hfeature, Array.getElem?_eq_none hj,
          Array.getElem?_eq_none hj', h.size_eq]
    · rw [turn, turn, h.featureValue_eq hfeature]

end NodeKind

/-! ## Walks -/

namespace Tree

variable {t : Tree α} {row row' : Array α}

/-- Rows that turn alike walk alike. -/
theorem walkFrom_congr (h : ∀ n ∈ t.nodes, n.kind.turn row = n.kind.turn row') (steps : ℕ)
    (column : UInt64) : t.walkFrom row steps column = t.walkFrom row' steps column := by
  induction steps generalizing column with
  | zero => rfl
  | succ steps ih =>
    rw [walkFrom, walkFrom]
    cases hn : t.nodes[column.toNat]? with
    | none => rfl
    | some n =>
      dsimp only
      rw [h n (Array.mem_of_getElem? hn)]
      simp only [ih]

theorem evaluate_congr (h : ∀ n ∈ t.nodes, n.kind.turn row = n.kind.turn row') :
    t.evaluate row = t.evaluate row' := walkFrom_congr h _ _

end Tree

namespace Forest

variable {m : Matrix α}

/-- The thresholds of the forest on a column. -/
def thresholdsOn (f : Forest α) (j : ℕ) : List α :=
  f.trees.toList.flatMap fun t => t.nodes.toList.filterMap fun n => n.kind.thresholdOn? j

/-- Whether a categorical split of the forest tests a column. -/
def testsIndicator (f : Forest α) (j : ℕ) : Bool :=
  f.trees.toList.any fun t => t.nodes.toList.any fun n => n.kind.testsIndicator j

theorem predictFrom_congr {height width : ℕ} {rows rows' : Vector (Vector α width) height}
    {ts : List (Tree α)}
    (h : ∀ t ∈ ts, ∀ i (hi : i < height),
      t.evaluate rows[i].toArray = t.evaluate rows'[i].toArray)
    (task : Task) (rate : α) (predictions : Vector α height) :
    predictFrom task rate ⟨height, width, rows⟩ predictions ts =
      predictFrom task rate ⟨height, width, rows'⟩ predictions ts := by
  induction ts generalizing predictions with
  | nil => rfl
  | cons t ts ih =>
    obtain ⟨ht, hts⟩ := List.forall_mem_cons.1 h
    have hleaves : t.evaluateAll ⟨height, width, rows⟩ = t.evaluateAll ⟨height, width, rows'⟩ :=
      vector_mapM_congr ht
    rw [predictFrom, predictFrom, hleaves]
    exact bind_congr fun leaves => ih hts _

omit [Scalar α] in
/-- A place of a row after one value of the matrix is replaced. -/
theorem getElem?_row_set (m : Matrix α) (i j : ℕ) (v : α) {k : ℕ} (hk : k < m.height) (l : ℕ) :
    ((m.set i j v).rows.get ⟨k, hk⟩).toArray[l]? =
      m.rows[k].toArray[l]?.map fun x => if k = i ∧ l = j then v else x := by
  have hrow : ((m.set i j v).rows.get ⟨k, hk⟩).toArray =
      .ofFn fun l : Fin m.width => if k = i ∧ l.val = j then v else m.entry ⟨k, hk⟩ l := by
    rw [← Vector.toArray_ofFn]
    exact congrArg Vector.toArray (Vector.getElem_ofFn hk)
  rw [hrow]
  by_cases hl : l < m.width
  · simp [hl, Matrix.entry]
  · simp [hl]

/-- Nothing in the forest tells a row with another value in one place from the row. -/
theorem indifferent_set {f : Forest α} {t : Tree α} {n : Node α} (ht : t ∈ f.trees)
    (hn : n ∈ t.nodes) (i : Fin m.height) (j : Fin m.width) {v : α}
    (hscalar : f.testsIndicator j = false)
    (hsame : ∀ t ∈ f.thresholdsOn j, lt v t = lt (m.entry i j) t) {k : ℕ} (hk : k < m.height) :
    n.kind.Indifferent j ((m.set i j v).rows.get ⟨k, hk⟩).toArray m.rows[k].toArray where
  size_eq := (Vector.size_toArray _).trans (Vector.size_toArray _).symm
  others l hl := by
    rw [getElem?_row_set]
    simp [hl]
  scalar := by
    have hnodes := List.any_eq_false.1 hscalar t (Array.mem_toList_iff.2 ht)
    have hnode := List.any_eq_false.1 (Bool.not_eq_true _ ▸ hnodes) n (Array.mem_toList_iff.2 hn)
    exact Bool.not_eq_true _ ▸ hnode
  same threshold hthreshold x x' hx hx' := by
    have hmem : threshold ∈ f.thresholdsOn j :=
      List.mem_flatMap.2 ⟨t, Array.mem_toList_iff.2 ht,
        List.mem_filterMap.2 ⟨n, Array.mem_toList_iff.2 hn, hthreshold⟩⟩
    rw [getElem?_row_set, hx'] at hx
    obtain rfl := Option.some.inj hx
    by_cases hki : k = i
    · subst hki
      have hentry : m.rows[(i : ℕ)].toArray[(j : ℕ)]? = some (m.entry i j) := by simp [Matrix.entry]
      obtain rfl := Option.some.inj (hx'.symm.trans hentry)
      simp [hsame threshold hmem]
    · simp [hki]

/-- A value that no threshold tells from the old one changes no prediction. -/
theorem predict_set {f : Forest α} (i : Fin m.height) (j : Fin m.width) {v : α}
    (hscalar : f.testsIndicator j = false)
    (hsame : ∀ t ∈ f.thresholdsOn j, lt v t = lt (m.entry i j) t) :
    f.predict (m.set i j v) = f.predict m := by
  have hrows : ∀ t ∈ f.trees.toList, ∀ k (hk : k < m.height),
      t.evaluate ((m.set i j v).rows.get ⟨k, hk⟩).toArray = t.evaluate m.rows[k].toArray :=
    fun t ht k hk => Tree.evaluate_congr fun n hn =>
      NodeKind.turn_eq (indifferent_set (Array.mem_toList_iff.1 ht) hn i j hscalar hsame hk)
  rw [predict_eq, predict_eq]
  exact predictFrom_congr hrows _ _ _

end Forest

/-! ## Missing values -/

namespace Binary64

theorem lt_of_isNaN {x : Binary64} (h : isNaN x = true) (t : Binary64) :
    Scalar.lt x t = false := by
  rw [← Bool.not_eq_true, lt_iff_level, h]
  exact fun hlt => Bool.noConfusion hlt.1

theorem infinity_lt (t : Binary64) : Scalar.lt infinity t = false := by
  rw [← Bool.not_eq_true, lt_iff_level]
  rintro ⟨hinfinite, ht, hlevel⟩
  by_cases heq : t = infinity
  · exact absurd hlevel (heq ▸ lt_irrefl _)
  · exact absurd (lt_infinity_iff.2 ⟨ht, heq⟩) fun hlt => lt_asymm hlevel (lt_iff_level.1 hlt).2.2

end Binary64

namespace Forest

/-- A missing value in a column without categorical splits is predicted like infinity, and
like any value that is not below a threshold on the column: the results are the same, values
or error. -/
theorem predict_missing (f : Forest Binary64) (m : Matrix Binary64) (i : Fin m.height)
    (j : Fin m.width) (hmissing : isNaN (m.entry i j) = true)
    (hscalar : f.testsIndicator j = false) :
    f.predict (m.set i j infinity) = f.predict m ∧
    ∀ v, (∀ t ∈ f.thresholdsOn j, lt v t = false) → f.predict (m.set i j v) = f.predict m := by
  have hsame : ∀ v, (∀ t ∈ f.thresholdsOn j, lt v t = false) →
      f.predict (m.set i j v) = f.predict m := fun v hv =>
    predict_set i j hscalar fun t ht => by rw [hv t ht, Binary64.lt_of_isNaN hmissing]
  exact ⟨hsame infinity fun t _ => Binary64.infinity_lt t, hsame⟩

/-- The row without a value gets what any row from the threshold on gets. -/
theorem predict_missing_looseRows :
    isNaN (looseRows.entry (2 : Fin 3) (0 : Fin 1)) = true ∧
    looseForest.testsIndicator 0 = false ∧
    (∀ t ∈ looseForest.thresholdsOn 0, lt 5 t = false) ∧
    looseForest.predict (looseRows.set 2 0 infinity) = looseForest.predict looseRows ∧
    looseForest.predict (looseRows.set 2 0 5) = looseForest.predict looseRows := by
  have hentry : isNaN (looseRows.entry (2 : Fin 3) (0 : Fin 1)) = true := by decide +kernel
  have hscalar : looseForest.testsIndicator 0 = false := by decide +kernel
  have hnotBelow : ∀ t ∈ looseForest.thresholdsOn 0, lt 5 t = false := by decide +kernel
  have hmissing := looseForest.predict_missing looseRows (2 : Fin 3) (0 : Fin 1) hentry hscalar
  exact ⟨hentry, hscalar, hnotBelow, hmissing.1, hmissing.2 5 hnotBelow⟩

end Forest

end GradientForest
