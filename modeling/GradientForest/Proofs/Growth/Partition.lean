import GradientForest.Proofs.Growth.Routing
import GradientForest.Proofs.Split.Scan

/-!
# The leaves partition the rows

A threshold of a grown tree lies half way between two values of its column
(`exists_midpoint_of_scalar`).  So whoever knows the values of a dataset knows that its
splits decide the rows.

When they do, no row is lost.  The rows that end in a leaf are the rows that it was
fitted to, and every row evaluates to the leaf value of the rows that end where it does
(`exists_leafOf`).
-/

namespace GradientForest

open Scalar

theorem get_eq_getElem {β : Type} {n : ℕ} (xs : Vector β n) (i : Fin n) :
    xs.get i = getElem xs (i : ℕ) i.isLt := rfl

variable {α : Type} [Scalar α] {d : Dataset α}

/-- The leaf values of all rows, row by row. -/
theorem Tree.evaluateAll_eq_ok {t : Tree α} {leaves : Fin d.numRows → α}
    (h : ∀ i, t.evaluate (d.row i) = .ok (leaves i)) :
    t.evaluateAll d.features = .ok (.ofFn leaves) := by
  have hrows : d.features.rows = (Vector.ofFn fun i => i).map d.features.rows.get := by
    ext i hi
    simp [get_eq_getElem]
  have hleaves : (fun r => t.evaluate r.toArray) ∘ d.features.rows.get =
      fun i => pure (leaves i) := funext h
  rw [evaluateAll, hrows, Vector.mapM_map, hleaves, Vector.mapM_pure]
  refine congrArg Except.ok ?_
  ext i hi
  simp

namespace Growth

variable {p : GrowthParameters α} {residual hessian : Vector α d.numRows} {treeId : UInt64}

/-! ## Thresholds -/

/-- A node that expands to a split has found an accepted one. -/
theorem exists_split_of_expand {id id' : NodeNumber} {mask : Mask}
    {test : SplitTest α d.numFeatures} {left right : NestedTree α d.numFeatures}
    (h : expand d p residual hessian id mask = .split id' test left right) :
    ∃ s, Split.best? p.lambda d.features d.catalog residual.get hessian.get
        (mask.activeRows d.numRows) = some s ∧ s.accepted = true ∧ test = .ofSplit s := by
  rw [expand] at h
  split at h
  · cases h
  · split at h
    · cases h
    · split at h
      · cases h
      · rename_i s hbest
        split_ifs at h with haccepted
        cases h
        exact ⟨s, hbest, haccepted, rfl⟩

/-- An accepted scalar split is half way between two values of its column. -/
theorem exists_midpoint_of_best? {lambda : α} {rows : List (Fin d.numRows)}
    {s : Split α d.numFeatures} {j : Fin d.numFeatures} {threshold : α}
    (hbest : Split.best? lambda d.features d.catalog residual.get hessian.get rows = some s)
    (haccepted : s.accepted = true) (htest : .scalar j threshold = SplitTest.ofSplit s) :
    ∃ i k : Fin d.numRows, threshold =
      ThresholdSplit.midpoint (d.features.entry i j) (d.features.entry k j) := by
  rw [Split.best?, Option.map_eq_some_iff] at hbest
  obtain ⟨j', -, rfl⟩ := hbest
  unfold Split.ofColumn SplitTest.ofSplit at *
  cases hkind : d.catalog.kind j' with
  | scalar =>
    simp only [hkind] at haccepted htest
    cases htest
    obtain ⟨i, -, k, -, hthreshold⟩ := ThresholdSplit.exists_midpoint_of_search haccepted
    exact ⟨i, k, hthreshold⟩
  | categorical =>
    simp only [hkind] at htest
    cases htest

section Depth

variable (hdepth : p.maxDepth.toNat < Settings.maxExactLevel)

include hdepth

/-- A threshold of a grown tree is half way between two values of its column. -/
theorem exists_midpoint_of_scalar {c : ℕ} {n : Node α} {feature : UInt64} {threshold : α}
    (hn : (grow d p treeId residual hessian).nodes[c]? = some n)
    (hkind : n.kind = .scalar feature threshold) :
    ∃ (j : Fin d.numFeatures) (i k : Fin d.numRows), feature.toNat = j ∧ threshold =
      ThresholdSplit.midpoint (d.features.entry i j) (d.features.entry k j) := by
  have hc : c < (grow d p treeId residual hessian).size := (Array.getElem?_eq_some_iff.1 hn).1
  obtain ⟨id, mask, ⟨distance, hcolumn⟩, -⟩ := exists_stands residual hessian treeId hdepth hc
  rw [nodes_getElem? d residual hessian treeId hdepth, hcolumn, Option.map_some,
    Option.some.injEq] at hn
  subst hn
  cases htree : expand d p residual hessian id mask with
  | leaf id' value =>
    rw [htree] at hkind
    cases hkind
  | split id' test left right =>
    obtain ⟨s, hbest, haccepted, htest⟩ := exists_split_of_expand htree
    rw [htree] at hkind
    cases test with
    | scalar j threshold' =>
      cases hkind
      obtain ⟨i, k, hthreshold⟩ := exists_midpoint_of_best? hbest haccepted htest
      exact ⟨j, i, k, Dataset.toNat_column j, hthreshold⟩
    | categorical j => cases hkind

/-! ## Leaves -/

variable (residual hessian treeId) in
/-- Where no split fails to decide a row, every row evaluates to the value of a leaf that
holds just the rows that end there. -/
theorem exists_leafOf (hdecided : ∀ (i : Fin d.numRows) (c : ℕ),
      ¬(grow d p treeId residual hessian).Undecided (d.row i) c) :
    ∃ leafOf : Fin d.numRows → ℕ, ∀ i,
      (grow d p treeId residual hessian).evaluate (d.row i) =
        .ok (leafValue p.lambda residual.get hessian.get
          ((List.finRange d.numRows).filter fun k => leafOf k = leafOf i)) := by
  have routes : (grow d p treeId residual hessian).RoutesRows d p.lambda residual hessian :=
    routesRows_grow hdepth
  choose trail htrail hleaf hevaluate using routes.walks
  -- every row is active where it ends
  have hactive : ∀ i, ∃ mask,
      Replays d (grow d p treeId residual hessian) (trail i).leaf mask ∧
        mask.isActive i = true := by
    intro i
    by_contra hnone
    obtain ⟨c, -, hc⟩ := (routes.lost i (trail i) (htrail i)).1 fun c mask v hv hmask => by
      by_contra hi
      rw [Bool.not_eq_false] at hi
      have hc := routes.ends i c mask v (trail i) hv hmask hi (htrail i)
      exact hnone ⟨mask, hc ▸ hmask, hi⟩
    exact hdecided i c hc
  refine ⟨fun i => (trail i).leaf, fun i => ?_⟩
  obtain ⟨mask, hmask, -⟩ := hactive i
  obtain ⟨hvalue, -⟩ := routes.leaf_value _ mask _ (hleaf i) hmask
  rw [hevaluate i, hvalue, Mask.activeRows]
  refine congrArg (fun rows => Except.ok (leafValue p.lambda residual.get hessian.get rows))
    (List.filter_congr fun k _ => ?_)
  rw [Bool.eq_iff_iff, decide_eq_true_eq]
  constructor
  · exact fun hk => routes.ends k _ mask _ (trail k) (hleaf i) hmask hk (htrail k)
  · intro hend
    obtain ⟨mask', hmask', hk⟩ := hactive k
    dsimp only at hend
    rw [hend] at hmask'
    rwa [replays_unique hdepth hmask hmask']

end Depth

end Growth

end GradientForest
