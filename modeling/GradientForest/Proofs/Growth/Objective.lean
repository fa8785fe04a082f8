import Mathlib.Data.Fin.VecNotation
import GradientForest.Proofs.Growth.Routing
import GradientForest.Proofs.Split.Objective

/-!
# Scalar splits lower the objective

Growth accepts a scalar split when it gains something, and the gain is what the children
save of the least objective of the node (`resolve_saves`).  This is said of every number and
every mask that growth can resolve, whatever the depth.

`Waits` tells which numbers and masks growth comes to resolve, and every node of a tree is
what became of one of them: committing a level keeps this (`Accounted.commit`), and so does
growth (`Accounted.levels`).
-/

namespace GradientForest

open Scalar

/-! ## What growth resolves -/

deriving instance DecidableEq for Resolution

/-- The node that is made for an outcome. -/
def Resolution.nodeKind {α : Type} : Resolution α → NodeKind α
  | .leaf value => .leaf value
  | .split kind _ _ => kind

namespace Growth

section Waits

variable {α : Type} (resolveNode : NodeId → Mask → Resolution α) (numRows : ℕ)

/-- The numbers and masks that wait in the queue at some time. -/
inductive Waits : NodeId → Mask → Prop where
  | root : Waits 1 (.allActive numRows)
  | left {id : NodeId} {mask left right : Mask} {kind : NodeKind α} (parent : Waits id mask)
    (split : resolveNode id mask = .split kind left right) : Waits id.left left
  | right {id : NodeId} {mask left right : Mask} {kind : NodeKind α} (parent : Waits id mask)
    (split : resolveNode id mask = .split kind left right) : Waits id.right right

/-- All nodes of a state are outcomes for what has waited. -/
structure Accounted (s : State α) : Prop where
  waiting : ∀ e ∈ s.frontier.entries, Waits resolveNode numRows e.id e.rows
  made : ∀ n ∈ s.nodes, ∃ mask, Waits resolveNode numRows n.id mask ∧
    n.kind = (resolveNode n.id mask).nodeKind

variable {resolveNode numRows} {s : State α}

theorem accounted_start : Accounted resolveNode numRows ⟨#[], .root (.allActive numRows)⟩ where
  waiting e he := by
    rw [List.mem_singleton.1 he]
    exact .root
  made n hn := absurd hn (Array.not_mem_empty n)

theorem Accounted.commit (h : Accounted resolveNode numRows s) {level : List (Pending Mask)}
    (hlevel : ∀ e ∈ level, Waits resolveNode numRows e.id e.rows) (treeId : UInt64) :
    Accounted resolveNode numRows
      (commit treeId (level.map fun e => (e.id, resolveNode e.id e.rows)) s) := by
  induction level generalizing s with
  | nil => exact h
  | cons e level ih =>
    obtain ⟨hwaits, hlevel⟩ := List.forall_mem_cons.1 hlevel
    rw [List.map_cons]
    cases he : resolveNode e.id e.rows with
    | leaf value =>
      refine ih ⟨h.waiting, fun n hn => ?_⟩ hlevel
      rcases Array.mem_push.1 hn with hn | rfl
      · exact h.made n hn
      · exact ⟨e.rows, hwaits, (congrArg Resolution.nodeKind he).symm⟩
    | split kind left right =>
      refine ih ⟨fun child hchild => ?_, fun n hn => ?_⟩ hlevel
      · simp only [Frontier.pushChildren, List.mem_append, List.mem_cons, List.not_mem_nil,
          or_false] at hchild
        rcases hchild with hchild | rfl | rfl
        · exact h.waiting child hchild
        · exact .left hwaits he
        · exact .right hwaits he
      · rcases Array.mem_push.1 hn with hn | rfl
        · exact h.made n hn
        · exact ⟨e.rows, hwaits, (congrArg Resolution.nodeKind he).symm⟩

theorem Accounted.levels (h : Accounted resolveNode numRows s) (treeId : UInt64) (steps : ℕ) :
    Accounted resolveNode numRows (levels resolveNode treeId steps s) := by
  induction steps generalizing s with
  | zero => exact h
  | succ steps ih =>
    rw [Growth.levels]
    have hqueue := s.frontier.drainLevel_append
    cases hdrain : s.frontier.drainLevel with
    | mk level rest =>
      rw [hdrain] at hqueue
      cases level with
      | nil => exact h
      | cons e level =>
        have hwaiting : ∀ e' ∈ (e :: level) ++ rest.entries,
            Waits resolveNode numRows e'.id e'.rows := by
          rw [hqueue]
          exact h.waiting
        have hrest : Accounted resolveNode numRows { s with frontier := rest } :=
          ⟨fun e' he' => hwaiting e' (List.mem_append_right _ he'), h.made⟩
        exact ih (hrest.commit (fun e' he' => hwaiting e' (List.mem_append_left _ he')) treeId)

end Waits

/-! ## Accepted thresholds -/

section Resolve

variable {α : Type} [Scalar α] {d : Dataset α} {p : GrowthParameters α}
variable {residual hessian : Vector α d.numRows} {id : NodeId} {mask left right : Mask}

/-- A scalar split that growth makes is an accepted threshold of its column. -/
theorem exists_search_of_resolve {feature : UInt64} {threshold : α}
    (h : resolve d p residual hessian id mask = .split (.scalar feature threshold) left right) :
    ∃ j : Fin d.numFeatures, feature.toNat = j ∧
      (ThresholdSplit.search p.lambda (d.features.column j) residual.get hessian.get
        (mask.activeRows d.numRows)).accepted = true ∧
      (ThresholdSplit.search p.lambda (d.features.column j) residual.get hessian.get
        (mask.activeRows d.numRows)).threshold = threshold ∧
      (left, right) = mask.partitionScalar (.ofFn (d.features.column j)) threshold := by
  rw [resolve, resolveRows] at h
  split_ifs at h
  cases hbest : Split.best? p.lambda d.features d.catalog residual.get hessian.get
      (mask.activeRows d.numRows) with
  | none =>
    rw [hbest] at h
    cases h
  | some s =>
    rw [hbest] at h
    obtain ⟨j, -, rfl⟩ := Option.map_eq_some_iff.1 hbest
    dsimp only at h
    split_ifs at h with haccepted
    cases hkind : d.catalog.kind j with
    | scalar =>
      simp only [Split.ofColumn, divide, hkind] at haccepted h
      cases h
      exact ⟨j, Dataset.toNat_column j, haccepted, rfl, rfl⟩
    | categorical =>
      simp only [Split.ofColumn, divide, hkind] at h
      cases h

end Resolve

/-! ## Splits of exact data -/

section Exact

variable [Exact.Functions]

theorem ofThreshold_ofOption (t : ℚ) (v : Option ℚ) (side : Side) :
    Side.ofThreshold (.rational t) (Exact.ofOption v) = some side ↔
      v.any (fun v => side.pick (decide (v < t), decide (t ≤ v))) = true := by
  cases v with
  | none => exact iff_of_false nofun nofun
  | some v =>
    simp only [Side.ofThreshold, Exact.ofOption, Exact.lt_rational, Exact.le_rational,
      Option.any_some]
    rcases lt_or_ge v t with hlt | hle
    · cases side <;> simp [Side.pick, hlt]
    · cases side <;> simp [Side.pick, hle, not_lt.2 hle]

/-- The children of a threshold have the rows on its two sides. -/
theorem activeRows_partitionScalar {n : ℕ} (mask : Mask) (value : Fin n → Option ℚ) (t : ℚ)
    (side : Side) :
    (side.pick (mask.partitionScalar (.ofFn fun i => Exact.ofOption (value i))
      (.rational t))).activeRows n =
        ThresholdSplit.rowsWhere value (mask.activeRows n) fun v =>
          side.pick (decide (v < t), decide (t ≤ v)) := by
  rw [Mask.partitionScalar, Mask.activeRows_partitionBy, ThresholdSplit.rowsWhere]
  refine List.filter_congr fun i _ => ?_
  rw [Bool.eq_iff_iff, decide_eq_true_eq, ofThreshold_ofOption]

/-- Growth on rational numbers: features that may be missing, residuals, weights that are not
negative, and a regularisation constant. -/
structure IsRational (d : Dataset Exact) (p : GrowthParameters Exact)
    (residuals hessians : Vector Exact d.numRows) (lambda : ℚ)
    (value : Fin d.numFeatures → Fin d.numRows → Option ℚ) (residual hessian : Fin d.numRows → ℚ) :
    Prop where
  lambda_eq : p.lambda = .rational lambda
  entry_eq : ∀ j i, d.features.entry i j = .ofOption (value j i)
  residual_eq : ∀ i, residuals.get i = .rational (residual i)
  hessian_eq : ∀ i, hessians.get i = .rational (hessian i)
  hessian_nonneg : ∀ i, 0 ≤ hessian i

/-- A scalar split on a column without missing values lowers the least objective of the rows when
both children have positive denominators. -/
theorem IsRational.resolve_saves {d : Dataset Exact} {p : GrowthParameters Exact}
    {residuals hessians : Vector Exact d.numRows} {lambda : ℚ}
    {value : Fin d.numFeatures → Fin d.numRows → Option ℚ} {residual hessian : Fin d.numRows → ℚ}
    (hd : IsRational d p residuals hessians lambda value residual hessian) {id : NodeId}
    {mask left right : Mask} {feature : UInt64} {threshold : Exact}
    (h : resolve d p residuals hessians id mask = .split (.scalar feature threshold) left right)
    (hdefined : ∀ j : Fin d.numFeatures, feature.toNat = j →
      ∀ i ∈ mask.activeRows d.numRows, (value j i).isSome)
    (hleft : 0 < denominator lambda hessian (left.activeRows d.numRows))
    (hright : 0 < denominator lambda hessian (right.activeRows d.numRows)) :
    ∃ g, 0 < g ∧ Saves lambda residual hessian (left.activeRows d.numRows)
      (right.activeRows d.numRows) (mask.activeRows d.numRows) g := by
  obtain ⟨j, hfeature, haccepted, hthreshold, hsides⟩ := exists_search_of_resolve h
  have hcolumn : d.features.column j = fun i => .ofOption (value j i) := funext (hd.entry_eq j)
  rw [hd.lambda_eq, funext hd.residual_eq, funext hd.hessian_eq, hcolumn] at haccepted hthreshold
  rw [hcolumn] at hsides
  obtain ⟨hnone, hsome⟩ :=
    ThresholdSplit.search_exhaustive lambda (value j) residual hessian (mask.activeRows d.numRows)
  rcases (ThresholdSplit.candidates (value j) (mask.activeRows d.numRows)).eq_empty_or_nonempty
    with hempty | hcandidates
  · rw [hnone hempty] at haccepted
    cases haccepted
  · obtain ⟨t, -, hsearch, -⟩ := hsome hcandidates
    rw [hsearch] at haccepted hthreshold
    obtain rfl : .rational t = threshold := hthreshold
    have hrows := activeRows_partitionScalar mask (value j) t
    rw [← hsides] at hrows
    have hrowsLeft := hrows .left
    have hrowsRight := hrows .right
    simp only [Side.pick] at hrowsLeft hrowsRight
    rw [hrowsLeft] at hleft ⊢
    rw [hrowsRight] at hright ⊢
    obtain ⟨g, hg, hsaves⟩ := (optimises fun i _ => hd.hessian_nonneg i).threshold (value j) t
      (hdefined j hfeature) (congrArg ThresholdSplit.threshold hsearch) hleft hright
    obtain rfl := Exact.rational.inj ((congrArg ThresholdSplit.gain hsearch).symm.trans hg)
    exact ⟨_, of_decide_eq_true haccepted, hsaves⟩

/-- Leaf values, scores and gains belong to one objective.  The nodes of a tree are the outcomes
for what has waited, and a scalar split among them lowers the least objective of its rows. -/
theorem build_saves (lambda : ℚ) :
    (∀ {ι : Type} (residual hessian : ι → ℚ) (rows : List ι), (∀ i ∈ rows, 0 ≤ hessian i) →
      Optimises lambda residual hessian rows) ∧
    ∀ (d : Dataset Exact) (p : GrowthParameters Exact) (residuals hessians : Vector Exact d.numRows)
      (value : Fin d.numFeatures → Fin d.numRows → Option ℚ) (residual hessian : Fin d.numRows → ℚ)
      (treeId : UInt64), IsRational d p residuals hessians lambda value residual hessian →
      (∃ t, build d p treeId residuals.toArray hessians.toArray = .ok t ∧
        ∀ n ∈ t.nodes, ∃ mask, Waits (resolve d p residuals hessians) d.numRows n.id mask ∧
          n.kind = (resolve d p residuals hessians n.id mask).nodeKind) ∧
      ∀ (id : NodeId) (mask left right : Mask) (feature : UInt64) (threshold : Exact),
        resolve d p residuals hessians id mask = .split (.scalar feature threshold) left right →
        (∀ j : Fin d.numFeatures, feature.toNat = j →
          ∀ i ∈ mask.activeRows d.numRows, (value j i).isSome) →
        0 < denominator lambda hessian (left.activeRows d.numRows) →
        0 < denominator lambda hessian (right.activeRows d.numRows) →
        ∃ g, 0 < g ∧ Saves lambda residual hessian (left.activeRows d.numRows)
          (right.activeRows d.numRows) (mask.activeRows d.numRows) g := by
  refine ⟨fun residual hessian rows hnonneg => optimises hnonneg,
    fun d p residuals hessians value residual hessian treeId hd => ⟨?_, ?_⟩⟩
  · exact ⟨_, build_toArray d p treeId residuals hessians,
      (accounted_start.levels treeId (levelBound d.numRows)).made⟩
  · exact fun id mask left right feature threshold h hdefined => hd.resolve_saves h hdefined

end Exact

open scoped Exact

/-- Four rows of two scalars, the first of them undefined in the third row. -/
def exactData : Dataset Exact where
  features := ⟨4, 2, #v[#v[4, 1], #v[2, 3], #v[nan, 5], #v[1, 7]]⟩
  labels := #v[1, 1, 5, 5]
  catalog := ⟨[.scalar, .scalar]⟩
  names := none
  height_pos := by decide
  catalog_length := by decide
  indicators := by decide +kernel
  height_lt := by decide
  width_lt := by decide

/-- The root of this tree is split half way between the second row and the third. -/
theorem build_saves_exactData :
    ∃ left right g, resolve exactData ⟨.regression, 2, 1⟩ exactData.labels (.replicate 4 1) 1
        (.allActive 4) = .split (.scalar 1 4) left right ∧
      left.activeRows 4 = [0, 1] ∧ right.activeRows 4 = [2, 3] ∧
      0 < g ∧ Saves 1 ![1, 1, 5, 5] (fun _ => 1) [0, 1] [2, 3] [0, 1, 2, 3] g := by
  have hd : IsRational exactData ⟨.regression, 2, 1⟩ exactData.labels (.replicate 4 1) 1
      ![![some 4, some 2, none, some 1], ![some 1, some 3, some 5, some 7]] ![1, 1, 5, 5]
      (fun _ => 1) :=
    ⟨rfl, by decide +kernel, by decide +kernel, by decide +kernel, by decide +kernel⟩
  let left : Mask := ⟨#[.active, .active, .excluded, .excluded]⟩
  let right : Mask := ⟨#[.excluded, .excluded, .active, .active]⟩
  have hsplit : resolve exactData ⟨.regression, 2, 1⟩ exactData.labels (.replicate 4 1) 1
      (.allActive 4) = .split (.scalar 1 4) left right := by decide +kernel
  obtain ⟨g, hg, hsaves⟩ := ((build_saves 1).2 exactData _ _ _ _ _ _ 1 hd).2 1 (.allActive 4) left
    right 1 4 hsplit (by decide +kernel) (by decide +kernel) (by decide +kernel)
  exact ⟨left, right, g, hsplit, rfl, rfl, hg, hsaves⟩

end Growth

end GradientForest
