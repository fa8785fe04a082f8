import GradientForest.Proofs.Growth.FullBinary
import GradientForest.Proofs.Growth.Walk

/-!
# Masks and walks agree

Growth routes rows with masks, a forest routes them by walking.  `Replays` gives
every column of a tree its mask again, from the splits of the tree alone, and
`Tree.RoutesRows` compares the masks of the leaves with the trails of the rows.

A row that is active in a column has passed the column: its trail is a trail from
that column behind the splits above, and every one of them decided the row
(`Growth.exists_passed`).  So the row ends in the one leaf where it is active.  The
other way round, a row that no split fails to decide stays active down to the end
of its trail (`Growth.exists_active_leaf`).
-/

namespace GradientForest

open Scalar

variable {α : Type} [Scalar α]

/-! ## Replaying the splits of a tree -/

/-- The masks of the two sides of a split, when it tests a column of the dataset. -/
def NodeKind.partition? (d : Dataset α) (mask : Mask) : NodeKind α → Option (Mask × Mask)
  | .leaf _ => none
  | .scalar feature threshold =>
    if h : feature.toNat < d.numFeatures then
      some (mask.partitionScalar (.ofFn (d.features.column ⟨feature.toNat, h⟩)) threshold)
    else none
  | .categorical feature =>
    if h : feature.toNat < d.numFeatures then
      some (mask.partitionCategorical (.ofFn (d.features.column ⟨feature.toNat, h⟩)))
    else none

/-- The mask of a column, from the splits above it. -/
inductive Replays (d : Dataset α) (t : Tree α) : ℕ → Mask → Prop where
  | root : Replays d t 0 (.allActive d.numRows)
  | child {column : ℕ} {mask : Mask} {n : Node α} {sides : Mask × Mask} (side : Side)
    (parent : Replays d t column mask) (node : t.nodes[column]? = some n)
    (partition : n.kind.partition? d mask = some sides) :
    Replays d t (side.column column n.childOffset) (side.pick sides)

theorem Replays.zero_or_child {d : Dataset α} {t : Tree α} {c : ℕ} {mask : Mask}
    (h : Replays d t c mask) :
    c = 0 ∧ mask = .allActive d.numRows ∨
      ∃ (q : ℕ) (above : Mask) (n : Node α) (sides : Mask × Mask) (side : Side),
        Replays d t q above ∧ t.nodes[q]? = some n ∧ n.kind.partition? d above = some sides ∧
          c = side.column q n.childOffset ∧ mask = side.pick sides := by
  cases h with
  | root => exact .inl ⟨rfl, rfl⟩
  | child side parent node partition =>
    exact .inr ⟨_, _, _, _, side, parent, node, partition, rfl, rfl⟩

/-- The replayed masks of a tree and the trails of the rows tell the same. -/
structure Tree.RoutesRows (d : Dataset α) (lambda : α) (residual hessian : Vector α d.numRows)
    (t : Tree α) : Prop where
  /-- Every column has one mask. -/
  replayed : ∀ c < t.size, ∃! mask, Replays d t c mask
  /-- A row is active in at most one leaf. -/
  disjoint : ∀ (i : Fin d.numRows) (c c' : ℕ) (mask mask' : Mask) (v v' : α),
    t.leafAt? c = some v → t.leafAt? c' = some v' → Replays d t c mask → Replays d t c' mask' →
      mask.isActive i = true → mask'.isActive i = true → c = c'
  /-- Every row has a trail to a leaf, and evaluates to its value. -/
  walks : ∀ i : Fin d.numRows, ∃ w, t.trail (d.row i) = .ok w ∧
    t.leafAt? w.leaf = some w.value ∧ t.evaluate (d.row i) = .ok w.value
  /-- A row ends in the leaf where it is active. -/
  ends : ∀ (i : Fin d.numRows) (c : ℕ) (mask : Mask) (v : α) (w : Trail α),
    t.leafAt? c = some v → Replays d t c mask → mask.isActive i = true →
      t.trail (d.row i) = .ok w → w.leaf = c
  /-- A leaf has the value of its active rows. -/
  leaf_value : ∀ (c : ℕ) (mask : Mask) (v : α), t.leafAt? c = some v → Replays d t c mask →
    v = leafValue lambda residual.get hessian.get (mask.activeRows d.numRows) ∧
      (mask.activeRows d.numRows = [] → v = 0)
  /-- A row is active in no leaf when it passes a split that cannot decide it. -/
  lost : ∀ (i : Fin d.numRows) (w : Trail α), t.trail (d.row i) = .ok w →
    ((∀ (c : ℕ) (mask : Mask) (v : α), t.leafAt? c = some v → Replays d t c mask →
      mask.isActive i = false) ↔ ∃ c ∈ w.passed, t.Undecided (d.row i) c)

/-! ## Masks -/

theorem Membership.pick_route_eq_active (side : Side) (b : Membership) (s : Option Side) :
    side.pick (b.route s) = .active ↔ b = .active ∧ s = some side := by
  cases b with
  | active =>
    cases s with
    | none => cases side <;> simp [route, Side.pick]
    | some s => cases s <;> cases side <;> simp [route, Side.pick]
  | excluded => cases side <;> simp [route, Side.pick]
  | notApplicable => cases side <;> simp [route, Side.pick]

namespace Mask

theorem isActive_allActive {n : ℕ} (i : Fin n) : (allActive n).isActive i = true := by
  simp [isActive, allActive]

omit [Scalar α] in
theorem getElem?_partitionBy {mask : Mask} {sideOf : α → Option Side} {column : Array α} {i : ℕ}
    {v : α} (hv : column[i]? = some v) (side : Side) :
    (side.pick (mask.partitionBy sideOf column)).rows[i]? =
      mask.rows[i]?.map fun b => side.pick (b.route (sideOf v)) := by
  have hrouted : (Array.zipWith (fun b v => Membership.route b (sideOf v)) mask.rows column)[i]? =
      mask.rows[i]?.map fun b => b.route (sideOf v) := by
    rw [Array.getElem?_zipWith, hv]
    cases mask.rows[i]? with
    | none => rfl
    | some b => rfl
  cases side with
  | left => simp only [Side.pick, partitionBy, Array.getElem?_map, hrouted, Option.map_map]; rfl
  | right => simp only [Side.pick, partitionBy, Array.getElem?_map, hrouted, Option.map_map]; rfl

omit [Scalar α] in
/-- The rows of a side are the active rows whose values go there. -/
theorem isActive_partitionBy {mask : Mask} {sideOf : α → Option Side} {column : Array α} {i : ℕ}
    {v : α} (hv : column[i]? = some v) (side : Side) :
    (side.pick (mask.partitionBy sideOf column)).isActive i = true ↔
      mask.isActive i = true ∧ sideOf v = some side := by
  simp only [isActive, getElem?_partitionBy hv, decide_eq_true_eq]
  cases mask.rows[i]? with
  | none => simp
  | some b => simp [Membership.pick_route_eq_active]

omit [Scalar α] in
theorem activeRows_partitionBy {n : ℕ} (mask : Mask) (sideOf : α → Option Side) (column : Fin n → α)
    (side : Side) :
    (side.pick (mask.partitionBy sideOf (.ofFn column))).activeRows n =
      (mask.activeRows n).filter fun i => sideOf (column i) = some side := by
  rw [activeRows, activeRows, List.filter_filter]
  refine List.filter_congr fun i _ => ?_
  have hv : (Array.ofFn column)[(i : ℕ)]? = some (column i) := by simp
  rw [Bool.eq_iff_iff, isActive_partitionBy hv, Bool.and_eq_true, decide_eq_true_eq, and_comm]

end Mask

variable {d : Dataset α}

namespace SplitTest

theorem partition?_nodeKind (test : SplitTest α d.numFeatures) (mask : Mask) :
    test.nodeKind.partition? d mask = some (test.sides d mask) := by
  have hcolumn : ∀ j : Fin d.numFeatures, ∃ h : (UInt64.ofNat j).toNat < d.numFeatures,
      (⟨(UInt64.ofNat j).toNat, h⟩ : Fin d.numFeatures) = j := by
    intro j
    have hj : (UInt64.ofNat j).toNat = j := Dataset.toNat_column j
    exact ⟨by rw [hj]; exact j.isLt, Fin.ext hj⟩
  cases test with
  | scalar j threshold =>
    obtain ⟨hlt, hj⟩ := hcolumn j
    simp only [nodeKind, NodeKind.partition?, dif_pos hlt, hj, sides]
  | categorical j =>
    obtain ⟨hlt, hj⟩ := hcolumn j
    simp only [nodeKind, NodeKind.partition?, dif_pos hlt, hj, sides]

theorem sides_eq (test : SplitTest α d.numFeatures) (mask : Mask) :
    test.sides d mask =
      mask.partitionBy test.sideOf (.ofFn (d.features.column test.feature)) := by
  cases test with
  | scalar j threshold => rfl
  | categorical j => rfl

theorem isActive_sides (test : SplitTest α d.numFeatures) (mask : Mask) (i : Fin d.numRows)
    (side : Side) : (side.pick (test.sides d mask)).isActive i = true ↔
      mask.isActive i = true ∧ test.sideOf (d.features.entry i test.feature) = some side := by
  have hv : (Array.ofFn (d.features.column test.feature))[(i : ℕ)]? =
      some (d.features.entry i test.feature) := by
    simp [Matrix.column]
  rw [sides_eq]
  exact Mask.isActive_partitionBy hv side

/-- A split is undecided on a row of the dataset when its value goes nowhere. -/
theorem undecided_iff {t : Tree α} {c : ℕ} {n : Node α} (hn : t.nodes[c]? = some n)
    {test : SplitTest α d.numFeatures} (htest : n.kind = test.nodeKind)
    (hkind : test.featureKind = d.catalog.kind test.feature) (i : Fin d.numRows) :
    t.Undecided (d.row i) c ↔ test.sideOf (d.features.entry i test.feature) = none := by
  constructor
  · rintro ⟨m, feature, threshold, v, hm, hscalar, hv, hundecided⟩
    obtain rfl : n = m := Option.some.inj (hn.symm.trans hm)
    rw [htest] at hscalar
    cases test with
    | scalar j threshold' =>
      cases hscalar
      rw [Dataset.toNat_column, d.getElem?_row] at hv
      cases hv
      exact Side.ofThreshold_eq_none.2 hundecided
    | categorical j => cases hscalar
  · intro hside
    cases test with
    | scalar j threshold =>
      refine ⟨n, .ofNat j, threshold, _, hn, htest, ?_, Side.ofThreshold_eq_none.1 hside⟩
      rw [Dataset.toNat_column, d.getElem?_row]
      rfl
    | categorical j =>
      obtain ⟨side, hside'⟩ := Side.exists_ofIndicator (d.indicators j hkind.symm i)
      cases hside.symm.trans hside'

end SplitTest

namespace Growth

variable {p : GrowthParameters α} {residual hessian : Vector α d.numRows} {treeId : UInt64}
variable {c : ℕ} {mask : Mask} {i : Fin d.numRows}

section Depth

variable (hdepth : p.maxDepth.toNat < Settings.maxExactLevel)

include hdepth

/-! ## The masks of a grown tree -/

/-- A column whose node partitions masks is a split. -/
theorem Stands.split_of_partition {id : NodeNumber} {n : Node α} {sides : Mask × Mask}
    (h : Stands d p residual hessian c id mask)
    (hn : (grow d p treeId residual hessian).nodes[c]? = some n)
    (hsides : n.kind.partition? d mask = some sides) :
    ∃ (test : SplitTest α d.numFeatures) (offset : UInt64),
      n = ⟨id.toId, treeId, offset, test.nodeKind⟩ ∧ sides = test.sides d mask ∧
        test.featureKind = d.catalog.kind test.feature ∧ 0 < offset.toNat ∧
          ∀ side : Side, Stands d p residual hessian (side.column c offset) (id.child side)
            (side.pick sides) := by
  cases h.column hdepth treeId with
  | leaf value node =>
    obtain rfl := Option.some.inj (hn.symm.trans node)
    cases hsides
  | split test offset node kind pos child =>
    obtain rfl := Option.some.inj (hn.symm.trans node)
    rw [SplitTest.partition?_nodeKind] at hsides
    obtain rfl := Option.some.inj hsides
    exact ⟨test, offset, rfl, rfl, kind, pos, child⟩

/-- A leaf has the value of its active rows. -/
theorem Stands.leaf_of_leafAt {id : NodeNumber} {v : α}
    (h : Stands d p residual hessian c id mask)
    (hleaf : (grow d p treeId residual hessian).leafAt? c = some v) :
    (grow d p treeId residual hessian).nodes[c]? = some (.leaf id.toId treeId v) ∧
      v = leafValue p.lambda residual.get hessian.get (mask.activeRows d.numRows) := by
  cases h.column hdepth treeId with
  | leaf value node value_eq =>
    rw [Tree.leafAt?, node] at hleaf
    cases hleaf
    exact ⟨node, value_eq⟩
  | split test offset node =>
    rw [Tree.leafAt?, node] at hleaf
    cases test <;> cases hleaf

/-- A leaf has the value of some rows. -/
theorem exists_leafValue {v : α} (hleaf : (grow d p treeId residual hessian).leafAt? c = some v) :
    ∃ rows, v = leafValue p.lambda residual.get hessian.get rows := by
  obtain ⟨n, hn, -⟩ := Option.bind_eq_some_iff.1 hleaf
  have hsize := (Array.getElem?_eq_some_iff.1 hn).1
  obtain ⟨id, mask, hstands, -⟩ := exists_stands residual hessian treeId hdepth hsize
  exact ⟨_, (hstands.leaf_of_leafAt hdepth hleaf).2⟩

/-- A replayed mask is the one that the column has grown from. -/
theorem stands_of_replays (h : Replays d (grow d p treeId residual hessian) c mask) :
    ∃ id, Stands d p residual hessian c id mask := by
  induction h with
  | root => exact ⟨.root, stands_root d p residual hessian⟩
  | child side parent node partition ih =>
    obtain ⟨id, hstands⟩ := ih
    obtain ⟨test, offset, rfl, -, -, -, hchild⟩ :=
      hstands.split_of_partition hdepth node partition
    exact ⟨_, hchild side⟩

theorem exists_replays (hc : c < (grow d p treeId residual hessian).size) :
    ∃ mask, Replays d (grow d p treeId residual hessian) c mask := by
  induction c using Nat.strong_induction_on with
  | _ c ih =>
    obtain ⟨id, mask, hstands, -⟩ := exists_stands residual hessian treeId hdepth hc
    cases Nat.eq_zero_or_pos c with
    | inl hzero =>
      rw [hzero]
      exact ⟨_, .root⟩
    | inr hpos =>
      obtain ⟨q, id', test, offset, side, hq, -, hnode, hcolumn, -⟩ :=
        hstands.parent hdepth hpos treeId
      obtain ⟨above, habove⟩ := ih q hq (Nat.lt_trans hq hc)
      rw [hcolumn]
      exact ⟨_, .child side habove hnode (test.partition?_nodeKind above)⟩

/-- The column on a side of a replayed split holds its child. -/
theorem hasChild_of_replays (h : Replays d (grow d p treeId residual hessian) c mask) {n : Node α}
    (hn : (grow d p treeId residual hessian).nodes[c]? = some n) {sides : Mask × Mask}
    (hsides : n.kind.partition? d mask = some sides) (side : Side) :
    c < side.column c n.childOffset ∧
      (grow d p treeId residual hessian).HasChild c side (side.column c n.childOffset) := by
  obtain ⟨id, hstands⟩ := stands_of_replays hdepth h
  obtain ⟨test, offset, rfl, -, -, hpos, hchild⟩ := hstands.split_of_partition hdepth hn hsides
  exact ⟨Side.lt_column hpos c side,
    hasChild_of_stands hdepth (hstands.id_lt_word hdepth) hn (hchild side)⟩

theorem replays_unique {mask' : Mask} (h : Replays d (grow d p treeId residual hessian) c mask)
    (h' : Replays d (grow d p treeId residual hessian) c mask') : mask = mask' := by
  induction c using Nat.strong_induction_on generalizing mask mask' with
  | _ c ih =>
    rcases h.zero_or_child with ⟨hzero, hall⟩ | ⟨q, above, n, sides, side, hq, hn, hs, hc, hm⟩
    · rcases h'.zero_or_child with ⟨-, hall'⟩ | ⟨q, above, n, sides, side, hq, hn, hs, hc, -⟩
      · rw [hall, hall']
      · have hlt := (hasChild_of_replays hdepth hq hn hs side).1
        omega
    · obtain ⟨hlt, hchild⟩ := hasChild_of_replays hdepth hq hn hs side
      rcases h'.zero_or_child with
        ⟨hzero, -⟩ | ⟨q', above', n', sides', side', hq', hn', hs', hc', hm'⟩
      · omega
      · have hchild' := (hasChild_of_replays hdepth hq' hn' hs' side').2
        rw [← hc] at hchild hlt
        rw [← hc'] at hchild'
        obtain ⟨rfl, rfl⟩ := hchild.unique (ids_grow hdepth) hchild'
        obtain rfl : n = n' := Option.some.inj (hn.symm.trans hn')
        obtain rfl : above = above' := ih q hlt hq hq'
        obtain rfl : sides = sides' := Option.some.inj (hs.symm.trans hs')
        rw [hm, hm']

/-! ## Active rows on their trails -/

/-- The trail of a row that is active in a column leads through the column, and
the splits above decide the row. -/
theorem exists_passed (h : Replays d (grow d p treeId residual hessian) c mask)
    (hactive : mask.isActive i = true) :
    ∃ passed steps, (grow d p treeId residual hessian).size < steps + c ∧
      (grow d p treeId residual hessian).trail (d.row i) =
        ((grow d p treeId residual hessian).trailFrom (d.row i) steps (.ofNat c)).map
          (Trail.after passed) ∧
      ∀ q ∈ passed, ¬(grow d p treeId residual hessian).Undecided (d.row i) q := by
  induction h with
  | root =>
    refine ⟨[], (grow d p treeId residual hessian).size + 1, Nat.lt_succ_self _, ?_, by simp⟩
    rw [Tree.trail]
    cases (grow d p treeId residual hessian).trailFrom (d.row i) _ _ with
    | error e => rfl
    | ok w => rfl
  | @child column above n sides side parent node partition ih =>
    obtain ⟨id, hstands⟩ := stands_of_replays hdepth parent
    obtain ⟨test, offset, rfl, rfl, hkind, hpos, hchild⟩ :=
      hstands.split_of_partition hdepth node partition
    obtain ⟨habove, hside⟩ := (test.isActive_sides above i side).1 hactive
    obtain ⟨passed, steps, hsteps, htrail, hdecided⟩ := ih habove
    have hcolumn := hstands.lt_size hdepth treeId
    have hlt := Side.lt_column hpos column side
    -- the steps that are left exceed the columns that are left
    obtain ⟨k, rfl⟩ : ∃ k, steps = k + 1 := ⟨steps - 1, by omega⟩
    have hturn := test.turn_of_sideOf (d.getElem?_row i test.feature) hside
    have hword := (hchild side).lt_word hdepth
    rw [Tree.trailFrom_split (hstands.lt_word hdepth) node hturn hpos hword k] at htrail
    refine ⟨passed ++ [column], k, by dsimp only; omega, ?_, fun q hq => ?_⟩
    · rw [htrail]
      cases (grow d p treeId residual hessian).trailFrom (d.row i) k
          (.ofNat (side.column column offset)) with
      | error e => rfl
      | ok w => exact congrArg Except.ok (w.after_after passed [column])
    · rcases List.mem_append.1 hq with hq | hq
      · exact hdecided q hq
      · rw [List.mem_singleton.1 hq, SplitTest.undecided_iff node rfl hkind, hside]
        exact Option.some_ne_none side

/-- A row that is active in a leaf ends there, and every split decides it. -/
theorem trail_of_active {v : α} (hleaf : (grow d p treeId residual hessian).leafAt? c = some v)
    (h : Replays d (grow d p treeId residual hessian) c mask) (hactive : mask.isActive i = true) :
    ∃ passed, (grow d p treeId residual hessian).trail (d.row i) = .ok ⟨passed, c, v⟩ ∧
      ∀ q ∈ passed, ¬(grow d p treeId residual hessian).Undecided (d.row i) q := by
  obtain ⟨passed, steps, hsteps, htrail, hdecided⟩ := exists_passed hdepth h hactive
  obtain ⟨id, hstands⟩ := stands_of_replays hdepth h
  obtain ⟨hnode, -⟩ := hstands.leaf_of_leafAt hdepth hleaf
  have hc := hstands.lt_size hdepth treeId
  obtain ⟨k, rfl⟩ : ∃ k, steps = k + 1 := ⟨steps - 1, by omega⟩
  rw [Tree.trailFrom_leaf (hstands.lt_word hdepth) hnode k] at htrail
  refine ⟨passed, ?_, hdecided⟩
  rw [htrail]
  exact congrArg Except.ok (by simp [Trail.after])

/-- A row that stays decided from a column on stays active down to its leaf. -/
theorem exists_active_leaf (h : Replays d (grow d p treeId residual hessian) c mask)
    (hactive : mask.isActive i = true) {steps : ℕ} {w : Trail α}
    (hw : (grow d p treeId residual hessian).trailFrom (d.row i) steps (.ofNat c) = .ok w)
    (hdecided : ∀ q ∈ w.passed, ¬(grow d p treeId residual hessian).Undecided (d.row i) q) :
    ∃ mask', Replays d (grow d p treeId residual hessian) w.leaf mask' ∧
      mask'.isActive i = true := by
  induction steps generalizing c mask w with
  | zero => cases hw
  | succ steps ih =>
    obtain ⟨id, hstands⟩ := stands_of_replays hdepth h
    cases hstands.column hdepth treeId with
    | leaf value node =>
      rw [Tree.trailFrom_leaf (hstands.lt_word hdepth) node steps] at hw
      cases hw
      exact ⟨mask, h, hactive⟩
    | split test offset node kind pos child =>
      obtain ⟨side, hturn⟩ := SplitTest.exists_turn (suits_row i) kind
      have hword := (child side).lt_word hdepth
      rw [Tree.trailFrom_split (hstands.lt_word hdepth) node hturn pos hword steps] at hw
      obtain ⟨w', hw', rfl⟩ := exists_of_map_eq_ok hw
      -- the split is one of those that decide the row, so the mask and the walk turn alike
      have hc := hdecided c (List.mem_append_left _ (List.mem_singleton_self c))
      rw [SplitTest.undecided_iff node rfl kind i] at hc
      obtain ⟨side', hside⟩ := Option.ne_none_iff_exists'.1 hc
      have hturn' := test.turn_of_sideOf (d.getElem?_row i test.feature) hside
      obtain rfl : side = side' := by
        cases hturn.symm.trans hturn'
        rfl
      have hnext := Replays.child side h node (test.partition?_nodeKind mask)
      have hactive' := (test.isActive_sides mask i side).2 ⟨hactive, hside⟩
      obtain ⟨mask', hmask', hactive'⟩ := ih hnext hactive' hw' fun q hq =>
        hdecided q (List.mem_append_right _ hq)
      exact ⟨mask', hmask', hactive'⟩

/-! ## The theorem -/

theorem routesRows_grow :
    (grow d p treeId residual hessian).RoutesRows d p.lambda residual hessian where
  replayed c hc := by
    obtain ⟨mask, h⟩ := exists_replays hdepth hc
    exact ⟨mask, h, fun mask' h' => replays_unique hdepth h' h⟩
  disjoint i c c' mask mask' v v' hleaf hleaf' h h' hactive hactive' := by
    obtain ⟨passed, htrail, -⟩ := trail_of_active hdepth hleaf h hactive
    obtain ⟨passed', htrail', -⟩ := trail_of_active hdepth hleaf' h' hactive'
    cases htrail.symm.trans htrail'
    rfl
  walks i := by
    obtain ⟨w, hw, hleaf⟩ := exists_trail residual hessian hdepth treeId (suits_row i)
    exact ⟨w, hw, hleaf, by rw [Tree.evaluate_eq_trail, hw]; rfl⟩
  ends i c mask v w hleaf h hactive hw := by
    obtain ⟨passed, htrail, -⟩ := trail_of_active hdepth hleaf h hactive
    cases htrail.symm.trans hw
    rfl
  leaf_value c mask v hleaf h := by
    obtain ⟨id, hstands⟩ := stands_of_replays hdepth h
    obtain ⟨-, hv⟩ := hstands.leaf_of_leafAt hdepth hleaf
    refine ⟨hv, fun hrows => ?_⟩
    rw [hv, hrows]
    rfl
  lost i w hw := by
    constructor
    · intro hnone
      by_contra hdecided
      obtain ⟨w', hw', hleaf⟩ := exists_trail residual hessian hdepth treeId (suits_row i)
      cases hw.symm.trans hw'
      obtain ⟨mask, h, hactive⟩ := exists_active_leaf hdepth .root
        (Mask.isActive_allActive i) hw fun q hq hundecided => hdecided ⟨q, hq, hundecided⟩
      rw [hnone _ mask _ hleaf h] at hactive
      cases hactive
    · rintro ⟨q, hq, hundecided⟩ c mask v hleaf h
      by_contra hactive
      obtain ⟨passed, htrail, hdecided⟩ :=
        trail_of_active hdepth hleaf h (Bool.eq_true_of_not_eq_false hactive)
      cases htrail.symm.trans hw
      exact hdecided q hq hundecided

end Depth

/-- Building a tree succeeds on residuals and weights of the dataset's length,
and its masks tell where the rows of the dataset walk. -/
theorem build_routesRows (d : Dataset α) (p : GrowthParameters α)
    (hdepth : p.maxDepth.toNat < Settings.maxExactLevel) (treeId : UInt64)
    (residual hessian : Vector α d.numRows) :
    ∃ t, build d p treeId residual.toArray hessian.toArray = .ok t ∧
      t.RoutesRows d p.lambda residual hessian :=
  ⟨_, build_toArray d p treeId residual hessian, routesRows_grow hdepth⟩

theorem build_routesRows_mixedData :
    (2 : UInt64).toNat < Settings.maxExactLevel ∧
    ∃ t, build mixedData ⟨.regression, 2, 0⟩ 1 mixedData.labels.toArray (.replicate 6 1) = .ok t ∧
      t.RoutesRows mixedData 0 mixedData.labels (.replicate 6 1) :=
  ⟨by decide, build_routesRows mixedData ⟨.regression, 2, 0⟩ (by decide) 1 mixedData.labels
    (.replicate 6 1)⟩

end Growth

end GradientForest
