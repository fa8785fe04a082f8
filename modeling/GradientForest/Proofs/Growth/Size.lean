import GradientForest.Proofs.Growth.Routing

/-!
# The size of a grown tree

A categorical column is split without asking what the split gains, and one of its sides
may get no row at all.  Still a tree stays small.  A split has two active rows, and its
sides share the rows that it has (`length_activeRows_sides`).  So the splits on one level
have at least twice as many rows as they are (`countP_row_expand`), and a level below adds
at most one node for each row (`size_expand_le`).

`Tree.Small` says this of the flat tree, with its levels and its replayed masks.
-/

namespace GradientForest

open Scalar

/-! ## Splits by level -/

namespace NestedTree

variable {α : Type} {n : ℕ}

/-- Whether the root is a split. -/
def isSplit : NestedTree α n → Bool
  | .leaf .. => false
  | .split .. => true

/-- The roots of a row stand on one level. -/
theorem level_of_mem_row {t s : NestedTree α n} {k : ℕ} (ht : t.Numbered) (h : s ∈ t.row k) :
    s.id.level = t.id.level + k := by
  induction k generalizing t with
  | zero =>
    rw [row_zero, List.mem_singleton] at h
    rw [h, Nat.add_zero]
  | succ k ih =>
    cases t with
    | leaf => cases h
    | split id test left right =>
      obtain ⟨hleft, hright, hl, hr⟩ := ht
      rcases List.mem_append.1 h with h | h
      · rw [ih hl h, hleft, NodeNumber.level_left, id_split]
        omega
      · rw [ih hr h, hright, NodeNumber.level_right, id_split]
        omega

/-- If no row has more than `b` splits, then no level has. -/
theorem countP_levelOrder_le {t : NestedTree α n} (ht : t.Numbered) {b : ℕ}
    (hb : ∀ k, (t.row k).countP isSplit ≤ b) (level : ℕ) :
    t.levelOrder.countP (fun s => s.isSplit && decide (s.id.level = level)) ≤ b := by
  have hrow : ∀ k, (t.row k).countP (fun s => s.isSplit && decide (s.id.level = level)) ≤
      if t.id.level + k = level then b else 0 := by
    intro k
    split_ifs with hlevel
    · refine le_trans (List.countP_mono_left fun s _ hs => ?_) (hb k)
      exact (Bool.and_eq_true_iff.1 hs).1
    · refine Nat.le_of_eq (List.countP_eq_zero.2 fun s hs => ?_)
      simp [level_of_mem_row ht hs, hlevel]
  -- the rows above the level add nothing, and neither do those below
  have hrows : ∀ h, ((List.range h).flatMap t.row).countP
      (fun s => s.isSplit && decide (s.id.level = level)) ≤
        if t.id.level + h ≤ level then 0 else b := by
    intro h
    induction h with
    | zero => simp
    | succ h ih =>
      have hlast := hrow h
      rw [List.range_succ, List.flatMap_append, List.flatMap_singleton, List.countP_append]
      split_ifs at * <;> omega
  exact le_trans (hrows t.height) (by split_ifs <;> omega)

end NestedTree

namespace Tree

variable {α : Type}

/-- The number of splits on a level. -/
def splitsOn (t : Tree α) (level : ℕ) : ℕ :=
  t.nodes.toList.countP fun n => !n.isLeaf && decide (n.level = level)

/-- A tree whose size is bounded by its depth and the number of its rows. -/
structure Small [Scalar α] (d : Dataset α) (maxDepth : ℕ) (t : Tree α) : Prop where
  /-- At most one node on a level is split for every two rows. -/
  splitsOn_le : ∀ level, t.splitsOn level ≤ d.numRows / 2
  /-- Splits stand within the depth. -/
  level_le : ∀ n ∈ t.nodes, n.isLeaf = false → n.level ≤ maxDepth
  /-- Every column has a mask, and that of a split has two active rows. -/
  two_le : ∀ (c : ℕ) (n : Node α), t.nodes[c]? = some n →
    (∃ mask, Replays d t c mask) ∧ ∀ mask, Replays d t c mask → n.isLeaf = false →
      2 ≤ (mask.activeRows d.numRows).length
  /-- There are at most as many nodes as there are rows on all levels, and the root. -/
  size_le : t.size ≤ maxDepth * d.numRows + 1

end Tree

variable {α : Type} [Scalar α] {d : Dataset α}

/-! ## Rows of a split -/

/-- The two sides of a test share the rows of the mask. -/
theorem SplitTest.length_activeRows_sides (test : SplitTest α d.numFeatures) (mask : Mask) :
    ((test.sides d mask).1.activeRows d.numRows).length +
        ((test.sides d mask).2.activeRows d.numRows).length ≤
      (mask.activeRows d.numRows).length := by
  have hside : ∀ side : Side, (side.pick (test.sides d mask)).activeRows d.numRows =
      (mask.activeRows d.numRows).filter fun i =>
        test.sideOf (d.features.entry i test.feature) = some side := by
    rw [test.sides_eq]
    exact mask.activeRows_partitionBy test.sideOf (d.features.column test.feature)
  have hleft := hside .left
  have hright := hside .right
  dsimp only [Side.pick] at hleft hright
  rw [hleft, hright, ← List.countP_eq_length_filter, ← List.countP_eq_length_filter,
    List.length_eq_countP_add_countP fun i =>
      decide (test.sideOf (d.features.entry i test.feature) = some .left)]
  refine Nat.add_le_add_left (List.countP_mono_left fun i _ hi => ?_) _
  simp only [decide_eq_true_eq] at hi ⊢
  rw [hi]
  nofun

namespace Growth

variable {p : GrowthParameters α} {residual hessian : Vector α d.numRows} {treeId : UInt64}

theorem length_activeRows_allActive :
    ((Mask.allActive d.numRows).activeRows d.numRows).length = d.numRows := by
  rw [Mask.activeRows, List.filter_eq_self.2 fun i _ => Mask.isActive_allActive i,
    List.length_finRange]

/-- A node with fewer than two rows is a leaf. -/
theorem two_le_of_expand {id id' : NodeNumber} {mask : Mask} {test : SplitTest α d.numFeatures}
    {left right : NestedTree α d.numFeatures}
    (h : expand d p residual hessian id mask = .split id' test left right) :
    2 ≤ (mask.activeRows d.numRows).length := by
  rw [expand] at h
  split at h
  · cases h
  · split at h
    · cases h
    · omega

/-- A row of a grown tree has at most half as many splits as there are active rows. -/
theorem countP_row_expand (k : ℕ) (id : NodeNumber) (mask : Mask) :
    2 * ((expand d p residual hessian id mask).row k).countP NestedTree.isSplit ≤
      (mask.activeRows d.numRows).length := by
  induction k generalizing id mask with
  | zero =>
    rw [NestedTree.row_zero, List.countP_singleton]
    cases hexpand : expand d p residual hessian id mask with
    | leaf => exact Nat.zero_le _
    | split id' test left right => exact two_le_of_expand hexpand
  | succ k ih =>
    rcases expand_cases d p residual hessian id mask with ⟨value, -, h, -⟩ | ⟨test, -, -, h, -⟩
    · rw [h]
      exact Nat.zero_le _
    · have hsides := test.length_activeRows_sides mask
      have hleft := ih id.left (test.sides d mask).1
      have hright := ih id.right (test.sides d mask).2
      rw [h, NestedTree.row, List.countP_append]
      omega

/-- Below a node there is at most one node for every active row and every level left. -/
theorem size_expand_le (id : NodeNumber) (mask : Mask) :
    (expand d p residual hessian id mask).size ≤
      (p.maxDepth.toNat + 1 - id.level) * (mask.activeRows d.numRows).length + 1 := by
  induction hk : p.maxDepth.toNat + 1 - id.level generalizing id mask with
  | zero =>
    rcases expand_cases d p residual hessian id mask with ⟨value, -, h, -⟩ | ⟨test, hlevel, -, -, -⟩
    · rw [h, NestedTree.size]
      omega
    · omega
  | succ k ih =>
    rcases expand_cases d p residual hessian id mask with ⟨value, -, h, -⟩ | ⟨test, -, -, h, -⟩
    · rw [h, NestedTree.size]
      omega
    · have hleft := ih id.left (test.sides d mask).1 (by rw [id.level_left]; omega)
      have hright := ih id.right (test.sides d mask).2 (by rw [id.level_right]; omega)
      have hrows := two_le_of_expand h
      have hsides := Nat.mul_le_mul_left k (test.length_activeRows_sides mask)
      rw [Nat.mul_add] at hsides
      rw [h, NestedTree.size, Nat.succ_mul]
      omega

section Depth

variable (hdepth : p.maxDepth.toNat < Settings.maxExactLevel)

include hdepth

/-- A column that holds a split has expanded to one. -/
theorem Stands.exists_split {c : ℕ} {id : NodeNumber} {mask : Mask} {n : Node α}
    (h : Stands d p residual hessian c id mask)
    (hn : (grow d p treeId residual hessian).nodes[c]? = some n) (hsplit : n.isLeaf = false) :
    n.id = id.toId ∧ id.level ≤ p.maxDepth.toNat ∧ 2 ≤ (mask.activeRows d.numRows).length := by
  obtain ⟨distance, hcolumn⟩ := h
  rw [nodes_getElem? d residual hessian treeId hdepth, hcolumn, Option.map_some,
    Option.some.injEq] at hn
  rcases expand_cases d p residual hessian id mask with ⟨value, -, he, -⟩ | ⟨test, hlevel, -, he, -⟩
  · rw [he] at hn
    rw [← hn] at hsplit
    cases hsplit
  · rw [he] at hn
    exact ⟨by rw [← hn]; rfl, hlevel, two_le_of_expand he⟩

/-- The splits on a level of the flat tree are those of the nested one. -/
theorem splitsOn_grow (level : ℕ) :
    (grow d p treeId residual hessian).splitsOn level =
      (expandRoot d p residual hessian).levelOrder.countP fun s =>
        s.isSplit && decide (s.id.level = level) := by
  have hnode : ∀ e ∈ NestedTree.layout [expandRoot d p residual hessian],
      (!(e.1.toNode treeId e.2).isLeaf && decide ((e.1.toNode treeId e.2).level = level)) =
        (e.1.isSplit && decide (e.1.id.level = level)) := by
    intro e he
    obtain ⟨c, hc⟩ := List.mem_iff_getElem?.1 he
    have hsize : c < (grow d p treeId residual hessian).size := by
      rw [size_grow d residual hessian treeId hdepth]
      exact (List.getElem?_eq_some_iff.1 hc).1
    obtain ⟨id, mask, ⟨distance, hstands⟩, -⟩ := exists_stands residual hessian treeId hdepth hsize
    obtain rfl : e = _ := Option.some.inj (hc.symm.trans hstands)
    have hword := NodeNumber.level_toId (Stands.id_lt_word hdepth ⟨distance, hstands⟩)
    rcases expand_cases d p residual hessian id mask with ⟨value, -, h, -⟩ | ⟨test, -, -, h, -⟩
    · rw [h]
      rfl
    · rw [h, NestedTree.toNode, Node.isLeaf, test.isLeaf_nodeKind, Node.level, hword]
      rfl
  rw [Tree.splitsOn, grow_nodes d residual hessian hdepth, NestedTree.levelOrder_eq_layout,
    List.countP_map, List.countP_map]
  exact List.countP_congr fun e he => by rw [Function.comp, hnode e he]; rfl

theorem splitsOn_grow_le (level : ℕ) :
    (grow d p treeId residual hessian).splitsOn level ≤ d.numRows / 2 := by
  have hrow : ∀ k, ((expandRoot d p residual hessian).row k).countP NestedTree.isSplit ≤
      d.numRows / 2 := by
    intro k
    have hcount : 2 * ((expandRoot d p residual hessian).row k).countP NestedTree.isSplit ≤ _ :=
      countP_row_expand k .root (.allActive d.numRows)
    rw [length_activeRows_allActive] at hcount
    omega
  rw [splitsOn_grow hdepth]
  exact NestedTree.countP_levelOrder_le (numbered_expandRoot d p residual hessian) hrow level

theorem small_grow :
    (grow d p treeId residual hessian).Small d p.maxDepth.toNat where
  splitsOn_le := splitsOn_grow_le hdepth
  level_le n hn hsplit := by
    obtain ⟨c, hc⟩ := Array.mem_iff_getElem?.1 hn
    have hsize : c < (grow d p treeId residual hessian).size := (Array.getElem?_eq_some_iff.1 hc).1
    obtain ⟨id, mask, hstands, -⟩ := exists_stands residual hessian treeId hdepth hsize
    obtain ⟨hid, hlevel, -⟩ := hstands.exists_split hdepth hc hsplit
    rw [Node.level, hid, NodeNumber.level_toId (hstands.id_lt_word hdepth)]
    exact hlevel
  two_le c n hn := by
    refine ⟨exists_replays hdepth (Array.getElem?_eq_some_iff.1 hn).1, fun mask hmask hsplit => ?_⟩
    obtain ⟨id, hstands⟩ := stands_of_replays hdepth hmask
    exact (hstands.exists_split hdepth hn hsplit).2.2
  size_le := by
    have hsize : (expandRoot d p residual hessian).size ≤ _ :=
      size_expand_le .root (.allActive d.numRows)
    rw [length_activeRows_allActive, NodeNumber.level_root, Nat.add_sub_cancel] at hsize
    rw [size_grow_eq d residual hessian treeId hdepth]
    exact hsize

end Depth

/-- Building a tree succeeds on residuals and weights of the dataset's length, and the
tree stays small. -/
theorem build_small (d : Dataset α) (p : GrowthParameters α)
    (hdepth : p.maxDepth.toNat < Settings.maxExactLevel) (treeId : UInt64)
    (residual hessian : Vector α d.numRows) :
    ∃ t, build d p treeId residual.toArray hessian.toArray = .ok t ∧
      t.Small d p.maxDepth.toNat :=
  ⟨_, build_toArray d p treeId residual hessian, small_grow hdepth⟩

theorem build_small_mixedData :
    (2 : UInt64).toNat < Settings.maxExactLevel ∧
    ∃ t, build mixedData ⟨.regression, 2, 0⟩ 1 mixedData.labels.toArray (.replicate 6 1) = .ok t ∧
      t.Small mixedData 2 :=
  ⟨by decide, build_small mixedData ⟨.regression, 2, 0⟩ (by decide) 1 mixedData.labels
    (.replicate 6 1)⟩

end Growth

end GradientForest
