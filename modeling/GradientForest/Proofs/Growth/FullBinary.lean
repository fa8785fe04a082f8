import GradientForest.Proofs.Growth.Placement
import GradientForest.Proofs.Tree.Validation

/-!
# Grown trees are full binary trees

`Tree.FullBinary` collects what a grown tree promises to everything that reads
it.  It passes `Tree.validate`, its numbers increase from 1 on, every column
behind the first is the child of exactly one earlier split, and every split tests
a column of the dataset that has the tested kind.

The parent of a column comes from `Growth.Stands.parent`.  That there is no other
one needs the numbers only: they tell the side and the number of the parent
(`Tree.HasChild.unique`), and no number occurs twice.
-/

namespace GradientForest

namespace Tree

variable {α : Type} {t : Tree α}

/-- The split in column `q` has its child on a side in column `c`. -/
def HasChild (t : Tree α) (q : ℕ) (side : Side) (c : ℕ) : Prop :=
  ∃ n m, t.nodes[q]? = some n ∧ t.nodes[c]? = some m ∧ n.isLeaf = false ∧
    match side with
    | .left => c = q + n.childOffset.toNat ∧ m.id.toNat = 2 * n.id.toNat
    | .right => c = q + n.childOffset.toNat + 1 ∧ m.id.toNat = 2 * n.id.toNat + 1

/-- A full binary tree of a round, on the features of a dataset and within a
depth. -/
structure FullBinary [Scalar α] (d : Dataset α) (maxDepth : ℕ) (treeId : UInt64) (t : Tree α) :
    Prop where
  /-- The tree passes the check of flat trees. -/
  validate_eq : t.validate = .ok ()
  /-- The first node is the root. -/
  root_id : t.root?.map Node.id = some 1
  /-- The numbers increase along the columns. -/
  ids_increase : t.nodes.toList.Pairwise fun a b => a.id < b.id
  /-- Every column behind the first is on one side of one earlier split. -/
  parent : ∀ c, 0 < c → c < t.size → ∃! e : ℕ × Side, e.1 < c ∧ t.HasChild e.1 e.2 c
  /-- Leaves point nowhere. -/
  leaf_offset : ∀ n ∈ t.nodes, n.isLeaf = true → n.childOffset = 0
  /-- There is one leaf more than splits. -/
  size_eq : t.size + 1 = 2 * t.numLeaves
  /-- The tree and all its nodes belong to the round. -/
  treeId_eq : t.id = treeId ∧ ∀ n ∈ t.nodes, n.treeId = treeId
  /-- No path has more splits than the depth allows. -/
  depth_le : t.depth ≤ maxDepth
  /-- Every split tests a column of the kind that it asks for. -/
  feature_kind : ∀ n ∈ t.nodes, n.isLeaf = false → ∃ (f : UInt64) (j : Fin d.numFeatures),
    n.feature? = some f ∧ f.toNat = j ∧ n.kind.featureKind? = some (d.catalog.kind j)

/-! ## The numbers find the parent -/

theorem column_eq_of_id_eq (hids : t.nodes.toList.Pairwise fun a b => a.id < b.id) {c c' : ℕ}
    {n n' : Node α} (h : t.nodes[c]? = some n) (h' : t.nodes[c']? = some n')
    (hid : n.id = n'.id) : c = c' := by
  rw [← Array.getElem?_toList, List.getElem?_eq_some_iff] at h h'
  obtain ⟨hc, rfl⟩ := h
  obtain ⟨hc', rfl⟩ := h'
  rw [List.pairwise_iff_getElem] at hids
  rcases Nat.lt_trichotomy c c' with hlt | heq | hgt
  · exact absurd (hid ▸ hids c c' hc hc' hlt) (UInt64.lt_irrefl _)
  · exact heq
  · exact absurd (hid ▸ hids c' c hc' hc hgt) (UInt64.lt_irrefl _)

/-- A column is on one side of one split. -/
theorem HasChild.unique (hids : t.nodes.toList.Pairwise fun a b => a.id < b.id) {q q' c : ℕ}
    {side side' : Side} (h : t.HasChild q side c) (h' : t.HasChild q' side' c) :
    q = q' ∧ side = side' := by
  obtain ⟨n, m, hn, hm, -, hside⟩ := h
  obtain ⟨n', m', hn', hm', -, hside'⟩ := h'
  obtain rfl : m = m' := Option.some.inj (hm.symm.trans hm')
  have hparent : n.id.toNat = n'.id.toNat ∧ side = side' := by
    cases side <;> cases side'
    all_goals
      dsimp only at hside hside'
      refine ⟨by omega, ?_⟩
    · rfl
    · omega
    · omega
    · rfl
  exact ⟨column_eq_of_id_eq hids hn hn' (UInt64.toNat.inj hparent.1), hparent.2⟩

end Tree

namespace Growth

open Scalar

variable {α : Type} [Scalar α] {d : Dataset α} {p : GrowthParameters α}
variable {residual hessian : Vector α d.numRows} {treeId : UInt64}

theorem foldl_max_le {l : List ℕ} {a b : ℕ} (ha : a ≤ b) (hl : ∀ x ∈ l, x ≤ b) :
    l.foldl max a ≤ b := by
  induction l generalizing a with
  | nil => exact ha
  | cons x l ih =>
    exact ih (Nat.max_le.2 ⟨ha, hl x List.mem_cons_self⟩) fun y hy =>
      hl y (List.mem_cons_of_mem _ hy)

theorem feature?_nodeKind (test : SplitTest α d.numFeatures) :
    test.nodeKind.feature? = some (.ofNat test.feature) ∧
      test.nodeKind.featureKind? = some test.featureKind := by
  cases test <;> exact ⟨rfl, rfl⟩

section Depth

variable (hdepth : p.maxDepth.toNat < Settings.maxExactLevel)

include hdepth

/-! ## The nodes of a grown tree -/

/-- A node is a leaf, or a split on a feature of the tested kind. -/
theorem node_cases {n : Node α} (hn : n ∈ (grow d p treeId residual hessian).nodes) :
    ∃ id : NodeNumber, id.level ≤ p.maxDepth.toNat + 1 ∧
      ((∃ value, n = .leaf id.toId treeId value) ∨
        ∃ (test : SplitTest α d.numFeatures) (offset : UInt64),
          n = ⟨id.toId, treeId, offset, test.nodeKind⟩ ∧
            test.featureKind = d.catalog.kind test.feature) := by
  obtain ⟨c, hc⟩ := Array.mem_iff_getElem?.1 hn
  have hsize : c < (grow d p treeId residual hessian).size := (Array.getElem?_eq_some_iff.1 hc).1
  obtain ⟨id, mask, hstands, hlevel⟩ := exists_stands residual hessian treeId hdepth hsize
  refine ⟨id, hlevel, ?_⟩
  cases hstands.column hdepth treeId with
  | leaf value node => exact .inl ⟨value, Option.some.inj (hc.symm.trans node)⟩
  | split test offset node kind =>
    exact .inr ⟨test, offset, Option.some.inj (hc.symm.trans node), kind⟩

theorem level_node_le {n : Node α} (hn : n ∈ (grow d p treeId residual hessian).nodes) :
    n.level ≤ p.maxDepth.toNat + 1 := by
  have hmax : Settings.maxExactLevel = 52 := rfl
  obtain ⟨id, hlevel, hcases⟩ := node_cases hdepth hn
  have hword : (id : ℕ) < 2 ^ 64 := NodeNumber.lt_of_level_le (by omega)
  have hid : n.id = id.toId := by
    rcases hcases with ⟨value, rfl⟩ | ⟨test, offset, rfl, -⟩
    · rfl
    · rfl
  rw [Node.level, hid, NodeNumber.level_toId hword]
  exact hlevel

theorem depth_grow_le : (grow d p treeId residual hessian).depth ≤ p.maxDepth.toNat := by
  have hlevels : ((grow d p treeId residual hessian).nodes.toList.map Node.level).foldl max 0 ≤
      p.maxDepth.toNat + 1 := by
    refine foldl_max_le (Nat.zero_le _) fun l hl => ?_
    obtain ⟨n, hn, rfl⟩ := List.mem_map.1 hl
    exact level_node_le hdepth (Array.mem_toList_iff.1 hn)
  rw [Tree.depth]
  omega

/-! ## The shape of a grown tree -/

theorem ids_grow :
    (grow d p treeId residual hessian).nodes.toList.Pairwise fun a b => a.id < b.id := by
  rw [List.pairwise_iff_getElem]
  intro c c' hc hc' hlt
  obtain ⟨id, mask, hstands, -⟩ := exists_stands residual hessian treeId hdepth hc
  obtain ⟨id', mask', hstands', -⟩ := exists_stands residual hessian treeId hdepth hc'
  obtain ⟨n, hn, hid⟩ := hstands.node hdepth treeId
  obtain ⟨n', hn', hid'⟩ := hstands'.node hdepth treeId
  rw [← Array.getElem?_toList] at hn hn'
  rw [(List.getElem?_eq_some_iff.1 hn).2, (List.getElem?_eq_some_iff.1 hn').2, hid, hid',
    UInt64.lt_iff_toNat_lt, NodeNumber.toNat_toId (hstands.id_lt_word hdepth),
    NodeNumber.toNat_toId (hstands'.id_lt_word hdepth)]
  exact hstands.lt hstands' hlt

variable (treeId) in
/-- What stands on a side of a node has the number of the child there. -/
theorem exists_number {c : ℕ} {id : NodeNumber} {mask : Mask} {side : Side}
    (hid : (id : ℕ) < 2 ^ 64) (hchild : Stands d p residual hessian c (id.child side) mask) :
    ∃ m, (grow d p treeId residual hessian).nodes[c]? = some m ∧
      m.id.toNat = side.number id.toId.toNat := by
  obtain ⟨m, hm, hmid⟩ := hchild.node hdepth treeId
  refine ⟨m, hm, ?_⟩
  rw [hmid, NodeNumber.toNat_toId (hchild.id_lt_word hdepth), NodeNumber.toNat_toId hid]
  cases side <;> rfl

theorem consistent_grow : (grow d p treeId residual hessian).Consistent where
  root_id := by
    obtain ⟨root, hroot, hid⟩ := (stands_root d p residual hessian).node hdepth treeId
    rw [Tree.root?, hroot, Option.map_some, hid]
    rfl
  fits c n hn := by
    have hc : c < (grow d p treeId residual hessian).size := (Array.getElem?_eq_some_iff.1 hn).1
    obtain ⟨id, mask, hstands, -⟩ := exists_stands residual hessian treeId hdepth hc
    cases hstands.column hdepth treeId with
    | leaf value node =>
      obtain rfl := Option.some.inj (hn.symm.trans node)
      exact ⟨rfl, by intro h; cases h⟩
    | split test offset node kind pos child =>
      obtain rfl := Option.some.inj (hn.symm.trans node)
      exact ⟨rfl, fun _ => ⟨pos, fun side =>
        exists_number treeId hdepth (hstands.id_lt_word hdepth) (child side)⟩⟩

theorem validate_grow : (grow d p treeId residual hessian).validate = .ok () := by
  have hsize := size_grow_lt d residual hessian treeId hdepth
  rw [show Settings.maxExactLevel = 52 from rfl] at hsize
  exact (consistent_grow hdepth).validate_eq (by omega)

theorem size_grow_add_one :
    (grow d p treeId residual hessian).size + 1 =
      2 * (grow d p treeId residual hessian).numLeaves := by
  have hleaf : (Node.isLeaf ∘ fun e : NestedTree α d.numFeatures × ℕ => e.1.toNode treeId e.2) =
      fun e => e.1.children.isEmpty := by
    funext ⟨s, o⟩
    cases s with
    | leaf => rfl
    | split id test => exact test.isLeaf_nodeKind
  rw [size_grow d residual hessian treeId hdepth, Tree.numLeaves,
    grow_nodes d residual hessian hdepth, List.countP_map, hleaf]
  exact NestedTree.length_layout_add [expandRoot d p residual hessian]

/-- What stands on a side of a split is its child there. -/
theorem hasChild_of_stands {q : ℕ} {id : NodeNumber} {offset : UInt64}
    {test : SplitTest α d.numFeatures} {mask : Mask} {side : Side} (hid : (id : ℕ) < 2 ^ 64)
    (hn : (grow d p treeId residual hessian).nodes[q]? =
      some ⟨id.toId, treeId, offset, test.nodeKind⟩)
    (hchild : Stands d p residual hessian (side.column q offset) (id.child side) mask) :
    (grow d p treeId residual hessian).HasChild q side (side.column q offset) := by
  obtain ⟨m, hm, hnumber⟩ := exists_number treeId hdepth hid hchild
  refine ⟨_, m, hn, hm, test.isLeaf_nodeKind, ?_⟩
  cases side with
  | left => exact ⟨rfl, hnumber⟩
  | right => exact ⟨rfl, hnumber⟩

theorem exists_parent {c : ℕ} (hpos : 0 < c) (hc : c < (grow d p treeId residual hessian).size) :
    ∃ e : ℕ × Side, e.1 < c ∧ (grow d p treeId residual hessian).HasChild e.1 e.2 c := by
  obtain ⟨id, mask, hstands, -⟩ := exists_stands residual hessian treeId hdepth hc
  obtain ⟨q, id', test, offset, side, hq, hid', hnode, rfl, rfl⟩ :=
    hstands.parent hdepth hpos treeId
  exact ⟨(q, side), hq, hasChild_of_stands hdepth hid' hnode hstands⟩

theorem fullBinary_grow :
    (grow d p treeId residual hessian).FullBinary d p.maxDepth.toNat treeId where
  validate_eq := validate_grow hdepth
  root_id := (consistent_grow hdepth).root_id
  ids_increase := ids_grow hdepth
  parent c hpos hc := by
    obtain ⟨e, he, hchild⟩ := exists_parent hdepth hpos hc
    refine ⟨e, ⟨he, hchild⟩, fun e' he' => ?_⟩
    obtain ⟨hq, hside⟩ := he'.2.unique (ids_grow hdepth) hchild
    exact Prod.ext hq hside
  leaf_offset n hn hleaf := by
    obtain ⟨id, -, ⟨value, rfl⟩ | ⟨test, offset, rfl, -⟩⟩ := node_cases hdepth hn
    · rfl
    · exact absurd (hleaf.symm.trans test.isLeaf_nodeKind) Bool.noConfusion
  size_eq := size_grow_add_one hdepth
  treeId_eq := by
    refine ⟨rfl, fun n hn => ?_⟩
    obtain ⟨id, -, ⟨value, rfl⟩ | ⟨test, offset, rfl, -⟩⟩ := node_cases hdepth hn
    · rfl
    · rfl
  depth_le := depth_grow_le hdepth
  feature_kind n hn hsplit := by
    obtain ⟨id, -, ⟨value, rfl⟩ | ⟨test, offset, rfl, hkind⟩⟩ := node_cases hdepth hn
    · cases hsplit
    · obtain ⟨hfeature, hfeatureKind⟩ := feature?_nodeKind test
      rw [hkind] at hfeatureKind
      exact ⟨_, test.feature, hfeature, Dataset.toNat_column test.feature, hfeatureKind⟩

end Depth

/-- Building a tree succeeds on residuals and weights of the dataset's length,
and gives a full binary tree. -/
theorem build_fullBinary (d : Dataset α) (p : GrowthParameters α)
    (hdepth : p.maxDepth.toNat < Settings.maxExactLevel) (treeId : UInt64)
    (residual hessian : Vector α d.numRows) :
    ∃ t, build d p treeId residual.toArray hessian.toArray = .ok t ∧
      t.FullBinary d p.maxDepth.toNat treeId :=
  ⟨_, build_toArray d p treeId residual hessian, fullBinary_grow hdepth⟩

theorem build_fullBinary_mixedData :
    (2 : UInt64).toNat < Settings.maxExactLevel ∧
    ∃ t, build mixedData ⟨.regression, 2, 0⟩ 1 mixedData.labels.toArray (.replicate 6 1) = .ok t ∧
      t.FullBinary mixedData 2 1 :=
  ⟨by decide, build_fullBinary mixedData ⟨.regression, 2, 0⟩ (by decide) 1 mixedData.labels
    (.replicate 6 1)⟩

end Growth

end GradientForest
