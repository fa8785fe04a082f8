import GradientForest.Proofs.Growth.Expansion
import GradientForest.Proofs.Tree.Trail

/-!
# Where the nodes of a grown tree stand

`Stands c id mask` says that column `c` of a grown tree holds the root of what
expands from `id` and `mask`.  Growth starts at the root (`stands_root`), and
`Stands.column` reads one column: a leaf has the value of the active rows, and a
split has its two children further on, each grown from its side of the mask.
Every column is one of these (`exists_stands`), numbers increase along the
columns (`Stands.lt`), and every column but the first is a child
(`Stands.parent`).

All sizes fit into words, since a tree within the depth has fewer than
`2 ^ Settings.maxExactLevel` nodes.
-/

namespace GradientForest

namespace Growth

open Scalar

variable {α : Type} [Scalar α]

section Definitions

variable (d : Dataset α) (p : GrowthParameters α) (residual hessian : Vector α d.numRows)

/-- The nested trees of the columns, each with its distance to its children. -/
def columnTrees : List (NestedTree α d.numFeatures × ℕ) :=
  NestedTree.layout [expandRoot d p residual hessian]

/-- A column holds what expands from a number and a mask. -/
def Stands (c : ℕ) (id : NodeNumber) (mask : Mask) : Prop :=
  ∃ distance, (columnTrees d p residual hessian)[c]? =
    some (expand d p residual hessian id mask, distance)

/-- What a column holds that grows from a number and a mask. -/
inductive Column (treeId : UInt64) (c : ℕ) (id : NodeNumber) (mask : Mask) : Prop where
  /-- A leaf with the value of the active rows. -/
  | leaf (value : α)
    (node : (grow d p treeId residual hessian).nodes[c]? = some (.leaf id.toId treeId value))
    (value_eq : value = leafValue p.lambda residual.get hessian.get
      (mask.activeRows d.numRows))
  /-- A split of a feature of the tested kind, with its children further on. -/
  | split (test : SplitTest α d.numFeatures) (offset : UInt64)
    (node : (grow d p treeId residual hessian).nodes[c]? =
      some ⟨id.toId, treeId, offset, test.nodeKind⟩)
    (kind : test.featureKind = d.catalog.kind test.feature)
    (pos : 0 < offset.toNat)
    (child : ∀ side : Side, Stands d p residual hessian (side.column c offset) (id.child side)
      (side.pick (test.sides d mask)))

end Definitions

variable {d : Dataset α} {p : GrowthParameters α} {residual hessian : Vector α d.numRows}
variable {treeId : UInt64} {c c' : ℕ} {id id' : NodeNumber} {mask mask' : Mask}

omit [Scalar α] in
/-- The children of a split are on its two sides, and so are their columns. -/
theorem exists_side {n : ℕ} {test : SplitTest α n} {left right k : NestedTree α n} {j : ℕ}
    (h : (NestedTree.split id test left right).children[j]? = some k) :
    ∃ side : Side, k = side.pick (left, right) ∧
      ∀ q offset, side.column q offset = q + offset.toNat + j := by
  rcases j with _ | _ | j
  · cases h
    exact ⟨.left, rfl, fun _ _ => rfl⟩
  · cases h
    exact ⟨.right, rfl, fun _ _ => rfl⟩
  · cases h

variable (d p residual hessian) in
theorem stands_root : Stands d p residual hessian 0 .root (.allActive d.numRows) :=
  ⟨_, by rw [columnTrees, NestedTree.layout_cons]; rfl⟩

theorem Stands.lt (h : Stands d p residual hessian c id mask)
    (h' : Stands d p residual hessian c' id' mask') (hlt : c < c') : (id : ℕ) < id' := by
  obtain ⟨o, ho⟩ := h
  obtain ⟨o', ho'⟩ := h'
  obtain ⟨hc, he⟩ := List.getElem?_eq_some_iff.1 ho
  obtain ⟨hc', he'⟩ := List.getElem?_eq_some_iff.1 ho'
  have hordered := NestedTree.layout_ordered
    (NestedTree.staggered_singleton (numbered_expandRoot d p residual hessian))
  have hids := List.pairwise_iff_getElem.1 hordered c c' hc hc' hlt
  change (columnTrees d p residual hessian)[c].1.id <
    ((columnTrees d p residual hessian)[c'].1.id : ℕ) at hids
  rwa [he, he', id_expand, id_expand] at hids

/-- A column holds one number. -/
theorem Stands.id_unique (h : Stands d p residual hessian c id mask)
    (h' : Stands d p residual hessian c id' mask') : id = id' := by
  obtain ⟨o, ho⟩ := h
  obtain ⟨o', ho'⟩ := h'
  rw [ho, Option.some.injEq, Prod.mk.injEq] at ho'
  have hid := congrArg NestedTree.id ho'.1
  rwa [id_expand, id_expand] at hid

/-! ## Within the depth -/

section Depth

variable (hdepth : p.maxDepth.toNat < Settings.maxExactLevel)

include hdepth

section Sizes

variable (d residual hessian treeId)

theorem nodes_getElem? (c : ℕ) :
    (grow d p treeId residual hessian).nodes[c]? =
      (columnTrees d p residual hessian)[c]?.map fun e => e.1.toNode treeId e.2 := by
  rw [← Array.getElem?_toList, grow_nodes d residual hessian hdepth, List.getElem?_map, columnTrees]

theorem size_grow :
    (grow d p treeId residual hessian).size = (columnTrees d p residual hessian).length := by
  rw [Tree.size, ← Array.length_toList, grow_nodes d residual hessian hdepth, List.length_map,
    columnTrees]

theorem size_grow_eq :
    (grow d p treeId residual hessian).size = (expandRoot d p residual hessian).size := by
  rw [size_grow d residual hessian treeId hdepth, columnTrees, NestedTree.length_layout]
  simp

/-- A grown tree has fewer than `2 ^ Settings.maxExactLevel` nodes. -/
theorem size_grow_lt :
    (grow d p treeId residual hessian).size < 2 ^ Settings.maxExactLevel := by
  have hheight : (expandRoot d p residual hessian).height ≤ p.maxDepth.toNat + 1 - 1 + 1 :=
    height_expand_le .root _
  rw [size_grow_eq d residual hessian treeId hdepth]
  exact Nat.lt_of_lt_of_le (NestedTree.size_lt_two_pow_height _)
    (Nat.pow_le_pow_right (by omega) (by omega))

end Sizes

theorem Stands.lt_size (h : Stands d p residual hessian c id mask) (treeId : UInt64) :
    c < (grow d p treeId residual hessian).size := by
  obtain ⟨o, ho⟩ := h
  rw [size_grow d residual hessian treeId hdepth]
  exact (List.getElem?_eq_some_iff.1 ho).1

/-- A column fits into a word. -/
theorem Stands.lt_word (h : Stands d p residual hessian c id mask) : c < 2 ^ 64 := by
  have hsize := size_grow_lt d residual hessian 0 hdepth
  have hc := h.lt_size hdepth 0
  rw [show Settings.maxExactLevel = 52 from rfl] at hsize
  omega

variable (residual hessian treeId) in
/-- Every column holds something that expands within a level below the depth. -/
theorem exists_stands (hc : c < (grow d p treeId residual hessian).size) :
    ∃ id mask, Stands d p residual hessian c id mask ∧ id.level ≤ p.maxDepth.toNat + 1 := by
  rw [size_grow d residual hessian treeId hdepth] at hc
  have hall := NestedTree.forall_mem_layout
    (P := fun s => ∃ id mask, s = expand d p residual hessian id mask ∧
      id.level ≤ p.maxDepth.toNat + 1) ?_ [expandRoot d p residual hessian] ?_
  · obtain ⟨id, mask, hs, hlevel⟩ := hall _ (List.getElem_mem hc)
    refine ⟨id, mask, ⟨(columnTrees d p residual hessian)[c].2, ?_⟩, hlevel⟩
    rw [List.getElem?_eq_getElem hc, ← hs]
  · rintro t ⟨id, mask, rfl, -⟩ s hs
    obtain ⟨id', mask', rfl, hlevel, hle⟩ := expand_of_mem_children hs
    exact ⟨id', mask', rfl, by omega⟩
  · intro t ht
    rw [List.mem_singleton.1 ht]
    exact ⟨.root, _, rfl, by simp⟩

/-- The distance of a column to its children fits into its word. -/
theorem toNat_distance {s : NestedTree α d.numFeatures} {o j : ℕ} {k : NestedTree α d.numFeatures}
    (h : (columnTrees d p residual hessian)[c]? = some (s, o)) (hk : s.children[j]? = some k) :
    (UInt64.ofNat o).toNat = o := by
  have hsize := size_grow_lt d residual hessian 0 hdepth
  rw [size_grow d residual hessian 0 hdepth, show Settings.maxExactLevel = 52 from rfl] at hsize
  obtain ⟨o', ho'⟩ := NestedTree.layout_child h hk
  have hlt : c + o + j < (columnTrees d p residual hessian).length :=
    (List.getElem?_eq_some_iff.1 ho').1
  exact UInt64.toNat_ofNat_of_lt' (show o < 2 ^ 64 by omega)

/-- What stands in a column, as the flat tree has it. -/
theorem Stands.column (h : Stands d p residual hessian c id mask) (treeId : UInt64) :
    Column d p residual hessian treeId c id mask := by
  obtain ⟨o, ho⟩ := h
  have hnode : (grow d p treeId residual hessian).nodes[c]? =
      some ((expand d p residual hessian id mask).toNode treeId o) := by
    rw [nodes_getElem? d residual hessian treeId hdepth, ho, Option.map_some]
  have hpos : 0 < o := NestedTree.distance_pos (List.mem_of_getElem? ho)
  rcases expand_cases d p residual hessian id mask with
    ⟨value, hvalue, he, -⟩ | ⟨test, -, hkind, he, -⟩
  · rw [he] at hnode
    exact .leaf value hnode hvalue
  · rw [he] at hnode ho
    have hword : (UInt64.ofNat o).toNat = o := toNat_distance hdepth ho (j := 0) rfl
    refine .split test (.ofNat o) hnode hkind (by rwa [hword]) fun side => ?_
    cases side with
    | left =>
      rw [Side.column, hword]
      exact NestedTree.layout_child ho (j := 0) rfl
    | right =>
      rw [Side.column, hword]
      exact NestedTree.layout_child ho (j := 1) rfl

theorem Stands.node (h : Stands d p residual hessian c id mask) (treeId : UInt64) :
    ∃ n, (grow d p treeId residual hessian).nodes[c]? = some n ∧ n.id = id.toId := by
  cases h.column hdepth treeId with
  | leaf value node => exact ⟨_, node, rfl⟩
  | split test offset node => exact ⟨_, node, rfl⟩

/-- A column behind the first holds a child of an earlier split. -/
theorem Stands.parent (h : Stands d p residual hessian c id mask) (hc : 0 < c) (treeId : UInt64) :
    ∃ (q : ℕ) (id' : NodeNumber) (test : SplitTest α d.numFeatures) (offset : UInt64)
      (side : Side), q < c ∧ (id' : ℕ) < 2 ^ 64 ∧
        (grow d p treeId residual hessian).nodes[q]? =
          some ⟨id'.toId, treeId, offset, test.nodeKind⟩ ∧
        c = side.column q offset ∧ id = id'.child side := by
  obtain ⟨o, ho⟩ := h
  obtain ⟨q, s, distance, j, hq, hs, hj, hcol⟩ := NestedTree.layout_parent ho hc
  have hword : (UInt64.ofNat distance).toNat = distance := toNat_distance hdepth hs hj
  have hqsize : q < (grow d p treeId residual hessian).size := by
    rw [size_grow d residual hessian treeId hdepth]
    exact (List.getElem?_eq_some_iff.1 hs).1
  obtain ⟨id', mask', ⟨o', ho'⟩, hlevel⟩ := exists_stands residual hessian treeId hdepth hqsize
  have hmax : Settings.maxExactLevel = 52 := rfl
  obtain ⟨rfl, rfl⟩ : s = expand d p residual hessian id' mask' ∧ distance = o' := by
    have hsame := hs.symm.trans ho'
    rwa [Option.some.injEq, Prod.mk.injEq] at hsame
  have hnode := nodes_getElem? d residual hessian treeId hdepth q
  rw [ho', Option.map_some] at hnode
  rcases expand_cases d p residual hessian id' mask' with ⟨value, -, he, -⟩ | ⟨test, -, -, he, -⟩
  · rw [he] at hj
    simp [NestedTree.children] at hj
  · rw [he] at hj hnode
    have hid' : (id' : ℕ) < 2 ^ 64 := NodeNumber.lt_of_level_le (by omega)
    obtain ⟨side, hk, hside⟩ := exists_side hj
    have hid := congrArg NestedTree.id hk
    refine ⟨q, id', test, .ofNat distance, side, hq, hid', hnode, ?_, ?_⟩
    · rw [hside, hword, hcol]
    · cases side with
      | left => rwa [id_expand, Side.pick, id_expand] at hid
      | right => rwa [id_expand, Side.pick, id_expand] at hid

/-- The number of a column fits into its word. -/
theorem Stands.id_lt_word (h : Stands d p residual hessian c id mask) : (id : ℕ) < 2 ^ 64 := by
  obtain ⟨id', mask', h', hlevel⟩ := exists_stands residual hessian 0 hdepth (h.lt_size hdepth 0)
  rw [show Settings.maxExactLevel = 52 from rfl] at hdepth
  rw [h.id_unique h']
  exact NodeNumber.lt_of_level_le (by omega)

end Depth

end Growth

end GradientForest
