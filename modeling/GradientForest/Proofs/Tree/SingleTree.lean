import Mathlib.Data.Finset.Prod
import Mathlib.Order.Interval.Finset.Nat
import GradientForest.Proofs.Tree.Traversal

/-!
# Tables of one binary tree

`Tree.SingleTree` says that a table is one binary tree: every column behind the first is the
child of exactly one split, which stands before it, no number occurs twice, there is one leaf
more than splits, and the depth is the length of the longest path from the root to a leaf.

Validation looks at the children of splits only, so it accepts columns that nobody points at.
A validated table is one tree when every column behind the first has a split that points at
it (`Tree.singleTree_iff`).  From this everything else follows along the paths from the root
(`Tree.Reached`).  A number tells the path to it, hence numbers and parents are unique, and
the level of a number is the length of its path.
-/

namespace GradientForest

/-- A number tells the side and the number of the parent. -/
theorem Side.number_inj {i j : ℕ} {side side' : Side} (h : side.number i = side'.number j) :
    i = j ∧ side = side' := by
  cases side <;> cases side'
  all_goals
    simp only [Side.number] at h
    refine ⟨by omega, ?_⟩
  · rfl
  · omega
  · omega
  · rfl

namespace Tree

variable {α : Type}

section Definitions

variable (t : Tree α)

/-- The split in column `p` points at column `c` on a side. -/
def Parent (p : ℕ) (side : Side) (c : ℕ) : Prop :=
  ∃ n, t.nodes[p]? = some n ∧ n.isLeaf = false ∧ c = side.column p n.childOffset

/-- The columns on the paths from the root, each with the number of splits before it. -/
inductive Reached : ℕ → ℕ → Prop where
  /-- The path starts in the first column. -/
  | root : Reached 0 0
  /-- It passes a split on one side. -/
  | child {p k : ℕ} {side : Side} {c : ℕ} (before : Reached p k) (parent : t.Parent p side c) :
    Reached c (k + 1)

/-- Every column behind the first has a split that points at it. -/
def Connected : Prop := ∀ c, 0 < c → c < t.size → ∃ p side, t.Parent p side c

/-- The table is one binary tree. -/
structure SingleTree : Prop where
  /-- Numbers are positive. -/
  positive : ∀ n ∈ t.nodes, 0 < n.id.toNat
  /-- Every column behind the first is on one side of one split, which stands before it. -/
  parent : ∀ c, 0 < c → c < t.size → ∃ e : ℕ × Side, e.1 < c ∧
    ∀ e' : ℕ × Side, t.Parent e'.1 e'.2 c ↔ e' = e
  /-- No number occurs twice. -/
  distinct : ∀ (c c' : ℕ) (n n' : Node α), t.nodes[c]? = some n → t.nodes[c']? = some n' →
    n.id = n'.id → c = c'
  /-- There is one leaf more than splits. -/
  size_eq : t.size + 1 = 2 * t.numLeaves
  /-- The depth is the number of splits on the longest path from the root to a leaf. -/
  depth_eq : IsGreatest {k | ∃ c n, t.Reached c k ∧ t.nodes[c]? = some n ∧ n.isLeaf = true}
    t.depth

end Definitions

variable {t : Tree α}

/-! ## Connected tables -/

theorem Parent.exists_child (hcons : t.Consistent) {p c : ℕ} {side : Side}
    (h : t.Parent p side c) :
    ∃ n m, t.nodes[p]? = some n ∧ n.isLeaf = false ∧ t.nodes[c]? = some m ∧
      m.id.toNat = side.number n.id.toNat ∧ p < c ∧ c = side.column p n.childOffset := by
  obtain ⟨n, hn, hleaf, rfl⟩ := h
  obtain ⟨m, hm, hid⟩ := hcons.child hn hleaf side
  exact ⟨n, m, hn, hleaf, hm, hid, (hcons.points_ahead hn hleaf side).1, rfl⟩

/-- Levels are lengths of paths. -/
theorem Consistent.exists_node (hcons : t.Consistent) {c k : ℕ} (h : t.Reached c k) :
    ∃ n, t.nodes[c]? = some n ∧ 0 < n.id.toNat ∧ n.level = k + 1 := by
  induction h with
  | root =>
    obtain ⟨root, hroot, hid⟩ := Option.map_eq_some_iff.1 hcons.root_id
    exact ⟨root, hroot, by rw [hid]; decide, by rw [Node.level, hid]; rfl⟩
  | child before parent ih =>
    obtain ⟨n, hn, hpos, hlevel⟩ := ih
    obtain ⟨n', m, hn', -, hm, hid, -⟩ := parent.exists_child hcons
    obtain rfl := Option.some.inj (hn.symm.trans hn')
    obtain ⟨hmpos, hmlevel⟩ := NodeId.level_of_number hpos hid
    exact ⟨m, hm, hmpos, hmlevel.trans (congrArg (· + 1) hlevel)⟩

section Connected

variable (hcons : t.Consistent) (hconn : t.Connected)

include hcons hconn

theorem Connected.exists_reached {c : ℕ} (hc : c < t.size) : ∃ k, t.Reached c k := by
  induction c using Nat.strong_induction_on with
  | _ c ih =>
    rcases c.eq_zero_or_pos with rfl | hpos
    · exact ⟨0, .root⟩
    · obtain ⟨p, side, hparent⟩ := hconn c hpos hc
      obtain ⟨-, -, -, -, -, -, hlt, -⟩ := hparent.exists_child hcons
      obtain ⟨k, hk⟩ := ih p hlt (hlt.trans hc)
      exact ⟨k + 1, hk.child hparent⟩

theorem Connected.id_pos {c : ℕ} {n : Node α} (hn : t.nodes[c]? = some n) : 0 < n.id.toNat := by
  obtain ⟨k, hk⟩ := exists_reached hcons hconn (Array.getElem?_eq_some_iff.1 hn).1
  obtain ⟨n', hn', hpos, -⟩ := hcons.exists_node hk
  obtain rfl := Option.some.inj (hn.symm.trans hn')
  exact hpos

theorem Connected.exists_parent {c : ℕ} (hpos : 0 < c) {n : Node α} (hn : t.nodes[c]? = some n) :
    ∃ p m side, t.nodes[p]? = some m ∧ 0 < m.id.toNat ∧ m.isLeaf = false ∧ p < c ∧
      t.Parent p side c ∧ n.id.toNat = side.number m.id.toNat ∧
      c = side.column p m.childOffset := by
  obtain ⟨p, side, hparent⟩ := hconn c hpos (Array.getElem?_eq_some_iff.1 hn).1
  obtain ⟨m, n', hm, hleaf, hn', hid, hlt, hc⟩ := hparent.exists_child hcons
  obtain rfl := Option.some.inj (hn.symm.trans hn')
  exact ⟨p, m, side, hm, id_pos hcons hconn hm, hleaf, hlt, hparent, hid, hc⟩

/-- Only the root has the number 1. -/
theorem Connected.pos_iff {c : ℕ} {n : Node α} (hn : t.nodes[c]? = some n) :
    0 < c ↔ 1 < n.id.toNat := by
  constructor
  · intro hpos
    obtain ⟨p, m, side, -, hm, -, -, -, hid, -⟩ := exists_parent hcons hconn hpos hn
    cases side <;> simp only [Side.number] at hid <;> omega
  · intro hid
    by_contra hc
    obtain rfl : c = 0 := by omega
    obtain ⟨root, hroot, hone⟩ := Option.map_eq_some_iff.1 hcons.root_id
    obtain rfl := Option.some.inj (hn.symm.trans hroot)
    rw [hone] at hid
    exact absurd hid (by decide)

/-- Columns with one number have parents with one number, and so on up to the root. -/
theorem Connected.column_eq {c c' : ℕ} {n n' : Node α} (hn : t.nodes[c]? = some n)
    (hn' : t.nodes[c']? = some n') (hid : n.id = n'.id) : c = c' := by
  induction hi : n.id.toNat using Nat.strong_induction_on generalizing c c' n n' with
  | _ i ih =>
    have hpos := pos_iff hcons hconn hn
    have hpos' := pos_iff hcons hconn hn'
    rw [← hid] at hpos'
    by_cases hc : 0 < c
    swap
    · omega
    have hc' := hpos'.2 (hpos.1 hc)
    obtain ⟨p, m, side, hm, hmpos, -, -, -, hnumber, rfl⟩ :=
      exists_parent hcons hconn hc hn
    obtain ⟨p', m', side', hm', -, -, -, -, hnumber', rfl⟩ :=
      exists_parent hcons hconn hc' hn'
    rw [← hid, hnumber] at hnumber'
    obtain ⟨hparents, rfl⟩ := Side.number_inj hnumber'
    have hlt : m.id.toNat < i := by
      rw [← hi, hnumber]
      cases side <;> simp only [Side.number] <;> omega
    obtain rfl := ih m.id.toNat hlt hm hm' (UInt64.toNat_inj.1 hparents) rfl
    obtain rfl := Option.some.inj (hm.symm.trans hm')
    rfl

theorem Connected.parent_eq {p p' c : ℕ} {side side' : Side} (h : t.Parent p side c)
    (h' : t.Parent p' side' c) : p = p' ∧ side = side' := by
  obtain ⟨n, m, hn, -, hm, hid, -⟩ := h.exists_child hcons
  obtain ⟨n', m', hn', -, hm', hid', -⟩ := h'.exists_child hcons
  obtain rfl := Option.some.inj (hm.symm.trans hm')
  obtain ⟨hparents, hside⟩ := Side.number_inj (hid.symm.trans hid')
  exact ⟨column_eq hcons hconn hn hn' (UInt64.toNat_inj.1 hparents), hside⟩

end Connected

/-! ## Counting columns -/

theorem card_filter_range {β : Type} (l : List β) (q : β → Bool) :
    ((Finset.range l.length).filter fun c => l[c]?.any q).card = l.countP q := by
  have hrange : (List.range l.length).map (l[·]?) = l.map some := by
    refine List.ext_getElem (by simp) fun i hi hi' => ?_
    simp at hi
    simp [hi]
  have hcount : (List.range l.length).countP (fun c => l[c]?.any q) = l.countP q := by
    have h := congrArg (List.countP (Option.any q)) hrange
    rwa [List.countP_map, List.countP_map] at h
  rw [← hcount, List.countP_eq_length_filter, Finset.card_def, Finset.filter_val,
    Finset.range_val, Multiset.range, Multiset.filter_coe, Multiset.coe_card]
  simp

/-- The columns of splits. -/
def splitColumns (t : Tree α) : Finset ℕ := (Finset.range t.size).filter fun c => t.splitsAt c

theorem mem_splitColumns {c : ℕ} :
    c ∈ t.splitColumns ↔ ∃ n, t.nodes[c]? = some n ∧ n.isLeaf = false := by
  rw [splitColumns, Finset.mem_filter, Finset.mem_range, splitsAt, Option.any_eq_true]
  constructor
  · rintro ⟨-, n, hn, hleaf⟩
    exact ⟨n, hn, by simpa using hleaf⟩
  · rintro ⟨n, hn, hleaf⟩
    exact ⟨(Array.getElem?_eq_some_iff.1 hn).1, n, hn, by simpa using hleaf⟩

theorem card_splitColumns (t : Tree α) : t.splitColumns.card + t.numLeaves = t.size := by
  have hsplits : t.splitColumns.card = t.nodes.toList.countP fun n => !n.isLeaf := by
    rw [← card_filter_range, Array.length_toList]
    refine congrArg Finset.card (Finset.filter_congr fun c _ => ?_)
    rw [splitsAt, Array.getElem?_toList]
  have hlength := List.length_eq_countP_add_countP Node.isLeaf (l := t.nodes.toList)
  simp only [Bool.not_eq_true, Bool.decide_eq_false, Array.length_toList] at hlength
  rw [hsplits, numLeaves, size]
  omega

/-- Every column behind the first is a side of one split, and every side of a split is such a
column. -/
theorem Connected.card_eq (hcons : t.Consistent) (hconn : t.Connected) :
    (Finset.Ico 1 t.size).card = (t.splitColumns ×ˢ ({.left, .right} : Finset Side)).card := by
  have hsides : ∀ side : Side, side ∈ ({.left, .right} : Finset Side) := by
    intro side
    cases side <;> decide
  choose p side hparent using fun c (hc : c ∈ Finset.Ico 1 t.size) =>
    hconn c (Finset.mem_Ico.1 hc).1 (Finset.mem_Ico.1 hc).2
  refine Finset.card_bij (fun c hc => (p c hc, side c hc)) ?_ ?_ ?_
  · intro c hc
    obtain ⟨n, hn, hleaf, -⟩ := hparent c hc
    exact Finset.mem_product.2 ⟨mem_splitColumns.2 ⟨n, hn, hleaf⟩, hsides _⟩
  · intro c hc c' hc' heq
    obtain ⟨hp, hside⟩ := Prod.mk.inj heq
    obtain ⟨n, hn, -, hcolumn⟩ := hparent c hc
    obtain ⟨n', hn', -, hcolumn'⟩ := hparent c' hc'
    rw [← hp] at hn' hcolumn'
    obtain rfl := Option.some.inj (hn.symm.trans hn')
    rw [hcolumn, hcolumn', hside]
  · rintro ⟨q, onSide⟩ hq
    obtain ⟨n, hn, hleaf⟩ := mem_splitColumns.1 (Finset.mem_product.1 hq).1
    have hq : t.Parent q onSide (onSide.column q n.childOffset) := ⟨n, hn, hleaf, rfl⟩
    obtain ⟨-, m, -, -, hm, -, hlt, -⟩ := hq.exists_child hcons
    have hc : onSide.column q n.childOffset ∈ Finset.Ico 1 t.size :=
      Finset.mem_Ico.2 ⟨Nat.one_le_of_lt hlt, (Array.getElem?_eq_some_iff.1 hm).1⟩
    obtain ⟨hp, hside⟩ := parent_eq hcons hconn (hparent _ hc) hq
    exact ⟨_, hc, Prod.ext hp hside⟩

theorem Connected.size_add_one (hcons : t.Consistent) (hconn : t.Connected) :
    t.size + 1 = 2 * t.numLeaves := by
  have hcard := card_eq hcons hconn
  have hsplits := card_splitColumns t
  have hroot : 0 < t.size := by
    obtain ⟨root, hroot, -⟩ := Option.map_eq_some_iff.1 hcons.root_id
    exact (Array.getElem?_eq_some_iff.1 hroot).1
  rw [Nat.card_Ico, Finset.card_product] at hcard
  have htwo : ({.left, .right} : Finset Side).card = 2 := rfl
  rw [htwo] at hcard
  omega

/-! ## The depth -/

theorem foldl_max_mem (l : List ℕ) (a : ℕ) : l.foldl max a = a ∨ l.foldl max a ∈ l := by
  induction l generalizing a with
  | nil => exact .inl rfl
  | cons x l ih =>
    rw [List.foldl_cons]
    rcases ih (max a x) with heq | hmem
    · rw [heq]
      rcases Nat.le_total a x with hle | hle
      · rw [Nat.max_eq_right hle]
        exact .inr List.mem_cons_self
      · rw [Nat.max_eq_left hle]
        exact .inl rfl
    · exact .inr (List.mem_cons_of_mem _ hmem)

/-- Some node is on the last level. -/
theorem exists_level_eq {root : Node α} (hroot : root ∈ t.nodes) (hid : root.id = 1) :
    ∃ (c : ℕ) (n : Node α), t.nodes[c]? = some n ∧ n.level = t.depth + 1 := by
  have hone : root.level = 1 := by
    rw [Node.level, hid]
    rfl
  have hpos : 1 ≤ (t.nodes.toList.map Node.level).foldl max 0 :=
    hone.symm.le.trans (le_foldl_max (.inr (List.mem_map_of_mem (Array.mem_toList_iff.2 hroot))))
  rcases foldl_max_mem (t.nodes.toList.map Node.level) 0 with heq | hmem
  · omega
  · obtain ⟨n, hn, hlevel⟩ := List.mem_map.1 hmem
    obtain ⟨c, hc⟩ := Array.mem_iff_getElem?.1 (Array.mem_toList_iff.1 hn)
    refine ⟨c, n, hc, ?_⟩
    rw [hlevel, depth]
    omega

/-- A node on the last level is a leaf at the end of a longest path. -/
theorem Connected.isGreatest_depth (hcons : t.Consistent) (hconn : t.Connected) :
    IsGreatest {k | ∃ c n, t.Reached c k ∧ t.nodes[c]? = some n ∧ n.isLeaf = true} t.depth := by
  constructor
  · obtain ⟨root, hroot, hid⟩ := Option.map_eq_some_iff.1 hcons.root_id
    obtain ⟨c, n, hn, hlevel⟩ := exists_level_eq (Array.mem_of_getElem? hroot) hid
    obtain ⟨k, hk⟩ := exists_reached hcons hconn (Array.getElem?_eq_some_iff.1 hn).1
    obtain ⟨n', hn', hpos, hlevel'⟩ := hcons.exists_node hk
    obtain rfl := Option.some.inj (hn.symm.trans hn')
    obtain rfl : k = t.depth := by omega
    refine ⟨c, n, hk, hn, ?_⟩
    -- the children of a split would be on a level below the last
    by_contra hleaf
    have := hcons.level_lt hn (Bool.not_eq_true _ ▸ hleaf) hpos
    omega
  · rintro k ⟨c, n, hk, hn, -⟩
    obtain ⟨n', hn', -, hlevel⟩ := hcons.exists_node hk
    obtain rfl := Option.some.inj (hn.symm.trans hn')
    have := level_le hn
    omega

theorem Connected.singleTree (hcons : t.Consistent) (hconn : t.Connected) : t.SingleTree where
  positive n hn := by
    obtain ⟨c, hc⟩ := Array.mem_iff_getElem?.1 hn
    exact hconn.id_pos hcons hc
  parent c hpos hc := by
    obtain ⟨p, side, hparent⟩ := hconn c hpos hc
    obtain ⟨-, -, -, -, -, -, hlt, -⟩ := hparent.exists_child hcons
    refine ⟨(p, side), hlt, fun e => ?_⟩
    constructor
    · intro he
      obtain ⟨hp, hside⟩ := hconn.parent_eq hcons he hparent
      exact Prod.ext hp hside
    · rintro rfl
      exact hparent
  distinct c c' n n' hn hn' hid := hconn.column_eq hcons hn hn' hid
  size_eq := hconn.size_add_one hcons
  depth_eq := hconn.isGreatest_depth hcons

/-! ## Validated tables -/

theorem SingleTree.connected (h : t.SingleTree) : t.Connected := by
  intro c hpos hc
  obtain ⟨e, -, he⟩ := h.parent c hpos hc
  exact ⟨e.1, e.2, (he e).2 rfl⟩

/-- A validated table is one binary tree when every column behind the first has a split that
points at it. -/
theorem singleTree_iff (hvalid : t.validate = .ok ()) : t.SingleTree ↔ t.Connected :=
  ⟨SingleTree.connected, Connected.singleTree (validate_eq_ok_iff_consistent.1 hvalid).1⟩

end Tree

end GradientForest
