import GradientForest.Proofs.Outcome
import GradientForest.Proofs.Tree.Trail
import GradientForest.Scalar.Binary64

/-!
# What validation accepts

A split names its children by their columns and by their numbers.  The columns are its own
plus an offset and the one behind, the numbers are twice its own and one more.
`Tree.Consistent` states the checks of flat trees over the natural numbers, and
`Tree.WithinWords` says that the columns and the numbers of all children are words.

Validation accepts the trees of which both hold (`Tree.validate_eq_ok_iff_consistent`).  A
consistent table of fewer than `2 ^ 64` nodes is within words, so an overflow never makes
validation accept a table that is not consistent, and it never looks outside the table.

A table that is not consistent is refused with its fault, unless an overflow comes first
(`Tree.Overflows`).  Then validation ends without an answer.  `Tree.validate_iff` says
when, and `Tree.validate_overflows` shows tables of this kind.
-/

namespace GradientForest

open Scalar

/-- The number of the child of a node on a side. -/
def Side.number (id : ℕ) : Side → ℕ
  | .left => 2 * id
  | .right => 2 * id + 1

/-- What holds on both sides. -/
theorem Side.forall_iff {P : Side → Prop} : (∀ side, P side) ↔ P .left ∧ P .right := by
  constructor
  · exact fun h => ⟨h .left, h .right⟩
  · rintro ⟨hleft, hright⟩ side
    cases side with
    | left => exact hleft
    | right => exact hright

namespace NodeId

theorem toNat_left {id : NodeId} (h : id.toNat < 2 ^ 63) :
    id.left.toNat = Side.left.number id.toNat := by
  rw [left, UInt64.toNat_mul]
  exact Nat.mod_eq_of_lt (by change 2 * id.toNat < 2 ^ 64; omega)

theorem toNat_right {id : NodeId} (h : id.toNat < 2 ^ 63) :
    id.right.toNat = Side.right.number id.toNat := by
  have hleft : (2 * id).toNat = 2 * id.toNat := toNat_left h
  rw [right, UInt64.toNat_add, hleft]
  exact Nat.mod_eq_of_lt (by change 2 * id.toNat + 1 < 2 ^ 64; omega)

end NodeId

namespace Tree

variable {α : Type}

/-! ## The checks -/

section Definitions

variable (t : Tree α)

/-- A split points ahead, and its two children stand where it says. -/
def HasChildren (c : ℕ) (n : Node α) : Prop :=
  0 < n.childOffset.toNat ∧ ∀ side : Side, ∃ m,
    t.nodes[side.column c n.childOffset]? = some m ∧ m.id.toNat = side.number n.id.toNat

/-- A node belongs to the tree, and if it is a split, it has its children. -/
def Fits (c : ℕ) (n : Node α) : Prop :=
  n.treeId = t.id ∧ (n.isLeaf = false → t.HasChildren c n)

/-- The tree starts at its root, and every node fits. -/
structure Consistent : Prop where
  /-- The first node is the root. -/
  root_id : t.root?.map Node.id = some 1
  /-- Every node fits in its column. -/
  fits : ∀ c n, t.nodes[c]? = some n → t.Fits c n

/-- The columns and the numbers of all children are words. -/
def WithinWords : Prop :=
  ∀ c n, t.nodes[c]? = some n → n.isLeaf = false →
    n.id.toNat < 2 ^ 63 ∧ c + n.childOffset.toNat + 1 < 2 ^ 64

instance : Decidable t.WithinWords :=
  decidable_of_iff (∀ e ∈ t.nodes.toList.zipIdx, e.1.isLeaf = false →
      e.1.id.toNat < 2 ^ 63 ∧ e.2 + e.1.childOffset.toNat + 1 < 2 ^ 64) <| by
    simp only [WithinWords, Prod.forall, List.mem_zipIdx_iff_getElem?, Array.getElem?_toList]
    exact forall_comm

/-- A split of the tree names a column that is no word, or its children's columns are in the
table and their numbers are no words. -/
def Overflows (c : ℕ) (n : Node α) : Prop :=
  n.treeId = t.id ∧ n.isLeaf = false ∧ 0 < n.childOffset.toNat ∧
    (¬IsWord (c + n.childOffset.toNat + 1) ∨
      c + n.childOffset.toNat + 1 < t.size ∧ ¬IsWord (2 * n.id.toNat))

end Definitions

variable {t : Tree α} {n : Node α} {c : ℕ}

/-! ## One node -/

theorem childOffset_ne_zero_iff : n.childOffset ≠ 0 ↔ 0 < n.childOffset.toNat := by
  rw [Nat.pos_iff_ne_zero, ne_eq, ne_eq, ← UInt64.toNat_inj]
  rfl

theorem isWord_double_iff {id : NodeId} : IsWord (2 * id.toNat) ↔ id.toNat < 2 ^ 63 := by
  rw [IsWord, UInt64.size]
  omega

/-- The nodes at the two columns are the children of a split when their numbers are right. -/
theorem hasChildren_iff {l r : Node α} (hid : IsWord (2 * n.id.toNat))
    (hpos : 0 < n.childOffset.toNat)
    (hleft : t.nodes[Side.left.column c n.childOffset]? = some l)
    (hright : t.nodes[Side.right.column c n.childOffset]? = some r) :
    t.HasChildren c n ↔ l.id = n.id.left ∧ r.id = n.id.right := by
  rw [HasChildren, Side.forall_iff, hleft, hright, ← UInt64.toNat_inj, ← UInt64.toNat_inj,
    NodeId.toNat_left (isWord_double_iff.1 hid), NodeId.toNat_right (isWord_double_iff.1 hid)]
  simp [hpos]

theorem HasChildren.lt_size (h : t.HasChildren c n) : c + n.childOffset.toNat + 1 < t.size := by
  obtain ⟨m, hm, -⟩ := h.2 .right
  exact (Array.getElem?_eq_some_iff.1 hm).1

/-- The check of a node passes a node that fits, overflows, or refuses one that does not fit. -/
theorem checkNode_cases (t : Tree α) (n : Node α) (c : ℕ) :
    (t.checkNode n c = .ok () ∧ t.Fits c n ∧ ¬t.Overflows c n) ∨
      (t.checkNode n c = .error .overflow ∧ t.Overflows c n) ∨
      ((∃ fault, t.checkNode n c = .error (.tree fault)) ∧ ¬t.Fits c n ∧ ¬t.Overflows c n) := by
  by_cases htree : n.treeId = t.id
  swap
  · simp [checkNode, Fits, Overflows, htree]
  cases hleaf : n.isLeaf with
  | true => simp [checkNode, Fits, Overflows, htree, hleaf]
  | false =>
    by_cases hoffset : n.childOffset = 0
    · simp [checkNode, Fits, HasChildren, Overflows, htree, hleaf, hoffset]
    have hpos := childOffset_ne_zero_iff.1 hoffset
    by_cases hword : IsWord (c + n.childOffset.toNat + 1)
    swap
    · simp [checkNode, Overflows, htree, hleaf, hoffset, hword, hpos]
    by_cases hsize : c + n.childOffset.toNat + 1 < t.nodes.size
    swap
    · have hout : ¬t.HasChildren c n := fun h => hsize h.lt_size
      simp [checkNode, Fits, Overflows, htree, hleaf, hoffset, hword, hsize, hout, size]
    by_cases hid : IsWord (2 * n.id.toNat)
    swap
    · simp [checkNode, Overflows, htree, hleaf, hoffset, hword, hsize, hid, hpos, size]
    have hleft : t.nodes[Side.left.column c n.childOffset]? =
        some t.nodes[c + n.childOffset.toNat] :=
      Array.getElem?_eq_getElem (Nat.lt_of_succ_lt hsize)
    have hright : t.nodes[Side.right.column c n.childOffset]? =
        some t.nodes[c + n.childOffset.toNat + 1] := Array.getElem?_eq_getElem hsize
    have hchild := hasChildren_iff hid hpos hleft hright
    by_cases hids : t.nodes[c + n.childOffset.toNat].id = n.id.left ∧
        t.nodes[c + n.childOffset.toNat + 1].id = n.id.right
    · simp [checkNode, Fits, Overflows, htree, hleaf, hoffset, hword, hsize, hid, hchild, hids]
    · have hids' := not_and_or.1 hids
      simp [checkNode, Fits, Overflows, htree, hleaf, hoffset, hword, hsize, hid, hchild, hids,
        hids']

theorem checkNode_eq_ok_iff : t.checkNode n c = .ok () ↔ t.Fits c n ∧ ¬t.Overflows c n := by
  rcases t.checkNode_cases n c with ⟨h, hn⟩ | ⟨h, hover⟩ | ⟨⟨fault, h⟩, hfits, -⟩
  · simp [h, hn]
  · simp [h, hover]
  · simp [h, hfits]

theorem checkNode_eq_overflow_iff : t.checkNode n c = .error .overflow ↔ t.Overflows c n := by
  rcases t.checkNode_cases n c with ⟨h, -, hover⟩ | ⟨h, hover⟩ | ⟨⟨fault, h⟩, -, hover⟩ <;>
    simp [h, hover]

/-- The children of a split that passes are within words. -/
theorem Fits.within (h : t.Fits c n) (hover : ¬t.Overflows c n) (hleaf : n.isLeaf = false) :
    n.id.toNat < 2 ^ 63 ∧ c + n.childOffset.toNat + 1 < 2 ^ 64 := by
  have hchildren := h.2 hleaf
  have hword : IsWord (c + n.childOffset.toNat + 1) := by
    by_contra hword
    exact hover ⟨h.1, hleaf, hchildren.1, .inl hword⟩
  have hid : IsWord (2 * n.id.toNat) := by
    by_contra hid
    exact hover ⟨h.1, hleaf, hchildren.1, .inr ⟨hchildren.lt_size, hid⟩⟩
  exact ⟨isWord_double_iff.1 hid, hword⟩

/-- A node that fits has its children in the table, where all columns and numbers are words. -/
theorem Fits.not_overflows (h : t.Fits c n) (hsize : t.size < 2 ^ 64) : ¬t.Overflows c n := by
  rintro ⟨-, hleaf, -, hover⟩
  have hchildren := h.2 hleaf
  have hcolumn := hchildren.lt_size
  obtain ⟨r, -, hid⟩ := hchildren.2 .right
  have hnumber : r.id.toNat = 2 * n.id.toNat + 1 := hid
  have hword := r.id.toNat_lt
  simp only [IsWord, UInt64.size] at hover
  omega

/-! ## All nodes -/

theorem validate_eq_ok_iff :
    t.validate = .ok () ↔ ∃ root, t.nodes[0]? = some root ∧ root.id = 1 ∧
      ∀ c n, t.nodes[c]? = some n → t.checkNode n c = .ok () := by
  rw [validate, root?]
  cases t.nodes[0]? with
  | none =>
    constructor
    · intro h
      cases h
    · rintro ⟨root, hroot, -⟩
      cases hroot
  | some root =>
    dsimp only
    constructor
    · intro h
      split_ifs at h with hid
      refine ⟨root, rfl, not_not.1 hid, fun c n hn => ?_⟩
      refine forM_eq_ok_iff.1 h (n, c) ?_
      rw [List.mem_zipIdx_iff_getElem?, Array.getElem?_toList]
      exact hn
    · rintro ⟨_, ⟨⟩, hid, hcheck⟩
      rw [if_neg (not_not.2 hid), forM_eq_ok_iff]
      intro e he
      rw [List.mem_zipIdx_iff_getElem?, Array.getElem?_toList] at he
      exact hcheck e.2 e.1 he

/-- A table that does not start at its root is refused. -/
theorem exists_fault_of_unrooted (h : t.root?.map Node.id ≠ some 1) :
    ∃ fault, t.validate = .error (.tree fault) := by
  rw [validate]
  cases hroot : t.root? with
  | none => exact ⟨_, rfl⟩
  | some root =>
    have hid : root.id ≠ 1 := by
      rintro hid
      exact h (by rw [hroot, Option.map_some, hid])
    exact ⟨_, if_pos hid⟩

/-- From its root on, a table fails in the way of the first node that does not pass. -/
theorem validate_eq_error_iff (h : t.root?.map Node.id = some 1) {e : Error} :
    t.validate = .error e ↔ ∃ c n, t.nodes[c]? = some n ∧ t.checkNode n c = .error e ∧
      ∀ c' < c, ∀ m, t.nodes[c']? = some m → t.checkNode m c' = .ok () := by
  obtain ⟨root, hroot, hid⟩ := Option.map_eq_some_iff.1 h
  rw [validate, hroot]
  dsimp only
  rw [if_neg (not_not.2 hid)]
  simp only [forM_eq_error_iff, List.getElem?_zipIdx, Array.getElem?_toList, Nat.zero_add,
    Option.map_eq_some_iff]
  constructor
  · rintro ⟨c, _, ⟨n, hn, rfl⟩, hcheck, hbefore⟩
    exact ⟨c, n, hn, hcheck, fun c' hc' m hm => hbefore c' hc' (m, c') ⟨m, hm, rfl⟩⟩
  · rintro ⟨c, n, hn, hcheck, hbefore⟩
    refine ⟨c, (n, c), ⟨n, hn, rfl⟩, hcheck, ?_⟩
    rintro c' hc' _ ⟨m, hm, rfl⟩
    exact hbefore c' hc' m hm

theorem of_checkNode {n : Node α} {c : ℕ} (h : t.checkNode n c = .ok ()) :
    n.treeId = t.id ∧ (n.childOffset = 0 → n.isLeaf = true) := by
  obtain ⟨⟨htree, hchildren⟩, -⟩ := checkNode_eq_ok_iff.1 h
  refine ⟨htree, fun hoffset => ?_⟩
  by_contra hleaf
  rw [Bool.not_eq_true] at hleaf
  exact childOffset_ne_zero_iff.2 (hchildren hleaf).1 hoffset

/-- Validation accepts the trees that are consistent and within words. -/
theorem validate_eq_ok_iff_consistent : t.validate = .ok () ↔ t.Consistent ∧ t.WithinWords := by
  rw [validate_eq_ok_iff]
  constructor
  · rintro ⟨root, hroot, hid, hcheck⟩
    have hpass c n (hn : t.nodes[c]? = some n) := checkNode_eq_ok_iff.1 (hcheck c n hn)
    refine ⟨⟨?_, fun c n hn => (hpass c n hn).1⟩, fun c n hn =>
      (hpass c n hn).1.within (hpass c n hn).2⟩
    rw [root?, hroot, Option.map_some, hid]
  · rintro ⟨⟨hroot, hfits⟩, hwords⟩
    obtain ⟨root, hroot, hid⟩ := Option.map_eq_some_iff.1 hroot
    refine ⟨root, hroot, hid, fun c n hn => checkNode_eq_ok_iff.2 ⟨hfits c n hn, ?_⟩⟩
    rintro ⟨-, hleaf, -, hover⟩
    obtain ⟨hid, hword⟩ := hwords c n hn hleaf
    exact hover.elim (· hword) fun h => h.2 (isWord_double_iff.2 hid)

theorem Consistent.withinWords (h : t.Consistent) (hsize : t.size < 2 ^ 64) : t.WithinWords :=
  fun c n hn => (h.fits c n hn).within ((h.fits c n hn).not_overflows hsize)

theorem Consistent.validate_eq (h : t.Consistent) (hsize : t.size < 2 ^ 64) :
    t.validate = .ok () :=
  validate_eq_ok_iff_consistent.2 ⟨h, h.withinWords hsize⟩

/-- In a consistent tree every split points ahead, at two columns of the table. -/
theorem Consistent.points_ahead (h : t.Consistent) {c : ℕ} {n : Node α}
    (hn : t.nodes[c]? = some n) (hleaf : n.isLeaf = false) (side : Side) :
    c < side.column c n.childOffset ∧ side.column c n.childOffset < t.size := by
  obtain ⟨hpos, hchild⟩ := (h.fits c n hn).2 hleaf
  obtain ⟨m, hm, -⟩ := hchild side
  exact ⟨Side.lt_column hpos c side, (Array.getElem?_eq_some_iff.1 hm).1⟩

/-- Validation overflows at the first node that does not fit. -/
theorem validate_eq_overflow_iff (hsize : t.size < 2 ^ 64) :
    t.validate = .error .overflow ↔ t.root?.map Node.id = some 1 ∧
      ∃ c n, t.nodes[c]? = some n ∧ t.Overflows c n ∧
        ∀ c' < c, ∀ m, t.nodes[c']? = some m → t.Fits c' m := by
  by_cases hroot : t.root?.map Node.id = some 1
  · have hpass {m : Node α} {c : ℕ} : t.checkNode m c = .ok () ↔ t.Fits c m :=
      checkNode_eq_ok_iff.trans (and_iff_left_of_imp fun h => h.not_overflows hsize)
    simp only [validate_eq_error_iff hroot, checkNode_eq_overflow_iff, hpass, hroot, true_and]
  · obtain ⟨fault, hfault⟩ := exists_fault_of_unrooted hroot
    simp [hfault, hroot]

/-- Validation gives no errors but faults of the tree and overflows. -/
theorem validate_error_cases {e : Error} (h : t.validate = .error e) :
    e = .overflow ∨ ∃ fault, e = .tree fault := by
  by_cases hroot : t.root?.map Node.id = some 1
  · obtain ⟨c, n, -, hcheck, -⟩ := (validate_eq_error_iff hroot).1 h
    rcases t.checkNode_cases n c with ⟨hcase, -⟩ | ⟨hcase, -⟩ | ⟨⟨fault, hcase⟩, -⟩ <;>
      rw [hcase] at hcheck <;> cases hcheck
    · exact .inl rfl
    · exact .inr ⟨fault, rfl⟩
  · obtain ⟨fault, hfault⟩ := exists_fault_of_unrooted hroot
    rw [hfault] at h
    cases h
    exact .inr ⟨fault, rfl⟩

/-! ## The theorem -/

/-- Validation accepts the consistent tables, in which every split points ahead and no column
and no number of a child overflows.  It ends with an overflow when the first node that does
not fit overflows, and it refuses all other tables. -/
theorem validate_iff (t : Tree α) (hsize : t.size < 2 ^ 64) :
    (t.validate = .ok () ↔ t.Consistent) ∧
    (t.Consistent → t.WithinWords ∧ ∀ c n, t.nodes[c]? = some n → n.isLeaf = false →
      ∀ side : Side, c < side.column c n.childOffset ∧ side.column c n.childOffset < t.size) ∧
    (t.validate = .error .overflow ↔ t.root?.map Node.id = some 1 ∧
      ∃ c n, t.nodes[c]? = some n ∧ t.Overflows c n ∧
        ∀ c' < c, ∀ m, t.nodes[c']? = some m → t.Fits c' m) ∧
    ((∃ fault, t.validate = .error (.tree fault)) ↔
      ¬t.Consistent ∧ t.validate ≠ .error .overflow) := by
  have haccepts : t.validate = .ok () ↔ t.Consistent :=
    validate_eq_ok_iff_consistent.trans (and_iff_left_of_imp fun h => h.withinWords hsize)
  refine ⟨haccepts, fun h => ⟨h.withinWords hsize, fun c n => h.points_ahead⟩,
    validate_eq_overflow_iff hsize, ?_⟩
  rw [← haccepts]
  cases hresult : t.validate with
  | ok _ => simp
  | error e => rcases validate_error_cases hresult with rfl | ⟨fault, rfl⟩ <;> simp

/-- A root that names the last word as the column of its left child. -/
def farRoot : Tree Binary64 :=
  ⟨1, #[⟨1, 1, 0xFFFFFFFFFFFFFFFF, .scalar 0 0⟩, .leaf 2 1 0, .leaf 3 1 1]⟩

/-- A leaf as the root, and behind it a split that is its own right child but for the
overflow. -/
def selfParent : Tree Binary64 :=
  ⟨1, #[.leaf 1 1 0, .leaf 0xFFFFFFFFFFFFFFFE 1 1,
    ⟨0xFFFFFFFFFFFFFFFF, 1, 0xFFFFFFFFFFFFFFFF, .scalar 0 0⟩]⟩

/-- A split with a number so high that its children have none. -/
def highSplit : Tree Binary64 :=
  ⟨1, #[.leaf 1 1 0, ⟨0x8000000000000000, 1, 1, .scalar 0 0⟩, .leaf 0 1 1, .leaf 1 1 2]⟩

theorem validate_iff_farRoot :
    farRoot.size < 2 ^ 64 ∧ ¬farRoot.Consistent ∧ farRoot.validate = .error .overflow := by
  obtain ⟨haccepts, -, hoverflow, -⟩ := validate_iff farRoot (by decide)
  refine ⟨by decide, ?_, ?_⟩
  · rw [← haccepts]
    decide
  · exact hoverflow.2 ⟨rfl, 0, _, rfl, ⟨rfl, rfl, by decide, .inl (by decide)⟩, nofun⟩

/-- Three tables that are not consistent.  Validation refuses none of them, but ends with an
overflow of a column or of a number. -/
theorem validate_overflows :
    Error.overflow.category = "panic" ∧
    (¬farRoot.Consistent ∧ farRoot.validate = .error .overflow) ∧
    (¬selfParent.Consistent ∧ selfParent.validate = .error .overflow) ∧
    (¬highSplit.Consistent ∧ highSplit.validate = .error .overflow) := by
  have hinconsistent {t : Tree Binary64} (hsize : t.size < 2 ^ 64)
      (h : t.validate = .error .overflow) : ¬t.Consistent ∧ t.validate = .error .overflow := by
    refine ⟨fun hcons => ?_, h⟩
    rw [hcons.validate_eq hsize] at h
    cases h
  exact ⟨rfl, hinconsistent (by decide) (by decide), hinconsistent (by decide) (by decide),
    hinconsistent (by decide) (by decide)⟩

end Tree

end GradientForest
