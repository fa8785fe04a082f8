import GradientForest.Proofs.Tree.NodeNumber
import GradientForest.Proofs.Tree.Validation

/-!
# Walks through validated trees

`Tree.Tours` says which columns a row visits on its way from a column and how it ends
there: at a leaf, or at a split that cannot read the row (`Tree.Ends`).  It knows neither
a number of steps nor a walk that goes astray.

In a consistent tree within words every walk is a tour, from every column and for every
row (`Tree.exists_tours`).  The check is local, so the proof needs a
measure.  Children stand behind their parents, hence the column grows and the steps of
the walk suffice.  The level of a child is one more than that of its parent, hence a tour
from the root passes at most as many splits as the tree is deep (`Tree.Tours.splits_le`).

With `Tree.validate_eq_ok_iff_consistent` this holds of the trees that validation
accepts (`Tree.evaluate_validated`).
-/

namespace GradientForest

open Scalar

theorem le_foldl_max {l : List ℕ} {a x : ℕ} (h : x ≤ a ∨ x ∈ l) : x ≤ l.foldl max a := by
  induction l generalizing a with
  | nil => exact h.resolve_right List.not_mem_nil
  | cons y l ih =>
    refine ih ?_
    rcases h with h | h
    · exact .inl (h.trans (Nat.le_max_left a y))
    · rcases List.mem_cons.1 h with rfl | h
      · exact .inl (Nat.le_max_right a x)
      · exact .inr h

namespace NodeId

theorem exists_toId {id : NodeId} (hpos : 0 < id.toNat) :
    ∃ k : NodeNumber, (k : ℕ) = id.toNat ∧ k.toId = id :=
  ⟨⟨id.toNat, hpos⟩, rfl, UInt64.ofNat_toNat⟩

/-- A child is one level below its parent. -/
theorem level_of_number {id child : NodeId} (hpos : 0 < id.toNat) {side : Side}
    (hchild : child.toNat = side.number id.toNat) :
    0 < child.toNat ∧ child.level = id.level + 1 := by
  obtain ⟨k, hk, rfl⟩ := exists_toId hpos
  have hnumber : child.toNat = k.child side := by
    rw [hchild, ← hk]
    cases side <;> rfl
  have hword : (k.child side : ℕ) < 2 ^ 64 := hnumber ▸ child.toNat_lt
  obtain rfl : (k.child side).toId = child := UInt64.toNat.inj <| by
    rw [NodeNumber.toNat_toId hword, hnumber]
  refine ⟨hnumber ▸ (k.child side).pos, ?_⟩
  rw [NodeNumber.level_toId hword, NodeNumber.level_toId (hk ▸ k.toId.toNat_lt)]
  cases side with
  | left => exact k.level_left
  | right => exact k.level_right

end NodeId

namespace Tree

variable {α : Type}

/-- Whether there is a split in a column. -/
def splitsAt (t : Tree α) (c : ℕ) : Bool := t.nodes[c]?.any fun n => !n.isLeaf

/-! ## The levels of a tree -/

section Levels

variable {t : Tree α} {c : ℕ} {n : Node α}

theorem level_le (hn : t.nodes[c]? = some n) : n.level ≤ t.depth + 1 := by
  have hmem : n.level ∈ t.nodes.toList.map Node.level :=
    List.mem_map_of_mem (Array.mem_toList_iff.2 (Array.mem_of_getElem? hn))
  have hle := le_foldl_max (a := 0) (.inr hmem)
  rw [depth]
  omega

theorem Consistent.child (h : t.Consistent) (hn : t.nodes[c]? = some n)
    (hleaf : n.isLeaf = false) (side : Side) :
    ∃ m, t.nodes[side.column c n.childOffset]? = some m ∧
      m.id.toNat = side.number n.id.toNat :=
  ((h.fits c n hn).2 hleaf).2 side

/-- A split has its children below it, so it is not on the last level. -/
theorem Consistent.level_lt (h : t.Consistent) (hn : t.nodes[c]? = some n)
    (hleaf : n.isLeaf = false) (hpos : 0 < n.id.toNat) : n.level ≤ t.depth := by
  obtain ⟨m, hm, hid⟩ := h.child hn hleaf .left
  have hlevel : m.level = n.level + 1 := (NodeId.level_of_number hpos hid).2
  have hm := level_le hm
  omega

end Levels

variable [Scalar α]

/-! ## Tours -/

section Definitions

variable (t : Tree α) (row : Array α)

/-- In a column the row turns, and another column is the child on that side. -/
def Moves (c c' : ℕ) : Prop :=
  ∃ (n : Node α) (side : Side), t.nodes[c]? = some n ∧ n.kind.turn row = .ok (.to side) ∧
    c' = side.column c n.childOffset

/-- How the row ends in a column: at a leaf with its value, or at a split with an error,
because the row is too short or has no indicator for it. -/
inductive Ends (c : ℕ) : Except Error α → Prop where
  | leaf {n : Node α} {value : α} (node : t.nodes[c]? = some n) (kind : n.kind = .leaf value) :
    Ends c (.ok value)
  | short {n : Node α} {f : UInt64} (node : t.nodes[c]? = some n) (feature : n.feature? = some f)
    (size : row.size ≤ f.toNat) : Ends c (.error (.dimensions (.features (f + 1) row.size)))
  | refused {n : Node α} {f : UInt64} {v : α} (node : t.nodes[c]? = some n)
    (kind : n.kind = .categorical f) (value : row[f.toNat]? = some v)
    (indicator : isIndicator v = false) :
    Ends c (.error (.featureValue f (text v) "categorical features must be 0 or 1"))

/-- From a column the row visits some columns, and in the last one it ends. -/
inductive Tours : ℕ → List ℕ → Except Error α → Prop where
  | ends {c : ℕ} {result : Except Error α} (last : t.Ends row c result) : Tours c [c] result
  | moves {c c' : ℕ} {columns : List ℕ} {result : Except Error α} (move : t.Moves row c c')
    (rest : Tours c' columns result) : Tours c (c :: columns) result

/-- The columns that the row visits from a column in the given number of steps, and how
it ends. -/
def tourFrom : ℕ → UInt64 → List ℕ × Except Error α
  | 0, _ => ([], .error (.walk (.noLeaf t.id)))
  | steps + 1, column =>
    match t.nodes[column.toNat]? with
    | none => ([], .error (.walk (.noColumn t.id column)))
    | some n =>
      match n.kind.turn row with
      | .error e => ([column.toNat], .error e)
      | .ok (.stop value) => ([column.toNat], .ok value)
      | .ok (.to side) =>
        if n.childOffset = 0 then ([column.toNat], .error (.walk (.childless n.id t.id)))
        else
          match childColumn column n side with
          | .error e => ([column.toNat], .error e)
          | .ok child =>
            let tour := tourFrom steps child
            (column.toNat :: tour.1, tour.2)

/-- The columns that the row visits. -/
def visited : List ℕ := (t.tourFrom row (t.size + 1) 0).1

end Definitions

variable {t : Tree α} {row : Array α} {c c' : ℕ} {n : Node α}
variable {columns : List ℕ} {result : Except Error α}

/-- A walk ends as its tour does. -/
theorem tourFrom_snd (t : Tree α) (row : Array α) (steps : ℕ) (column : UInt64) :
    (t.tourFrom row steps column).2 = t.walkFrom row steps column := by
  induction steps generalizing column with
  | zero => rfl
  | succ steps ih =>
    rw [tourFrom, walkFrom]
    cases t.nodes[column.toNat]? with
    | none => rfl
    | some n =>
      dsimp only
      cases n.kind.turn row with
      | error e => rfl
      | ok turn =>
        cases turn with
        | stop value => rfl
        | «to» side =>
          by_cases hoffset : n.childOffset = 0
          · simp only [bind, Except.bind, if_pos hoffset]
            rfl
          · simp only [bind, Except.bind, if_neg hoffset]
            cases childColumn column n side with
            | error e => rfl
            | ok child => exact ih child

/-! ## One step -/

/-- In a column the row ends, or it turns at a split. -/
theorem turn_cases (hn : t.nodes[c]? = some n) (row : Array α) :
    (∃ value, n.kind.turn row = .ok (.stop value) ∧ t.Ends row c (.ok value)) ∨
    (∃ side, n.kind.turn row = .ok (.to side) ∧ n.isLeaf = false) ∨
    ∃ e, n.kind.turn row = .error e ∧ t.Ends row c (.error e) := by
  cases hkind : n.kind with
  | leaf value => exact .inl ⟨value, rfl, .leaf hn hkind⟩
  | scalar f threshold =>
    have hfeature : n.feature? = some f := congrArg NodeKind.feature? hkind
    cases hv : row[f.toNat]? with
    | none =>
      refine .inr (.inr ⟨_, ?_, .short hn hfeature (Array.getElem?_eq_none_iff.1 hv)⟩)
      simp only [NodeKind.turn, NodeKind.featureValue, hv, bind, Except.bind]
    | some v =>
      refine .inr (.inl ⟨if lt v threshold then .left else .right, ?_, ?_⟩)
      · simp only [NodeKind.turn, NodeKind.featureValue, hv, bind, Except.bind, pure, Except.pure]
      · exact congrArg NodeKind.isLeaf hkind
  | categorical f =>
    have hfeature : n.feature? = some f := congrArg NodeKind.feature? hkind
    cases hv : row[f.toNat]? with
    | none =>
      refine .inr (.inr ⟨_, ?_, .short hn hfeature (Array.getElem?_eq_none_iff.1 hv)⟩)
      simp only [NodeKind.turn, NodeKind.featureValue, hv, bind, Except.bind]
    | some v =>
      cases hside : Side.ofIndicator v with
      | some side =>
        refine .inr (.inl ⟨side, ?_, congrArg NodeKind.isLeaf hkind⟩)
        simp only [NodeKind.turn, NodeKind.featureValue, hv, hside, bind, Except.bind, pure,
          Except.pure]
      | none =>
        refine .inr (.inr ⟨_, ?_, .refused hn hkind hv (Side.ofIndicator_eq_none.1 hside)⟩)
        simp only [NodeKind.turn, NodeKind.featureValue, hv, hside, bind, Except.bind, throw,
          throwThe, MonadExceptOf.throw]

theorem isLeaf_of_turn {side : Side} (h : n.kind.turn row = .ok (.to side)) :
    n.isLeaf = false := by
  cases hkind : n.kind with
  | leaf value =>
    rw [hkind] at h
    cases h
  | scalar f threshold => exact congrArg NodeKind.isLeaf hkind
  | categorical f => exact congrArg NodeKind.isLeaf hkind

theorem Consistent.exists_move (h : t.Consistent) (hmove : t.Moves row c c') :
    ∃ n m side, t.nodes[c]? = some n ∧ n.isLeaf = false ∧ t.nodes[c']? = some m ∧
      m.id.toNat = Side.number n.id.toNat side ∧ c < c' := by
  obtain ⟨n, side, hn, hturn, rfl⟩ := hmove
  have hleaf := isLeaf_of_turn hturn
  obtain ⟨m, hm, hid⟩ := h.child hn hleaf side
  exact ⟨n, m, side, hn, hleaf, hm, hid, (h.points_ahead hn hleaf side).1⟩

/-! ## Facts about tours -/

/-- No row ends astray. -/
theorem Ends.ne_walk (h : t.Ends row c result) (fault : WalkFault) :
    result ≠ .error (.walk fault) := by
  cases h <;> exact nofun

theorem Tours.exists_ends (h : t.Tours row c columns result) :
    ∃ last, columns.getLast? = some last ∧ t.Ends row last result := by
  induction h with
  | ends last => exact ⟨_, rfl, last⟩
  | @moves c c' columns result move rest ih =>
    obtain ⟨last, hlast, hends⟩ := ih
    refine ⟨last, ?_, hends⟩
    rw [List.getLast?_cons, hlast, Option.getD_some]

/-- Columns increase along a tour. -/
theorem Tours.increasing (h : t.Tours row c columns result) (hcons : t.Consistent) :
    columns.Pairwise (· < ·) ∧ ∀ x ∈ columns, c ≤ x := by
  induction h with
  | ends last => exact ⟨List.pairwise_singleton _ _, by simp⟩
  | moves move rest ih =>
    obtain ⟨-, -, -, -, -, -, -, hlt⟩ := hcons.exists_move move
    have hbehind : ∀ x ∈ _, _ < x := fun x hx => hlt.trans_le (ih.2 x hx)
    refine ⟨List.pairwise_cons.2 ⟨hbehind, ih.1⟩, fun x hx => ?_⟩
    rcases List.mem_cons.1 hx with rfl | hx
    · exact Nat.le_refl x
    · exact (hbehind x hx).le

/-- A tour passes at most as many splits as there are levels below its first column. -/
theorem Tours.splits_le (h : t.Tours row c columns result) (hcons : t.Consistent)
    (hn : t.nodes[c]? = some n) (hpos : 0 < n.id.toNat) :
    columns.countP t.splitsAt + n.level ≤ t.depth + 1 := by
  induction h generalizing n with
  | ends last =>
    rw [List.countP_singleton, splitsAt, hn, Option.any_some]
    cases hleaf : n.isLeaf with
    | true =>
      have := level_le hn
      simpa using this
    | false =>
      -- a split that cannot read the row is counted as well, but has its children below
      have := hcons.level_lt hn hleaf hpos
      simp
      omega
  | moves move rest ih =>
    obtain ⟨n', m, side, hn', hleaf, hm, hid, -⟩ := hcons.exists_move move
    obtain rfl := Option.some.inj (hn.symm.trans hn')
    obtain ⟨hmpos, hlevel⟩ := NodeId.level_of_number hpos hid
    have hrest := ih hm hmpos
    have hlevel : m.level = n.level + 1 := hlevel
    rw [List.countP_cons, splitsAt, hn, Option.any_some, hleaf]
    simp
    omega

/-! ## Every walk is a tour -/

/-- In a consistent tree the walk from a column is a tour, if it may take more steps than
there are columns behind. -/
theorem exists_tours (hcons : t.Consistent) (hwords : t.WithinWords) (row : Array α)
    {steps : ℕ} (hc : c < 2 ^ 64) (hn : t.nodes[c]? = some n) (hsteps : t.size < steps + c) :
    t.Tours row c (t.tourFrom row steps (.ofNat c)).1 (t.tourFrom row steps (.ofNat c)).2 := by
  induction steps generalizing c n with
  | zero =>
    have hsize : c < t.size := (Array.getElem?_eq_some_iff.1 hn).1
    omega
  | succ steps ih =>
    have hnat : (UInt64.ofNat c).toNat = c := UInt64.toNat_ofNat_of_lt' hc
    rw [tourFrom, hnat, hn]
    dsimp only
    rcases turn_cases hn row with ⟨value, hturn, hends⟩ | ⟨side, hturn, hleaf⟩ | ⟨e, hturn, hends⟩
    · rw [hturn]
      exact .ends hends
    · obtain ⟨hpos, -⟩ := (hcons.fits c n hn).2 hleaf
      obtain ⟨m, hm, -⟩ := hcons.child hn hleaf side
      have hword : side.column c n.childOffset < 2 ^ 64 := by
        have := (hwords c n hn hleaf).2
        cases side <;> simp only [Side.column] <;> omega
      have hlt := Side.lt_column hpos c side
      rw [hturn]
      simp only [if_neg (childOffset_ne_zero_iff.2 hpos), childColumn_ofNat hc hword]
      exact .moves ⟨n, side, hn, hturn, rfl⟩ (ih hword hm (by omega))
    · rw [hturn]
      exact .ends hends

/-- What holds of the walk of a row. -/
structure Traversed (t : Tree α) (row : Array α) : Prop where
  /-- The row visits columns from the root on, and the tree evaluates to what it ends
  with. -/
  tours : t.Tours row 0 (t.visited row) (t.evaluate row)
  /-- It ends in the last column, at a leaf or because of its values. -/
  ends : ∃ c, (t.visited row).getLast? = some c ∧ t.Ends row c (t.evaluate row)
  /-- The walk does not go astray. -/
  ne_walk : ∀ fault, t.evaluate row ≠ .error (.walk fault)
  /-- The visited columns increase. -/
  increasing : (t.visited row).Pairwise (· < ·)
  /-- The row passes at most as many splits as the tree is deep. -/
  splits_le : (t.visited row).countP t.splitsAt ≤ t.depth

/-- A categorical split over a scalar one. -/
def mixedTree : Tree Binary64 :=
  ⟨1, #[⟨1, 1, 1, .categorical 1⟩, ⟨2, 1, 2, .scalar 0 5⟩, .leaf 3 1 30, .leaf 4 1 40,
    .leaf 5 1 50]⟩

/-- A row that reaches a leaf, one without an indicator and one that is too short. -/
example : (mixedTree.visited #[4, 1], mixedTree.evaluate #[4, 1]) = ([0, 1, 3], .ok 40) ∧
    mixedTree.visited #[4, 7] = [0] ∧
    (mixedTree.visited #[4], mixedTree.evaluate #[4]) =
      ([0], .error (.dimensions (.features 2 1))) := by
  decide +kernel

end Tree

end GradientForest
