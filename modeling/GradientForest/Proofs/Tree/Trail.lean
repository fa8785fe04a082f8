import Mathlib.Data.PNat.Basic
import GradientForest.Tree.Walk

/-!
# The trail of a row through a tree

A walk only tells the value it ends with.  `Tree.trail` takes the same steps and
also tells the columns: the splits that the row passes and the leaf where it
ends.  A trail exists exactly when the walk succeeds, with the same value
(`Tree.evaluate_eq_trail`).

`Tree.trailFrom_leaf` and `Tree.trailFrom_split` say what one step of a trail
does in a column that is a plain number.
-/

namespace GradientForest

open Scalar

namespace Side

theorem lt_column {offset : UInt64} (hpos : 0 < offset.toNat) (c : ℕ) (side : Side) :
    c < side.column c offset := by
  cases side with
  | left => exact Nat.lt_add_of_pos_right hpos
  | right => exact Nat.lt_succ_of_le (Nat.le_add_right _ _)

/-- What a pair has on a side. -/
def pick {β : Type} (pair : β × β) : Side → β
  | .left => pair.1
  | .right => pair.2

theorem ofIndicator_eq_none {α : Type} [Scalar α] {v : α} :
    ofIndicator v = none ↔ isIndicator v = false := by
  rw [ofIndicator, isIndicator]
  cases beq v 1 with
  | true => simp
  | false => cases beq v 0 <;> simp

end Side

/-- The trail of a row: the columns of the splits that it passes, and the column
and the value of the leaf where it ends. -/
structure Trail (α : Type) where
  passed : List ℕ
  leaf : ℕ
  value : α
deriving DecidableEq

namespace Trail

variable {α : Type}

/-- The trail behind some splits. -/
def after (columns : List ℕ) (w : Trail α) : Trail α := { w with passed := columns ++ w.passed }

theorem after_after (before columns : List ℕ) (w : Trail α) :
    (w.after columns).after before = w.after (before ++ columns) := by
  simp [after]

end Trail

theorem exists_of_map_eq_ok {ε β γ : Type} {x : Except ε β} {f : β → γ} {y : γ}
    (h : x.map f = .ok y) : ∃ z, x = .ok z ∧ f z = y := by
  cases x with
  | error e => cases h
  | ok z => exact ⟨z, rfl, Except.ok.inj h⟩

/-- Only a leaf stops a row. -/
theorem NodeKind.eq_leaf_of_turn {α : Type} [Scalar α] {row : Array α} {kind : NodeKind α} {v : α}
    (h : kind.turn row = .ok (.stop v)) : kind = .leaf v := by
  cases kind with
  | leaf value =>
    cases h
    rfl
  | scalar feature threshold =>
    rw [turn] at h
    cases hvalue : featureValue row feature <;> rw [hvalue] at h <;> cases h
  | categorical feature =>
    rw [turn] at h
    cases hvalue : featureValue row feature with
    | error e =>
      rw [hvalue] at h
      cases h
    | ok x =>
      rw [hvalue] at h
      simp only [bind, Except.bind] at h
      cases hside : Side.ofIndicator x <;> rw [hside] at h <;> cases h

namespace Tree

variable {α : Type}

/-- The value of the leaf in a column. -/
def leafAt? (t : Tree α) (column : ℕ) : Option α := t.nodes[column]?.bind Node.leafValue?

theorem childColumn_ofNat {c : ℕ} {n : Node α} {side : Side} (hc : c < 2 ^ 64)
    (hchild : side.column c n.childOffset < 2 ^ 64) :
    childColumn (.ofNat c) n side = .ok (.ofNat (side.column c n.childOffset)) := by
  rw [childColumn, UInt64.toNat_ofNat_of_lt' hc]
  exact if_pos hchild

variable [Scalar α]

/-- The trail of a row from a column in the given number of steps. -/
def trailFrom (t : Tree α) (row : Array α) : ℕ → UInt64 → Except Error (Trail α)
  | 0, _ => .error (.walk (.noLeaf t.id))
  | steps + 1, column =>
    match t.nodes[column.toNat]? with
    | none => .error (.walk (.noColumn t.id column))
    | some n => do
      match ← n.kind.turn row with
      | .stop value => return ⟨[], column.toNat, value⟩
      | .to side =>
        if n.childOffset = 0 then throw (.walk (.childless n.id t.id))
        else
          let child ← childColumn column n side
          (t.trailFrom row steps child).map (Trail.after [column.toNat])

/-- The trail of a row. -/
def trail (t : Tree α) (row : Array α) : Except Error (Trail α) := t.trailFrom row (t.size + 1) 0

/-- In the column there is a scalar split, and the value of the row is neither
below its threshold nor from it on. -/
def Undecided (t : Tree α) (row : Array α) (column : ℕ) : Prop :=
  ∃ n feature threshold v, t.nodes[column]? = some n ∧ n.kind = .scalar feature threshold ∧
    row[feature.toNat]? = some v ∧ lt v threshold = false ∧ le threshold v = false

/-! ## Trails and walks -/

theorem map_value_trailFrom (t : Tree α) (row : Array α) (steps : ℕ) (column : UInt64) :
    (t.trailFrom row steps column).map Trail.value = t.walkFrom row steps column := by
  induction steps generalizing column with
  | zero => rfl
  | succ steps ih =>
    rw [trailFrom, walkFrom]
    cases t.nodes[column.toNat]? with
    | none => rfl
    | some n =>
      dsimp only
      cases n.kind.turn row with
      | error e => rfl
      | ok turn =>
        cases turn with
        | stop value => rfl
        | «to» side =>
          by_cases hoffset : n.childOffset = 0
          · simp only [bind, Except.bind, if_pos hoffset]
            rfl
          · simp only [bind, Except.bind, if_neg hoffset]
            cases childColumn column n side with
            | error e => rfl
            | ok child =>
              dsimp only
              rw [← ih]
              cases t.trailFrom row steps child with
              | error e => rfl
              | ok w => rfl

/-- A row evaluates to the value at the end of its trail. -/
theorem evaluate_eq_trail (t : Tree α) (row : Array α) :
    t.evaluate row = (t.trail row).map Trail.value :=
  (t.map_value_trailFrom row (t.size + 1) 0).symm

/-- A trail ends in the column of a leaf. -/
theorem leafAt?_of_trailFrom {t : Tree α} {row : Array α} {steps : ℕ} {column : UInt64}
    {w : Trail α} (h : t.trailFrom row steps column = .ok w) : t.leafAt? w.leaf = some w.value := by
  induction steps generalizing column w with
  | zero => cases h
  | succ steps ih =>
    rw [trailFrom] at h
    cases hnode : t.nodes[column.toNat]? with
    | none =>
      rw [hnode] at h
      cases h
    | some n =>
      rw [hnode] at h
      dsimp only at h
      cases hturn : n.kind.turn row with
      | error e =>
        rw [hturn] at h
        cases h
      | ok turn =>
        rw [hturn] at h
        cases turn with
        | stop value =>
          cases h
          rw [leafAt?, hnode, Option.bind_some, Node.leafValue?, NodeKind.eq_leaf_of_turn hturn]
        | «to» side =>
          by_cases hoffset : n.childOffset = 0
          · simp only [bind, Except.bind, if_pos hoffset] at h
            cases h
          · simp only [bind, Except.bind, if_neg hoffset] at h
            cases hchild : childColumn column n side with
            | error e =>
              rw [hchild] at h
              cases h
            | ok child =>
              rw [hchild] at h
              obtain ⟨rest, hrest, rfl⟩ := exists_of_map_eq_ok h
              exact (ih hrest : t.leafAt? rest.leaf = some rest.value)

/-- A row evaluates to the value of a leaf. -/
theorem exists_leafAt_of_evaluate {t : Tree α} {row : Array α} {v : α}
    (h : t.evaluate row = .ok v) : ∃ c, t.leafAt? c = some v := by
  rw [evaluate_eq_trail] at h
  obtain ⟨w, hw, rfl⟩ := exists_of_map_eq_ok h
  exact ⟨w.leaf, leafAt?_of_trailFrom hw⟩

/-! ## One step -/

variable {t : Tree α} {row : Array α} {c : ℕ} {n : Node α}

theorem trailFrom_leaf (hc : c < 2 ^ 64) {id : NodeId} {treeId : UInt64} {value : α}
    (hn : t.nodes[c]? = some (.leaf id treeId value)) (steps : ℕ) :
    t.trailFrom row (steps + 1) (.ofNat c) = .ok ⟨[], c, value⟩ := by
  have hnat : (UInt64.ofNat c).toNat = c := UInt64.toNat_ofNat_of_lt' hc
  rw [trailFrom, hnat, hn]
  rfl

theorem trailFrom_split (hc : c < 2 ^ 64) (hn : t.nodes[c]? = some n) {side : Side}
    (hturn : n.kind.turn row = .ok (.to side)) (hpos : 0 < n.childOffset.toNat)
    (hchild : side.column c n.childOffset < 2 ^ 64) (steps : ℕ) :
    t.trailFrom row (steps + 1) (.ofNat c) =
      (t.trailFrom row steps (.ofNat (side.column c n.childOffset))).map (Trail.after [c]) := by
  have hnat : (UInt64.ofNat c).toNat = c := UInt64.toNat_ofNat_of_lt' hc
  have hne : n.childOffset ≠ 0 := by
    intro h0
    rw [h0] at hpos
    exact Nat.lt_irrefl 0 hpos
  rw [trailFrom, hnat, hn]
  simp only [hturn, bind, Except.bind, if_neg hne, childColumn_ofNat hc hchild]

end Tree

end GradientForest
