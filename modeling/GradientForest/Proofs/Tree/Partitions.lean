import Mathlib.Logic.Relation
import GradientForest.Proofs.Growth.Routing

/-!
# Runs of partitions

A run starts with one mask, and each of its steps replaces one of the current masks by the
two that a partition makes of it.  `Partition.routed` says what a partition does to one row.
An active row becomes active on one side and excluded on the other, or not applicable on
both, and every other row stays what it is.

So no row is lost and none is active twice.  A row that is active at the start is active in
exactly one of the current masks, or it is active in none of them and not applicable in one
(`Accounted`, kept by `Step.accounted`).  `run_accounts` says this of every run, and that the
other rows never change.
-/

namespace GradientForest

open Scalar

namespace Mask

/-! ## Partitions -/

section Steps

variable (α : Type) [Scalar α]

/-- The masks of the two sides that a partition makes of a mask. -/
inductive Partition (m : Mask) : Mask → Mask → Prop where
  | scalar (column : Array α) (threshold : α) (size : column.size = m.size) :
    Partition m (m.partitionScalar column threshold).1 (m.partitionScalar column threshold).2
  | categorical (column : Array α) (size : column.size = m.size) :
    Partition m (m.partitionCategorical column).1 (m.partitionCategorical column).2

/-- One of the masks is replaced by the masks of its two sides. -/
inductive Step : List Mask → List Mask → Prop where
  | split {before after : List Mask} {m left right : Mask} : Partition α m left right →
    Step (before ++ m :: after) (before ++ left :: right :: after)

/-- The masks that a run of partitions makes of a mask. -/
abbrev Run (start : Mask) (masks : List Mask) : Prop :=
  Relation.ReflTransGen (Step α) [start] masks

/-- A mask that partitions make of another one. -/
inductive Derived (m : Mask) : Mask → Prop where
  | self : Derived m m
  | left {m' left right : Mask} : Derived m m' → Partition α m' left right → Derived m left
  | right {m' left right : Mask} : Derived m m' → Partition α m' left right → Derived m right

end Steps

/-- What a partition makes of the membership of one row. -/
inductive Routed : Option Membership → Option Membership → Option Membership → Prop where
  | left : Routed (some .active) (some .active) (some .excluded)
  | right : Routed (some .active) (some .excluded) (some .active)
  | neither : Routed (some .active) (some .notApplicable) (some .notApplicable)
  | inactive {b : Option Membership} : b ≠ some .active → Routed b b b

variable {α : Type}

theorem Routed.route (b : Membership) (side : Option Side) :
    Routed (some b) (some (b.route side).1) (some (b.route side).2) := by
  cases b with
  | active =>
    cases side with
    | none => exact .neither
    | some side =>
      cases side with
      | left => exact .left
      | right => exact .right
  | excluded => exact .inactive (by decide)
  | notApplicable => exact .inactive (by decide)

theorem Routed.eq_of_ne_active {b l r : Option Membership} (h : Routed b l r)
    (hb : b ≠ some .active) : l = b ∧ r = b := by
  cases h with
  | inactive => exact ⟨rfl, rfl⟩
  | left => exact absurd rfl hb
  | right => exact absurd rfl hb
  | neither => exact absurd rfl hb

theorem routed_partitionBy {m : Mask} {sideOf : α → Option Side} {column : Array α}
    (hsize : column.size = m.size) (i : ℕ) :
    Routed m.rows[i]? (m.partitionBy sideOf column).1.rows[i]?
      (m.partitionBy sideOf column).2.rows[i]? := by
  cases hb : m.rows[i]? with
  | none =>
    have hsides : (m.partitionBy sideOf column).1.rows[i]? = none ∧
        (m.partitionBy sideOf column).2.rows[i]? = none := by
      simp [partitionBy, Array.getElem?_zipWith, hb]
    rw [hsides.1, hsides.2]
    exact .inactive (by decide)
  | some b =>
    have hi : i < column.size := hsize ▸ (Array.getElem?_eq_some_iff.1 hb).1
    have hv : column[i]? = some column[i] := Array.getElem?_eq_getElem hi
    have hside (side : Side) : (side.pick (m.partitionBy sideOf column)).rows[i]? =
        some (side.pick (b.route (sideOf column[i]))) := by
      rw [getElem?_partitionBy hv, hb, Option.map_some]
    rw [show (m.partitionBy sideOf column).1.rows[i]? = _ from hside .left,
      show (m.partitionBy sideOf column).2.rows[i]? = _ from hside .right]
    exact .route _ _

variable [Scalar α] {m m' left right : Mask} {masks masks' : List Mask} {i : ℕ}

theorem Partition.routed (h : Partition α m left right) (i : ℕ) :
    Routed m.rows[i]? left.rows[i]? right.rows[i]? := by
  cases h with
  | scalar column threshold size => exact routed_partitionBy size i
  | categorical column size => exact routed_partitionBy size i

/-! ## Rows that are not active -/

/-- A row that is not active stays what it is on both sides. -/
theorem Partition.rows_eq (h : Partition α m left right) (hm : m.rows[i]? ≠ some .active) :
    left.rows[i]? = m.rows[i]? ∧ right.rows[i]? = m.rows[i]? :=
  (h.routed i).eq_of_ne_active hm

theorem rows_of_derived (h : Derived α m m') (hm : m.rows[i]? ≠ some .active) :
    m'.rows[i]? = m.rows[i]? := by
  induction h with
  | self => rfl
  | left _ hpartition ih => rw [(hpartition.rows_eq (ih ▸ hm)).1, ih]
  | right _ hpartition ih => rw [(hpartition.rows_eq (ih ▸ hm)).2, ih]

/-- All masks of a later moment are derived from those of an earlier one. -/
theorem exists_derived (h : Relation.ReflTransGen (Step α) masks masks') :
    ∀ m' ∈ masks', ∃ m ∈ masks, Derived α m m' := by
  induction h with
  | refl => exact fun m' hm' => ⟨m', hm', .self⟩
  | tail _ hstep ih =>
    cases hstep with
    | split hpartition =>
      simp only [List.forall_mem_append, List.forall_mem_cons] at ih ⊢
      obtain ⟨hbefore, ⟨m, hm, hderived⟩, hafter⟩ := ih
      exact ⟨hbefore, ⟨m, hm, hderived.left hpartition⟩, ⟨m, hm, hderived.right hpartition⟩,
        hafter⟩

/-! ## Rows that are active -/

/-- A row is active in exactly one of the masks, or it is active in none and not applicable in
one. -/
def Accounted (i : ℕ) (masks : List Mask) : Prop :=
  masks.countP (fun m => m.isActive i) = 1 ∨
    masks.countP (fun m => m.isActive i) = 0 ∧ ∃ m ∈ masks, m.rows[i]? = some .notApplicable

theorem accounted_iff_of_perm (h : masks.Perm masks') : Accounted i masks ↔ Accounted i masks' := by
  simp only [Accounted, h.countP_eq, h.mem_iff]

theorem Step.accounted (h : Step α masks masks') (hrow : Accounted i masks) :
    Accounted i masks' := by
  cases h with
  | @split before after m left right hpartition =>
    have hrouted := hpartition.routed i
    have hperm : (before ++ left :: right :: after).Perm (left :: right :: (before ++ after)) :=
      List.perm_middle.trans (List.perm_middle.cons left)
    rw [accounted_iff_of_perm List.perm_middle] at hrow
    rw [accounted_iff_of_perm hperm]
    simp only [Accounted, isActive, List.countP_cons, List.exists_mem_cons_iff] at hrow ⊢
    generalize m.rows[i]? = b at hrow hrouted
    generalize left.rows[i]? = l at hrouted ⊢
    generalize right.rows[i]? = r at hrouted ⊢
    generalize (before ++ after).countP _ = others at hrow ⊢
    cases hrouted with
    | left => simpa using hrow
    | right => simpa using hrow
    | neither => exact .inr (by simpa using hrow)
    | inactive hb => simpa [hb] using hrow

theorem accounted_of_run {start : Mask} (h : Run α start masks)
    (hstart : start.isActive i = true) : Accounted i masks := by
  induction h with
  | refl => exact .inl (by rw [List.countP_singleton, if_pos hstart])
  | tail _ hstep ih => exact hstep.accounted ih

/-- Through every run of partitions, a row that is active at the start is active in exactly one
mask, or in none and not applicable in one.  The other rows keep their membership in all masks.
A row that is not applicable in a mask is so in all masks that are derived from it. -/
theorem run_accounts {start : Mask} (h : Run α start masks) (i : ℕ) :
    (start.isActive i = true →
      masks.countP (fun m => m.isActive i) = 1 ∨
      masks.countP (fun m => m.isActive i) = 0 ∧ ∃ m ∈ masks, m.rows[i]? = some .notApplicable) ∧
    (start.isActive i = false → ∀ m ∈ masks, m.rows[i]? = start.rows[i]?) ∧
    ∀ m ∈ masks, m.rows[i]? = some .notApplicable →
      ∀ m', Derived α m m' → m'.rows[i]? = some .notApplicable := by
  refine ⟨accounted_of_run h, fun hstart m hm => ?_, fun m _ hm m' hderived => ?_⟩
  · obtain ⟨m', hm', hderived⟩ := exists_derived h m hm
    rw [List.mem_singleton.1 hm'] at hderived
    exact rows_of_derived hderived (of_decide_eq_false hstart)
  · rw [rows_of_derived hderived (by rw [hm]; decide), hm]

/-- Rows of all three memberships. -/
def mixedMask : Mask := ⟨#[.active, .excluded, .notApplicable, .active]⟩

/-- A partition that leaves out the first row. -/
def mixedSides : Mask × Mask :=
  mixedMask.partitionScalar (#[Binary64.undefined false, 0, 0, 2] : Array Binary64) 1

/-- A partition of the right side. -/
def mixedRightSides : Mask × Mask :=
  mixedSides.2.partitionCategorical (#[1, 1, 1, 1] : Array Binary64)

theorem run_accounts_mixedMask :
    Run Binary64 mixedMask [mixedSides.1, mixedRightSides.1, mixedRightSides.2] ∧
    (let masks := [mixedSides.1, mixedRightSides.1, mixedRightSides.2]
    (mixedMask.isActive 0 = true →
      masks.countP (fun m => m.isActive 0) = 1 ∨
      masks.countP (fun m => m.isActive 0) = 0 ∧ ∃ m ∈ masks, m.rows[0]? = some .notApplicable) ∧
    (mixedMask.isActive 0 = false → ∀ m ∈ masks, m.rows[0]? = mixedMask.rows[0]?) ∧
    ∀ m ∈ masks, m.rows[0]? = some .notApplicable →
      ∀ m', Derived Binary64 m m' → m'.rows[0]? = some .notApplicable) := by
  have hfirst : Step Binary64 [mixedMask] [mixedSides.1, mixedSides.2] :=
    @Step.split _ _ [] [] _ _ _ (.scalar _ _ (by decide +kernel))
  have hsecond : Step Binary64 [mixedSides.1, mixedSides.2]
      [mixedSides.1, mixedRightSides.1, mixedRightSides.2] :=
    @Step.split _ _ [mixedSides.1] [] _ _ _ (.categorical _ (by decide +kernel))
  have hrun : Run Binary64 mixedMask [mixedSides.1, mixedRightSides.1, mixedRightSides.2] :=
    .tail (.single hfirst) hsecond
  exact ⟨hrun, run_accounts hrun 0⟩

/-- The row that is left out, and the one that goes right and then left. -/
example : [mixedSides.1, mixedRightSides.1, mixedRightSides.2].map Mask.rows =
    [#[.notApplicable, .excluded, .notApplicable, .excluded],
      #[.notApplicable, .excluded, .notApplicable, .active],
      #[.notApplicable, .excluded, .notApplicable, .excluded]] := by decide +kernel

end Mask

end GradientForest
