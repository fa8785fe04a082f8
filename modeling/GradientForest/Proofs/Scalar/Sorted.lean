import Mathlib.Data.List.Pairwise
import Mathlib.Order.Lattice
import GradientForest.Scalar.Sorting

/-!
# Sorted lists

Insertion keeps a list in order when the comparison is that of a key, and so the sorted
list is in order (`pairwise_sort`).  The comparison has to agree with the key on the
elements of the list only.

Elements with one key may come in any order.  But the keys of the sorted list are the
same however the list was ordered before (`map_sort_eq_of_perm`).  Sorting commutes with
a map whenever the comparison looks through it (`sort_map`).
-/

namespace GradientForest.Sorting

variable {β κ : Type} [LinearOrder κ] {before : β → β → Bool} {key : β → κ}

/-- The comparison compares the keys of some elements. -/
def ComparesBy (before : β → β → Bool) (key : β → κ) (xs : List β) : Prop :=
  ∀ x ∈ xs, ∀ y ∈ xs, before x y = true ↔ key x < key y

theorem ComparesBy.mono {xs ys : List β} (h : ComparesBy before key ys)
    (hsub : ∀ x ∈ xs, x ∈ ys) : ComparesBy before key xs := fun x hx y hy =>
  h x (hsub x hx) y (hsub y hy)

/-- Insertion into a list in opposite order. -/
theorem pairwise_insertLast {x : β} {ys : List β} (h : ComparesBy before key (x :: ys))
    (hys : ys.Pairwise fun a b => key b ≤ key a) :
    (insertLast before x ys).Pairwise fun a b => key b ≤ key a := by
  induction ys with
  | nil => exact List.pairwise_singleton _ x
  | cons y ys ih =>
    obtain ⟨hy, hys'⟩ := List.pairwise_cons.1 hys
    have hxy := h x List.mem_cons_self y (List.mem_cons_of_mem _ List.mem_cons_self)
    rw [insertLast]
    split_ifs with hbefore
    · have htail : ComparesBy before key (x :: ys) := h.mono fun z hz => by
        rcases List.mem_cons.1 hz with rfl | hz
        · exact List.mem_cons_self
        · exact List.mem_cons_of_mem _ (List.mem_cons_of_mem _ hz)
      refine List.pairwise_cons.2 ⟨fun z hz => ?_, ih htail hys'⟩
      rcases List.mem_cons.1 ((insertLast_perm before x ys).mem_iff.1 hz) with rfl | hz
      · exact le_of_lt (hxy.1 hbefore)
      · exact hy z hz
    · have hle : key y ≤ key x := not_lt.1 fun hlt => hbefore (hxy.2 hlt)
      refine List.pairwise_cons.2 ⟨fun z hz => ?_, hys⟩
      rcases List.mem_cons.1 hz with rfl | hz
      · exact hle
      · exact le_trans (hy z hz) hle

theorem pairwise_sortOnto {acc xs : List β} (h : ComparesBy before key (acc ++ xs))
    (hacc : acc.Pairwise fun a b => key b ≤ key a) :
    (sortOnto before acc xs).Pairwise fun a b => key b ≤ key a := by
  induction xs generalizing acc with
  | nil => exact hacc
  | cons x xs ih =>
    have hperm : (x :: acc ++ xs).Perm (acc ++ x :: xs) := List.perm_middle.symm
    have hinsert := (insertLast_perm before x acc).append_right xs
    refine ih (h.mono fun z hz => (hinsert.trans hperm).mem_iff.1 hz) (pairwise_insertLast ?_ hacc)
    exact h.mono fun z hz => hperm.mem_iff.1 (List.mem_append_left _ hz)

/-- A sorted list is in the order of the keys. -/
theorem pairwise_sort {xs : List β} (h : ComparesBy before key xs) :
    (sort before xs).Pairwise fun a b => key a ≤ key b :=
  List.pairwise_reverse.2 (pairwise_sortOnto h List.Pairwise.nil)

/-! ## Sorting by a view -/

theorem insertLast_map {γ : Type} (f : γ → β) (before : β → β → Bool) (x : γ) (ys : List γ) :
    insertLast before (f x) (ys.map f) =
      (insertLast (fun a b => before (f a) (f b)) x ys).map f := by
  induction ys with
  | nil => rfl
  | cons y ys ih =>
    rw [List.map_cons, insertLast, insertLast, ih]
    split_ifs <;> rfl

theorem sortOnto_map {γ : Type} (f : γ → β) (before : β → β → Bool) (acc xs : List γ) :
    sortOnto before (acc.map f) (xs.map f) =
      (sortOnto (fun a b => before (f a) (f b)) acc xs).map f := by
  induction xs generalizing acc with
  | nil => rfl
  | cons x xs ih => rw [List.map_cons, sortOnto, sortOnto, insertLast_map, ih]

/-- Views are sorted as what they are views of. -/
theorem sort_map {γ : Type} (f : γ → β) (before : β → β → Bool) (xs : List γ) :
    sort before (xs.map f) = (sort (fun a b => before (f a) (f b)) xs).map f := by
  rw [sort, sort, ← List.map_nil, sortOnto_map, List.map_reverse]

/-! ## One order for all lists of the same elements -/

/-- The keys of a sorted list do not depend on the order that it had. -/
theorem map_sort_eq_of_perm {xs ys : List β} (h : xs.Perm ys) (hys : ComparesBy before key ys) :
    (sort before xs).map key = (sort before ys).map key := by
  have hxs : ComparesBy before key xs := hys.mono fun _ hx => h.mem_iff.1 hx
  have hsorted : (sort before xs).Perm (sort before ys) :=
    ((sort_perm before xs).trans h).trans (sort_perm before ys).symm
  exact List.Perm.eq_of_pairwise (fun _ _ _ _ => le_antisymm)
    (List.pairwise_map.2 (pairwise_sort hxs)) (List.pairwise_map.2 (pairwise_sort hys))
    (hsorted.map key)

end GradientForest.Sorting
