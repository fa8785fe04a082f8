import Mathlib.Data.List.GetD
import GradientForest.Proofs.Binary64.Average
import GradientForest.Proofs.Scalar.Sorted
import GradientForest.Proofs.Training.Saved

/-!
# The starting prediction and the labels

The starting prediction is the median of the labels.  `Central` says which labels are in the
middle: one of them when their number is odd, and two otherwise.  The median is the one, or
half the sum of the two (`exists_central`).

Whatever is between the central values has at least half of the values on either side
(`Central.half_le`).  Half the sum of two finite numbers is between them unless the sum
overflows.  So the starting prediction is finite, with half of the labels on either side,
just when the sum of the central labels does not overflow (`Training.bias_central`).
-/

namespace GradientForest

open Scalar

namespace Statistics

/-! ## Central values -/

theorem exists_middle {β : Type} {s : List β} (hs : s ≠ []) :
    (∃ below v above, s = below ++ v :: above ∧ below.length = above.length) ∨
      ∃ below lower upper above, s = below ++ lower :: upper :: above ∧
        below.length = above.length := by
  have hpos : 0 < s.length := List.length_pos_iff.2 hs
  rcases Nat.even_or_odd' s.length with ⟨k, heven | hodd⟩
  · obtain ⟨k, rfl⟩ : ∃ j, k = j + 1 := ⟨k - 1, by omega⟩
    refine .inr ⟨s.take k, s[k], s[k + 1], s.drop (k + 1 + 1), ?_, by simp; omega⟩
    rw [List.getElem_cons_drop, List.getElem_cons_drop, List.take_append_drop]
  · refine .inl ⟨s.take k, s[k], s.drop (k + 1), ?_, by simp; omega⟩
    rw [List.getElem_cons_drop, List.take_append_drop]

/-- What holds of the longer part of a list holds of half of the list. -/
theorem length_le_two_mul_countP {β : Type} {xs front back : List β} {p : β → Bool}
    (hperm : xs.Perm (front ++ back)) (hlength : back.length ≤ front.length)
    (hfront : ∀ x ∈ front, p x = true) : xs.length ≤ 2 * xs.countP p := by
  rw [hperm.length_eq, hperm.countP_eq, List.length_append, List.countP_append,
    List.countP_eq_length.2 hfront]
  omega

section Central

variable {α : Type} [Scalar α]

/-- The values in the middle of a list: as many values are at or below them as at or above
them.  In a list of odd length they are the same value. -/
inductive Central (xs : List α) : α → α → Prop where
  | one {below above : List α} {v : α} : xs.Perm (below ++ v :: above) →
    below.length = above.length → (∀ x ∈ below, le x v = true) → (∀ x ∈ above, le v x = true) →
    Central xs v v
  | two {below above : List α} {lower upper : α} : xs.Perm (below ++ lower :: upper :: above) →
    below.length = above.length → (∀ x ∈ below, le x lower = true) → le lower upper = true →
    (∀ x ∈ above, le upper x = true) → Central xs lower upper

theorem Central.mem {xs : List α} {lower upper : α} (h : Central xs lower upper) :
    lower ∈ xs ∧ upper ∈ xs := by
  cases h with
  | one hperm => simp [hperm.mem_iff]
  | two hperm => simp [hperm.mem_iff]

theorem middle_of_one {below above : List α} (h : below.length = above.length) (v : α) :
    middle (below ++ v :: above) = v := by
  have hlength : (below ++ v :: above).length = 2 * below.length + 1 := by
    rw [List.length_append, List.length_cons]
    omega
  have hhalf : (2 * below.length + 1) / 2 = below.length := by omega
  rw [middle, hlength, hhalf, if_neg (by omega), List.getD_append_right _ _ _ _ (le_refl _),
    Nat.sub_self, List.getD_cons_zero]

theorem middle_of_two {below above : List α} (h : below.length = above.length) (lower upper : α) :
    middle (below ++ lower :: upper :: above) = (lower + upper) / 2 := by
  have hlength : (below ++ lower :: upper :: above).length = 2 * (below.length + 1) := by
    rw [List.length_append, List.length_cons, List.length_cons]
    omega
  have hhalf : 2 * (below.length + 1) / 2 = below.length + 1 := by omega
  rw [middle, hlength, hhalf, if_pos (by omega), Nat.add_sub_cancel,
    List.getD_append_right _ _ _ _ (le_refl _),
    List.getD_append_right _ _ _ _ (Nat.le_add_right _ 1), Nat.sub_self, Nat.add_sub_cancel_left,
    List.getD_cons_zero, List.getD_cons_succ, List.getD_cons_zero]

end Central

section Binary64

open Binary64

variable {xs : List Binary64} {lower upper : Binary64}

/-- A value between the central ones has half of the values on either side. -/
theorem Central.half_le {m : Binary64} (h : Central xs lower upper)
    (hlow : Scalar.le lower m = true) (hhigh : Scalar.le m upper = true) :
    xs.length ≤ 2 * xs.countP (fun x => Scalar.le x m) ∧
      xs.length ≤ 2 * xs.countP (fun x => Scalar.le m x) := by
  have hfront {below : List Binary64} (hbelow : ∀ x ∈ below, Scalar.le x lower = true) :
      ∀ x ∈ below ++ [lower], Scalar.le x m = true := by
    simp only [List.forall_mem_append, List.forall_mem_singleton]
    exact ⟨fun x hx => scalar_le_trans (hbelow x hx) hlow, hlow⟩
  have hback {above : List Binary64} (habove : ∀ x ∈ above, Scalar.le upper x = true) :
      ∀ x ∈ upper :: above, Scalar.le m x = true :=
    List.forall_mem_cons.2 ⟨hhigh, fun x hx => scalar_le_trans hhigh (habove x hx)⟩
  cases h with
  | @one below above _ hperm hlength hbelow habove =>
    have hsplit : xs.Perm ((below ++ [lower]) ++ above) := by
      rwa [List.append_assoc, List.singleton_append]
    refine ⟨length_le_two_mul_countP hsplit ?_ (hfront hbelow),
      length_le_two_mul_countP (hperm.trans List.perm_append_comm) ?_ (hback habove)⟩
    · rw [List.length_append]
      omega
    · rw [List.length_cons]
      omega
  | @two below above _ _ hperm hlength hbelow _ habove =>
    have hsplit : xs.Perm ((below ++ [lower]) ++ upper :: above) := by
      rwa [List.append_assoc, List.singleton_append]
    have hsame : (below ++ [lower]).length = (upper :: above).length := by
      rw [List.length_append, List.length_singleton, List.length_cons, hlength]
    exact ⟨length_le_two_mul_countP hsplit hsame.ge (hfront hbelow),
      length_le_two_mul_countP (hsplit.trans List.perm_append_comm) hsame.le (hback habove)⟩

section Defined

variable (hdefined : ∀ x ∈ xs, isNaN x = false)

include hdefined

theorem sorted_perm : (sorted xs).Perm xs := by
  rw [sorted_of_defined (List.any_eq_false.2 fun x hx => by rw [hdefined x hx]; decide)]
  exact Sorting.sort_perm _ xs

/-- Defined values are sorted in their order. -/
theorem pairwise_sorted : (sorted xs).Pairwise fun x y => Scalar.le x y = true := by
  have hcompares : Sorting.ComparesBy Scalar.lt level xs := fun x hx y hy => by
    rw [lt_iff_level]
    exact ⟨fun h => h.2.2, fun h => ⟨hdefined x hx, hdefined y hy, h⟩⟩
  have hmem {x : Binary64} : x ∈ sorted xs → isNaN x = false := fun hx =>
    hdefined x ((sorted_perm hdefined).mem_iff.1 hx)
  have hlevel : (sorted xs).Pairwise fun x y => level x ≤ level y := by
    rw [sorted_of_defined (List.any_eq_false.2 fun x hx => by rw [hdefined x hx]; decide)]
    exact Sorting.pairwise_sort hcompares
  exact hlevel.imp_of_mem fun hx hy hle => le_iff_level.2 ⟨hmem hx, hmem hy, hle⟩

/-- The median is the central value, or half the sum of the two central values. -/
theorem exists_central (hne : xs ≠ []) :
    ∃ lower upper, Central xs lower upper ∧ Scalar.le lower upper = true ∧
      median xs = if xs.length % 2 = 0 then (lower + upper) / 2 else lower := by
  have hperm := sorted_perm hdefined
  have hpairwise := pairwise_sorted hdefined
  have hmedian : median xs = middle (sorted xs) := by
    rw [median, List.isEmpty_eq_false_iff.2 hne, if_neg Bool.false_ne_true]
  have hsorted : sorted xs ≠ [] := fun h => hne (List.nil_perm.1 (h ▸ hperm))
  rw [hmedian]
  rcases exists_middle hsorted with ⟨below, v, above, hsplit, hlength⟩ |
    ⟨below, lower, upper, above, hsplit, hlength⟩
  · rw [hsplit] at hperm hpairwise ⊢
    obtain ⟨-, hfrom, hbelow⟩ := List.pairwise_append.1 hpairwise
    have hv : isNaN v = false := hdefined v (hperm.mem_iff.1 (by simp))
    have hodd : ¬ xs.length % 2 = 0 := by
      rw [← hperm.length_eq, List.length_append, List.length_cons]
      omega
    rw [middle_of_one hlength]
    exact ⟨v, v, .one hperm.symm hlength (fun x hx => hbelow x hx v List.mem_cons_self)
      (List.pairwise_cons.1 hfrom).1, le_iff_level.2 ⟨hv, hv, le_refl _⟩,
      (if_neg hodd).symm⟩
  · rw [hsplit] at hperm hpairwise ⊢
    obtain ⟨-, hfrom, hbelow⟩ := List.pairwise_append.1 hpairwise
    obtain ⟨hlower, hupper⟩ := List.pairwise_cons.1 hfrom
    have heven : xs.length % 2 = 0 := by
      rw [← hperm.length_eq, List.length_append, List.length_cons, List.length_cons]
      omega
    have hle := hlower upper List.mem_cons_self
    rw [middle_of_two hlength]
    exact ⟨lower, upper, .two hperm.symm hlength (fun x hx => hbelow x hx lower List.mem_cons_self)
      hle (List.pairwise_cons.1 hupper).1, hle, (if_pos heven).symm⟩

end Defined

end Binary64

end Statistics

namespace Training

open Binary64

/-- Where all labels are finite, the starting prediction is finite just when their number is odd
or the sum of the two central ones does not overflow, and then half of the labels are at or
below it and half at or above it.  It is the bias of the trained forest. -/
theorem bias_central (d : Dataset Binary64)
    (hfinite : ∀ y ∈ d.labels.toList, y.isFinite = true) :
    ∃ lower upper, Statistics.Central d.labels.toList lower upper ∧
      ((bias d).isFinite = true ↔ (d.numRows % 2 = 0 → (lower + upper).isFinite = true)) ∧
      ((bias d).isFinite = true →
        d.numRows ≤ 2 * d.labels.toList.countP (fun y => Scalar.le y (bias d)) ∧
        d.numRows ≤ 2 * d.labels.toList.countP (fun y => Scalar.le (bias d) y)) ∧
      ∀ s f history, Settings.train s d = .ok (f, history) → f.bias = bias d := by
  have hrank {y : Binary64} (hy : y ∈ d.labels.toList) : y.rank < infinityRank :=
    of_decide_eq_true (hfinite y hy)
  have hlength : d.labels.toList.length = d.numRows := d.labels.length_toList
  obtain ⟨lower, upper, hcentral, hle, hmedian⟩ := Statistics.exists_central
    (fun y hy => isNaN_eq_false_iff.2 (hrank hy).le)
    (List.length_pos_iff.1 (hlength ▸ d.height_pos))
  obtain ⟨hlower, hupper⟩ := hcentral.mem
  obtain ⟨hldefined, hudefined, hlevel⟩ := le_iff_level.1 hle
  change bias d = _ at hmedian
  rw [hlength] at hmedian
  have hoverflow : (bias d).isFinite = true ↔
      (d.numRows % 2 = 0 → (lower + upper).isFinite = true) := by
    rw [hmedian]
    split_ifs with heven
    · rw [isFinite_average (hrank hlower) (hrank hupper) hlevel]
      simp [heven]
    · simp [heven, hfinite lower hlower]
  have hbetween (hbias : (bias d).isFinite = true) :
      lower.level ≤ (bias d).level ∧ (bias d).level ≤ upper.level := by
    rw [hmedian]
    split_ifs with heven
    · exact average_between (hrank hlower) (hrank hupper) hlevel
        (of_decide_eq_true (hoverflow.1 hbias heven))
    · exact ⟨le_refl _, hlevel⟩
  refine ⟨lower, upper, hcentral, hoverflow, fun hbias => ?_, fun s f history => bias_of_train⟩
  have hdefined : isNaN (bias d) = false := isNaN_eq_false_iff.2 (of_decide_eq_true hbias).le
  rw [← hlength]
  exact hcentral.half_le (le_iff_level.2 ⟨hldefined, hdefined, (hbetween hbias).1⟩)
    (le_iff_level.2 ⟨hdefined, hudefined, (hbetween hbias).2⟩)

/-- Two labels far apart, with the sum zero. -/
def opposite : Dataset Binary64 := Settings.twoRows #v[0, 0] #v[Settings.huge, -Settings.huge]

theorem bias_central_opposite :
    (∀ y ∈ opposite.labels.toList, y.isFinite = true) ∧
    ∃ lower upper, Statistics.Central opposite.labels.toList lower upper ∧
      ((bias opposite).isFinite = true ↔
        (opposite.numRows % 2 = 0 → (lower + upper).isFinite = true)) ∧
      ((bias opposite).isFinite = true →
        opposite.numRows ≤
          2 * opposite.labels.toList.countP (fun y => Scalar.le y (bias opposite)) ∧
        opposite.numRows ≤
          2 * opposite.labels.toList.countP (fun y => Scalar.le (bias opposite) y)) ∧
      ∀ s f history, Settings.train s opposite = .ok (f, history) → f.bias = bias opposite :=
  ⟨by decide +kernel, bias_central opposite (by decide +kernel)⟩

/-- The sum of two huge labels overflows, and neither of them is at or above the starting
prediction. -/
theorem bias_overflows :
    let d := Settings.twoRows #v[0, 0] #v[Settings.huge, Settings.huge]
    (∀ y ∈ d.labels.toList, y.isFinite = true) ∧ (bias d).isFinite = false ∧
      d.labels.toList.countP (fun y => Scalar.le (bias d) y) = 0 := by
  decide +kernel

end Training

end GradientForest
