import Mathlib.Algebra.BigOperators.Group.List.Basic
import Mathlib.Algebra.BigOperators.Ring.List
import Mathlib.Algebra.Order.Field.Rat
import Mathlib.Algebra.Order.BigOperators.Group.List
import Mathlib.Data.List.ProdSigma
import Mathlib.Tactic.FieldSimp
import Mathlib.Tactic.LinearCombination
import Mathlib.Tactic.NormNum
import Mathlib.Tactic.Ring
import GradientForest.Forest.Metrics
import GradientForest.Proofs.Binary64.Levels
import GradientForest.Proofs.Scalar.Sorted

/-!
# The rank sum and the pairs behind it

The area under the curve is computed from the ranks of the positives.  With exact ranks it
is the share of the pairs of a positive and a negative in which the positive has the higher
score, and a pair with equal scores counts one half (`Metrics.auc_pairwise`).

Scores are taken to meet each other.  `outcome` is what a score gets from a meeting, 1 for
being higher and one half for being equal, and `tally` adds up what the scores of one list
get from those of another.  The average rank of a score is then its tally against all
scores and one half more (`rankSum_eq`).  Two scores that meet get 1 together, so what the
positives get from each other depends on their number only (`tally_self`).  This is what
the formula takes off the rank sum, and the tally against the negatives is left
(`tally_positives`).

The scores are sorted by the total order, which tells the two zeros apart, but ties are
equal as numbers.  Both orders agree with the levels of the scores, so the scores of one
tie stand together all the same (`tied_or_behind`).
-/

namespace GradientForest.Metrics

open Scalar

/-! ## Meetings -/

section Meetings

variable {α : Type} [Scalar α]

/-- What a score gets from meeting another one. -/
def outcome (x y : α) : ℚ := (if lt y x then 1 else 0) + if beq x y then 1 / 2 else 0

/-- What the scores of one list get from the scores of another. -/
def tally (xs ys : List α) : ℚ := (xs.map fun x => (ys.map (outcome x)).sum).sum

theorem outcome_nonneg (x y : α) : 0 ≤ outcome x y := by
  rw [outcome]
  split_ifs <;> norm_num

theorem tally_nonneg (xs ys : List α) : 0 ≤ tally xs ys :=
  List.sum_nonneg (List.forall_mem_map.2 fun x _ =>
    List.sum_nonneg (List.forall_mem_map.2 fun y _ => outcome_nonneg x y))

theorem tally_cons_left (x : α) (xs ys : List α) :
    tally (x :: xs) ys = (ys.map (outcome x)).sum + tally xs ys := List.sum_cons

theorem tally_append_left (xs xs' ys : List α) :
    tally (xs ++ xs') ys = tally xs ys + tally xs' ys := by
  rw [tally, List.map_append, List.sum_append]
  rfl

theorem tally_append_right (xs ys ys' : List α) :
    tally xs (ys ++ ys') = tally xs ys + tally xs ys' := by
  simp only [tally, List.map_append, List.sum_append, List.sum_map_add]

theorem tally_perm {xs xs' ys ys' : List α} (hxs : xs.Perm xs') (hys : ys.Perm ys') :
    tally xs ys = tally xs' ys' := by
  have hinner : (fun x => (ys.map (outcome x)).sum) = fun x => (ys'.map (outcome x)).sum :=
    funext fun x => (hys.map (outcome x)).sum_eq
  rw [tally, hinner]
  exact (hxs.map _).sum_eq

/-- The same from every meeting. -/
theorem tally_const {xs ys : List α} {c : ℚ} (h : ∀ x ∈ xs, ∀ y ∈ ys, outcome x y = c) :
    tally xs ys = xs.length * (ys.length * c) := by
  have hinner : ∀ x ∈ xs, (ys.map (outcome x)).sum = ys.length * c := by
    intro x hx
    rw [List.map_congr_left (h x hx), List.map_const', List.sum_replicate, nsmul_eq_mul]
  rw [tally, List.map_congr_left hinner, List.map_const', List.sum_replicate, nsmul_eq_mul]

/-- What one list gets and what the other gets back is 1 for each meeting. -/
theorem tally_add_tally {xs ys : List α}
    (h : ∀ x ∈ xs, ∀ y ∈ ys, outcome x y + outcome y x = 1) :
    tally xs ys + tally ys xs = xs.length * ys.length := by
  induction xs with
  | nil => simp [tally]
  | cons x xs ih =>
    obtain ⟨hx, hxs⟩ := List.forall_mem_cons.1 h
    have hone : (ys.map (outcome x)).sum + tally ys [x] = ys.length := by
      simp only [tally, List.map_singleton, List.sum_singleton, ← List.sum_map_add]
      rw [List.map_congr_left hx, List.map_const', List.sum_replicate, nsmul_one]
    have hsplit : tally ys (x :: xs) = tally ys [x] + tally ys xs := tally_append_right ys [x] xs
    rw [tally_cons_left, hsplit, List.length_cons, Nat.cast_succ]
    linear_combination hone + ih hxs

end Meetings

/-! ## Classes -/

section Classes

variable {α : Type}

/-- The scores that are judged as given. -/
def scoresOf (positive : Bool) (pairs : List (α × Bool)) : List α :=
  (pairs.filter fun q => q.2 == positive).map Prod.fst

variable {pairs pairs' : List (α × Bool)}

theorem scoresOf_append (positive : Bool) (pairs pairs' : List (α × Bool)) :
    scoresOf positive (pairs ++ pairs') = scoresOf positive pairs ++ scoresOf positive pairs' := by
  rw [scoresOf, List.filter_append, List.map_append]
  rfl

theorem scoresOf_perm (h : pairs.Perm pairs') (positive : Bool) :
    (scoresOf positive pairs).Perm (scoresOf positive pairs') :=
  (h.filter _).map _

theorem scoresOf_subset {positive : Bool} : scoresOf positive pairs ⊆ pairs.map Prod.fst :=
  List.map_subset _ (List.filter_subset_self _)

theorem length_scoresOf_true (pairs : List (α × Bool)) :
    (scoresOf true pairs).length = pairs.countP Prod.snd := by
  rw [scoresOf, List.length_map, ← List.countP_eq_length_filter]
  simp

/-- The two classes together are all scores. -/
theorem scores_perm (pairs : List (α × Bool)) :
    (pairs.map Prod.fst).Perm (scoresOf true pairs ++ scoresOf false pairs) := by
  rw [scoresOf, scoresOf, ← List.map_append]
  refine (List.Perm.map _ ?_).symm
  have hfalse : (fun q : α × Bool => q.2 == false) = fun q => !(q.2 == true) := by
    funext q
    cases q.2 <;> rfl
  rw [hfalse]
  exact List.filter_append_perm _ pairs

theorem length_scoresOf_add (pairs : List (α × Bool)) :
    (scoresOf true pairs).length + (scoresOf false pairs).length = pairs.length := by
  rw [← List.length_append, ← (scores_perm pairs).length_eq, List.length_map]

/-- Exchanging the judgements exchanges the classes. -/
theorem scoresOf_exchanged (positive : Bool) (pairs : List (α × Bool)) :
    scoresOf positive (pairs.map fun q => (q.1, !q.2)) = scoresOf (!positive) pairs := by
  have hnot : (fun q : α × Bool => (!q.2) == positive) = fun q => q.2 == !positive := by
    funext q
    cases q.2 <;> cases positive <;> rfl
  rw [scoresOf, scoresOf, List.filter_map, List.map_map]
  exact congrArg (fun p => (pairs.filter p).map Prod.fst) hnot

end Classes

/-! ## Scores with levels -/

section Levels

open Binary64 (lt_iff_level beq_iff_level)

variable {x y : Binary64}

/-- No score is undefined. -/
def Defined (xs : List Binary64) : Prop := ∀ x ∈ xs, isNaN x = false

theorem outcome_of_level_lt (h : x.level < y.level) : outcome x y = 0 := by
  rw [outcome, if_neg, if_neg, add_zero]
  · rw [beq_iff_level]
    omega
  · rw [lt_iff_level]
    omega

theorem outcome_of_lt_level (hx : isNaN x = false) (hy : isNaN y = false)
    (h : y.level < x.level) : outcome x y = 1 := by
  rw [outcome, if_pos (lt_iff_level.2 ⟨hy, hx, h⟩), if_neg, add_zero]
  rw [beq_iff_level]
  omega

theorem outcome_of_level_eq (hx : isNaN x = false) (hy : isNaN y = false)
    (h : x.level = y.level) : outcome x y = 1 / 2 := by
  rw [outcome, if_neg, if_pos (beq_iff_level.2 ⟨hx, hy, h⟩), zero_add]
  rw [lt_iff_level]
  omega

theorem outcome_add_outcome (hx : isNaN x = false) (hy : isNaN y = false) :
    outcome x y + outcome y x = 1 := by
  rcases lt_trichotomy x.level y.level with h | h | h
  · rw [outcome_of_level_lt h, outcome_of_lt_level hy hx h, zero_add]
  · rw [outcome_of_level_eq hx hy h, outcome_of_level_eq hy hx h.symm, add_halves]
  · rw [outcome_of_lt_level hx hy h, outcome_of_level_lt h, add_zero]

variable {xs ys : List Binary64}

theorem Defined.tally_add (hxs : Defined xs) (hys : Defined ys) :
    tally xs ys + tally ys xs = xs.length * ys.length :=
  tally_add_tally fun x hx y hy => outcome_add_outcome (hxs x hx) (hys y hy)

/-- Among themselves scores get one half for each meeting on average. -/
theorem tally_self (hxs : Defined xs) : tally xs xs = xs.length * xs.length / 2 := by
  linear_combination hxs.tally_add hxs / 2

/-- What the positives get from all scores is what they get from the negatives, up to their
number. -/
theorem tally_positives {pairs : List (Binary64 × Bool)} (h : Defined (scoresOf true pairs)) :
    tally (scoresOf true pairs) (pairs.map Prod.fst) =
      (scoresOf true pairs).length * (scoresOf true pairs).length / 2 +
        tally (scoresOf true pairs) (scoresOf false pairs) := by
  rw [tally_perm (.refl _) (scores_perm pairs), tally_append_right, tally_self h]

end Levels

/-! ## Ranks -/

section Ranks

variable {pairs : List (Binary64 × Bool)}

/-- The pairs come in the order of their scores, none of which is undefined. -/
structure Ascending (pairs : List (Binary64 × Bool)) : Prop where
  /-- No score is undefined. -/
  defined : Defined (pairs.map Prod.fst)
  /-- The levels do not fall. -/
  sorted : pairs.Pairwise fun q r => q.1.level ≤ r.1.level

theorem Ascending.of_sublist {pairs' : List (Binary64 × Bool)} (h : Ascending pairs)
    (hsub : pairs'.Sublist pairs) : Ascending pairs' where
  defined x hx := h.defined x ((hsub.map Prod.fst).mem hx)
  sorted := h.sorted.sublist hsub

theorem ascending_sort {pairs : List (Binary64 × Bool)} (h : Defined (pairs.map Prod.fst)) :
    Ascending (Sorting.sort (fun a b => precedes a.1 b.1) pairs) where
  defined x hx := h x (((Sorting.sort_perm _ pairs).map Prod.fst).mem_iff.1 hx)
  sorted := by
    have hcompares : Sorting.ComparesBy (fun a b => precedes a.1 b.1)
        (fun q : Binary64 × Bool => q.1.orderKey) pairs := fun _ _ _ _ => Binary64.precedes_iff
    exact (Sorting.pairwise_sort hcompares).imp Binary64.level_le_of_orderKey_le

/-- Behind the scores that tie with the first one, all scores are higher. -/
theorem tied_or_behind {q : Binary64 × Bool} {rest : List (Binary64 × Bool)}
    (h : Ascending (q :: rest)) :
    (∀ r ∈ rest.take (tieLength q.1 rest), r.1.level = q.1.level) ∧
    ∀ r ∈ rest.drop (tieLength q.1 rest), q.1.level < r.1.level := by
  induction rest with
  | nil => exact ⟨nofun, nofun⟩
  | cons r rest ih =>
    have hq := h.defined q.1 List.mem_cons_self
    have hr := h.defined r.1 (List.mem_cons_of_mem _ List.mem_cons_self)
    obtain ⟨hfirst, hrest⟩ := List.pairwise_cons.1 h.sorted
    rw [tieLength, List.takeWhile_cons]
    split_ifs with htie
    · have hskip : (q :: rest).Sublist (q :: r :: rest) :=
        (List.sublist_cons_self r rest).cons_cons q
      obtain ⟨htied, hbehind⟩ := ih (h.of_sublist hskip)
      exact ⟨List.forall_mem_cons.2 ⟨(Binary64.beq_iff_level.1 htie).2.2, htied⟩, hbehind⟩
    · have hlt : q.1.level < r.1.level :=
        lt_of_le_of_ne (hfirst r List.mem_cons_self) fun heq =>
          htie (Binary64.beq_iff_level.2 ⟨hr, hq, heq.symm⟩)
      refine ⟨nofun, List.forall_mem_cons.2 ⟨hlt, fun s hs => ?_⟩⟩
      exact hlt.trans_le ((List.pairwise_cons.1 hrest).1 s hs)

/-- What the positives of a tie and of the pairs behind it get. -/
theorem tally_append_behind {tied behind : List (Binary64 × Bool)} {l : ℤ}
    (hdefined : Defined ((tied ++ behind).map Prod.fst)) (htied : ∀ q ∈ tied, q.1.level = l)
    (hbehind : ∀ q ∈ behind, l < q.1.level) :
    tally (scoresOf true (tied ++ behind)) ((tied ++ behind).map Prod.fst) =
      (scoresOf true tied).length * (tied.length / 2) +
        (scoresOf true behind).length * tied.length +
        tally (scoresOf true behind) (behind.map Prod.fst) := by
  have hlevel : ∀ x ∈ tied.map Prod.fst, isNaN x = false ∧ x.level = l := by
    rintro x hx
    obtain ⟨q, hq, rfl⟩ := List.mem_map.1 hx
    exact ⟨hdefined _ (List.mem_map_of_mem (List.mem_append_left _ hq)), htied q hq⟩
  have hhigher : ∀ x ∈ behind.map Prod.fst, isNaN x = false ∧ l < x.level := by
    rintro x hx
    obtain ⟨q, hq, rfl⟩ := List.mem_map.1 hx
    exact ⟨hdefined _ (List.mem_map_of_mem (List.mem_append_right _ hq)), hbehind q hq⟩
  have htiedTied : tally (scoresOf true tied) (tied.map Prod.fst) =
      (scoresOf true tied).length * (tied.length * (1 / 2)) := by
    rw [tally_const (c := 1 / 2), List.length_map]
    intro x hx y hy
    obtain ⟨hxdefined, hxlevel⟩ := hlevel x (scoresOf_subset hx)
    obtain ⟨hydefined, hylevel⟩ := hlevel y hy
    exact outcome_of_level_eq hxdefined hydefined (hxlevel.trans hylevel.symm)
  have htiedBehind : tally (scoresOf true tied) (behind.map Prod.fst) = 0 := by
    rw [tally_const (c := 0), mul_zero, mul_zero]
    intro x hx y hy
    rw [outcome_of_level_lt]
    rw [(hlevel x (scoresOf_subset hx)).2]
    exact (hhigher y hy).2
  have hbehindTied : tally (scoresOf true behind) (tied.map Prod.fst) =
      (scoresOf true behind).length * (tied.length * 1) := by
    rw [tally_const (c := 1), List.length_map]
    intro x hx y hy
    obtain ⟨hxdefined, hxlevel⟩ := hhigher x (scoresOf_subset hx)
    obtain ⟨hydefined, hylevel⟩ := hlevel y hy
    exact outcome_of_lt_level hxdefined hydefined (hylevel ▸ hxlevel)
  rw [scoresOf_append, List.map_append, tally_append_left, tally_append_right,
    tally_append_right, htiedTied, htiedBehind, hbehindTied]
  ring

variable [Exact.Functions]

omit [Exact.Functions] in
theorem length_tied (q : Binary64 × Bool) (rest : List (Binary64 × Bool)) :
    (q :: rest.take (tieLength q.1 rest)).length = tieLength q.1 rest + 1 := by
  have hle : tieLength q.1 rest ≤ rest.length := (List.takeWhile_prefix _).length_le
  rw [List.length_cons, List.length_take, min_eq_left hle]

theorem averageRank_eq (start tied : ℕ) :
    (Scalar.ofNat (start + (start + tied)) / 2 + 1 : Exact) =
      .rational (start + tied / 2 + 1) := by
  change (Exact.rational _ / Exact.rational 2 + Exact.rational 1 : Exact) = _
  rw [Exact.rational_div _ two_ne_zero, Exact.rational_add]
  congr 1
  push_cast
  ring

/-- The positives of the first tie get its average rank each. -/
theorem rankSum_cons (n start : ℕ) (a : ℚ) (q : Binary64 × Bool) (rest : List (Binary64 × Bool)) :
    rankSum (n + 1) start (.rational a : Exact) (q :: rest) =
      rankSum n (start + tieLength q.1 rest + 1)
        (.rational (a + (start + tieLength q.1 rest / 2 + 1) *
          (scoresOf true (q :: rest.take (tieLength q.1 rest))).length))
        (rest.drop (tieLength q.1 rest)) := by
  rw [rankSum, averageRank_eq, length_scoresOf_true]
  rfl

/-- The rank of a score is half a step more than what it gets from all scores, the ones
in front included. -/
theorem rankSum_eq (h : Ascending pairs) {n : ℕ} (hn : pairs.length ≤ n) (start : ℕ) (a : ℚ) :
    rankSum n start (.rational a : Exact) pairs =
      .rational (a + (scoresOf true pairs).length * (start + 1 / 2) +
        tally (scoresOf true pairs) (pairs.map Prod.fst)) := by
  induction n generalizing pairs start a with
  | zero =>
    obtain rfl := List.length_eq_zero_iff.1 (Nat.le_zero.1 hn)
    simp [rankSum, scoresOf, tally]
  | succ n ih =>
    cases pairs with
    | nil => simp [rankSum, scoresOf, tally]
    | cons q rest =>
      obtain ⟨htied, hbehind⟩ := tied_or_behind h
      have hlength := length_tied q rest
      have hcut : q :: rest = (q :: rest.take (tieLength q.1 rest)) ++
          rest.drop (tieLength q.1 rest) := by
        rw [List.cons_append, List.take_append_drop]
      have htied : ∀ r ∈ q :: rest.take (tieLength q.1 rest), r.1.level = q.1.level :=
        List.forall_mem_cons.2 ⟨rfl, htied⟩
      rw [rankSum_cons, hcut]
      rw [hcut] at h hn
      generalize q :: rest.take (tieLength q.1 rest) = tied at *
      generalize rest.drop (tieLength q.1 rest) = behind at *
      have hascending : Ascending behind := h.of_sublist (List.sublist_append_right tied behind)
      have hbound : behind.length ≤ n := by
        rw [List.length_append] at hn
        omega
      rw [ih hascending hbound, tally_append_behind h.defined htied hbehind, scoresOf_append,
        List.length_append, hlength]
      congr 1
      push_cast
      ring

theorem rankSum_sort (h : Defined (pairs.map Prod.fst)) :
    (rankSum (Sorting.sort (fun a b => precedes a.1 b.1) pairs).length 0 0
      (Sorting.sort (fun a b => precedes a.1 b.1) pairs) : Exact) =
        .rational ((scoresOf true pairs).length / 2 +
          tally (scoresOf true pairs) (pairs.map Prod.fst)) := by
  have hsorted := Sorting.sort_perm (fun a b => precedes a.1 b.1) pairs
  have hranks := rankSum_eq (ascending_sort h) le_rfl 0 0
  rw [(scoresOf_perm hsorted true).length_eq,
    tally_perm (scoresOf_perm hsorted true) (hsorted.map Prod.fst)] at hranks
  refine hranks.trans ?_
  congr 1
  push_cast
  ring

end Ranks

/-! ## Pairs of a positive and a negative -/

section Pairs

variable {α : Type} [Scalar α]

/-- The number of pairs in which the positive has the higher score. -/
def wins (pairs : List (α × Bool)) : ℕ :=
  (scoresOf true pairs ×ˢ scoresOf false pairs).countP fun m => lt m.2 m.1

/-- The number of pairs with equal scores. -/
def draws (pairs : List (α × Bool)) : ℕ :=
  (scoresOf true pairs ×ˢ scoresOf false pairs).countP fun m => beq m.1 m.2

/-- The share of the pairs of a positive and a negative that the positive wins, where a
draw counts one half. -/
def winningShare (pairs : List (α × Bool)) : ℚ :=
  (wins pairs + draws pairs / 2) /
    ((scoresOf true pairs).length * (scoresOf false pairs).length)

theorem sum_outcome (x : α) (ys : List α) :
    (ys.map (outcome x)).sum = ys.countP (lt · x) + (ys.countP (beq x ·) : ℚ) / 2 := by
  induction ys with
  | nil => simp
  | cons y ys ih =>
    rw [List.map_cons, List.sum_cons, ih, List.countP_cons, List.countP_cons, outcome]
    split_ifs <;> push_cast <;> ring

theorem tally_eq (xs ys : List α) :
    tally xs ys = (xs ×ˢ ys).countP (fun m => lt m.2 m.1) +
      ((xs ×ˢ ys).countP (fun m => beq m.1 m.2) : ℚ) / 2 := by
  induction xs with
  | nil => simp [tally]
  | cons x xs ih =>
    rw [tally_cons_left, ih, sum_outcome, List.product_cons, List.countP_append,
      List.countP_append, List.countP_map, List.countP_map]
    push_cast
    simp only [Function.comp_def]
    ring

theorem winningShare_eq (pairs : List (α × Bool)) :
    winningShare pairs = tally (scoresOf true pairs) (scoresOf false pairs) /
      ((scoresOf true pairs).length * (scoresOf false pairs).length) := by
  rw [winningShare, tally_eq]
  rfl

theorem winningShare_nonneg (pairs : List (α × Bool)) : 0 ≤ winningShare pairs := by
  rw [winningShare_eq]
  exact div_nonneg (tally_nonneg _ _) (mul_nonneg (Nat.cast_nonneg _) (Nat.cast_nonneg _))

theorem winningShare_perm {pairs pairs' : List (α × Bool)} (h : pairs.Perm pairs') :
    winningShare pairs = winningShare pairs' := by
  have hclass (c : Bool) := scoresOf_perm h c
  rw [winningShare_eq, winningShare_eq, tally_perm (hclass true) (hclass false),
    (hclass true).length_eq, (hclass false).length_eq]

end Pairs

section Exchange

variable {α : Type} [Scalar α]

theorem judged_eq_map (scores labels : List α) :
    judged scores labels = (scores.zip labels).map fun p => (p.1, isPositive p.2) := by
  rw [judged, List.zip, List.map_zipWith]

theorem map_fst_judged_subset (scores labels : List α) :
    (judged scores labels).map Prod.fst ⊆ scores := by
  rw [judged_eq_map, List.map_map]
  intro x hx
  obtain ⟨p, hp, rfl⟩ := List.mem_map.1 hx
  exact (List.of_mem_zip hp).1

theorem judged_exchanged (scores : List α) {labels labels' : List α}
    (h : labels'.map isPositive = labels.map (!isPositive ·)) :
    judged scores labels' = (judged scores labels).map fun q => (q.1, !q.2) := by
  have hjudged (ls : List α) : judged scores ls = scores.zip (ls.map isPositive) := by
    rw [judged, List.zip, List.zipWith_map_right]
  have hnot : labels.map (!isPositive ·) = (labels.map isPositive).map (!·) := by
    rw [List.map_map]
    rfl
  rw [hjudged, hjudged, h, hnot, List.zip_map_right]
  rfl

end Exchange

section Shares

variable {pairs : List (Binary64 × Bool)}

/-- The classes share their meetings. -/
theorem tally_classes (h : Defined (pairs.map Prod.fst)) :
    tally (scoresOf true pairs) (scoresOf false pairs) +
      tally (scoresOf false pairs) (scoresOf true pairs) =
        (scoresOf true pairs).length * (scoresOf false pairs).length :=
  Defined.tally_add (fun x hx => h x (scoresOf_subset hx)) fun x hx => h x (scoresOf_subset hx)

theorem winningShare_le_one (h : Defined (pairs.map Prod.fst)) : winningShare pairs ≤ 1 := by
  have hreturn := tally_nonneg (scoresOf false pairs) (scoresOf true pairs)
  rw [winningShare_eq, ← tally_classes h]
  refine div_le_one_of_le₀ ?_ (add_nonneg (tally_nonneg _ _) hreturn)
  exact le_add_of_nonneg_right hreturn

/-- What one class wins the other loses. -/
theorem winningShare_exchanged (h : Defined (pairs.map Prod.fst))
    (hpositive : scoresOf true pairs ≠ []) (hnegative : scoresOf false pairs ≠ []) :
    winningShare (pairs.map fun q => (q.1, !q.2)) = 1 - winningShare pairs := by
  have hp : ((scoresOf true pairs).length : ℚ) ≠ 0 :=
    Nat.cast_ne_zero.2 (List.length_eq_zero_iff.not.2 hpositive)
  have hn : ((scoresOf false pairs).length : ℚ) ≠ 0 :=
    Nat.cast_ne_zero.2 (List.length_eq_zero_iff.not.2 hnegative)
  rw [winningShare_eq, winningShare_eq, scoresOf_exchanged, scoresOf_exchanged, Bool.not_true,
    Bool.not_false]
  field_simp
  linear_combination tally_classes h

end Shares

/-! ## The area under the curve -/

section Area

variable [Exact.Functions]

/-- The last step of the computation. -/
theorem area_rational (ranks : ℚ) {p n : ℕ} (hp : p ≠ 0) (hn : n ≠ 0) :
    ((.rational ranks - Scalar.ofNat p * (Scalar.ofNat p + 1) / 2) /
      (Scalar.ofNat p * Scalar.ofNat n) : Exact) =
        .rational ((ranks - p * (p + 1) / 2) / (p * n)) := by
  have hproduct : (p : ℚ) * n ≠ 0 := mul_ne_zero (Nat.cast_ne_zero.2 hp) (Nat.cast_ne_zero.2 hn)
  change ((.rational ranks - .rational p * (.rational p + .rational 1) / .rational 2) /
    (.rational p * .rational n) : Exact) = _
  rw [Exact.rational_add, Exact.rational_mul, Exact.rational_div _ two_ne_zero,
    Exact.rational_sub, Exact.rational_mul, Exact.rational_div _ hproduct]

theorem aucIn_eq {scores labels : List Binary64}
    (hdefined : Defined ((judged scores labels).map Prod.fst))
    (hpositive : scoresOf true (judged scores labels) ≠ [])
    (hnegative : scoresOf false (judged scores labels) ≠ []) :
    aucIn Exact scores labels = .rational (winningShare (judged scores labels)) := by
  rw [aucIn, winningShare_eq]
  generalize judged scores labels = pairs at *
  have hpositives : Defined (scoresOf true pairs) := fun x hx => hdefined x (scoresOf_subset hx)
  have hnegatives : pairs.length - (scoresOf true pairs).length =
      (scoresOf false pairs).length := by
    rw [← length_scoresOf_add, Nat.add_sub_cancel_left]
  have hp : (scoresOf true pairs).length ≠ 0 := List.length_eq_zero_iff.not.2 hpositive
  have hn : (scoresOf false pairs).length ≠ 0 := List.length_eq_zero_iff.not.2 hnegative
  dsimp only
  rw [← length_scoresOf_true, hnegatives, if_neg (not_or.2 ⟨hp, hn⟩), rankSum_sort hdefined,
    area_rational _ hp hn, tally_positives hpositives]
  congr 2
  ring

/-- The area under the curve is the share of the pairs of a positive and a negative that the
positive wins.  So it is between 0 and 1, it does not depend on the order of the pairs, and
it turns round when positives and negatives are exchanged. -/
theorem auc_pairwise (scores labels : List Binary64) (hscores : Defined scores)
    (hpositive : scoresOf true (judged scores labels) ≠ [])
    (hnegative : scoresOf false (judged scores labels) ≠ []) :
    aucIn Exact scores labels = .rational (winningShare (judged scores labels)) ∧
    (0 ≤ winningShare (judged scores labels) ∧ winningShare (judged scores labels) ≤ 1) ∧
    (∀ scores' labels', (scores'.zip labels').Perm (scores.zip labels) →
      aucIn Exact scores' labels' = aucIn Exact scores labels) ∧
    ∀ labels', labels'.map isPositive = labels.map (!isPositive ·) →
      aucIn Exact scores labels' = 1 - aucIn Exact scores labels := by
  have hdefined : Defined ((judged scores labels).map Prod.fst) := fun x hx =>
    hscores x (map_fst_judged_subset scores labels hx)
  have harea := aucIn_eq hdefined hpositive hnegative
  refine ⟨harea, ⟨winningShare_nonneg _, winningShare_le_one hdefined⟩, ?_, ?_⟩
  · intro scores' labels' hperm
    have hpairs : (judged scores' labels').Perm (judged scores labels) := by
      rw [judged_eq_map, judged_eq_map]
      exact hperm.map _
    have hclass (c : Bool) := scoresOf_perm hpairs c
    rw [harea, ← winningShare_perm hpairs]
    refine aucIn_eq (fun x hx => hdefined x ((hpairs.map Prod.fst).mem_iff.1 hx)) ?_ ?_
    · exact fun hnil => hpositive (List.nil_perm.1 (hnil ▸ hclass true))
    · exact fun hnil => hnegative (List.nil_perm.1 (hnil ▸ hclass false))
  · intro labels' hexchange
    have hpairs := judged_exchanged scores hexchange
    have hmap : (judged scores labels').map Prod.fst = (judged scores labels).map Prod.fst := by
      rw [hpairs, List.map_map]
      rfl
    rw [harea, Exact.one_eq, Exact.rational_sub,
      ← winningShare_exchanged hdefined hpositive hnegative, ← hpairs]
    refine aucIn_eq (hmap ▸ hdefined) ?_ ?_
    · rwa [hpairs, scoresOf_exchanged]
    · rwa [hpairs, scoresOf_exchanged]

end Area

open scoped Exact

/-- Scores with a zero of each sign. -/
def drawnScores : List Binary64 := [4, 0, -0, 1]

/-- Labels for them and one more. -/
def drawnLabels : List Binary64 := [1, 0, 1, 0, 1]

/-- The positive at 4 wins against both negatives, and the one at minus zero draws with the
negative at zero. -/
theorem auc_pairwise_drawnScores :
    Defined drawnScores ∧ scoresOf true (judged drawnScores drawnLabels) ≠ [] ∧
    scoresOf false (judged drawnScores drawnLabels) ≠ [] ∧
    aucIn Exact drawnScores drawnLabels = .rational (5 / 8) := by
  have hdefined : Defined drawnScores := by
    rw [Defined, drawnScores]
    decide +kernel
  have hpositive : scoresOf true (judged drawnScores drawnLabels) ≠ [] := by decide +kernel
  have hnegative : scoresOf false (judged drawnScores drawnLabels) ≠ [] := by decide +kernel
  have hshare : winningShare (judged drawnScores drawnLabels) = 5 / 8 := by decide +kernel
  refine ⟨hdefined, hpositive, hnegative, ?_⟩
  rw [← hshare]
  exact (auc_pairwise drawnScores drawnLabels hdefined hpositive hnegative).1

end GradientForest.Metrics
