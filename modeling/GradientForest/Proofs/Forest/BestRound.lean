import Mathlib.Data.Finset.Max
import Mathlib.Data.Nat.Find
import Mathlib.Order.Bounds.Basic
import GradientForest.Forest.History
import GradientForest.Proofs.Binary64.Levels

/-!
# The best round

The best round is found by a running comparison of the metrics.  A comparison with an
undefined metric fails, so an undefined metric always takes the place of the best one, and
the next metric takes its place in turn.  What was recorded before is forgotten.

`Kept` says which round this leaves, by one step for each metric (`Kept.push`) and so for
every record (`exists_kept_record`).  The kept round is the best one just when no undefined
metric is recorded behind the best one (`bestRound_best_iff`).
-/

namespace GradientForest

open Scalar

namespace History

/-! ## Records -/

section Record

variable {α : Type} {values : List α}

/-- The history after a metric has been recorded for each of some rounds. -/
def record (metric : String) (initial : α) (values : List α) : History α :=
  values.foldl push (start metric initial)

theorem rounds_record (metric : String) (initial : α) (values : List α) :
    (record metric initial values).rounds.toList = values := by
  induction values using List.reverseRecOn with
  | nil => rfl
  | append_singleton values v ih =>
    rw [record, List.foldl_concat, push, Array.toList_push]
    exact congrArg (· ++ [v]) ih

variable [Scalar α]

/-- The best round so far, with its metric. -/
def kept? (h : History α) : Option (ℕ × α) :=
  (h.rounds.toList.zipIdx 1).foldl (fun best (v, i) => keepBetter best (i, v)) none

theorem bestRound_eq (h : History α) : h.bestRound = h.kept?.map Prod.fst := rfl

theorem kept?_record_concat (metric : String) (initial : α) (values : List α) (v : α) :
    (record metric initial (values ++ [v])).kept? =
      keepBetter (record metric initial values).kept? (values.length + 1, v) := by
  rw [kept?, kept?, rounds_record, rounds_record, List.zipIdx_append, List.foldl_append,
    Nat.add_comm]
  rfl

/-- The round that the comparison keeps, and its metric: an undefined metric while it is the
last one, and otherwise the earliest of the lowest ones since the last undefined metric. -/
inductive Kept : List α → ℕ → α → Prop where
  | undefined {before : List α} {v : α} : isNaN v = true →
    Kept (before ++ [v]) (before.length + 1) v
  | defined {before since after : List α} {v : α} : (∀ u ∈ before.getLast?, isNaN u = true) →
    (∀ w ∈ since, lt v w = true) → isNaN v = false → (∀ w ∈ after, le v w = true) →
    Kept (before ++ (since ++ v :: after)) (before.length + since.length + 1) v

/-- A round whose metric is not above any defined metric. -/
def Lowest (values : List α) (round : ℕ) : Prop :=
  ∃ i v, round = i + 1 ∧ values[i]? = some v ∧ ∀ w ∈ values, isNaN w = false → le v w = true

end Record

open Binary64

variable {values : List Binary64} {round : ℕ} {v : Binary64}

/-! ## One more metric -/

theorem undefined_getLast {before : List Binary64} (hv : isNaN v = true) :
    ∀ u ∈ (before ++ [v]).getLast?, isNaN u = true := by
  intro u hu
  rw [List.getLast?_concat, Option.mem_some] at hu
  rwa [← hu]

/-- Behind nothing or an undefined metric, the next one is kept. -/
theorem Kept.next (before : List Binary64) (hbefore : ∀ u ∈ before.getLast?, isNaN u = true)
    (w : Binary64) : Kept (before ++ [w]) (before.length + 1) w := by
  cases hw : isNaN w with
  | true => exact .undefined hw
  | false =>
    exact @Kept.defined _ _ before [] [] w hbefore (List.forall_mem_nil _) hw
      (List.forall_mem_nil _)

theorem Kept.push (h : Kept values round v) (w : Binary64) :
    ∃ round' v', keepBetter (some (round, v)) (values.length + 1, w) = some (round', v') ∧
      Kept (values ++ [w]) round' v' := by
  by_cases hle : Scalar.le v w = true
  · refine ⟨round, v, if_pos hle, ?_⟩
    cases h with
    | undefined hv => cases hv.symm.trans (le_iff_level.1 hle).1
    | @defined before since after _ hbefore hsince hv hafter =>
      rw [List.append_assoc, List.append_assoc, List.cons_append]
      refine .defined hbefore hsince hv fun u hu => ?_
      rcases List.mem_append.1 hu with hu | hu
      · exact hafter u hu
      · rwa [List.mem_singleton.1 hu]
  · refine ⟨values.length + 1, w, if_neg hle, ?_⟩
    cases h with
    | undefined hv =>
      exact .next _ (undefined_getLast hv) w
    | @defined before since after _ hbefore hsince hv hafter =>
      cases hw : isNaN w with
      | true => exact .undefined hw
      | false =>
        have hlt := scalar_lt_of_not_le hv hw hle
        have hbelow : ∀ u ∈ since ++ v :: after, Scalar.lt w u = true := by
          simp only [List.forall_mem_append, List.forall_mem_cons]
          exact ⟨fun u hu => scalar_lt_of_lt_of_le hlt (scalar_le_of_lt (hsince u hu)), hlt,
            fun u hu => scalar_lt_of_lt_of_le hlt (hafter u hu)⟩
        rw [List.length_append, List.append_assoc]
        exact .defined hbefore hbelow hw (List.forall_mem_nil _)

/-- A record with a metric has a round that is kept. -/
theorem exists_kept_record (metric : String) (initial : Binary64) (hne : values ≠ []) :
    ∃ round v, (record metric initial values).kept? = some (round, v) ∧ Kept values round v := by
  induction values using List.reverseRecOn with
  | nil => exact absurd rfl hne
  | append_singleton values w ih =>
    rw [kept?_record_concat]
    rcases eq_or_ne values [] with rfl | hvalues
    · exact ⟨1, w, rfl, .next [] (fun _ h => by cases h) w⟩
    · obtain ⟨round, v, hkept, h⟩ := ih hvalues
      rw [hkept]
      exact h.push w

/-! ## The best round -/

/-- One of the defined metrics is not above the others. -/
theorem exists_lowest (hdefined : ∃ v ∈ values, isNaN v = false) :
    ∃ round, Lowest values round := by
  obtain ⟨v, hv, hvdefined⟩ := hdefined
  obtain ⟨u, hu, hmin⟩ := Finset.exists_min_image
    (values.toFinset.filter fun v => isNaN v = false) level
    ⟨v, Finset.mem_filter.2 ⟨List.mem_toFinset.2 hv, hvdefined⟩⟩
  obtain ⟨hmem, hudefined⟩ := Finset.mem_filter.1 hu
  obtain ⟨i, hi⟩ := List.mem_iff_getElem?.1 (List.mem_toFinset.1 hmem)
  refine ⟨i + 1, i, u, rfl, hi, fun w hw hwdefined => ?_⟩
  exact le_iff_level.2 ⟨hudefined, hwdefined,
    hmin w (Finset.mem_filter.2 ⟨List.mem_toFinset.2 hw, hwdefined⟩)⟩

theorem exists_isLeast_lowest (hdefined : ∃ v ∈ values, isNaN v = false) :
    ∃ best, IsLeast {round | Lowest values round} best := by
  classical
  have hlowest := exists_lowest hdefined
  exact ⟨Nat.find hlowest, Nat.find_spec hlowest, fun _ h => Nat.find_min' hlowest h⟩

theorem defined_of_lowest (hdefined : ∃ v ∈ values, isNaN v = false)
    (hlow : ∀ w ∈ values, isNaN w = false → Scalar.le v w = true) : isNaN v = false := by
  obtain ⟨w, hw, hwdefined⟩ := hdefined
  exact (le_iff_level.1 (hlow w hw hwdefined)).1

theorem mem_drop_iff {β : Type} {values : List β} {n : ℕ} {w : β} :
    w ∈ values.drop n ↔ ∃ j, n ≤ j ∧ values[j]? = some w := by
  rw [List.mem_iff_getElem?]
  constructor
  · rintro ⟨k, hk⟩
    exact ⟨n + k, Nat.le_add_right n k, by rwa [List.getElem?_drop] at hk⟩
  · rintro ⟨j, hj, hw⟩
    exact ⟨j - n, by rwa [List.getElem?_drop, Nat.add_sub_cancel' hj]⟩

theorem Kept.getElem? (h : Kept values round v) : values[round - 1]? = some v := by
  cases h with
  | undefined => rw [Nat.add_sub_cancel, List.getElem?_concat_length]
  | defined =>
    rw [← List.append_assoc, ← List.length_append, Nat.add_sub_cancel,
      List.getElem?_append_right (le_refl _), Nat.sub_self, List.getElem?_cons_zero]

/-- Only defined metrics stand behind a kept one that is defined. -/
theorem Kept.defined_of_mem_drop (h : Kept values round v) (hv : isNaN v = false) {w : Binary64}
    (hw : w ∈ values.drop round) : isNaN w = false := by
  cases h with
  | undefined hundefined => cases hundefined.symm.trans hv
  | @defined before since after _ _ _ _ hafter =>
    rw [← List.append_assoc, ← List.length_append, List.drop_append,
      List.drop_eq_nil_of_le (Nat.le_succ _), Nat.add_sub_cancel_left] at hw
    exact (le_iff_level.1 (hafter w hw)).2.1

/-- A place behind which all is defined is not in front of the last undefined metric. -/
theorem length_le_of_defined_drop (before rest : List Binary64) {i : ℕ} {u : Binary64}
    (hbefore : ∀ x ∈ before.getLast?, isNaN x = true) (hi : (before ++ rest)[i]? = some u)
    (hu : isNaN u = false) (hbehind : ∀ w ∈ (before ++ rest).drop (i + 1), isNaN w = false) :
    before.length ≤ i := by
  by_contra! hlt
  have hlast : before[before.length - 1]? = some (before[before.length - 1]) :=
    List.getElem?_eq_getElem (by omega)
  have hundefined : isNaN before[before.length - 1] = true :=
    hbefore _ (by rw [List.getLast?_eq_getElem?, hlast]; rfl)
  have hplace : (before ++ rest)[before.length - 1]? = some (before[before.length - 1]) := by
    rwa [List.getElem?_append_left (by omega)]
  rcases Nat.lt_or_eq_of_le (show i ≤ before.length - 1 by omega) with hlt' | rfl
  · have hdefined := hbehind _ (mem_drop_iff.2 ⟨_, hlt', hplace⟩)
    cases hundefined.symm.trans hdefined
  · rw [hplace, Option.some.injEq] at hi
    rw [hi, hu] at hundefined
    cases hundefined

/-- The kept round is the best one when all is defined behind the best one. -/
theorem Kept.eq_best {best : ℕ} (h : Kept values round v)
    (hdefined : ∃ v ∈ values, isNaN v = false) (hbest : IsLeast {r | Lowest values r} best)
    (hbehind : ∀ w ∈ values.drop best, isNaN w = false) : round = best := by
  obtain ⟨⟨i, u, rfl, hi, hlow⟩, hleast⟩ := hbest
  have hu := defined_of_lowest hdefined hlow
  cases h with
  | @undefined before _ hv =>
    have hlast := length_le_of_defined_drop (before ++ [v]) [] (undefined_getLast hv)
      (by rwa [List.append_nil]) hu (by rwa [List.append_nil])
    exact absurd (List.getElem?_eq_some_iff.1 hi).1 (by omega)
  | @defined before since after _ hbefore hsince hv hafter =>
    have hfrom := length_le_of_defined_drop before _ hbefore hi hu hbehind
    have huv : Scalar.le u v = true := hlow v (by simp) hv
    rw [List.getElem?_append_right hfrom] at hi
    have hvu : Scalar.le v u = true := by
      rcases List.mem_append.1 (List.mem_of_getElem? hi) with hmem | hmem
      · exact scalar_le_of_lt (hsince u hmem)
      · rcases List.mem_cons.1 hmem with rfl | hmem
        · exact le_iff_level.2 ⟨hv, hv, le_refl _⟩
        · exact hafter u hmem
    apply le_antisymm
    · -- a metric before the kept one is above it
      by_contra! hlt
      rw [List.getElem?_append_left (by omega)] at hi
      have hlt' := hsince u (List.mem_of_getElem? hi)
      rw [lt_iff_level] at hlt'
      rw [le_iff_level] at huv
      omega
    · exact hleast ⟨before.length + since.length, v, rfl,
        (Kept.defined hbefore hsince hv hafter).getElem?, fun w hw hwdefined =>
          scalar_le_trans hvu (hlow w hw hwdefined)⟩

/-- The kept round is the best one just when no undefined metric is recorded behind the best
one. -/
theorem bestRound_best_iff (metric : String) (initial : Binary64)
    (hdefined : ∃ v ∈ values, isNaN v = false) :
    ∃ best round v, IsLeast {r | Lowest values r} best ∧
      (record metric initial values).bestRound = some round ∧ Kept values round v ∧
      (round = best ↔ ∀ w ∈ values.drop best, isNaN w = false) := by
  obtain ⟨best, hbest⟩ := exists_isLeast_lowest hdefined
  obtain ⟨round, v, hkept, h⟩ := exists_kept_record metric initial
    (List.ne_nil_of_mem hdefined.choose_spec.1)
  refine ⟨best, round, v, hbest, by rw [bestRound_eq, hkept]; rfl, h, ?_⟩
  constructor
  · rintro rfl w hw
    obtain ⟨⟨i, u, rfl, hi, hlow⟩, -⟩ := hbest
    obtain rfl : v = u := Option.some.inj (h.getElem?.symm.trans hi)
    exact h.defined_of_mem_drop (defined_of_lowest hdefined hlow) hw
  · exact h.eq_best hdefined hbest

/-- A record whose best metric is followed by an undefined one. -/
def interrupted : List Binary64 := [2, undefined false, 4, 3, 3]

theorem bestRound_best_interrupted :
    (∃ v ∈ interrupted, isNaN v = false) ∧
    ∃ best round v, IsLeast {r | Lowest interrupted r} best ∧
      (record "rmse" 5 interrupted).bestRound = some round ∧ Kept interrupted round v ∧
      (round = best ↔ ∀ w ∈ interrupted.drop best, isNaN w = false) :=
  ⟨by decide +kernel, bestRound_best_iff "rmse" 5 (by decide +kernel)⟩

/-- The first of three rounds is the best one, but the second metric is undefined, and the
last round is found. -/
theorem bestRound_forgets :
    IsLeast {r | Lowest [1, undefined false, 2] r} 1 ∧
      (record "rmse" 4 [1, undefined false, 2]).bestRound = some 3 := by
  refine ⟨⟨⟨0, 1, rfl, rfl, by decide +kernel⟩, ?_⟩, by decide +kernel⟩
  rintro _ ⟨i, _, rfl, -⟩
  exact Nat.le_add_left 1 i

end History

end GradientForest
