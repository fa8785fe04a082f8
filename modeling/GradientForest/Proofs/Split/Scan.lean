import Mathlib.Data.List.Basic
import Mathlib.Order.Lattice
import GradientForest.Proofs.Scalar.Sorted
import GradientForest.Split.Threshold

/-!
# The scan as a fold over cuts

The scan of sorted samples passes a candidate wherever two neighbours differ.  `cuts`
lists these pairs of values.  The sums to the left of a cut are those of all samples up
to its lower value, so a cut tells its candidate by itself, and the scan considers the
candidates of the cuts one after another (`scan_eq`).

A threshold that the search accepts lies half way between two values of the column
(`exists_midpoint_of_search`).
-/

namespace GradientForest

open Scalar

namespace ThresholdSplit

variable {α : Type} [Scalar α]

/-! ## Cuts -/

/-- The neighbours in a list whose second is not below or equal to the first. -/
def cuts : List α → List (α × α)
  | a :: b :: rest => if le b a then cuts (b :: rest) else (a, b) :: cuts (b :: rest)
  | _ => []

theorem mem_of_mem_cuts {values : List α} {a b : α} (h : (a, b) ∈ cuts values) :
    a ∈ values ∧ b ∈ values := by
  induction values with
  | nil => cases h
  | cons x values ih =>
    cases values with
    | nil => cases h
    | cons y rest =>
      rw [cuts] at h
      split_ifs at h
      · exact ⟨List.mem_cons_of_mem _ (ih h).1, List.mem_cons_of_mem _ (ih h).2⟩
      · rcases List.mem_cons.1 h with heq | h
        · cases heq
          exact ⟨List.mem_cons_self, List.mem_cons_of_mem _ List.mem_cons_self⟩
        · exact ⟨List.mem_cons_of_mem _ (ih h).1, List.mem_cons_of_mem _ (ih h).2⟩

/-- The sums of the samples up to a value, added to those of the samples before. -/
def sumUpTo (left : GradientSum α) (samples : List (Sample α)) (value : α) : GradientSum α :=
  (samples.filter fun x => le x.value value).foldl (fun s x => s.add x.residual x.hessian) left

/-- The candidate of a cut considered. -/
def considerCut (lambda : α) (total left : GradientSum α) (samples : List (Sample α))
    (leader : Leader α) (cut : α × α) : Leader α :=
  let below := sumUpTo left samples cut.1
  leader.consider (GradientSum.gain lambda below (total.minus below) total)
    (midpoint cut.1 cut.2)

section Sorted

variable {κ : Type} [LinearOrder κ] {place : α → κ}

/-- The values of the samples are compared by their places, and are in order. -/
structure Ordered (place : α → κ) (samples : List (Sample α)) : Prop where
  le_iff : ∀ x ∈ samples, ∀ y ∈ samples,
    le x.value y.value = true ↔ place x.value ≤ place y.value
  sorted : samples.Pairwise fun x y => place x.value ≤ place y.value

theorem Ordered.tail {x : Sample α} {samples : List (Sample α)} (h : Ordered place (x :: samples)) :
    Ordered place samples where
  le_iff y hy z hz := h.le_iff y (List.mem_cons_of_mem _ hy) z (List.mem_cons_of_mem _ hz)
  sorted := h.sorted.of_cons

/-- The first of sorted samples is below every value. -/
theorem sumUpTo_cons {x y : Sample α} {samples : List (Sample α)}
    (h : Ordered place (x :: samples)) (hy : y ∈ samples) (left : GradientSum α) :
    sumUpTo left (x :: samples) y.value =
      sumUpTo (left.add x.residual x.hessian) samples y.value := by
  have hle : le x.value y.value = true :=
    (h.le_iff x List.mem_cons_self y (List.mem_cons_of_mem _ hy)).2
      ((List.pairwise_cons.1 h.sorted).1 y hy)
  rw [sumUpTo, List.filter_cons, if_pos hle, List.foldl_cons, sumUpTo]

/-- Only the first sample is up to a value that the second one exceeds. -/
theorem sumUpTo_head {x y : Sample α} {samples : List (Sample α)}
    (h : Ordered place (x :: y :: samples)) (hcut : le y.value x.value = false)
    (left : GradientSum α) :
    sumUpTo left (x :: y :: samples) x.value = left.add x.residual x.hessian := by
  have hx : x ∈ x :: y :: samples := List.mem_cons_self
  have hy : y ∈ x :: y :: samples := List.mem_cons_of_mem _ List.mem_cons_self
  have hself : le x.value x.value = true := (h.le_iff x hx x hx).2 (le_refl _)
  have hlt : place x.value < place y.value := by
    rw [← not_le, ← h.le_iff y hy x hx, hcut]
    exact Bool.false_ne_true
  have habove : ∀ z ∈ y :: samples, ¬ le z.value x.value = true := by
    intro z hz
    rw [h.le_iff z (List.mem_cons_of_mem _ hz) x hx, not_le]
    rcases List.mem_cons.1 hz with rfl | hz
    · exact hlt
    · exact lt_of_lt_of_le hlt ((List.pairwise_cons.1 h.tail.sorted).1 z hz)
  rw [sumUpTo, List.filter_cons, if_pos hself, List.filter_eq_nil_iff.2 habove]
  rfl

/-- The scan of sorted samples considers the candidates of their cuts. -/
theorem scan_eq (lambda : α) (total left : GradientSum α) (leader : Leader α)
    {samples : List (Sample α)} (h : Ordered place samples) :
    scan lambda total left leader samples =
      (cuts (samples.map Sample.value)).foldl (considerCut lambda total left samples) leader := by
  induction samples generalizing left leader with
  | nil => rfl
  | cons x samples ih =>
    cases samples with
    | nil => rfl
    | cons y rest =>
      have hcuts : ∀ leader : Leader α, ∀ cut ∈ cuts ((y :: rest).map Sample.value),
          considerCut lambda total (left.add x.residual x.hessian) (y :: rest) leader cut =
            considerCut lambda total left (x :: y :: rest) leader cut := by
        intro leader cut hcut
        obtain ⟨z, hz, hvalue⟩ := List.mem_map.1 (mem_of_mem_cuts hcut).1
        rw [considerCut, considerCut, ← hvalue, sumUpTo_cons h hz]
      have htail (leader : Leader α) :
          scan lambda total (left.add x.residual x.hessian) leader (y :: rest) =
            (cuts ((y :: rest).map Sample.value)).foldl
              (considerCut lambda total left (x :: y :: rest)) leader := by
        rw [ih (left.add x.residual x.hessian) leader h.tail]
        exact List.foldl_ext _ _ leader hcuts
      rw [scan, List.map_cons, List.map_cons, cuts]
      split_ifs with htie
      · exact htail leader
      · rw [Bool.not_eq_true] at htie
        rw [List.foldl_cons, considerCut, sumUpTo_head h htie]
        exact htail _

end Sorted

/-- Fewer than two samples have no cut, so the search is a scan in any case. -/
theorem search_eq_scan {ι : Type} (lambda : α) (column residual hessian : ι → α) (rows : List ι) :
    search lambda column residual hessian rows =
      (scan lambda
        (GradientSum.ofRows Sample.residual Sample.hessian
          (Sorting.sort (fun a b => lt a.value b.value) (samples column residual hessian rows)))
        .zero .start
        (Sorting.sort (fun a b => lt a.value b.value)
          (samples column residual hessian rows))).best := by
  rw [search]
  split_ifs with hfew
  · rw [← Sorting.length_sort fun a b => lt a.value b.value] at hfew
    cases hsorted : Sorting.sort (fun a b => lt a.value b.value)
        (samples column residual hessian rows) with
    | nil => rfl
    | cons x rest =>
      rw [hsorted, List.length_cons] at hfew
      obtain rfl : rest = [] := List.length_eq_zero_iff.1 (by omega)
      rfl
  · rfl

/-- The scan goes over the rows with a defined value, sorted by it. -/
theorem search_eq_rows {ι : Type} (lambda : α) (column residual hessian : ι → α) (rows : List ι) :
    search lambda column residual hessian rows =
      let sorted := Sorting.sort (fun i k => lt (column i) (column k))
        (rows.filter fun i => !isNaN (column i))
      (scan lambda (GradientSum.ofRows residual hessian sorted) .zero .start
        (sorted.map fun i => ⟨column i, residual i, hessian i⟩)).best := by
  rw [search_eq_scan, samples, Sorting.sort_map, GradientSum.ofRows, List.foldl_map]
  rfl

/-! ## The accepted threshold -/

/-- What holds of the midpoints of the samples holds of an accepted threshold. -/
theorem threshold_scan {P : α → Prop} {lambda : α} {total left : GradientSum α}
    {leader : Leader α} {samples : List (Sample α)}
    (hP : ∀ x ∈ samples, ∀ y ∈ samples, P (midpoint x.value y.value))
    (hleader : leader.best.accepted = true → P leader.best.threshold)
    (h : (scan lambda total left leader samples).best.accepted = true) :
    P (scan lambda total left leader samples).best.threshold := by
  induction samples generalizing left leader with
  | nil => exact hleader h
  | cons x samples ih =>
    cases samples with
    | nil => exact hleader h
    | cons y rest =>
      have htail : ∀ a ∈ y :: rest, ∀ b ∈ y :: rest, P (midpoint a.value b.value) :=
        fun a ha b hb => hP a (List.mem_cons_of_mem _ ha) b (List.mem_cons_of_mem _ hb)
      rw [scan] at h ⊢
      split_ifs at h ⊢ with htie
      · exact ih htail hleader h
      · refine ih htail ?_ h
        intro haccepted
        rw [Leader.consider] at haccepted ⊢
        split_ifs at haccepted ⊢
        · exact hP x List.mem_cons_self y (List.mem_cons_of_mem _ List.mem_cons_self)
        · exact hleader haccepted

/-- An accepted threshold lies half way between two values of the column. -/
theorem exists_midpoint_of_search {ι : Type} {lambda : α} {column residual hessian : ι → α}
    {rows : List ι} (h : (search lambda column residual hessian rows).accepted = true) :
    ∃ i ∈ rows, ∃ k ∈ rows,
      (search lambda column residual hessian rows).threshold = midpoint (column i) (column k) := by
  have hvalue : ∀ x ∈ Sorting.sort (fun a b => lt a.value b.value)
      (samples column residual hessian rows), ∃ i ∈ rows, x.value = column i := by
    intro x hx
    rw [(Sorting.sort_perm _ _).mem_iff, samples, List.mem_map] at hx
    obtain ⟨i, hi, rfl⟩ := hx
    exact ⟨i, (List.mem_filter.1 hi).1, rfl⟩
  rw [search] at h ⊢
  split_ifs at h ⊢ with hfew
  · cases h
  · refine threshold_scan (P := fun t => ∃ i ∈ rows, ∃ k ∈ rows, t = midpoint (column i) (column k))
      (fun x hx y hy => ?_) nofun h
    obtain ⟨i, hi, hxi⟩ := hvalue x hx
    obtain ⟨k, hk, hyk⟩ := hvalue y hy
    exact ⟨i, hi, k, hk, by rw [hxi, hyk]⟩

end ThresholdSplit

end GradientForest
