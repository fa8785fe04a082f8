import Mathlib.Data.Fin.VecNotation
import GradientForest.Proofs.Binary64.Levels
import GradientForest.Proofs.Split.Ranking

/-!
# Columns that vary and the chosen one

A column that does not vary on the rows is marked by an infinite error.  A fit can be
infinite or undefined as well, because of what its numbers overflow to, and then a column
that varies has the same mark.  So a column that varies is chosen as long as one of them has
a fit below infinity.  Without such a column the leftmost one is chosen, whether it varies or
not (`select_varies_iff`).
-/

namespace GradientForest

open Scalar

namespace Ranking

variable {n : ℕ} {ι : Type}

/-! ## Marked columns -/

section Marked

variable {α : Type} [Scalar α]

/-- The error of the fit in one column, before a column is marked. -/
def fitError (column residual : ι → α) (rows : List ι) : α :=
  let present := rows.filter fun i => !isNaN (column i)
  let missing := rows.filter fun i => isNaN (column i)
  (LinearFit.ofLists (present.map column) (present.map residual)).ssr +
    variation (missing.map residual)

variable (hbeq : ∀ {x y z : α}, beq x z = true → beq y z = true → beq x y = true)
variable {column residual : ι → α} {rows : List ι}

include hbeq

/-- The error of a column that varies is the error of its fit, where it has one. -/
theorem columnError_of_varies (h : Varies column rows) : columnError column residual rows =
      if isNaN (fitError column residual rows) then infinity
      else fitError column residual rows := by
  have hconstant : isConstant ((rows.filter fun i => !isNaN (column i)).map column) = false := by
    obtain ⟨i, hi, k, hk, hidefined, hkdefined, hne⟩ := h
    have hmem : ∀ l ∈ rows, isNaN (column l) = false → l ∈ rows.filter fun i => !isNaN (column i) :=
      fun l hl hdefined => by
        rw [List.mem_filter, hdefined]
        exact ⟨hl, rfl⟩
    cases hpresent : rows.filter fun i => !isNaN (column i) with
    | nil => cases hpresent ▸ hmem i hi hidefined
    | cons l present =>
      rw [hpresent] at hmem
      rw [List.map_cons, isConstant, ← List.map_cons, List.all_map, List.all_eq_false]
      -- one of the two values differs from the first one, as they differ from each other
      by_contra! hfirst
      have hequal := hbeq (hfirst i (hmem i hi hidefined)) (hfirst k (hmem k hk hkdefined))
      cases hne.symm.trans hequal
  rw [columnError]
  simp only [hconstant, Bool.false_eq_true, if_false]
  rfl

/-- If columns vary, then the chosen one does just when one of those that vary has a fit below
infinity, or when the leftmost column varies. -/
theorem varies_of_select [TotallyOrdered α] {columns : Fin n → ι → α} {j : Fin n}
    (hj : select columns residual rows = some j) :
    Varies (columns j) rows ↔
      (∃ k, Varies (columns k) rows ∧ isNaN (fitError (columns k) residual rows) = false ∧
        fitError (columns k) residual rows ≠ infinity) ∨
      ∃ k : Fin n, k.val = 0 ∧ Varies (columns k) rows := by
  have hfit (k : Fin n) : columnError (columns k) residual rows ≠ infinity ↔
      Varies (columns k) rows ∧ isNaN (fitError (columns k) residual rows) = false ∧
        fitError (columns k) residual rows ≠ infinity := by
    by_cases hk : Varies (columns k) rows
    · rw [columnError_of_varies hbeq hk]
      split_ifs <;> simp_all
    · rw [columnError_of_not_varies hk]
      exact iff_of_false (fun h => h rfl) fun h => hk h.1
  have hahead := select_eq_some_iff.1 hj
  simp only [← hfit]
  by_cases hmarked : columnError (columns j) residual rows = infinity
  · -- then all the columns are marked, and the leftmost is chosen
    have hall (k : Fin n) : columnError (columns k) residual rows = infinity ∧ j ≤ k := by
      rcases hahead k with h | ⟨heq, hle⟩
      · rw [hmarked, not_infinity_precedes_columnError] at h
        cases h
      · exact ⟨heq.symm.trans hmarked, hle⟩
    have hleft : j.val = 0 := Nat.le_zero.1 (hall ⟨0, j.pos⟩).2
    constructor
    · exact fun hvaries => .inr ⟨j, hleft, hvaries⟩
    · rintro (⟨k, hk⟩ | ⟨k, hk, hvaries⟩)
      · exact absurd (hall k).1 hk
      · rwa [Fin.ext (hleft.trans hk.symm)]
  · exact iff_of_true ((hfit j).1 hmarked).1 (.inl ⟨j, hmarked⟩)

end Marked

/-! ## Columns of binary64 numbers -/

section Binary64

open Binary64

/-- With columns that vary, one of them is chosen just when one has a fit below infinity, or
when the leftmost column varies. -/
theorem select_varies_iff (columns : Fin n → ι → Binary64) (residual : ι → Binary64)
    (rows : List ι) (h : ∃ k, Varies (columns k) rows) :
    ∃ j, select columns residual rows = some j ∧
      (Varies (columns j) rows ↔
        (∃ k, Varies (columns k) rows ∧
          Scalar.lt (fitError (columns k) residual rows) infinity = true) ∨
        ∃ k : Fin n, k.val = 0 ∧ Varies (columns k) rows) := by
  obtain ⟨k, -⟩ := h
  obtain ⟨j, hj⟩ := exists_select columns residual rows k.pos
  have hbeq {x y z : Binary64} (hx : Scalar.beq x z = true) (hy : Scalar.beq y z = true) :
      Scalar.beq x y = true := by
    rw [beq_iff_level] at hx hy ⊢
    exact ⟨hx.1, hy.1, hx.2.2.trans hy.2.2.symm⟩
  refine ⟨j, hj, ?_⟩
  simp only [lt_infinity_iff]
  exact varies_of_select hbeq hj

/-- A constant column before one that varies. -/
def constantFirst : Fin 2 → Fin 3 → Binary64 := ![![5, 5, undefined false], ![2, 0, 1]]

theorem select_varies_constantFirst :
    (∃ k, Varies (constantFirst k) [0, 1, 2]) ∧
    ∃ j, select constantFirst ![1, 0, 4] [0, 1, 2] = some j ∧
      (Varies (constantFirst j) [0, 1, 2] ↔
        (∃ k, Varies (constantFirst k) [0, 1, 2] ∧
          Scalar.lt (fitError (constantFirst k) ![1, 0, 4] [0, 1, 2]) infinity = true) ∨
        ∃ k : Fin 2, k.val = 0 ∧ Varies (constantFirst k) [0, 1, 2]) :=
  ⟨⟨1, by decide +kernel⟩, select_varies_iff constantFirst ![1, 0, 4] [0, 1, 2]
    ⟨1, by decide +kernel⟩⟩

/-- A constant column before one with a value whose square overflows. -/
def overflowing : Fin 2 → Fin 2 → Binary64 := ![![5, 5], ![0, .ofNat (10 ^ 300)]]

/-- The moments of the second column overflow and its slope is undefined, so it has the mark of
the constant column, which is chosen. -/
theorem select_overflowing :
    select overflowing ![0, .ofNat (10 ^ 10)] [0, 1] = some 0 ∧
      ¬ Varies (overflowing 0) [0, 1] ∧ Varies (overflowing 1) [0, 1] := by
  decide +kernel

end Binary64

end Ranking

end GradientForest
