import Mathlib.Data.List.FinRange
import GradientForest.Split.Ranking
import GradientForest.Proofs.Scalar.Ordered

/-!
# The best column

`Ahead` is the order in which the reduction ranks columns: by their errors, and with equal
errors from left to right.  The chosen column is ahead of all the others, and it is the only
such column (`select_eq_some_iff`).

A column that does not vary on the rows is marked by an infinite error
(`columnError_of_not_varies`).  The error of a column can be infinite, but it is never
undefined (`columnError_cases`), so no column ranks behind one at infinity.

Ties go to the left.  So the last column is not chosen when it equals another one, or when
it ranks at infinity (`select_last`).
-/

namespace GradientForest

open Scalar

namespace Ranking

variable {α ι : Type} [Scalar α] {n : ℕ}

/-! ## The order of ranked columns -/

/-- The error is smaller, or it is the same and the column is further left. -/
def Ahead (a b : Fin n × α) : Prop :=
  precedes a.2 b.2 = true ∨ a.2 = b.2 ∧ a.1 ≤ b.1

theorem Ahead.refl (a : Fin n × α) : Ahead a a := .inr ⟨rfl, le_refl _⟩

theorem better_eq (a b : Fin n × α) : better a b = a ∨ better a b = b := by
  rw [better]
  split_ifs <;> simp

theorem foldl_better_mem (c : Fin n × α) (cs : List (Fin n × α)) :
    cs.foldl better c ∈ c :: cs := by
  induction cs generalizing c with
  | nil => exact List.mem_singleton_self c
  | cons y cs ih =>
    rw [List.foldl_cons]
    rcases List.mem_cons.1 (ih (better c y)) with h | h
    · rw [h]
      rcases better_eq c y with heq | heq <;> simp [heq]
    · exact List.mem_cons_of_mem _ (List.mem_cons_of_mem _ h)

section Order

variable [TotallyOrdered α] {a b c : Fin n × α}

theorem Ahead.trans (hab : Ahead a b) (hbc : Ahead b c) : Ahead a c := by
  rcases hab with hab | ⟨heq, hle⟩
  · rcases hbc with hbc | ⟨heq', -⟩
    · exact .inl (TotallyOrdered.trans hab hbc)
    · exact .inl (heq' ▸ hab)
  · rcases hbc with hbc | ⟨heq', hle'⟩
    · exact .inl (heq ▸ hbc)
    · exact .inr ⟨heq.trans heq', hle.trans hle'⟩

theorem Ahead.not_precedes (h : Ahead a b) : precedes b.2 a.2 = false := by
  rcases h with h | ⟨heq, -⟩
  · exact not_precedes_of_precedes h
  · rw [heq]
    exact TotallyOrdered.irrefl b.2

theorem Ahead.antisymm (hab : Ahead a b) (hba : Ahead b a) : a = b := by
  rcases hab with hab | ⟨heq, hle⟩
  · cases hab.symm.trans hba.not_precedes
  · rcases hba with hba | ⟨-, hle'⟩
    · rw [heq, TotallyOrdered.irrefl] at hba
      cases hba
    · exact Prod.ext (le_antisymm hle hle') heq

/-- A column further right is behind one that it does not precede. -/
theorem ahead_of_not_precedes (h : precedes b.2 a.2 = false) (hle : a.1 ≤ b.1) : Ahead a b := by
  rcases TotallyOrdered.trichotomous a.2 b.2 with hab | heq | hba
  · exact .inl hab
  · exact .inr ⟨heq, hle⟩
  · cases h.symm.trans hba

theorem better_ahead (a b : Fin n × α) : Ahead (better a b) a ∧ Ahead (better a b) b := by
  rw [better]
  split_ifs with hab hba hle
  · exact ⟨.refl a, .inl hab⟩
  · exact ⟨.inl hba, .refl b⟩
  · exact ⟨.refl a, ahead_of_not_precedes (Bool.eq_false_iff.2 hba) hle⟩
  · exact ⟨ahead_of_not_precedes (Bool.eq_false_iff.2 hab) (not_le.1 hle).le, .refl b⟩

theorem foldl_better_ahead (c : Fin n × α) (cs : List (Fin n × α)) :
    ∀ x ∈ c :: cs, Ahead (cs.foldl better c) x := by
  induction cs generalizing c with
  | nil =>
    intro x hx
    rw [List.mem_singleton.1 hx]
    exact .refl c
  | cons y cs ih =>
    obtain ⟨hc, hy⟩ := better_ahead c y
    obtain ⟨hbetter, hrest⟩ := List.forall_mem_cons.1 (ih (better c y))
    simp only [List.forall_mem_cons]
    exact ⟨hbetter.trans hc, hbetter.trans hy, hrest⟩

/-- The best ranked column is in the list and ahead of all the list. -/
theorem best?_eq_some_iff {l : List (Fin n × α)} :
    best? l = some a ↔ a ∈ l ∧ ∀ x ∈ l, Ahead a x := by
  cases l with
  | nil => simp [best?]
  | cons c cs =>
    have hahead := foldl_better_ahead c cs
    have hmem := foldl_better_mem c cs
    rw [best?, Option.some.injEq]
    constructor
    · rintro rfl
      exact ⟨hmem, hahead⟩
    · intro h
      exact (hahead a h.1).antisymm (h.2 _ hmem)

end Order

/-! ## The chosen column -/

section Select

variable {columns : Fin n → ι → α} {residual : ι → α} {rows : List ι}

theorem select_eq_none_iff : select columns residual rows = none ↔ n = 0 := by
  rw [select, Option.map_eq_none_iff]
  cases n with
  | zero => simp [best?]
  | succ n => simp [best?, List.finRange_succ]

variable (columns residual rows) in
theorem exists_select (hpos : 0 < n) : ∃ j, select columns residual rows = some j := by
  rw [← Option.ne_none_iff_exists', ne_eq, select_eq_none_iff]
  exact hpos.ne'

/-- The chosen column is the one whose error comes first, from left to right. -/
theorem select_eq_some_iff [TotallyOrdered α] {j : Fin n} :
    select columns residual rows = some j ↔
      ∀ k, Ahead (j, columnError (columns j) residual rows)
        (k, columnError (columns k) residual rows) := by
  simp only [select, Option.map_eq_some_iff, best?_eq_some_iff, List.mem_map, List.mem_finRange,
    true_and]
  constructor
  · rintro ⟨-, ⟨⟨j, rfl⟩, hahead⟩, rfl⟩ k
    exact hahead _ ⟨k, rfl⟩
  · intro hahead
    refine ⟨_, ⟨⟨j, rfl⟩, ?_⟩, rfl⟩
    rintro - ⟨k, rfl⟩
    exact hahead k

end Select

/-! ## The error of a column -/

section Error

variable {column residual : ι → α} {rows : List ι}

/-- Two rows have different values in the column. -/
def Varies (column : ι → α) (rows : List ι) : Prop :=
  ∃ i ∈ rows, ∃ k ∈ rows, isNaN (column i) = false ∧ isNaN (column k) = false ∧
    beq (column i) (column k) = false

instance (column : ι → α) (rows : List ι) : Decidable (Varies column rows) :=
  inferInstanceAs (Decidable (∃ i ∈ rows, ∃ k ∈ rows,
    isNaN (column i) = false ∧ isNaN (column k) = false ∧ beq (column i) (column k) = false))

/-- A column that does not vary is marked. -/
theorem columnError_of_not_varies (h : ¬ Varies column rows) :
    columnError column residual rows = infinity := by
  have hconstant : isConstant ((rows.filter fun i => !isNaN (column i)).map column) = true := by
    cases hpresent : rows.filter fun i => !isNaN (column i) with
    | nil => rfl
    | cons i present =>
      have hdefined : ∀ k ∈ i :: present, k ∈ rows ∧ isNaN (column k) = false := fun k hk => by
        rwa [← hpresent, List.mem_filter, Bool.not_eq_true'] at hk
      rw [List.map_cons, isConstant, ← List.map_cons, List.all_map, List.all_eq_true]
      intro k hk
      obtain ⟨hi, hidefined⟩ := hdefined i List.mem_cons_self
      obtain ⟨hk, hkdefined⟩ := hdefined k hk
      rw [Function.comp_apply, ← Bool.not_eq_false]
      exact fun hbeq => h ⟨k, hk, i, hi, hkdefined, hidefined, hbeq⟩
  rw [columnError]
  simp only [hconstant, if_true]

/-- The error of a column is defined. -/
theorem columnError_cases (column residual : ι → α) (rows : List ι) :
    columnError column residual rows = infinity ∨
      isNaN (columnError column residual rows) = false := by
  simp only [columnError]
  split_ifs with hconstant hundefined
  · exact .inl rfl
  · exact .inl rfl
  · exact .inr (Bool.eq_false_iff.2 hundefined)

variable [TotallyOrdered α]

theorem not_infinity_precedes_columnError (column residual : ι → α) (rows : List ι) :
    precedes infinity (columnError column residual rows) = false := by
  rcases columnError_cases column residual rows with h | h
  · rw [h]
    exact TotallyOrdered.irrefl infinity
  · exact not_infinity_precedes h

/-- The last column is never chosen when another one leaves as much unexplained, or when
it ranks at infinity. -/
theorem select_last {columns : Fin (n + 1) → ι → α} (hpos : 0 < n)
    (hlast : (∃ j : Fin n, columns (Fin.last n) = columns j.castSucc) ∨
      columnError (columns (Fin.last n)) residual rows = infinity) :
    select columns residual rows =
      (select (fun j : Fin n => columns j.castSucc) residual rows).map Fin.castSucc := by
  obtain ⟨j, hj⟩ := exists_select (fun j : Fin n => columns j.castSucc) residual rows hpos
  have hahead := select_eq_some_iff.1 hj
  rw [hj, Option.map_some, select_eq_some_iff]
  intro k
  cases k using Fin.lastCases with
  | cast k => exact hahead k
  | last =>
    -- on a tie, two errors at infinity among them, the added column is the one further right
    refine ahead_of_not_precedes ?_ (Fin.le_last _)
    rcases hlast with ⟨l, hcopy⟩ | hinfinite
    · rw [hcopy]
      exact (hahead l).not_precedes
    · rw [hinfinite]
      exact not_infinity_precedes_columnError _ residual rows

end Error

end Ranking

end GradientForest
