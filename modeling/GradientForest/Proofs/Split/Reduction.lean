import GradientForest.Proofs.Split.Ranking

/-!
# Reductions of ranked columns

The columns are ranked side by side, and the ranked columns are reduced to the best one in
pairs.  A `Reduction` says which pairs: it is a binary tree over the list, and each of its steps may
take the two sides in either order.

A step keeps the side that is ahead, and being ahead is a total order.  So every reduction
of a list ends with the one ranked column that is ahead of all the others
(`Reduction.value_ahead`).  It has the least error and is the leftmost one that has
(`Reduction.value_first`), and the chosen column does not depend on how the work is divided
(`Reduction.select_eq_value`).
-/

namespace GradientForest

open Scalar

namespace Ranking

/-- A way to reduce a list in pairs. -/
inductive Reduction (β : Type) where
  /-- A single item. -/
  | item (b : β)
  /-- The results of two neighbouring parts, in the order of the list or swapped. -/
  | join (swapped : Bool) (left right : Reduction β)
deriving DecidableEq, Repr

namespace Reduction

variable {β : Type}

/-- The list that is reduced. -/
def items : Reduction β → List β
  | .item b => [b]
  | .join _ left right => left.items ++ right.items

/-- The result of the reduction by a function. -/
def value (f : β → β → β) : Reduction β → β
  | .item b => b
  | .join false left right => f (left.value f) (right.value f)
  | .join true left right => f (right.value f) (left.value f)

theorem exists_items {l : List β} (hne : l ≠ []) : ∃ t : Reduction β, t.items = l := by
  induction l with
  | nil => exact absurd rfl hne
  | cons b l ih =>
    rcases eq_or_ne l [] with rfl | hl
    · exact ⟨.item b, rfl⟩
    · obtain ⟨t, ht⟩ := ih hl
      exact ⟨.join false (.item b) t, by rw [items, ht, items, List.singleton_append]⟩

variable {α ι : Type} [Scalar α] {n : ℕ}

/-- The result of a reduction is one of the items. -/
theorem value_mem (t : Reduction (Fin n × α)) : t.value better ∈ t.items := by
  induction t with
  | item c => exact List.mem_singleton_self c
  | join swapped left right hleft hright =>
    rw [items, List.mem_append]
    cases swapped with
    | false =>
      rw [value]
      rcases better_eq (left.value better) (right.value better) with h | h <;> rw [h]
      · exact .inl hleft
      · exact .inr hright
    | true =>
      rw [value]
      rcases better_eq (right.value better) (left.value better) with h | h <;> rw [h]
      · exact .inr hright
      · exact .inl hleft

variable [TotallyOrdered α]

/-- The result of a reduction is ahead of all items. -/
theorem value_ahead (t : Reduction (Fin n × α)) : ∀ x ∈ t.items, Ahead (t.value better) x := by
  induction t with
  | item c =>
    intro x hx
    rw [List.mem_singleton.1 hx]
    exact .refl c
  | join swapped left right hleft hright =>
    have hstep : Ahead ((Reduction.join swapped left right).value better) (left.value better) ∧
        Ahead ((Reduction.join swapped left right).value better) (right.value better) := by
      cases swapped with
      | false => exact better_ahead _ _
      | true => exact (better_ahead _ _).symm
    intro x hx
    rcases List.mem_append.1 hx with hx | hx
    · exact hstep.1.trans (hleft x hx)
    · exact hstep.2.trans (hright x hx)

/-- All reductions of a list have the result of the one from left to right. -/
theorem best?_items (t : Reduction (Fin n × α)) : best? t.items = some (t.value better) :=
  best?_eq_some_iff.2 ⟨t.value_mem, t.value_ahead⟩

/-- The chosen column is the result of every reduction of the ranked columns. -/
theorem select_eq_value {columns : Fin n → ι → α} {residual : ι → α} {rows : List ι}
    {t : Reduction (Fin n × α)} (ht : t.items =
      (List.finRange n).map fun j => (j, columnError (columns j) residual rows)) :
    select columns residual rows = some (t.value better).1 := by
  rw [select, ← ht, best?_items, Option.map_some]

/-! ## Binary64 errors -/

/-- All reductions of a list have one result.  No error comes before its error in the total
order, and no column with the same error is further left. -/
theorem value_first {l : List (Fin n × Binary64)} (hne : l ≠ []) :
    (∃ t : Reduction (Fin n × Binary64), t.items = l) ∧
    ∃ first ∈ l,
      (∀ x ∈ l, precedes x.2 first.2 = false ∧ (x.2 = first.2 → first.1 ≤ x.1)) ∧
      ∀ t : Reduction (Fin n × Binary64), t.items = l → t.value better = first := by
  obtain ⟨t, rfl⟩ := exists_items hne
  refine ⟨⟨t, rfl⟩, t.value better, t.value_mem, fun x hx => ?_, fun t' ht' => ?_⟩
  · have hahead := t.value_ahead x hx
    refine ⟨hahead.not_precedes, fun heq => ?_⟩
    rcases hahead with hprecedes | ⟨-, hle⟩
    · rw [heq, TotallyOrdered.irrefl] at hprecedes
      cases hprecedes
    · exact hle
  · have hbest := ht' ▸ t'.best?_items
    exact Option.some.inj (hbest.symm.trans t.best?_items)

/-- Ranked columns with an undefined error and with both zeros. -/
def zerosRanked : List (Fin 4 × Binary64) :=
  [(0, Binary64.undefined false), (1, 0), (2, -0), (3, -0)]

theorem value_first_zerosRanked :
    zerosRanked ≠ [] ∧
    (∃ t : Reduction (Fin 4 × Binary64), t.items = zerosRanked) ∧
    ∃ first ∈ zerosRanked,
      (∀ x ∈ zerosRanked, precedes x.2 first.2 = false ∧ (x.2 = first.2 → first.1 ≤ x.1)) ∧
      ∀ t : Reduction (Fin 4 × Binary64), t.items = zerosRanked → t.value better = first :=
  ⟨List.cons_ne_nil _ _, value_first (List.cons_ne_nil _ _)⟩

/-- Minus zero comes before zero, and the left one of two is kept in either order. -/
example : (join true (join false (item ((0 : Fin 4), Binary64.undefined false)) (item (1, 0)))
    (join true (item (2, -0)) (item (3, -0)))).value better = (2, (-0 : Binary64)) := by
  decide +kernel

end Reduction

end Ranking

end GradientForest
