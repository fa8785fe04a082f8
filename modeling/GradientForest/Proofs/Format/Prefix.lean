import Mathlib.Data.List.Basic
import GradientForest.Proofs.Format.LittleEndian

/-!
# Readers and more input

A reader takes what it needs from the front of its input and leaves the rest.  It is
`Local` when more input behind changes nothing but the rest.  Then no strict prefix of an
input that is taken as a whole is taken as anything (`Local.eq_none_of_prefix`): a reader
that stopped inside would also stop there on the whole input.

Local readers one after another are local (`Local.bind`), and so are the readers of words,
numbers and lists in bytes.
-/

namespace GradientForest

/-- More input behind what is taken is left, and nothing else changes. -/
def Local {σ β : Type} (take? : List σ → Option (β × List σ)) : Prop :=
  ∀ ⦃cs x rest⦄, take? cs = some (x, rest) → ∀ more, take? (cs ++ more) = some (x, rest ++ more)

namespace Local

variable {σ β γ : Type} {take? : List σ → Option (β × List σ)}

/-- No strict prefix of an input that is taken as a whole is taken. -/
theorem eq_none_of_prefix (h : Local take?) {whole front : List σ} {x : β}
    (hwhole : take? whole = some (x, [])) (hcut : front <+: whole) (hne : front ≠ whole) :
    take? front = none := by
  obtain ⟨more, rfl⟩ := hcut
  by_contra hsome
  obtain ⟨⟨y, rest⟩, hfront⟩ := Option.ne_none_iff_exists'.1 hsome
  have hmore := h hfront more
  rw [hwhole, Option.some.injEq, Prod.mk.injEq] at hmore
  have hnil : more = [] := (List.append_eq_nil_iff.1 hmore.2.symm).2
  exact hne (by rw [hnil, List.append_nil])

theorem pure (x : β) : Local fun cs : List σ => some (x, cs) := by
  intro cs y rest h more
  cases h
  rfl

theorem none : Local fun _ : List σ => (Option.none : Option (β × List σ)) := by
  intro cs x rest h
  cases h

theorem bind (h : Local take?) {next : β × List σ → Option (γ × List σ)}
    (hnext : ∀ x, Local fun cs => next (x, cs)) : Local fun cs => (take? cs).bind next := by
  intro cs y rest hsome more
  obtain ⟨⟨x, between⟩, htake, hy⟩ := Option.bind_eq_some_iff.1 hsome
  dsimp only
  rw [h htake more, Option.bind_some]
  exact hnext x hy more

theorem map (h : Local take?) (f : β → γ) :
    Local fun cs => (take? cs).map fun p => (f p.1, p.2) := by
  intro cs y rest hsome more
  obtain ⟨⟨x, between⟩, htake, hy⟩ := Option.map_eq_some_iff.1 hsome
  cases hy
  dsimp only
  rw [h htake more, Option.map_some]

end Local

namespace LittleEndian

theorem local_take? (n : ℕ) : Local (take? n) := by
  intro bs v rest h more
  rw [take?] at h
  split at h
  next hle =>
    cases h
    have hle' : n ≤ (bs ++ more).length := by
      rw [List.length_append]
      omega
    rw [take?, if_pos hle', List.take_append_of_le_length hle, List.drop_append_of_le_length hle]
  next => cases h

theorem local_word? : Local word? := (local_take? 8).map UInt64.ofNat

theorem local_float? : Local float? := local_word?.map Binary64.mk

theorem local_tag? : Local tag? := local_take? 4

section Lists

variable {β : Type} {item? : List UInt8 → Option (β × List UInt8)}

theorem local_items? (h : Local item?) (n : ℕ) : Local (items? item? n) := by
  induction n with
  | zero => exact .pure []
  | succ n ih => exact h.bind fun x => ih.bind fun xs => .pure (x :: xs)

theorem local_list? (h : Local item?) : Local (list? item?) :=
  local_word?.bind fun n => local_items? h n.toNat

end Lists

end LittleEndian

end GradientForest
