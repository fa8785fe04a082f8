import Mathlib.Data.List.Basic
import Mathlib.Tactic.NormNum
import GradientForest.Forest.Metrics
import GradientForest.Proofs.Scalar.Exact

/-!
# Zeros with a sign

Scalars may have two zeros, equal as numbers.  `Scalar.SignedZeros` is what the algorithms
rely on: the sign of a zero reaches nothing but the sign of another zero.  Two values are
`Alike` if they are the same or both zeros.

A sum that starts at zero is `Settled`, it is not minus zero, and adding a zero of any
sign leaves it as it is.  So sums of alike terms are the same number, sign included
(`sumFromZero_alike`).
-/

namespace GradientForest

namespace Scalar

variable {α : Type} [Scalar α]

/-- Equal to zero as a number. -/
def IsZero (x : α) : Prop := beq x 0 = true

/-- The same, or zeros with different signs. -/
def Alike (x y : α) : Prop := x = y ∨ IsZero x ∧ IsZero y

/-- Adding a zero of any sign changes nothing. -/
def Settled (s : α) : Prop := ∀ z : α, IsZero z → s + z = s

/-- The laws of scalars with a zero of each sign, of the indicators 0 and 1, and of the
infinities. -/
class SignedZeros (α : Type) [Scalar α] : Prop where
  isZero_zero : IsZero (0 : α)
  settled_zero : Settled (0 : α)
  settled_add : ∀ {s : α} (x : α), Settled s → Settled (s + x)
  sub_left : ∀ {z z' : α} (x : α), IsZero z → IsZero z' → Alike (z - x) (z' - x)
  sub_right : ∀ {z z' : α} (x : α), IsZero z → IsZero z' → Alike (x - z) (x - z')
  mul_right : ∀ {z z' : α} (x : α), IsZero z → IsZero z' → Alike (x * z) (x * z')
  square_eq : ∀ {z z' : α}, IsZero z → IsZero z' → square z = square z'
  half_add : ∀ {z z' : α}, IsZero z → IsZero z' → IsZero ((z + z') / 2)
  odds : ∀ {z : α}, IsZero z → IsZero (z / (1 - z))
  variance : ∀ {z : α}, IsZero z → IsZero (z * (1 - z))
  lt_epsilon : ∀ {z : α}, IsZero z → lt z Metrics.epsilon = true
  not_isOne : ∀ {z : α}, IsZero z → beq z 1 = false
  isNaN_indicator : ∀ {x : α}, isIndicator x = true → isNaN x = false
  lt_indicator : ∀ {x y : α}, isIndicator x = true → isIndicator y = true →
    (lt x y = true ↔ IsZero x ∧ ¬IsZero y)
  add_neg_infinity : ∀ {x : α}, isFinite x = true → x + -infinity = -infinity
  neg_neg_infinity : - -(infinity : α) = infinity

section Alike

variable {x y z : α}

theorem Alike.refl (x : α) : Alike x x := .inl rfl

variable [SignedZeros α]

theorem Alike.sub_right (h : Alike y z) (x : α) : Alike (x - y) (x - z) := by
  rcases h with rfl | ⟨hy, hz⟩
  · exact .refl _
  · exact SignedZeros.sub_right x hy hz

theorem Alike.sub_left (h : Alike x y) (z : α) : Alike (x - z) (y - z) := by
  rcases h with rfl | ⟨hx, hy⟩
  · exact .refl _
  · exact SignedZeros.sub_left z hx hy

theorem Alike.mul_right (h : Alike y z) (x : α) : Alike (x * y) (x * z) := by
  rcases h with rfl | ⟨hy, hz⟩
  · exact .refl _
  · exact SignedZeros.mul_right x hy hz

theorem Alike.square_eq (h : Alike x y) : square x = square y := by
  rcases h with rfl | ⟨hx, hy⟩
  · rfl
  · exact SignedZeros.square_eq hx hy

omit [SignedZeros α] in
/-- A settled sum does not see which of two alike terms comes. -/
theorem Settled.add_eq {s : α} (hs : Settled s) (h : Alike x y) : s + x = s + y := by
  rcases h with rfl | ⟨hx, hy⟩
  · rfl
  · rw [hs x hx, hs y hy]

omit [Scalar α] [SignedZeros α] in
/-- Two folds agree if their steps agree on an invariant that the steps keep. -/
theorem foldl_eq_of_invariant {ι σ : Type} {P : σ → Prop} {f g : σ → ι → σ}
    (hkeep : ∀ s i, P s → P (f s i)) (hstep : ∀ s i, P s → f s i = g s i) (rows : List ι) {s : σ}
    (hs : P s) : rows.foldl f s = rows.foldl g s := by
  induction rows generalizing s with
  | nil => rfl
  | cons i rows ih =>
    rw [List.foldl_cons, List.foldl_cons, ← hstep s i hs]
    exact ih (hkeep s i hs)

theorem sumFromZero_alike {ι : Type} {term term' : ι → α} (h : ∀ i, Alike (term i) (term' i))
    (rows : List ι) : sumFromZero (rows.map term) = sumFromZero (rows.map term') := by
  rw [sumFromZero, sumFromZero, List.foldl_map, List.foldl_map]
  exact foldl_eq_of_invariant (P := Settled) (fun _ _ => SignedZeros.settled_add _)
    (fun _ i hs => hs.add_eq (h i)) rows SignedZeros.settled_zero

end Alike

end Scalar

/-! ## Exact numbers -/

open Scalar

namespace Exact

variable [Functions]

theorem isZero_iff {x : Exact} : IsZero x ↔ x = rational 0 := by
  rw [IsZero, zero_eq, beq_iff]
  constructor
  · exact And.right
  · rintro rfl
    exact ⟨nofun, rfl⟩

theorem isIndicator_iff {x : Exact} : isIndicator x = true ↔ x = rational 0 ∨ x = rational 1 := by
  have hone : Scalar.beq x 1 = true ↔ x = rational 1 := by
    rw [one_eq, beq_iff]
    constructor
    · exact And.right
    · rintro rfl
      exact ⟨nofun, rfl⟩
  rw [isIndicator, Bool.or_eq_true, hone]
  exact or_congr_left isZero_iff

/-- The one exact zero is added without effect to anything. -/
theorem settled (x : Exact) : Settled x := by
  intro z hz
  rw [isZero_iff.1 hz]
  cases x with
  | rational a => exact congrArg rational (add_zero a)
  | infinite negative => rfl
  | undefined => rfl

instance : SignedZeros Exact where
  isZero_zero := isZero_iff.2 rfl
  settled_zero := settled 0
  settled_add x _ := settled _
  sub_left x hz hz' := .inl (by rw [isZero_iff.1 hz, isZero_iff.1 hz'])
  sub_right x hz hz' := .inl (by rw [isZero_iff.1 hz, isZero_iff.1 hz'])
  mul_right x hz hz' := .inl (by rw [isZero_iff.1 hz, isZero_iff.1 hz'])
  square_eq hz hz' := by rw [isZero_iff.1 hz, isZero_iff.1 hz']
  half_add hz hz' := by
    rw [isZero_iff.1 hz, isZero_iff.1 hz', isZero_iff]
    simp [rational_div]
  odds hz := by
    rw [isZero_iff.1 hz, isZero_iff]
    simp [rational_div]
  variance hz := by
    rw [isZero_iff.1 hz, isZero_iff]
    simp
  lt_epsilon hz := by
    have hepsilon : (Metrics.epsilon : Exact) = rational (1 / (Nat.pow 10 15 : ℕ)) :=
      rational_div 1 (by norm_num)
    rw [isZero_iff.1 hz, hepsilon, lt_rational, decide_eq_true_eq]
    norm_num
  not_isOne hz := by
    rw [isZero_iff.1 hz]
    rfl
  isNaN_indicator hx := by rcases isIndicator_iff.1 hx with rfl | rfl <;> rfl
  lt_indicator hx hy := by
    rcases isIndicator_iff.1 hx with rfl | rfl <;> rcases isIndicator_iff.1 hy with rfl | rfl <;>
      simp [isZero_iff]
  add_neg_infinity hx := by
    obtain ⟨q, rfl⟩ := isFinite_iff.1 hx
    rfl
  neg_neg_infinity := rfl

end Exact

end GradientForest
