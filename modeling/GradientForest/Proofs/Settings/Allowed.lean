import GradientForest.Settings.Basic
import GradientForest.Proofs.Scalar.Ordered

/-!
# Allowed settings

`Settings.Allowed` lists what the check of settings asks for, and settings pass the check
exactly when they are allowed (`Settings.validate_eq_ok_iff`).  The verbosity and the number
of threads are free.
-/

namespace GradientForest.Settings

open Scalar

variable {α : Type} [Scalar α] {s : Settings α}

/-- What the check asks for. -/
structure Allowed (s : Settings α) : Prop where
  /-- There is a round. -/
  numTrees : ¬ s.numTrees < 1
  /-- The learning rate is positive. -/
  learningRate_pos : le s.learningRate 0 = false
  /-- The learning rate is finite. -/
  learningRate_finite : isFinite s.learningRate = true
  /-- There is a level of splits. -/
  maxDepth_pos : ¬ s.maxDepth < 1
  /-- Node numbers stay exact. -/
  maxDepth_lt : s.maxDepth.toNat < maxExactLevel
  /-- The regularisation is not negative. -/
  lambda_nonneg : lt s.lambda 0 = false
  /-- The regularisation is finite. -/
  lambda_finite : isFinite s.lambda = true

theorem validate_eq_ok_iff : s.validate = .ok () ↔ s.Allowed := by
  constructor
  · intro h
    rw [validate] at h
    split_ifs at h with hnumTrees hrate hdepth hlevel hlambda
    rw [Bool.not_eq_true, Bool.or_eq_false_iff, Bool.not_eq_false'] at hrate hlambda
    exact ⟨hnumTrees, hrate.1, hrate.2, hdepth, Nat.lt_of_not_le hlevel, hlambda.1, hlambda.2⟩
  · intro h
    have hlevel : ¬ maxExactLevel ≤ s.maxDepth.toNat := Nat.not_le.2 h.maxDepth_lt
    simp [validate, h.numTrees, h.learningRate_pos, h.learningRate_finite, h.maxDepth_pos, hlevel,
      h.lambda_nonneg, h.lambda_finite]

/-- The check does not look at the verbosity. -/
theorem validate_withVerbosity (s : Settings α) (verbosity : Verbosity) :
    ({ s with verbosity } : Settings α).validate = s.validate := rfl

section Binary64

variable {s : Settings Binary64}

theorem Allowed.isFinite_learningRate (h : s.Allowed) : s.learningRate.isFinite = true := by
  rw [← Binary64.scalar_isFinite]
  exact h.learningRate_finite

theorem Allowed.isFinite_lambda (h : s.Allowed) : s.lambda.isFinite = true := by
  rw [← Binary64.scalar_isFinite]
  exact h.lambda_finite

end Binary64

end GradientForest.Settings
