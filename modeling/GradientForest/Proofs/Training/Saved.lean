import GradientForest.Proofs.Forest.ModelFile
import GradientForest.Proofs.Training.Rounds

/-!
# Trained forests in model files

The trees of a trained forest always pass their check, and its learning rate is finite.
So a trained forest passes its check when its bias is finite, and its JSON file is
loaded again when its thresholds and leaf values are finite as well, and in no other
case (`Settings.train_saved`).

Training does not look after this.  The median of finite labels can overflow, and so can
the threshold between two finite values of a column (`Settings.train_overflows`).
-/

namespace GradientForest

open Scalar

namespace Training

variable {s : Settings Binary64} {d : Dataset Binary64} {f : Forest Binary64}
  {history : History Binary64}

theorem validateTrees_of_train (h : s.train d = .ok (f, history)) : f.validateTrees = .ok () := by
  refine forM_eq_ok_iff.2 fun t ht => ?_
  obtain ⟨hdepth, _, -, hgrown⟩ := grown_of_train h (Array.mem_toList_iff.1 ht)
  exact hgrown.validate_eq hdepth

theorem bias_of_train (h : s.train d = .ok (f, history)) : f.bias = bias d := by
  obtain ⟨-, -, st, -, rfl, -⟩ := train_eq_ok_iff.1 h
  rfl

theorem isFinite_learningRate_of_validate (h : s.validate = .ok ()) :
    s.learningRate.isFinite = true :=
  (Settings.validate_eq_ok_iff.1 h).isFinite_learningRate

end Training

namespace Settings

open Training

/-- A trained forest passes its check when its bias is finite.  It is read from its JSON
text, and loaded from a JSON file, when its thresholds and leaf values are finite too. -/
theorem train_saved {s : Settings Binary64} {d : Dataset Binary64} {f : Forest Binary64}
    {history : History Binary64} (h : s.train d = .ok (f, history)) :
    (f.validate = .ok () ↔ f.bias.isFinite = true) ∧
    (Forest.ofJson f.toJson = .ok f ↔
      f.bias.isFinite = true ∧ ∀ t ∈ f.trees, ∀ n ∈ t.nodes, n.kind.isFinite = true) ∧
    ∀ path, HasExtension path ["json"] → ∃ bytes, f.save path true = .ok bytes ∧
      (Forest.load path (some bytes) = .ok f ↔
        f.bias.isFinite = true ∧ ∀ t ∈ f.trees, ∀ n ∈ t.nodes, n.kind.isFinite = true) := by
  have hvalid : f.validate = .ok () ↔ f.bias.isFinite = true := by
    refine ⟨Forest.isFinite_bias, fun hbias => ?_⟩
    rw [Forest.validate, Binary64.scalar_isFinite, if_pos hbias, validateTrees_of_train h]
  have hrate : f.learningRate.isFinite = true := by
    obtain ⟨hs, -, st, -, rfl, -⟩ := train_eq_ok_iff.1 h
    exact isFinite_learningRate_of_validate hs
  have hread : (if f.isFinite then (f.validate >>= fun _ => .ok f) else .error .json) = .ok f ↔
      f.bias.isFinite = true ∧ ∀ t ∈ f.trees, ∀ n ∈ t.nodes, n.kind.isFinite = true := by
    by_cases hf : f.isFinite = true
    · obtain ⟨hbias, hnodes, -⟩ := Forest.isFinite_iff.1 hf
      rw [if_pos hf, hvalid.2 hbias]
      exact iff_of_true rfl ⟨hbias, hnodes⟩
    · rw [if_neg hf]
      exact iff_of_false (by intro h; cases h) fun hnumbers =>
        hf (Forest.isFinite_iff.2 ⟨hnumbers.1, hnumbers.2, hrate⟩)
  refine ⟨hvalid, by rw [Forest.ofJson_toJson, hread], fun path hpath => ?_⟩
  have hjson := ModelFormat.ofPath_json hpath
  exact ⟨f.encode .json, Forest.save_eq hjson, by rw [Forest.load_encode_json hjson, hread]⟩

theorem train_saved_mixedData :
    ∃ f history, (threeRounds .regression).train Growth.mixedData = .ok (f, history) ∧
      f.validate = .ok () ∧ Forest.ofJson f.toJson = .ok f := by
  have hfinite : ((threeRounds .regression).train Growth.mixedData).map (·.1.isFinite) =
      .ok true := by decide +kernel
  obtain ⟨f, history, h⟩ := exists_train (s := threeRounds .regression) (d := Growth.mixedData)
    (by decide +kernel) (by decide +kernel)
  rw [h] at hfinite
  obtain ⟨hbias, hnodes, -⟩ := Forest.isFinite_iff.1 (Except.ok.inj hfinite)
  obtain ⟨hvalid, hread, -⟩ := train_saved h
  exact ⟨f, history, h, hvalid.2 hbias, hread.2 ⟨hbias, hnodes⟩⟩

/-! ## Overflow -/

/-- The number 1.7e308, more than half of the largest finite number. -/
def huge : Binary64 := .ofNat (17 * 10 ^ 307)

/-- Two rows with the values of one scalar column and the labels. -/
def twoRows (column labels : Vector Binary64 2) : Dataset Binary64 where
  features := ⟨2, 1, column.map fun x => #v[x]⟩
  labels
  catalog := ⟨[.scalar]⟩
  names := none
  height_pos := (by decide : 0 < 2)
  catalog_length := rfl
  indicators := fun ⟨0, _⟩ hscalar => nomatch (show FeatureKind.scalar = .categorical from hscalar)
  height_lt := (by decide : 2 < Dataset.capacity)
  width_lt := (by decide : 1 < Dataset.capacity)

/-- One round of depth one. -/
def oneRound : Settings Binary64 := { default with numTrees := 1, maxDepth := 1 }

/-- The median of two huge labels overflows, and the trained forest fails its check.  The
threshold between two huge values of a column overflows, and the trained forest passes
its check, but cannot be read from its JSON text. -/
theorem train_overflows :
    (∃ f history, oneRound.train (twoRows #v[0, 0] #v[huge, huge]) = .ok (f, history) ∧
      f.validate ≠ .ok () ∧ Forest.ofJson f.toJson ≠ .ok f) ∧
    ∃ f history, oneRound.train (twoRows #v[-huge, huge] #v[0, 1]) = .ok (f, history) ∧
      f.validate = .ok () ∧ Forest.ofJson f.toJson ≠ .ok f := by
  constructor
  · obtain ⟨f, history, h⟩ := exists_train (s := oneRound) (d := twoRows #v[0, 0] #v[huge, huge])
      (by decide +kernel) (by decide +kernel)
    have hinfinite : (bias (twoRows #v[0, 0] #v[huge, huge])).isFinite = false := by
      decide +kernel
    have hbias : f.bias.isFinite = false := by rw [bias_of_train h, hinfinite]
    have hread := Forest.ofJson_toJson f
    rw [Forest.isFinite, hbias, Bool.false_and, Bool.false_and, if_neg Bool.false_ne_true] at hread
    refine ⟨f, history, h, fun hvalid => ?_, by rw [hread]; intro h; cases h⟩
    exact absurd (Forest.isFinite_bias hvalid) (by rw [hbias]; decide)
  · obtain ⟨f, history, h⟩ := exists_train (s := oneRound) (d := twoRows #v[-huge, huge] #v[0, 1])
      (by decide +kernel) (by decide +kernel)
    have hchecks : (oneRound.train (twoRows #v[-huge, huge] #v[0, 1])).map
        (fun p => (p.1.validate, p.1.isFinite)) = .ok (.ok (), false) := by decide +kernel
    rw [h] at hchecks
    obtain ⟨hvalid, hinfinite⟩ := Prod.mk.inj (Except.ok.inj hchecks)
    have hread := Forest.ofJson_toJson f
    rw [hinfinite, if_neg Bool.false_ne_true] at hread
    exact ⟨f, history, h, hvalid, by rw [hread]; intro h; cases h⟩

end Settings

end GradientForest
