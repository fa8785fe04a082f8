import GradientForest.Forest.File
import GradientForest.Proofs.Forest.BinaryRoundTrip
import GradientForest.Proofs.Forest.JsonRoundTrip
import GradientForest.Proofs.Outcome
import GradientForest.Proofs.Scalar.Ordered

/-!
# Model files lose nothing

A forest is saved as the extension of the path says, and the same extension decides how
the file is read.  Binary files keep every bit pattern.  JSON files keep the finite
numbers, whose shortest decimals are read back, and have no word for the others.

So a forest that passes its check is loaded as it was saved (`Forest.load_save`).  The
files of other forests, and of JSON with a number that is not finite, are refused
(`Forest.load_encode_binary`, `Forest.load_encode_json`).
-/

namespace GradientForest

open Scalar

/-! ## Extensions -/

/-- The extension of a path is one of some words, in any case. -/
def HasExtension (path : String) (words : List String) : Prop :=
  ∃ e, FileName.extension? path = some e ∧ e.toList.map Char.toLower ∈ words.map String.toList

namespace ModelFormat

theorem ofPath_json {path : String} (h : HasExtension path ["json"]) : ofPath path = .ok .json := by
  obtain ⟨e, he, hmem⟩ := h
  rw [List.map_singleton, List.mem_singleton] at hmem
  rw [ofPath, he, Option.map_some, hmem]
  rfl

theorem ofPath_binary {path : String} (h : HasExtension path ["bin", "bincode"]) :
    ofPath path = .ok .binary := by
  obtain ⟨e, he, hmem⟩ := h
  rw [ofPath, he, Option.map_some]
  rcases List.mem_cons.1 hmem with hbin | hmem
  · rw [hbin]
    rfl
  · rw [List.mem_singleton.1 hmem]
    rfl

end ModelFormat

namespace Forest

variable {f : Forest Binary64} {path : String}

theorem isFinite_bias (hf : f.validate = .ok ()) : f.bias.isFinite = true := by
  rw [validate] at hf
  split at hf
  next hbias => rwa [Binary64.scalar_isFinite] at hbias
  next => cases hf

/-- A file at a writable path is the encoded forest. -/
theorem save_eq {format : ModelFormat} (h : ModelFormat.ofPath path = .ok format) :
    f.save path true = .ok (f.encode format) := by
  rw [save, h]
  rfl

/-- A file at a path is read in the format of the path. -/
theorem load_eq {format : ModelFormat} (h : ModelFormat.ofPath path = .ok format)
    (bytes : List UInt8) : load path (some bytes) = decode bytes format := by
  rw [load, h]
  rfl

theorem load_encode_binary (hpath : ModelFormat.ofPath path = .ok .binary) (hf : f.Countable) :
    load path (some (f.encode .binary)) = f.validate >>= fun _ => .ok f := by
  rw [load_eq hpath, encode, decode, ofBytes_toBytes hf]

theorem load_encode_json (hpath : ModelFormat.ofPath path = .ok .json) :
    load path (some (f.encode .json)) =
      if f.isFinite then (f.validate >>= fun _ => .ok f) else .error .json := by
  rw [load_eq hpath, encode, decode, ofJsonBytes_toJson]

theorem isFinite_iff : f.isFinite = true ↔
    f.bias.isFinite = true ∧ (∀ t ∈ f.trees, ∀ n ∈ t.nodes, n.kind.isFinite = true) ∧
      f.learningRate.isFinite = true := by
  simp only [isFinite, Bool.and_eq_true, List.all_eq_true, Tree.isFinite, Array.mem_toList_iff,
    and_assoc]

/-- A forest that passes its check is loaded as it was saved: always from a binary file,
and from a JSON file when its numbers are finite. -/
theorem load_save (f : Forest Binary64) (hf : f.validate = .ok ()) (path : String) :
    (HasExtension path ["bin", "bincode"] → f.Countable →
      ∃ bytes, f.save path true = .ok bytes ∧ load path (some bytes) = .ok f) ∧
    (HasExtension path ["json"] → f.learningRate.isFinite = true →
      (∀ t ∈ f.trees, ∀ n ∈ t.nodes, n.kind.isFinite = true) →
      ∃ bytes, f.save path true = .ok bytes ∧ load path (some bytes) = .ok f) := by
  constructor
  · intro hpath hcount
    have hbinary := ModelFormat.ofPath_binary hpath
    refine ⟨f.encode .binary, save_eq hbinary, ?_⟩
    rw [load_encode_binary hbinary hcount, hf]
    rfl
  · intro hpath hrate hnodes
    have hjson := ModelFormat.ofPath_json hpath
    refine ⟨f.encode .json, save_eq hjson, ?_⟩
    rw [load_encode_json hjson, if_pos (isFinite_iff.2 ⟨isFinite_bias hf, hnodes, hrate⟩), hf]
    rfl

/-- A forest with every kind of node, subnormal and negative numbers. -/
def storedForest : Forest Binary64 :=
  ⟨1 / 3, #[⟨1, #[⟨1, 1, 1, .scalar 0 (-5 / 2)⟩, ⟨2, 1, 2, .categorical 1⟩, .leaf 3 1 (1 / 10),
    .leaf 4 1 ⟨1⟩, .leaf 5 1 (-0)]⟩], 3 / 10, .classification⟩

theorem load_save_storedForest :
    storedForest.validate = .ok () ∧
    (∃ bytes, storedForest.save "model.BIN" true = .ok bytes ∧
      load "model.BIN" (some bytes) = .ok storedForest) ∧
    ∃ bytes, storedForest.save "model.json" true = .ok bytes ∧
      load "model.json" (some bytes) = .ok storedForest := by
  have hvalid : storedForest.validate = .ok () := by decide +kernel
  refine ⟨hvalid, (load_save storedForest hvalid "model.BIN").1 ⟨"BIN", by decide, by decide⟩ ?_,
    (load_save storedForest hvalid "model.json").2 ⟨"json", by decide, by decide⟩
      (by decide +kernel) (by decide +kernel)⟩
  exact ⟨by decide, by decide⟩

end Forest

end GradientForest
