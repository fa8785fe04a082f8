import GradientForest.Proofs.Forest.ModelFile
import GradientForest.Proofs.Tree.SingleTree

/-!
# Accepted tables and trees

A table of nodes is accepted as a tree when it passes validation, and the trees of a loaded
forest have passed it.  In an accepted table the columns and the numbers of all children are
words.  It is one binary tree when every column behind the first has a split that points at
it (`Tree.accepted_singleTree_iff`).

Validation does not see to this.  It accepts a leaf that no path reaches, whose number counts
towards the depth, a second root, and a node with the number 0 (`Tree.accepted_strays`).
-/

namespace GradientForest

open Scalar

namespace Forest

theorem validate_of_mem {f : Forest Binary64} (h : f.validate = .ok ()) {t : Tree Binary64}
    (ht : t ∈ f.trees) : t.validate = .ok () := by
  rw [validate] at h
  split at h
  next => exact forM_eq_ok_iff.1 h t (Array.mem_toList_iff.2 ht)
  next => cases h

/-- A loaded forest passes its check. -/
theorem validate_of_load {path : String} {file : Option (List UInt8)} {f : Forest Binary64}
    (h : load path file = .ok f) : f.validate = .ok () := by
  have hchecked {g : Forest Binary64} (hg : (g.validate >>= fun _ => .ok g) = .ok f) :
      f.validate = .ok () := by
    obtain ⟨_, hvalid, heq⟩ := bind_eq_ok_iff.1 hg
    cases heq
    exact hvalid
  obtain ⟨format, -, h⟩ := bind_eq_ok_iff.1 h
  cases file with
  | none => cases h
  | some bytes =>
    cases format with
    | json =>
      change ofDocument _ = _ at h
      rw [ofDocument] at h
      split at h
      next => cases h
      next => exact hchecked h
    | binary =>
      change ofBytes _ = _ at h
      rw [ofBytes] at h
      split at h
      next => cases h
      next => exact hchecked h

end Forest

namespace Tree

/-- A table that is accepted as a tree. -/
inductive Accepted : Tree Binary64 → Prop where
  /-- It was made from a list of nodes. -/
  | made {id : UInt64} {nodes : Array (Node Binary64)} {t : Tree Binary64}
    (made : ofNodes id nodes = .ok t) : Accepted t
  /-- It was loaded with a forest. -/
  | loaded {path : String} {file : Option (List UInt8)} {f : Forest Binary64} {t : Tree Binary64}
    (loaded : Forest.load path file = .ok f) (mem : t ∈ f.trees) : Accepted t

theorem Accepted.validate_eq {t : Tree Binary64} (h : t.Accepted) : t.validate = .ok () := by
  cases h with
  | made made =>
    obtain ⟨_, hvalid, heq⟩ := bind_eq_ok_iff.1 made
    cases heq
    exact hvalid
  | loaded loaded mem => exact Forest.validate_of_mem (Forest.validate_of_load loaded) mem

/-- In an accepted table nothing overflows.  It is one binary tree when every column behind the
first has a split that points at it. -/
theorem accepted_singleTree_iff {t : Tree Binary64} (h : t.Accepted) :
    t.WithinWords ∧ (t.SingleTree ↔ t.Connected) :=
  ⟨(validate_eq_ok_iff_consistent.1 h.validate_eq).2, singleTree_iff h.validate_eq⟩

theorem ofNodes_nodes (t : Tree Binary64) (h : t.validate = .ok ()) :
    ofNodes t.id t.nodes = .ok t := by
  change (t.validate >>= fun _ => .ok t) = .ok t
  rw [h]
  rfl

theorem accepted_singleTree_iff_mixedTree :
    mixedTree.Accepted ∧ mixedTree.WithinWords ∧ mixedTree.SingleTree := by
  have hconn : mixedTree.Connected := by
    intro c hpos hc
    obtain rfl | rfl | rfl | rfl : c = 1 ∨ c = 2 ∨ c = 3 ∨ c = 4 := by
      change c < 5 at hc
      omega
    · exact ⟨0, .left, _, rfl, rfl, rfl⟩
    · exact ⟨0, .right, _, rfl, rfl, rfl⟩
    · exact ⟨1, .left, _, rfl, rfl, rfl⟩
    · exact ⟨1, .right, _, rfl, rfl, rfl⟩
  have haccepted : mixedTree.Accepted := .made (ofNodes_nodes mixedTree (by decide))
  obtain ⟨hwords, hsingle⟩ := accepted_singleTree_iff haccepted
  exact ⟨haccepted, hwords, hsingle.2 hconn⟩

/-! ## Columns that nobody points at -/

/-- A root without children, and a leaf on the third level. -/
def strayLeaf : Tree Binary64 := ⟨1, #[.leaf 1 1 0, .leaf 7 1 1]⟩

/-- Two roots. -/
def secondRoot : Tree Binary64 := ⟨1, #[.leaf 1 1 0, .leaf 1 1 1]⟩

/-- A root without children, and a leaf with the number 0. -/
def zeroLeaf : Tree Binary64 := ⟨1, #[.leaf 1 1 0, .leaf 0 1 1]⟩

/-- Without splits only the root is reached. -/
theorem Reached.eq_zero {t : Tree Binary64} (h : ∀ n ∈ t.nodes, n.isLeaf = true) {c k : ℕ}
    (hk : t.Reached c k) : c = 0 ∧ k = 0 := by
  cases hk with
  | root => exact ⟨rfl, rfl⟩
  | child before parent =>
    obtain ⟨n, hn, hleaf, -⟩ := parent
    rw [h n (Array.mem_of_getElem? hn)] at hleaf
    cases hleaf

/-- Nobody points at the second column of the first table, its number of nodes is even, and it
has depth 2 although the only path from its root has no splits.  The other two tables have a
number twice and the number 0.  A model file can hold them. -/
theorem accepted_strays :
    (ofNodes 1 strayLeaf.nodes = .ok strayLeaf ∧ (∀ p side, ¬strayLeaf.Parent p side 1) ∧
      strayLeaf.size + 1 ≠ 2 * strayLeaf.numLeaves ∧ strayLeaf.depth = 2 ∧
      ∀ c k, strayLeaf.Reached c k → k = 0) ∧
    (ofNodes 1 secondRoot.nodes = .ok secondRoot ∧
      secondRoot.nodes.toList.map Node.id = [1, 1]) ∧
    (ofNodes 1 zeroLeaf.nodes = .ok zeroLeaf ∧ zeroLeaf.nodes.toList.map Node.id = [1, 0]) ∧
    ∃ file f, Forest.load "model.bin" (some file) = .ok f ∧
      f.trees = #[strayLeaf, secondRoot, zeroLeaf] := by
  have hleaves : ∀ n ∈ strayLeaf.nodes, n.isLeaf = true := by decide
  refine ⟨⟨ofNodes_nodes strayLeaf (by decide), fun p side hparent => ?_, by decide, by decide,
    fun c k hk => (hk.eq_zero hleaves).2⟩, ⟨ofNodes_nodes secondRoot (by decide), by decide⟩,
    ⟨ofNodes_nodes zeroLeaf (by decide), by decide⟩, ?_⟩
  · obtain ⟨n, hn, hleaf, -⟩ := hparent
    rw [hleaves n (Array.mem_of_getElem? hn)] at hleaf
    cases hleaf
  · let f : Forest Binary64 := ⟨0, #[strayLeaf, secondRoot, zeroLeaf], 1, .regression⟩
    refine ⟨f.encode .binary, f, ?_, rfl⟩
    have hvalid : f.validate = .ok () := by decide +kernel
    rw [Forest.load_encode_binary rfl ⟨by decide, by decide⟩, hvalid]
    rfl

end Tree

end GradientForest
