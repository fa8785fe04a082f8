import GradientForest.Forest.Binary
import GradientForest.Proofs.Format.LittleEndian

/-!
# Forests through bytes

Every part of a forest is taken from the bytes that were written for it, whatever
follows.  Numbers are written as their bit patterns, so all of them come back, undefined
values included.  The writer counts trees and nodes in words, and `Forest.Countable` says
that words are enough for that, which holds of everything in memory.

So the bytes of a forest are read as this forest, which is then checked
(`Forest.ofBytes_toBytes`).
-/

namespace GradientForest

open LittleEndian

theorem Task.takes (t : Task) : Takes Task.toBytes Task.take? t := by
  intro rest
  cases t with
  | regression => rw [toBytes, take?, takes_tag (by decide)]; rfl
  | classification => rw [toBytes, take?, takes_tag (by decide)]; rfl

theorem NodeKind.takes (kind : NodeKind Binary64) : Takes NodeKind.toBytes NodeKind.take? kind := by
  intro rest
  cases kind with
  | leaf value =>
    simp only [toBytes, take?, List.append_assoc, takes_tag (by decide : 0 < 256 ^ 4) _,
      Option.bind_eq_bind, Option.bind_some, takes_float value rest]
    rfl
  | scalar feature threshold =>
    simp only [toBytes, take?, List.append_assoc, takes_tag (by decide : 1 < 256 ^ 4) _,
      Option.bind_eq_bind, Option.bind_some, takes_word feature _, takes_float threshold rest]
    rfl
  | categorical feature =>
    simp only [toBytes, take?, List.append_assoc, takes_tag (by decide : 2 < 256 ^ 4) _,
      Option.bind_eq_bind, Option.bind_some, takes_word feature rest]
    rfl

theorem Node.takes (n : Node Binary64) : Takes Node.toBytes Node.take? n := by
  intro rest
  simp only [toBytes, take?, List.append_assoc, takes_word _ _, Option.bind_eq_bind,
    Option.bind_some, NodeKind.takes n.kind rest]
  rfl

theorem Tree.takes {t : Tree Binary64} (ht : t.size < 2 ^ 64) :
    Takes Tree.toBytes Tree.take? t := by
  intro rest
  have hnodes : Takes (list Node.toBytes) (list? Node.take?) t.nodes.toList :=
    takes_list (fun n _ => Node.takes n) ht
  simp only [toBytes, take?, List.append_assoc, takes_word _ _, Option.bind_eq_bind,
    Option.bind_some, hnodes rest]
  rfl

namespace Forest

/-- Words can count the trees, and the nodes of every tree. -/
structure Countable (f : Forest Binary64) : Prop where
  /-- The trees. -/
  trees : f.trees.size < 2 ^ 64
  /-- The nodes. -/
  nodes : ∀ t ∈ f.trees.toList, t.size < 2 ^ 64

theorem takes {f : Forest Binary64} (hf : f.Countable) : Takes Forest.toBytes Forest.take? f := by
  intro rest
  have htrees : Takes (list Tree.toBytes) (list? Tree.take?) f.trees.toList :=
    takes_list (fun t ht => Tree.takes (hf.nodes t ht)) hf.trees
  simp only [toBytes, take?, List.append_assoc, takes_float _ _, Option.bind_eq_bind,
    Option.bind_some, htrees _, Task.takes f.task rest]
  rfl

/-- The bytes of a forest are read as this forest, which is checked. -/
theorem ofBytes_toBytes {f : Forest Binary64} (hf : f.Countable) :
    ofBytes f.toBytes = f.validate >>= fun _ => .ok f := by
  have htake := takes hf []
  rw [List.append_nil] at htake
  rw [ofBytes, htake]
  rfl

end Forest

end GradientForest
