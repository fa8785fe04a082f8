import GradientForest.Proofs.Forest.ModelFile
import GradientForest.Proofs.Format.Json.Ascii

/-!
# Cut model files

A file that was cut somewhere is not the file of another model.  In binary the readers of
all parts are local, so a reader that came to an end on a cut file would have come to the
same end on the whole file.  In JSON the document is one object, whose closing brace is
the last byte, and it is in ASCII, so there are no halves of characters either.

Every strict prefix of an encoded forest is refused with the error of the format, the
empty one included (`Forest.load_truncated`).  Nothing is asked of the forest but that
words count its trees and nodes, and that only in binary: a JSON file whose numbers are not
finite is refused as a whole, and so are its prefixes.
-/

namespace GradientForest

open LittleEndian Json.Outline

/-! ## Bytes -/

theorem Task.local_take? : Local Task.take? := by
  refine local_tag?.bind fun t => ?_
  rcases t with _ | _ | t
  · exact .pure Task.regression
  · exact .pure Task.classification
  · exact .none

theorem NodeKind.local_take? : Local NodeKind.take? := by
  refine local_tag?.bind fun t => ?_
  rcases t with _ | _ | _ | t
  · exact local_float?.bind fun value => .pure (NodeKind.leaf value)
  · exact local_word?.bind fun feature => local_float?.bind fun threshold =>
      .pure (NodeKind.scalar feature threshold)
  · exact local_word?.bind fun feature => .pure (NodeKind.categorical feature)
  · exact .none

theorem Node.local_take? : Local Node.take? :=
  local_word?.bind fun id => local_word?.bind fun treeId => local_word?.bind fun childOffset =>
    NodeKind.local_take?.bind fun kind => .pure (Node.mk id treeId childOffset kind)

theorem Tree.local_take? : Local Tree.take? :=
  local_word?.bind fun id => (local_list? Node.local_take?).bind fun nodes =>
    .pure (Tree.mk id nodes.toArray)

theorem Forest.local_take? : Local Forest.take? :=
  local_float?.bind fun bias => (local_list? Tree.local_take?).bind fun trees =>
    local_float?.bind fun learningRate => Task.local_take?.bind fun task =>
      .pure (Forest.mk bias trees.toArray learningRate task)

/-! ## Documents -/

theorem Task.inAscii (t : Task) : t.toOutline.InAscii := by
  cases t with
  | regression => exact inAscii_word (by decide)
  | classification => exact inAscii_word (by decide)

theorem NodeKind.inAscii (kind : NodeKind Binary64) : kind.toOutline.InAscii := by
  have htagged (tag : String) (htag : tag.toList.Forall Text.IsAscii) {x : Json.Outline}
      (hx : x.InAscii) : InAscii (.object [(tag, x)]) :=
    inAscii_object [tag] [x] (List.forall_mem_singleton.2 htag) (List.forall_mem_singleton.2 hx)
  cases kind with
  | leaf value =>
    exact htagged "Leaf" (by decide) (inAscii_object ["value"] [.number value] (by decide)
      (by simp [inAscii_number]))
  | scalar feature threshold =>
    exact htagged "Scalar" (by decide) (inAscii_object scalarNames
      [.count feature, .number threshold] (by decide) (by simp [inAscii_count, inAscii_number]))
  | categorical feature =>
    exact htagged "Categorical" (by decide) (inAscii_object ["feature"] [.count feature]
      (by decide) (by simp [inAscii_count]))

theorem Node.inAscii (n : Node Binary64) : n.toOutline.InAscii :=
  inAscii_object fieldNames [.count n.id, .count n.treeId, .count n.childOffset, n.kind.toOutline]
    (by decide) (by simp [inAscii_count, NodeKind.inAscii])

theorem Tree.inAscii (t : Tree Binary64) : t.toOutline.InAscii := by
  have hnodes : InAscii (.list (t.nodes.toList.map Node.toOutline)) :=
    .list (List.forall_mem_map.2 fun n _ => n.inAscii)
  exact inAscii_object ["tree_id", "nodes"] [.count t.id, .list (t.nodes.toList.map Node.toOutline)]
    (by decide) (by simp [inAscii_count, hnodes])

namespace Forest

theorem inAscii (f : Forest Binary64) : f.toOutline.InAscii := by
  have htrees : InAscii (.list (f.trees.toList.map Tree.toOutline)) :=
    .list (List.forall_mem_map.2 fun t _ => t.inAscii)
  exact inAscii_object fieldNames [.number f.bias, .list (f.trees.toList.map Tree.toOutline),
    .number f.learningRate, f.task.toOutline] (by decide)
      (by simp [inAscii_number, Task.inAscii, htrees])

/-! ## Files -/

theorem ofBytes_prefix {f : Forest Binary64} (hf : f.Countable) {front : List UInt8}
    (hcut : front <+: f.toBytes) (hne : front ≠ f.toBytes) : ofBytes front = .error .binary := by
  have htake := takes hf []
  rw [List.append_nil] at htake
  rw [ofBytes, local_take?.eq_none_of_prefix htake hcut hne]

theorem ofJsonBytes_prefix (f : Forest Binary64) {front : List UInt8}
    (hcut : front <+: Text.toUtf8 f.toJson) (hne : front ≠ Text.toUtf8 f.toJson) :
    ofJsonBytes front = .error .json := by
  obtain ⟨v, hv, -⟩ := readsBack f
  rw [ofJsonBytes, Json.ofBytes?_prefix hv f.inAscii hcut hne]
  rfl

end Forest

/-- The error for a file that is not in a format. -/
def ModelFormat.malformed : ModelFormat → Error
  | .json => .json
  | .binary => .binary

namespace Forest

/-- A cut file is refused: every strict prefix of an encoded forest, at every path. -/
theorem load_truncated (f : Forest Binary64) (format : ModelFormat)
    (hf : format = .binary → f.Countable) {front : List UInt8}
    (hcut : front <+: f.encode format) (hne : front ≠ f.encode format) :
    decode front format = .error format.malformed ∧
      ∀ path, ModelFormat.ofPath path = .ok format →
        load path (some front) = .error format.malformed := by
  have hdecode : decode front format = .error format.malformed := by
    cases format with
    | json => exact ofJsonBytes_prefix f hcut hne
    | binary => exact ofBytes_prefix (hf rfl) hcut hne
  exact ⟨hdecode, fun path hpath => (load_eq hpath front).trans hdecode⟩

theorem load_truncated_storedForest :
    load "model.json" (some (storedForest.encode .json).dropLast) = .error .json ∧
      load "model.bin" (some (storedForest.encode .binary).dropLast) = .error .binary ∧
      load "model.bin" (some []) = .error .binary := by
  have hcount : storedForest.Countable := ⟨by decide, by decide⟩
  have hshorter {bytes : List UInt8} (h : bytes ≠ []) : bytes.dropLast ≠ bytes := fun heq =>
    Nat.ne_of_lt (Nat.pred_lt (List.length_eq_zero_iff.not.2 h))
      (List.length_dropLast.symm.trans (congrArg List.length heq))
  have hjson : storedForest.encode .json ≠ [] := by decide +kernel
  have hbinary : storedForest.encode .binary ≠ [] := by decide +kernel
  exact ⟨(load_truncated storedForest .json nofun (List.dropLast_prefix _) (hshorter hjson)).2
      "model.json" rfl,
    (load_truncated storedForest .binary (fun _ => hcount) (List.dropLast_prefix _)
      (hshorter hbinary)).2 "model.bin" rfl,
    (load_truncated storedForest .binary (fun _ => hcount) List.nil_prefix hbinary.symm).2
      "model.bin" rfl⟩

end Forest

end GradientForest
