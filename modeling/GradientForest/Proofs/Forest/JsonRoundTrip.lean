import GradientForest.Forest.Json
import GradientForest.Proofs.Format.Json.Document

/-!
# Forests through JSON

Every part of a forest is written as a document, and `ReadsBack` says what is read from
it: the part itself when its numbers are finite, and nothing otherwise, since an
undefined or infinite number becomes the null word.  The parts are put together like the
documents, a count or a number at the bottom, then lists and objects.

So reading the text of a forest gives the forest back and checks it, and fails if a
number is not finite (`Forest.ofJson_toJson`).  The bytes of the text are read in the
same way (`Forest.ofJsonBytes_toJson`).
-/

namespace GradientForest

open Json (Outline Reads ReadsItems ReadsFields)

namespace Json

/-- The document of `x` is read as `x` if `finite` says so, and is refused otherwise. -/
def ReadsBack {β : Type} (outline : β → Outline) (read? : Json → Option β) (finite : β → Bool)
    (x : β) : Prop :=
  ∃ v, Reads (outline x) v ∧ read? v = if finite x then some x else none

theorem readsBack_number (x : Binary64) :
    ReadsBack Outline.number float? Binary64.isFinite x := by
  by_cases hx : x.isFinite = true
  · obtain ⟨n, hchars, hread⟩ := exists_signed hx
    refine ⟨_, ?_, hread.trans (if_pos hx).symm⟩
    rw [Outline.number, if_pos hx, hchars]
    exact .number _ n
  · refine ⟨.null, ?_, (if_neg hx).symm⟩
    rw [Outline.number, if_neg hx]
    exact .null

theorem reads_count (n : UInt64) :
    Reads (.count n) (.number ((Numeral.ofCount n).toNumber false)) := by
  have hchars : (Numeral.ofCount n).signed false = Nat.toDigits 10 n.toNat := List.append_nil _
  rw [Outline.count, ← hchars]
  exact .number false _

/-- The items of a list are read one by one, and all of them have to be finite. -/
theorem readsBack_list {β : Type} {outline : β → Outline} {read? : Json → Option β}
    {finite : β → Bool} (h : ∀ x, ReadsBack outline read? finite x) (xs : List β) :
    ∃ v, Reads (.list (xs.map outline)) v ∧
      v.listOf? read? = if xs.all finite then some xs else none := by
  suffices hitems : ∃ vs, ReadsItems (xs.map outline) vs ∧
      vs.mapM read? = if xs.all finite then some xs else none by
    obtain ⟨vs, hvs, hread⟩ := hitems
    exact ⟨.list vs, .list hvs, hread⟩
  induction xs with
  | nil => exact ⟨[], .nil, rfl⟩
  | cons x xs ih =>
    obtain ⟨v, hv, hx⟩ := h x
    obtain ⟨vs, hvs, hxs⟩ := ih
    refine ⟨v :: vs, .cons hv hvs, ?_⟩
    rw [List.mapM_cons, hx, hxs, List.all_cons]
    cases finite x <;> cases xs.all finite <;> rfl

end Json

open Json

theorem Task.exists_reads (t : Task) : ∃ v, Reads t.toOutline v ∧ Task.ofJson? v = some t := by
  refine ⟨.text (some t.name), .word ?_, ?_⟩
  · cases t <;> decide
  · exact Task.ofName?_name t

/-- Whether the number of a node is finite, if it has one. -/
def NodeKind.isFinite : NodeKind Binary64 → Bool
  | .leaf value => value.isFinite
  | .scalar _ threshold => threshold.isFinite
  | .categorical _ => true

theorem NodeKind.readsBack (kind : NodeKind Binary64) :
    ReadsBack NodeKind.toOutline NodeKind.ofJson? NodeKind.isFinite kind := by
  cases kind with
  | leaf value =>
    obtain ⟨v, hv, hread⟩ := readsBack_number value
    refine ⟨.object [(some "Leaf", .object [(some "value", v)])],
      .object (.cons (by decide) (.object (.cons (by decide) hv .nil)) .nil), ?_⟩
    change v.float?.bind (fun x => some (NodeKind.leaf x)) = _
    rw [hread]
    change _ = if value.isFinite = true then _ else _
    split_ifs <;> rfl
  | scalar feature threshold =>
    obtain ⟨v, hv, hread⟩ := readsBack_number threshold
    refine ⟨.object [(some "Scalar", .object [(some "feature", _), (some "threshold", v)])],
      .object (.cons (by decide) (.object (.cons (by decide) (reads_count feature)
        (.cons (by decide) hv .nil))) .nil), ?_⟩
    change (Json.count? _).bind (fun n => v.float?.bind (fun x => some (NodeKind.scalar n x))) = _
    rw [hread, count?_ofCount, Option.bind_some]
    change _ = if threshold.isFinite = true then _ else _
    split_ifs <;> rfl
  | categorical feature =>
    refine ⟨.object [(some "Categorical", .object [(some "feature", _)])],
      .object (.cons (by decide) (.object (.cons (by decide) (reads_count feature) .nil)) .nil), ?_⟩
    change (Json.count? _).bind (fun n => some (NodeKind.categorical n)) = _
    rw [count?_ofCount]
    rfl

theorem Node.readsBack (n : Node Binary64) :
    ReadsBack Node.toOutline Node.ofJson? (·.kind.isFinite) n := by
  obtain ⟨v, hv, hread⟩ := NodeKind.readsBack n.kind
  refine ⟨.object [(some "id", _), (some "tree_id", _), (some "child_offset", _), (some "kind", v)],
    .object (.cons (by decide) (reads_count n.id) (.cons (by decide) (reads_count n.treeId)
      (.cons (by decide) (reads_count n.childOffset) (.cons (by decide) hv .nil)))), ?_⟩
  change (Json.count? _).bind (fun id => (Json.count? _).bind fun treeId =>
    (Json.count? _).bind fun offset => (NodeKind.ofJson? v).bind fun kind =>
      some (⟨id, treeId, offset, kind⟩ : Node Binary64)) = _
  rw [hread, count?_ofCount, count?_ofCount, count?_ofCount]
  change _ = if n.kind.isFinite = true then _ else _
  split_ifs <;> rfl

/-- Whether the thresholds and leaf values of a tree are finite. -/
def Tree.isFinite (t : Tree Binary64) : Bool := t.nodes.toList.all (·.kind.isFinite)

theorem Tree.readsBack (t : Tree Binary64) :
    ReadsBack Tree.toOutline Tree.ofJson? Tree.isFinite t := by
  obtain ⟨v, hv, hread⟩ := readsBack_list Node.readsBack t.nodes.toList
  refine ⟨.object [(some "tree_id", _), (some "nodes", v)],
    .object (.cons (by decide) (reads_count t.id) (.cons (by decide) hv .nil)), ?_⟩
  change (Json.count? _).bind (fun id => (v.listOf? Node.ofJson?).bind fun nodes =>
    some (⟨id, nodes.toArray⟩ : Tree Binary64)) = _
  rw [hread, count?_ofCount]
  change _ = if t.nodes.toList.all (·.kind.isFinite) = true then _ else _
  split_ifs <;> rfl

namespace Forest

/-- Whether the bias, the learning rate, the thresholds and the leaf values are finite. -/
def isFinite (f : Forest Binary64) : Bool :=
  f.bias.isFinite && f.trees.toList.all Tree.isFinite && f.learningRate.isFinite

theorem readsBack (f : Forest Binary64) :
    ReadsBack Forest.toOutline Forest.ofJson? Forest.isFinite f := by
  obtain ⟨bias, hbias, hreadBias⟩ := readsBack_number f.bias
  obtain ⟨trees, htrees, hreadTrees⟩ := readsBack_list Tree.readsBack f.trees.toList
  obtain ⟨rate, hrate, hreadRate⟩ := readsBack_number f.learningRate
  obtain ⟨task, htask, hreadTask⟩ := Task.exists_reads f.task
  refine ⟨.object [(some "bias", bias), (some "trees", trees), (some "learning_rate", rate),
      (some "mode", task)],
    .object (.cons (by decide) hbias (.cons (by decide) htrees (.cons (by decide) hrate
      (.cons (by decide) htask .nil)))), ?_⟩
  change (Json.float? bias).bind (fun b => (trees.listOf? Tree.ofJson?).bind fun ts =>
    (Json.float? rate).bind fun r => (Task.ofJson? task).bind fun t =>
      some (⟨b, ts.toArray, r, t⟩ : Forest Binary64)) = _
  rw [hreadBias, hreadTrees, hreadRate, hreadTask, isFinite]
  cases f.bias.isFinite <;> cases f.trees.toList.all Tree.isFinite <;>
    cases f.learningRate.isFinite <;> rfl

theorem ofDocument_eq {f : Forest Binary64} {v : Json}
    (hread : ofJson? v = if f.isFinite then some f else none) :
    ofDocument (some v) =
      if f.isFinite then (f.validate >>= fun _ => .ok f) else .error .json := by
  rw [ofDocument, Option.bind_some, hread]
  split_ifs <;> rfl

/-- The text of a forest is read as this forest, which is checked, and refused if a number
is not finite. -/
theorem ofJson_toJson (f : Forest Binary64) :
    ofJson f.toJson = if f.isFinite then (f.validate >>= fun _ => .ok f) else .error .json := by
  obtain ⟨v, hv, hread⟩ := readsBack f
  rw [ofJson, toJson, ofString?_document hv, ofDocument_eq hread]

theorem ofJsonBytes_toJson (f : Forest Binary64) :
    ofJsonBytes (Text.toUtf8 f.toJson) =
      if f.isFinite then (f.validate >>= fun _ => .ok f) else .error .json := by
  obtain ⟨v, hv, hread⟩ := readsBack f
  rw [ofJsonBytes, toJson, ofBytes?_document hv, ofDocument_eq hread]

end Forest

end GradientForest
