import GradientForest.Forest.Basic
import GradientForest.Scalar.Binary64
import GradientForest.Format.Json.Reader
import GradientForest.Format.Json.Writer

/-!
# Forests in JSON

A forest as a JSON document, with a writer and a reader for each part.  Reading
a forest checks its bias and its trees.
-/

namespace GradientForest

open Json (Outline)

namespace Task

/-- A task as a word. -/
def toOutline (t : Task) : Outline := .word t.name

/-- Reads a task. -/
def ofJson? (v : Json) : Option Task := do ofName? (← v.word?)

end Task

namespace NodeKind

/-- The names of the fields of a scalar split. -/
def scalarNames : List String := ["feature", "threshold"]

/-- A node kind as a tagged object. -/
def toOutline : NodeKind Binary64 → Outline
  | .leaf value => .object [("Leaf", .object [("value", .number value)])]
  | .scalar feature threshold =>
    .object [("Scalar", .object [("feature", .count feature), ("threshold", .number threshold)])]
  | .categorical feature =>
    .object [("Categorical", .object [("feature", .count feature)])]

/-- Reads a node kind from its tag and content. -/
def ofTagged? (tag : String) (content : Json) : Option (NodeKind Binary64) :=
  if tag = "Leaf" then do
    match ← content.fields? ["value"] with
    | [value] => return .leaf (← value.float?)
    | _ => none
  else if tag = "Scalar" then do
    match ← content.fields? scalarNames with
    | [feature, threshold] => return .scalar (← feature.count?) (← threshold.float?)
    | _ => none
  else if tag = "Categorical" then do
    match ← content.fields? ["feature"] with
    | [feature] => return .categorical (← feature.count?)
    | _ => none
  else none

/-- Reads a node kind. -/
def ofJson? (v : Json) : Option (NodeKind Binary64) := do
  let (tag, content) ← v.tagged?
  ofTagged? tag content

end NodeKind

namespace Node

/-- The names of the fields of a node. -/
def fieldNames : List String := ["id", "tree_id", "child_offset", "kind"]

/-- A node as an object. -/
def toOutline (n : Node Binary64) : Outline :=
  .object [("id", .count n.id), ("tree_id", .count n.treeId),
    ("child_offset", .count n.childOffset), ("kind", n.kind.toOutline)]

/-- Reads a node. -/
def ofJson? (v : Json) : Option (Node Binary64) := do
  match ← v.fields? fieldNames with
  | [id, treeId, childOffset, kind] =>
    return ⟨← id.count?, ← treeId.count?, ← childOffset.count?, ← NodeKind.ofJson? kind⟩
  | _ => none

end Node

namespace Tree

/-- A tree as an object. -/
def toOutline (t : Tree Binary64) : Outline :=
  .object [("tree_id", .count t.id), ("nodes", .list (t.nodes.toList.map Node.toOutline))]

/-- Reads a tree. -/
def ofJson? (v : Json) : Option (Tree Binary64) := do
  match ← v.fields? ["tree_id", "nodes"] with
  | [id, nodes] => return ⟨← id.count?, (← nodes.listOf? Node.ofJson?).toArray⟩
  | _ => none

end Tree

namespace Forest

/-- The names of the fields of a forest. -/
def fieldNames : List String := ["bias", "trees", "learning_rate", "mode"]

/-- A forest as an object. -/
def toOutline (f : Forest Binary64) : Outline :=
  .object [("bias", .number f.bias), ("trees", .list (f.trees.toList.map Tree.toOutline)),
    ("learning_rate", .number f.learningRate), ("mode", f.task.toOutline)]

/-- Reads a forest without checking it. -/
def ofJson? (v : Json) : Option (Forest Binary64) := do
  match ← v.fields? fieldNames with
  | [bias, trees, learningRate, task] =>
    return ⟨← bias.float?, (← trees.listOf? Tree.ofJson?).toArray, ← learningRate.float?,
      ← Task.ofJson? task⟩
  | _ => none

/-- A forest as a JSON text. -/
def toJson (f : Forest Binary64) : String := f.toOutline.document

/-- A forest read from a document, checked. -/
def ofDocument (document : Option Json) : Except Error (Forest Binary64) :=
  match document.bind ofJson? with
  | none => .error .json
  | some f => do
    f.validate
    return f

/-- Reads a forest from a JSON text. -/
def ofJson (s : String) : Except Error (Forest Binary64) := ofDocument (Json.ofString? s)

/-- Reads a forest from the bytes of a JSON text. -/
def ofJsonBytes (bytes : List UInt8) : Except Error (Forest Binary64) :=
  ofDocument (Json.ofBytes? bytes)

end Forest

end GradientForest
