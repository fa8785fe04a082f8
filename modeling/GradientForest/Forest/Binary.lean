import GradientForest.Forest.Basic
import GradientForest.Scalar.Binary64
import GradientForest.Format.LittleEndian

/-!
# Forests in binary

A forest as bytes: fields in order, numbers little-endian, lists behind their
number of items, alternatives behind a tag.  Bytes behind the forest are
ignored.  Reading checks the bias and the trees.
-/

namespace GradientForest

open LittleEndian

namespace Task

/-- A task as bytes. -/
def toBytes : Task → List UInt8
  | .regression => tag 0
  | .classification => tag 1

/-- Takes a task. -/
def take? (bs : List UInt8) : Option (Task × List UInt8) := do
  let (t, rest) ← tag? bs
  match t with
  | 0 => return (.regression, rest)
  | 1 => return (.classification, rest)
  | _ => none

end Task

namespace NodeKind

/-- A node kind as bytes. -/
def toBytes : NodeKind Binary64 → List UInt8
  | .leaf value => tag 0 ++ float value
  | .scalar feature threshold => tag 1 ++ word feature ++ float threshold
  | .categorical feature => tag 2 ++ word feature

/-- Takes a node kind. -/
def take? (bs : List UInt8) : Option (NodeKind Binary64 × List UInt8) := do
  let (t, rest) ← tag? bs
  match t with
  | 0 =>
    let (value, rest) ← float? rest
    return (.leaf value, rest)
  | 1 =>
    let (feature, rest) ← word? rest
    let (threshold, rest) ← float? rest
    return (.scalar feature threshold, rest)
  | 2 =>
    let (feature, rest) ← word? rest
    return (.categorical feature, rest)
  | _ => none

end NodeKind

namespace Node

/-- A node as bytes. -/
def toBytes (n : Node Binary64) : List UInt8 :=
  word n.id ++ word n.treeId ++ word n.childOffset ++ n.kind.toBytes

/-- Takes a node. -/
def take? (bs : List UInt8) : Option (Node Binary64 × List UInt8) := do
  let (id, rest) ← word? bs
  let (treeId, rest) ← word? rest
  let (childOffset, rest) ← word? rest
  let (kind, rest) ← NodeKind.take? rest
  return (⟨id, treeId, childOffset, kind⟩, rest)

end Node

namespace Tree

/-- A tree as bytes. -/
def toBytes (t : Tree Binary64) : List UInt8 := word t.id ++ list Node.toBytes t.nodes.toList

/-- Takes a tree. -/
def take? (bs : List UInt8) : Option (Tree Binary64 × List UInt8) := do
  let (id, rest) ← word? bs
  let (nodes, rest) ← list? Node.take? rest
  return (⟨id, nodes.toArray⟩, rest)

end Tree

namespace Forest

/-- A forest as bytes. -/
def toBytes (f : Forest Binary64) : List UInt8 :=
  float f.bias ++ list Tree.toBytes f.trees.toList ++ float f.learningRate ++ f.task.toBytes

/-- Takes a forest without checking it. -/
def take? (bs : List UInt8) : Option (Forest Binary64 × List UInt8) := do
  let (bias, rest) ← float? bs
  let (trees, rest) ← list? Tree.take? rest
  let (learningRate, rest) ← float? rest
  let (task, rest) ← Task.take? rest
  return (⟨bias, trees.toArray, learningRate, task⟩, rest)

/-- Reads a forest from bytes. -/
def ofBytes (bs : List UInt8) : Except Error (Forest Binary64) :=
  match take? bs with
  | none => .error .binary
  | some (f, _) => do
    f.validate
    return f

end Forest

end GradientForest
