import GradientForest.Scalar.Binary64
import GradientForest.Tree.Basic

/-!
# Node records

A node as six numbers: its id, the tree's id, the child offset, the tested
feature counted from 1 and 0 for leaves, the code of its kind, and last the
leaf value, the threshold, or 1 for a categorical split.

Reading a record back refuses fields that are no natural numbers up to
`2 ^ 53`, leaves with a feature or children, and splits without.
-/

namespace GradientForest

open Scalar

namespace NodeKind

/-- The tested feature counted from 1, as far as the count is a word, and 0 for leaves. -/
def featureField : NodeKind Binary64 → UInt64
  | .leaf _ => 0
  | .scalar feature _ | .categorical feature => feature + 1

/-- The last field of a record. -/
def valueField : NodeKind Binary64 → Binary64
  | .leaf value => value
  | .scalar _ threshold => threshold
  | .categorical _ => 1

end NodeKind

namespace Node

/-- The number of fields of a record. -/
def recordFields : Nat := 6

/-- The largest number that a record field holds. -/
def maxField : Nat := Nat.pow 2 53

/-- A node as a record. -/
def toRecord (n : Node Binary64) : Vector Binary64 recordFields :=
  #v[ofNat n.id.toNat, ofNat n.treeId.toNat, ofNat n.childOffset.toNat,
    ofNat n.kind.featureField.toNat, ofNat n.kind.code, n.kind.valueField]

/-- A field of a record as a natural number. -/
def integerField (field : String) (x : Binary64) : Except FormatFault UInt64 :=
  match x.natural? with
  | some n => if n ≤ maxField then .ok (.ofNat n) else .error (.notInteger field (text x))
  | none => .error (.notInteger field (text x))

/-- The kind of a node from its child offset, feature, code and last field. -/
def kindOfFields (id childOffset feature code : UInt64) (last : Binary64) :
    Except FormatFault (NodeKind Binary64) :=
  if code = 0 then
    if feature ≠ 0 ∨ childOffset ≠ 0 then .error (.leafFields id) else .ok (.leaf last)
  else if code = 1 ∨ code = 2 then
    if feature = 0 ∨ childOffset = 0 then .error (.splitFields id)
    else if code = 1 then .ok (.scalar (feature - 1) last)
    else .ok (.categorical (feature - 1))
  else .error (.kindCode code id)

/-- Reads a record. -/
def ofRecord : List Binary64 → Except FormatFault (Node Binary64)
  | [id, treeId, childOffset, feature, code, last] => do
    let id ← integerField "node_id" id
    if id < 1 then throw .zeroId
    let treeId ← integerField "tree_id" treeId
    let childOffset ← integerField "child_offset" childOffset
    let feature ← integerField "feature_index" feature
    let code ← integerField "feature_type_code" code
    let kind ← kindOfFields id childOffset feature code last
    return ⟨id, treeId, childOffset, kind⟩
  | fields => .error (.fieldCount fields.length)

end Node

end GradientForest
