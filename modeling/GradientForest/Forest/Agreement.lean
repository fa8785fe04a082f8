import GradientForest.Forest.Basic

/-!
# Agreement

Two forests agree when they have the same shape and all their numbers are equal
as numbers.  So the two zeros agree, and nothing agrees with a forest that holds
an undefined value.
-/

namespace GradientForest

open Scalar

variable {α : Type} [Scalar α]

/-- Two lists agree item by item. -/
def listsAgree {β : Type} (agree : β → β → Bool) : List β → List β → Bool
  | [], [] => true
  | x :: xs, y :: ys => agree x y && listsAgree agree xs ys
  | _, _ => false

/-- Two node kinds agree. -/
def NodeKind.agrees : NodeKind α → NodeKind α → Bool
  | .leaf v, .leaf w => beq v w
  | .scalar f v, .scalar g w => f == g && beq v w
  | .categorical f, .categorical g => f == g
  | _, _ => false

/-- Two nodes agree. -/
def Node.agrees (m n : Node α) : Bool :=
  m.id == n.id && m.treeId == n.treeId && m.childOffset == n.childOffset && m.kind.agrees n.kind

/-- Two trees agree. -/
def Tree.agrees (t u : Tree α) : Bool :=
  t.id == u.id && listsAgree Node.agrees t.nodes.toList u.nodes.toList

/-- Two forests agree. -/
def Forest.agrees (f g : Forest α) : Bool :=
  beq f.bias g.bias && listsAgree Tree.agrees f.trees.toList g.trees.toList &&
    beq f.learningRate g.learningRate && f.task == g.task

/-- Two matrices agree. -/
def Matrix.agrees (m n : Matrix α) : Bool :=
  m.height == n.height && m.width == n.width && listsAgree (listsAgree beq) m.toLists n.toLists

end GradientForest
