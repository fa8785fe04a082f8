import GradientForest.Data.Dataset
import GradientForest.Split.Search
import GradientForest.Tree.Frontier
import GradientForest.Tree.Mask
import GradientForest.Tree.Walk

/-!
# Growing a tree

A tree grows from the root one level at a time.  All the nodes of a level are
resolved from their masks, and the outcomes are committed in queue order.  A
leaf becomes a column.  A split becomes a column too, and its children join the
queue, so they will stand as many columns ahead as nodes are still waiting, plus
one.

A node becomes a leaf when it has at most one active row, when it lies below
the allowed depth, when classification finds all its labels equal, or when no
split is accepted.
-/

namespace GradientForest

open Scalar

/-- What growth needs to know beside the data. -/
structure GrowthParameters (α : Type) where
  /-- The task. -/
  task : Task
  /-- The number of split levels below the root. -/
  maxDepth : UInt64
  /-- The regularisation constant. -/
  lambda : α

/-- What becomes of a waiting node. -/
inductive Resolution (α : Type) where
  /-- It becomes a leaf. -/
  | leaf (value : α)
  /-- It becomes a split whose children have these masks. -/
  | split (kind : NodeKind α) (left right : Mask)

namespace Growth

variable {α : Type} [Scalar α]

/-- Classification finds nothing to learn in rows with equal labels. -/
def isPure (d : Dataset α) (task : Task) (rows : List (Fin d.numRows)) : Bool :=
  match task, rows with
  | .classification, i :: rest => (i :: rest).all fun k => beq (d.labels.get k) (d.labels.get i)
  | _, _ => false

/-- The node kind and the children's masks of an accepted split. -/
def divide (d : Dataset α) (mask : Mask) (s : Split α d.numFeatures) : Resolution α :=
  let column := Array.ofFn (d.features.column s.feature)
  let feature : UInt64 := .ofNat s.feature
  match s.kind with
  | .scalar =>
    let (left, right) := mask.partitionScalar column s.threshold
    .split (.scalar feature s.threshold) left right
  | .categorical =>
    let (left, right) := mask.partitionCategorical column
    .split (.categorical feature) left right

/-- What becomes of a node on the given rows. -/
def resolveRows (d : Dataset α) (p : GrowthParameters α)
    (residual hessian : Vector α d.numRows) (id : NodeId) (mask : Mask)
    (rows : List (Fin d.numRows)) : Resolution α :=
  let value := leafValue p.lambda residual.get hessian.get rows
  if rows.length ≤ 1 ∨ p.maxDepth.toNat < id.level ∨ isPure d p.task rows then .leaf value
  else
    match Split.best? p.lambda d.features d.catalog residual.get hessian.get rows with
    | none => .leaf value
    | some s => if s.accepted then divide d mask s else .leaf value

/-- What becomes of a node with the given mask. -/
def resolve (d : Dataset α) (p : GrowthParameters α)
    (residual hessian : Vector α d.numRows) (id : NodeId) (mask : Mask) : Resolution α :=
  resolveRows d p residual hessian id mask (mask.activeRows d.numRows)

/-- A tree under construction. -/
structure State (α : Type) where
  /-- The columns so far. -/
  nodes : Array (Node α)
  /-- The waiting nodes. -/
  frontier : Frontier Mask

/-- Commits the outcomes of one level in order. -/
def commit (treeId : UInt64) : List (NodeId × Resolution α) → State α → State α
  | [], s => s
  | (id, .leaf value) :: rest, s =>
    commit treeId rest { s with nodes := s.nodes.push (.leaf id treeId value) }
  | (id, .split kind left right) :: rest, s =>
    let waiting := rest.length + s.frontier.length
    commit treeId rest {
      nodes := s.nodes.push ⟨id, treeId, .ofNat (waiting + 1), kind⟩
      frontier := s.frontier.pushChildren id left right }

/-- Grows level after level until no node waits, for at most the given number
of levels. -/
def levels (resolveNode : NodeId → Mask → Resolution α) (treeId : UInt64) :
    Nat → State α → State α
  | 0, s => s
  | n + 1, s =>
    match s.frontier.drainLevel with
    | ([], _) => s
    | (level, rest) =>
      let outcomes := level.map fun e => (e.id, resolveNode e.id e.rows)
      levels resolveNode treeId n (commit treeId outcomes { s with frontier := rest })

/-- Enough levels for any tree on `n` rows that stops growing.  Within the 64
levels that node numbers tell apart the depth ends growth; beyond them only
splits that leave fewer rows on both sides do, and those make fewer than `2 * n`
nodes. -/
def levelBound (n : Nat) : Nat := 2 * n + 65

/-- The tree grown on residuals with hessian weights. -/
def grow (d : Dataset α) (p : GrowthParameters α) (treeId : UInt64)
    (residual hessian : Vector α d.numRows) : Tree α :=
  let start : State α := ⟨#[], .root (.allActive d.numRows)⟩
  ⟨treeId, (levels (resolve d p residual hessian) treeId (levelBound d.numRows) start).nodes⟩

/-- The tree grown on residuals and weights of any length, which have to match
the rows. -/
def build (d : Dataset α) (p : GrowthParameters α) (treeId : UInt64)
    (residuals hessians : Array α) : Except Error (Tree α) :=
  if h : residuals.size = d.numRows ∧ hessians.size = d.numRows then
    .ok (grow d p treeId ⟨residuals, h.1⟩ ⟨hessians, h.2⟩)
  else .error (.dimensions (.gradients d.numRows residuals.size hessians.size))

end Growth

end GradientForest
