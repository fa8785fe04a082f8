import GradientForest.Forest.Basic
import GradientForest.Tree.Record

/-!
# Forests as tables

A forest as a matrix of six rows.  Column 0 holds the bias in its last row and
zeros above it.  Every further column is the record of a node, tree after tree,
so a node with id 1 starts a new tree.  The table holds neither the learning
rate nor the task.
-/

namespace GradientForest

open Scalar

namespace Forest

/-- The column of the bias. -/
def biasColumn (bias : Binary64) : Vector Binary64 Node.recordFields := #v[0, 0, 0, 0, 0, bias]

/-- The columns of the table: the bias and all nodes. -/
def tableColumns (f : Forest Binary64) : Array (Vector Binary64 Node.recordFields) :=
  #[biasColumn f.bias] ++ f.trees.flatMap fun t => t.nodes.map Node.toRecord

/-- A forest as a table. -/
def toTable (f : Forest Binary64) : Matrix Binary64 :=
  let columns := f.tableColumns
  .ofFn fun (i : Fin Node.recordFields) (j : Fin columns.size) => (columns[j])[i]

/-- The trees of decoded columns, where `done` are finished and `current` is the
tree under construction.  Columns come with their positions. -/
def assemble : List (Nat × List Binary64) → Array (Tree Binary64) → Option (Tree Binary64) →
    Except FormatFault (Array (Tree Binary64))
  | [], done, none => .ok done
  | [], done, some t => .ok (done.push t)
  | (column, record) :: rest, done, current => do
    let n ← match Node.ofRecord record with
      | .ok n => pure n
      | .error cause => throw (.inColumn column cause)
    if n.id = 1 then
      let done := match current with
        | some t => done.push t
        | none => done
      assemble rest done (some ⟨n.treeId, #[n]⟩)
    else
      match current with
      | some t => assemble rest done (some (t.push n))
      | none => throw (.beforeRoot column n.id)

/-- A forest from a table, with the learning rate and task that it lacks. -/
def ofTable (table : Matrix Binary64) (learningRate : Binary64) (task : Task) :
    Except Error (Forest Binary64) :=
  if table.height ≠ Node.recordFields ∨ table.width = 0 then
    .error (.dimensions (.nodeTable table.height table.width))
  else
    match table.columns with
    | [] => .error (.dimensions (.nodeTable table.height table.width))
    | first :: columns =>
      match assemble ((columns.zipIdx 1).map Prod.swap) #[] none with
      | .error cause => .error (.format cause)
      | .ok trees => ofTrees (first.getD (Node.recordFields - 1) 0) trees learningRate task

end Forest

end GradientForest
