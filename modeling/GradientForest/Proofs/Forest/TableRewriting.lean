import Mathlib.Data.List.Forall2
import GradientForest.Proofs.Forest.Assembly
import GradientForest.Proofs.Tree.Record

/-!
# Tables that are read and written again

Reading a table forgets little.  Of the first column only the bias counts, a
categorical split takes no notice of its last field, and minus zero is the number 0.
Writing the forest that was read gives the table again with these entries at their
standard values (`rewritten`).

A tree begins at every column with id 1, so the table also tells the number of trees.
-/

namespace GradientForest

open Scalar

namespace Matrix

variable {α : Type}

theorem eq_of_columns_eq {m m' : Matrix α} (hheight : m.height = m'.height)
    (h : m.columns = m'.columns) : m = m' := by
  have hwidth : m.width = m'.width := by
    rw [← m.length_columns, h, m'.length_columns]
  obtain ⟨height, width, rows⟩ := m
  obtain ⟨height', width', rows'⟩ := m'
  dsimp only at hheight hwidth
  subst hheight hwidth
  congr 1
  refine Vector.ext fun i hi => Vector.ext fun j hj => ?_
  have hcolumn := List.map_inj_left.1 h ⟨j, hj⟩ (List.mem_finRange _)
  exact List.map_inj_left.1 hcolumn ⟨i, hi⟩ (List.mem_finRange _)

end Matrix

namespace Forest

/-! ## The rewritten table -/

/-- The row of the ids. -/
def idRow : Fin Node.recordFields := ⟨0, by decide⟩

/-- The row of the codes of the kinds. -/
def codeRow : Fin Node.recordFields := ⟨4, by decide⟩

/-- The row of leaf values, thresholds and the bias, below the five rows of integers. -/
def valueRow : Fin Node.recordFields := ⟨5, by decide⟩

variable {k : ℕ}

/-- A table with the entries that reading takes no notice of at their standard values. -/
def rewritten (t : Vector (Vector Binary64 k) Node.recordFields) : Matrix Binary64 :=
  .ofFn fun i j =>
    if j.val = 0 then
      if i = valueRow then (t.get i).get j else 0
    else if i = valueRow then
      if (t.get codeRow).get j = 2 then 1 else (t.get i).get j
    else ((t.get i).get j).plainZero

/-- One column of a table. -/
def columnOf (t : Vector (Vector Binary64 k) Node.recordFields) (j : Fin k) : List Binary64 :=
  (List.finRange Node.recordFields).map fun i => (t.get i).get j

theorem columns_table (t : Vector (Vector Binary64 (k + 1)) Node.recordFields) :
    Matrix.columns ⟨Node.recordFields, k + 1, t⟩ =
      columnOf t 0 :: (List.finRange k).map fun j => columnOf t j.succ := by
  rw [Matrix.columns, List.finRange_succ, List.map_cons, List.map_map]
  rfl

/-- The columns behind the first are rewritten record by record. -/
theorem columns_rewritten (t : Vector (Vector Binary64 (k + 1)) Node.recordFields) :
    (rewritten t).columns = (biasColumn ((t.get valueRow).get 0)).toList ::
      (List.finRange k).map fun j => Node.rewriteRecord (columnOf t j.succ) := by
  rw [rewritten, Matrix.columns_ofFn, List.finRange_succ, List.map_cons, List.map_map]
  -- six entries on either side, with `j.succ` told from column 0 by its constructor
  rfl

/-! ## Records and the nodes that are read from them -/

/-- The records are read as the nodes, one by one. -/
def Read : List (List Binary64) → List (Node Binary64) → Prop :=
  List.Forall₂ fun record n => Node.ofRecord record = .ok n

theorem read_of_map_eq {records : List (List Binary64)} {nodes : List (Node Binary64)}
    (h : records.map Node.ofRecord = nodes.map .ok) : Read records nodes := by
  rw [← List.forall₂_eq_eq_eq, List.forall₂_map_left_iff, List.forall₂_map_right_iff] at h
  exact h

theorem Read.map_toRecord {records : List (List Binary64)} {nodes : List (Node Binary64)}
    (h : Read records nodes) :
    nodes.map (fun n => n.toRecord.toList) = records.map Node.rewriteRecord := by
  induction h with
  | nil => rfl
  | cons hn _ ih => rw [List.map_cons, List.map_cons, ih, Node.toRecord_of_ofRecord hn]

theorem Read.countP_id {records : List (List Binary64)} {nodes : List (Node Binary64)}
    (h : Read records nodes) :
    nodes.countP (fun n => n.id = 1) = records.countP fun record => record.head? = some 1 := by
  induction h with
  | nil => rfl
  | cons hn _ ih => simp only [List.countP_cons, ih, Node.head?_eq_one_iff hn]

/-! ## The number of trees -/

theorem countP_id_nodes {f : Forest Binary64} (h : ∀ t ∈ f.trees, t.RootedOnce) :
    f.nodes.countP (fun n => n.id = 1) = f.numTrees := by
  have hone : ∀ t ∈ f.trees.toList, t.nodes.toList.countP (fun n => n.id = 1) = 1 := by
    intro t ht
    obtain ⟨root, rest, hnodes, hroot, -, hrest⟩ := h t (Array.mem_toList_iff.1 ht)
    rw [hnodes, List.countP_cons_of_pos (by simpa using hroot),
      List.countP_eq_zero.2 (by simpa using hrest)]
  calc f.nodes.countP (fun n => n.id = 1)
      = (f.trees.toList.map fun t => t.nodes.toList.countP fun n => n.id = 1).sum :=
        List.countP_flatMap
    _ = (f.trees.toList.map fun _ => 1).sum := by rw [List.map_congr_left hone]
    _ = f.numTrees := by simp [numTrees]

/-- Writing a forest that was read gives the table again, rewritten.  There is a tree
for every column with id 1, the one of the bias apart. -/
theorem toTable_of_ofTable {t : Vector (Vector Binary64 k) Node.recordFields}
    {learningRate : Binary64} {task : Task} {f : Forest Binary64}
    (h : ofTable ⟨Node.recordFields, k, t⟩ learningRate task = .ok f) :
    f.toTable = rewritten t ∧
      f.numTrees = (List.finRange k).countP fun j => j.val ≠ 0 ∧ (t.get idRow).get j = 1 := by
  obtain ⟨-, first, columns, hcolumns, hnodes, htrees, hf⟩ := ofTable_eq_ok_iff.1 h
  have hread := read_of_map_eq hnodes
  cases k with
  | zero => cases hcolumns
  | succ k =>
    rw [columns_table] at hcolumns
    cases hcolumns
    constructor
    · refine Matrix.eq_of_columns_eq rfl ?_
      rw [columns_toTable, columns_rewritten, hread.map_toRecord, List.map_map, hf]
      rfl
    · rw [← countP_id_nodes fun u hu => (htrees u hu).1, hread.countP_id, List.finRange_succ,
        List.countP_cons_of_neg (by simp), List.countP_map, List.countP_map]
      refine List.countP_congr fun j _ => ?_
      have hhead : (columnOf t j.succ).head? = some ((t.get idRow).get j.succ) := rfl
      simp [hhead]

/-- A table that holds a tree of one categorical split, with entries to be rewritten in
the first column, among the integers and in the row of values. -/
def looseTable : Vector (Vector Binary64 4) Node.recordFields :=
  #v[#v[5, 1, 2, 3], #v[nan, 7, 7, 7], #v[-1, 1, -0, 0], #v[0, 4, 0, -0], #v[0, 2, 0, 0],
    #v[3, 9, nan, -0]]

theorem toTable_looseTable :
    ∃ f, ofTable ⟨Node.recordFields, 4, looseTable⟩ 1 .regression = .ok f ∧ f.numTrees = 1 ∧
      f.toTable = ⟨Node.recordFields, 4, #v[#v[0, 1, 2, 3], #v[0, 7, 7, 7], #v[0, 1, 0, 0],
        #v[0, 4, 0, 0], #v[0, 2, 0, 0], #v[3, 1, nan, -0]]⟩ := by
  have h : ofTable ⟨Node.recordFields, 4, looseTable⟩ 1 .regression =
      .ok ⟨3, #[⟨7, #[⟨1, 7, 1, .categorical 3⟩, ⟨2, 7, 0, .leaf nan⟩, ⟨3, 7, 0, .leaf (-0)⟩]⟩],
        1, .regression⟩ := by
    decide +kernel
  obtain ⟨htable, htrees⟩ := toTable_of_ofTable h
  exact ⟨_, h, htrees.trans (by decide +kernel), htable.trans (by decide +kernel)⟩

end Forest

end GradientForest
