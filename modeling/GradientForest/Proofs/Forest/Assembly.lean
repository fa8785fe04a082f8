import Mathlib.Data.List.FinRange
import GradientForest.Forest.Table
import GradientForest.Proofs.Outcome

/-!
# Trees from columns

A table lists the nodes of all trees in a row and says nowhere where a tree ends.
`Forest.assemble` starts a new tree at every node with id 1.  So it can only return
trees in which the first node has this id and no other node does
(`Tree.RootedOnce`), and it returns such trees from their nodes in a row
(`assemble_eq_ok_iff`).

With the check of the trees this says when a table is read as a forest
(`ofTable_eq_ok_iff`).
-/

namespace GradientForest

open Scalar

/-! ## Columns of matrices -/

namespace Matrix

variable {α : Type}

theorem columns_ofFn {height width : ℕ} (g : Fin height → Fin width → α) :
    (ofFn g).columns = (List.finRange width).map fun j => (List.finRange height).map (g · j) := by
  refine List.map_congr_left fun j _ => List.map_congr_left fun i _ => ?_
  change ((Vector.ofFn fun i => Vector.ofFn (g i))[i])[j] = g i j
  simp only [Fin.getElem_fin, Vector.getElem_ofFn]
  rfl

theorem map_getElem_finRange {n : ℕ} (v : Vector α n) :
    (List.finRange n).map (fun i => v[i]) = v.toList :=
  List.ext_getElem (by simp) (by simp)

theorem length_columns (m : Matrix α) : m.columns.length = m.width := by
  rw [columns, List.length_map, List.length_finRange]

end Matrix

/-! ## Trees with one root -/

namespace Tree

variable {α : Type} {t : Tree α}

/-- The first node is the only one with the id of a root, and the tree is named after
it. -/
def RootedOnce (t : Tree α) : Prop :=
  ∃ root rest, t.nodes.toList = root :: rest ∧ root.id = 1 ∧ t.id = root.treeId ∧
    ∀ n ∈ rest, n.id ≠ 1

theorem RootedOnce.start {n : Node α} (hn : n.id = 1) : RootedOnce ⟨n.treeId, #[n]⟩ :=
  ⟨n, [], rfl, hn, rfl, nofun⟩

theorem RootedOnce.push (h : t.RootedOnce) {n : Node α} (hn : n.id ≠ 1) :
    (t.push n).RootedOnce := by
  obtain ⟨root, rest, hnodes, hroot, hid, hrest⟩ := h
  refine ⟨root, rest ++ [n], ?_, hroot, hid, ?_⟩
  · rw [Tree.push, Array.toList_push, hnodes, List.cons_append]
  · intro m hm
    rcases List.mem_append.1 hm with hm | hm
    · exact hrest m hm
    · rw [List.mem_singleton.1 hm]
      exact hn

theorem RootedOnce.column_eq_zero (h : t.RootedOnce) {c : ℕ} {n : Node α}
    (hn : t.nodes[c]? = some n) (hid : n.id = 1) : c = 0 := by
  obtain ⟨root, rest, hnodes, -, -, hrest⟩ := h
  rw [← Array.getElem?_toList, hnodes] at hn
  cases c with
  | zero => rfl
  | succ c => exact absurd hid (hrest n (List.mem_of_getElem? hn))

end Tree

namespace Forest

/-- The nodes of all trees in a row. -/
def nodes (f : Forest Binary64) : List (Node Binary64) :=
  f.trees.toList.flatMap fun t => t.nodes.toList

/-- The trees together with the one under construction. -/
def finished (done : Array (Tree Binary64)) (current : Option (Tree Binary64)) :
    Array (Tree Binary64) :=
  match current with
  | some t => done.push t
  | none => done

theorem toList_finished (done : Array (Tree Binary64)) (current : Option (Tree Binary64)) :
    (finished done current).toList = done.toList ++ current.toList := by
  cases current with
  | none => exact (List.append_nil _).symm
  | some t => exact Array.toList_push

variable {rest columns : List (ℕ × List Binary64)} {done trees : Array (Tree Binary64)}
variable {current : Option (Tree Binary64)}

theorem assemble_nil : assemble [] done current = .ok (finished done current) := by
  cases current with
  | none => rfl
  | some t => rfl

/-- A column is read as a root, which starts a tree, or as a further node of the tree
under construction. -/
theorem assemble_cons_eq_ok_iff {column : ℕ} {record : List Binary64} :
    assemble ((column, record) :: rest) done current = .ok trees ↔
      ∃ n, Node.ofRecord record = .ok n ∧
        (n.id = 1 ∧ assemble rest (finished done current) (some ⟨n.treeId, #[n]⟩) = .ok trees ∨
          n.id ≠ 1 ∧ ∃ t, current = some t ∧ assemble rest done (some (t.push n)) = .ok trees) := by
  cases hrecord : Node.ofRecord record with
  | error cause =>
    simp only [assemble, hrecord]
    constructor
    · intro h
      cases h
    · rintro ⟨n, h, -⟩
      cases h
  | ok n =>
    simp only [assemble, hrecord, pure_bind, Except.ok.injEq, exists_eq_left']
    by_cases hn : n.id = 1
    · simp only [hn, if_true, ne_eq, not_true, false_and, or_false, true_and]
      rfl
    · cases current with
      | none => simp [hn]
      | some t => simp [hn]

/-! ## From columns to trees -/

/-- What the loop adds to the trees is the tree under construction and the nodes of the
columns, cut at the roots. -/
theorem of_assemble (h : assemble columns done current = .ok trees)
    (hcurrent : ∀ t ∈ current, t.RootedOnce) :
    ∃ nodes new, columns.map (fun c => Node.ofRecord c.2) = nodes.map .ok ∧
      trees.toList = done.toList ++ new ∧ (∀ t ∈ new, t.RootedOnce) ∧
      new.flatMap (·.nodes.toList) = current.toList.flatMap (·.nodes.toList) ++ nodes := by
  induction columns generalizing done current with
  | nil =>
    rw [assemble_nil] at h
    cases h
    exact ⟨[], current.toList, rfl, toList_finished done current, by simpa using hcurrent,
      (List.append_nil _).symm⟩
  | cons c rest ih =>
    obtain ⟨column, record⟩ := c
    obtain ⟨n, hn, ⟨hid, hrest⟩ | ⟨hid, t, rfl, hrest⟩⟩ := assemble_cons_eq_ok_iff.1 h
    -- a root: `current` is finished and stands before what the rest adds
    · obtain ⟨nodes, new, hnodes, htrees, hnew, hflat⟩ := ih hrest fun t ht => by
        obtain rfl := Option.some.inj ht
        exact .start hid
      refine ⟨n :: nodes, current.toList ++ new, ?_, ?_, ?_, ?_⟩
      · rw [List.map_cons, List.map_cons, hnodes, hn]
      · rw [htrees, toList_finished, List.append_assoc]
      · intro t ht
        rcases List.mem_append.1 ht with ht | ht
        · exact hcurrent t (Option.mem_toList.1 ht)
        · exact hnew t ht
      · rw [List.flatMap_append, hflat]
        rfl
    · obtain ⟨nodes, new, hnodes, htrees, hnew, hflat⟩ := ih hrest fun u hu => by
        obtain rfl := Option.some.inj hu
        exact (hcurrent t rfl).push hid
      refine ⟨n :: nodes, new, ?_, htrees, hnew, ?_⟩
      · rw [List.map_cons, List.map_cons, hnodes, hn]
      · rw [hflat, Option.toList_some, Option.toList_some, List.flatMap_singleton,
          List.flatMap_singleton, Tree.push, Array.toList_push, List.append_assoc]
        rfl

/-! ## From trees to columns -/

/-- Nodes that are no roots all go to the tree under construction. -/
theorem assemble_append {t : Tree Binary64} {nodes : List (Node Binary64)}
    (hcolumns : columns.map (fun c => Node.ofRecord c.2) = nodes.map .ok)
    (hnodes : ∀ n ∈ nodes, n.id ≠ 1)
    (h : assemble rest done (some ⟨t.id, t.nodes ++ nodes⟩) = .ok trees) :
    assemble (columns ++ rest) done (some t) = .ok trees := by
  induction nodes generalizing t columns with
  | nil =>
    rw [List.map_eq_nil_iff.1 hcolumns]
    simpa using h
  | cons n nodes ih =>
    obtain ⟨c, columns, rfl, hn, hcolumns⟩ := List.map_eq_cons_iff.1 hcolumns
    refine assemble_cons_eq_ok_iff.2 ⟨n, hn, .inr ⟨hnodes n List.mem_cons_self, t, rfl, ?_⟩⟩
    refine ih hcolumns (fun m hm => hnodes m (List.mem_cons_of_mem _ hm)) ?_
    simpa [Tree.push] using h

/-- Whatever tree is under construction, the nodes of further trees are cut into these. -/
theorem assemble_trees {new : List (Tree Binary64)} (hnew : ∀ t ∈ new, t.RootedOnce)
    (hcolumns : columns.map (fun c => Node.ofRecord c.2) =
      (new.flatMap (·.nodes.toList)).map .ok) :
    assemble columns done current = .ok (finished done current ++ new) := by
  induction new generalizing columns done current with
  | nil =>
    rw [List.map_eq_nil_iff.1 hcolumns, assemble_nil, Array.appendList_nil]
  | cons t new ih =>
    obtain ⟨root, rest, hnodes, hroot, hid, hrest⟩ := hnew t List.mem_cons_self
    rw [List.flatMap_cons, hnodes, List.map_append, List.map_eq_append_iff] at hcolumns
    obtain ⟨front, back, rfl, hfront, hback⟩ := hcolumns
    obtain ⟨c, front, rfl, hc, hfront⟩ := List.map_eq_cons_iff.1 hfront
    have ht : t = ⟨root.treeId, #[root] ++ rest⟩ := by
      have hlist : t.nodes = #[root] ++ rest := Array.toList_inj.1 (by simpa using hnodes)
      rw [← hid, ← hlist]
    refine assemble_cons_eq_ok_iff.2 ⟨root, hc, .inl ⟨hroot, assemble_append hfront hrest ?_⟩⟩
    rw [← ht, ih (fun u hu => hnew u (List.mem_cons_of_mem _ hu)) hback]
    simp [finished]

theorem assemble_eq_ok_iff :
    assemble columns #[] none = .ok trees ↔
      columns.map (fun c => Node.ofRecord c.2) =
        (trees.toList.flatMap (·.nodes.toList)).map .ok ∧ ∀ t ∈ trees, t.RootedOnce := by
  constructor
  · intro h
    obtain ⟨nodes, new, hnodes, htrees, hnew, hflat⟩ := of_assemble h nofun
    obtain rfl : trees.toList = new := htrees
    refine ⟨hnodes.trans (congrArg _ hflat.symm), fun t ht => hnew t (Array.mem_toList_iff.2 ht)⟩
  · rintro ⟨hcolumns, htrees⟩
    rw [assemble_trees (fun t ht => htrees t (Array.mem_toList_iff.1 ht)) hcolumns]
    simp [finished]

/-! ## Whole tables -/

theorem ofTrees_eq_ok_iff {bias learningRate : Binary64} {task : Task} {f : Forest Binary64} :
    ofTrees bias trees learningRate task = .ok f ↔
      (∀ t ∈ trees, t.validate = .ok ()) ∧ f = ⟨bias, trees, learningRate, task⟩ := by
  simp only [ofTrees, bind_eq_ok_iff, pure_eq_ok_iff]
  constructor
  · rintro ⟨_, htrees, rfl⟩
    exact ⟨fun t ht => forM_eq_ok_iff.1 htrees t (Array.mem_toList_iff.2 ht), rfl⟩
  · rintro ⟨htrees, rfl⟩
    exact ⟨(), forM_eq_ok_iff.2 fun t ht => htrees t (Array.mem_toList_iff.1 ht), rfl⟩

theorem map_ofRecord_zipIdx (columns : List (List Binary64)) (k : ℕ) :
    ((columns.zipIdx k).map Prod.swap).map (fun c => Node.ofRecord c.2) =
      columns.map Node.ofRecord := by
  calc ((columns.zipIdx k).map Prod.swap).map (fun c => Node.ofRecord c.2)
      = ((columns.zipIdx k).map Prod.fst).map Node.ofRecord := by
        rw [List.map_map, List.map_map]
        rfl
    _ = columns.map Node.ofRecord := by rw [List.zipIdx_map_fst]

theorem ofTable_eq_ok_iff {table : Matrix Binary64} {learningRate : Binary64} {task : Task}
    {f : Forest Binary64} :
    ofTable table learningRate task = .ok f ↔
      table.height = Node.recordFields ∧ ∃ first columns, table.columns = first :: columns ∧
        columns.map Node.ofRecord = f.nodes.map .ok ∧
        (∀ t ∈ f.trees, t.RootedOnce ∧ t.validate = .ok ()) ∧
        f = ⟨first.getD (Node.recordFields - 1) 0, f.trees, learningRate, task⟩ := by
  have hwidth := table.length_columns
  rw [ofTable]
  constructor
  · intro h
    split at h
    next => cases h
    next hdimensions =>
      refine ⟨by tauto, ?_⟩
      split at h
      next => cases h
      next first columns hcolumns =>
        split at h
        next => cases h
        next trees htrees =>
          obtain ⟨hvalid, rfl⟩ := ofTrees_eq_ok_iff.1 h
          obtain ⟨hnodes, hrooted⟩ := assemble_eq_ok_iff.1 htrees
          rw [map_ofRecord_zipIdx] at hnodes
          exact ⟨first, columns, hcolumns, hnodes, fun t ht => ⟨hrooted t ht, hvalid t ht⟩, rfl⟩
  · rintro ⟨hheight, first, columns, hcolumns, hnodes, htrees, hf⟩
    have hassemble : assemble ((columns.zipIdx 1).map Prod.swap) #[] none = .ok f.trees := by
      rw [assemble_eq_ok_iff, map_ofRecord_zipIdx]
      exact ⟨hnodes, fun t ht => (htrees t ht).1⟩
    have hpos : table.width ≠ 0 := by
      rw [← hwidth, hcolumns, List.length_cons]
      exact Nat.succ_ne_zero _
    rw [if_neg (by tauto), hcolumns]
    dsimp only
    rw [hassemble]
    exact ofTrees_eq_ok_iff.2 ⟨fun t ht => (htrees t ht).2, hf⟩

/-- The columns of the table of a forest are the bias and the records of its nodes. -/
theorem columns_toTable (f : Forest Binary64) :
    f.toTable.columns =
      (biasColumn f.bias).toList :: f.nodes.map fun n => n.toRecord.toList := by
  have hcolumns : f.tableColumns.toList = biasColumn f.bias :: f.nodes.map Node.toRecord := by
    simp [tableColumns, nodes, List.map_flatMap]
  rw [toTable, Matrix.columns_ofFn]
  calc (List.finRange f.tableColumns.size).map
        (fun j => (List.finRange Node.recordFields).map fun i => (f.tableColumns[j])[i])
      = (List.finRange f.tableColumns.size).map fun j => f.tableColumns[j].toList :=
        List.map_congr_left fun j _ => Matrix.map_getElem_finRange f.tableColumns[j]
    _ = ((List.finRange f.tableColumns.size).map fun j => f.tableColumns.toVector[j]).map
          Vector.toList := by
        rw [List.map_map]
        rfl
    _ = f.tableColumns.toList.map Vector.toList := by
        rw [Matrix.map_getElem_finRange]
        rfl
    _ = (biasColumn f.bias).toList :: f.nodes.map fun n => n.toRecord.toList := by
        rw [hcolumns, List.map_cons, List.map_map]
        rfl

end Forest

end GradientForest
