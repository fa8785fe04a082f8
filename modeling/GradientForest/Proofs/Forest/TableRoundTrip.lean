import GradientForest.Proofs.Forest.Assembly
import GradientForest.Proofs.Training.Rounds
import GradientForest.Proofs.Tree.Record

/-!
# Forests that tables keep

A forest whose numbers are exact in binary64 comes back from its table if and only if
its trees are `Tabular`: they pass their check, ids are positive, only the first node
has id 1, and leaves point nowhere (`Forest.ExactFields.roundTrips_iff`).  These are
all the ways in which a table can lose something.

Grown trees are tabular (`Tree.FullBinary.tabular`), so trained forests are.  Their ids
and offsets are bounded by the depth, hence their numbers are exact if those of the
rounds and the features are (`Growth.exactFields_grow`).
-/

namespace GradientForest

open Scalar

/-! ## Tabular trees -/

namespace Tree

variable {α : Type} {t : Tree α}

/-- What a tree has to be for a table to keep it. -/
structure Tabular (t : Tree α) : Prop where
  /-- The tree passes its check. -/
  validate_eq : t.validate = .ok ()
  /-- Ids are positive. -/
  id_pos : ∀ n ∈ t.nodes, 1 ≤ n.id
  /-- Only the first node has the id of a root. -/
  root_first : ∀ (c : ℕ) (n : Node α), t.nodes[c]? = some n → n.id = 1 → c = 0
  /-- Leaves point nowhere. -/
  leaf_offset : ∀ n ∈ t.nodes, n.isLeaf = true → n.childOffset = 0

theorem Tabular.rootedOnce (h : t.Tabular) : t.RootedOnce := by
  obtain ⟨root, hroot, hid, hcheck⟩ := validate_eq_ok_iff.1 h.validate_eq
  obtain ⟨rest, hnodes⟩ : ∃ rest, t.nodes.toList = root :: rest := by
    rw [← Array.getElem?_toList, ← List.head?_eq_getElem?] at hroot
    exact List.head?_eq_some_iff.1 hroot
  refine ⟨root, rest, hnodes, hid, (of_checkNode (hcheck 0 root hroot)).1.symm, ?_⟩
  intro n hn hn1
  obtain ⟨c, hc⟩ := List.mem_iff_getElem?.1 hn
  have hcolumn : t.nodes[c + 1]? = some n := by
    rw [← Array.getElem?_toList, hnodes, List.getElem?_cons_succ, hc]
  exact absurd (h.root_first (c + 1) n hcolumn hn1) (Nat.succ_ne_zero c)

/-- The table keeps the nodes one by one, and the tree has to be found among them. -/
theorem tabular_iff :
    t.Tabular ↔ (∀ n ∈ t.nodes, 1 ≤ n.id ∧ (n.isLeaf = true ↔ n.childOffset = 0)) ∧
      t.RootedOnce ∧ t.validate = .ok () := by
  constructor
  · intro h
    refine ⟨fun n hn => ⟨h.id_pos n hn, h.leaf_offset n hn, ?_⟩, h.rootedOnce, h.validate_eq⟩
    obtain ⟨root, -, -, hcheck⟩ := validate_eq_ok_iff.1 h.validate_eq
    obtain ⟨c, hc⟩ := Array.mem_iff_getElem?.1 hn
    exact (of_checkNode (hcheck c n hc)).2
  · rintro ⟨hnodes, hrooted, hvalid⟩
    exact
      { validate_eq := hvalid
        id_pos := fun n hn => (hnodes n hn).1
        root_first := fun _ _ => hrooted.column_eq_zero
        leaf_offset := fun n hn => (hnodes n hn).2.1 }

variable [Scalar α] {d : Dataset α} {maxDepth : ℕ} {treeId : UInt64}

/-- The first node has id 1 and all others have larger ones. -/
theorem FullBinary.id_cases (h : t.FullBinary d maxDepth treeId) {c : ℕ} {n : Node α}
    (hn : t.nodes[c]? = some n) : c = 0 ∧ n.id = 1 ∨ 1 < n.id := by
  obtain ⟨root, hroot, hid⟩ := Option.map_eq_some_iff.1 h.root_id
  rw [root?, ← Array.getElem?_toList, List.getElem?_eq_some_iff] at hroot
  rw [← Array.getElem?_toList, List.getElem?_eq_some_iff] at hn
  obtain ⟨hroot, rfl⟩ := hroot
  obtain ⟨hc, rfl⟩ := hn
  cases c with
  | zero => exact .inl ⟨rfl, hid⟩
  | succ c =>
    refine .inr ?_
    rw [← hid]
    exact List.pairwise_iff_getElem.1 h.ids_increase 0 (c + 1) hroot hc (Nat.succ_pos c)

theorem FullBinary.tabular (h : t.FullBinary d maxDepth treeId) : t.Tabular where
  validate_eq := h.validate_eq
  id_pos n hn := by
    obtain ⟨c, hc⟩ := Array.mem_iff_getElem?.1 hn
    rcases h.id_cases hc with ⟨-, hid⟩ | hid
    · exact UInt64.le_of_eq hid.symm
    · exact UInt64.le_of_lt hid
  root_first c n hc hid := by
    rcases h.id_cases hc with ⟨hzero, -⟩ | hlt
    · exact hzero
    · exact absurd hid.symm (UInt64.ne_of_lt hlt)
  leaf_offset := h.leaf_offset

end Tree

/-! ## Tabular forests -/

namespace Forest

/-- All trees are kept by a table. -/
def Tabular (f : Forest Binary64) : Prop := ∀ t ∈ f.trees, t.Tabular

/-- All numbers of the nodes are exact in binary64. -/
def ExactFields (f : Forest Binary64) : Prop := ∀ t ∈ f.trees, ∀ n ∈ t.nodes, n.ExactFields

/-- The forest comes back from its table. -/
def RoundTrips (f : Forest Binary64) : Prop := ofTable f.toTable f.learningRate f.task = .ok f

variable {f : Forest Binary64}

theorem mem_nodes {n : Node Binary64} : n ∈ f.nodes ↔ ∃ t ∈ f.trees, n ∈ t.nodes := by
  simp only [nodes, List.mem_flatMap, Array.mem_toList_iff]

theorem map_map_eq_map_iff {β γ δ : Type} {l : List β} {g : β → γ} {h : γ → δ} {k : β → δ} :
    (l.map g).map h = l.map k ↔ ∀ x ∈ l, h (g x) = k x := by
  rw [List.map_map]
  exact List.map_inj_left

theorem map_ofRecord_toRecord_iff (h : f.ExactFields) :
    (f.nodes.map fun n => n.toRecord.toList).map Node.ofRecord = f.nodes.map .ok ↔
      ∀ t ∈ f.trees, ∀ n ∈ t.nodes, 1 ≤ n.id ∧ (n.isLeaf = true ↔ n.childOffset = 0) := by
  rw [map_map_eq_map_iff]
  constructor
  · intro hall t ht n hn
    exact (Node.ofRecord_toRecord_iff (h t ht n hn)).1 (hall n (mem_nodes.2 ⟨t, ht, hn⟩))
  · intro hall n hn
    obtain ⟨t, ht, hn⟩ := mem_nodes.1 hn
    exact (Node.ofRecord_toRecord_iff (h t ht n hn)).2 (hall t ht n hn)

theorem ExactFields.roundTrips_iff (h : f.ExactFields) : f.RoundTrips ↔ f.Tabular := by
  rw [RoundTrips, ofTable_eq_ok_iff, columns_toTable]
  constructor
  · rintro ⟨-, first, columns, hcolumns, hnodes, htrees, -⟩ t ht
    cases hcolumns
    rw [map_ofRecord_toRecord_iff h] at hnodes
    exact Tree.tabular_iff.2 ⟨hnodes t ht, htrees t ht⟩
  · intro hf
    refine ⟨rfl, _, _, rfl, ?_, fun t ht => (Tree.tabular_iff.1 (hf t ht)).2, rfl⟩
    rw [map_ofRecord_toRecord_iff h]
    exact fun t ht => (Tree.tabular_iff.1 (hf t ht)).1

end Forest

/-! ## Trained forests -/

namespace Growth

variable {d : Dataset Binary64} {p : GrowthParameters Binary64}
variable {residual hessian : Vector Binary64 d.numRows} {treeId : UInt64}

/-- The depth bounds ids and offsets, so only the round and the features may be too
large. -/
theorem exactFields_grow (hdepth : p.maxDepth.toNat < Settings.maxExactLevel)
    (htree : treeId.toNat ≤ Node.maxField) (hfeatures : d.numFeatures ≤ Node.maxField)
    {n : Node Binary64} (hn : n ∈ (grow d p treeId residual hessian).nodes) : n.ExactFields := by
  have hmax : Node.maxField = 2 ^ 53 := rfl
  have hsize := size_grow_lt d residual hessian treeId hdepth
  rw [show Settings.maxExactLevel = 52 from rfl] at hsize
  obtain ⟨c, hc⟩ := Array.mem_iff_getElem?.1 hn
  obtain ⟨id, mask, hstands, hlevel⟩ := exists_stands residual hessian treeId hdepth
    (Array.getElem?_eq_some_iff.1 hc).1
  have hid : id.toId.toNat ≤ Node.maxField := by
    have hpow : (2 : ℕ) ^ id.level ≤ 2 ^ 53 := Nat.pow_le_pow_right (by omega) (by
      rw [show Settings.maxExactLevel = 52 from rfl] at hdepth
      omega)
    have hlt := id.lt_two_pow_level
    rw [NodeNumber.toNat_toId (hstands.id_lt_word hdepth)]
    omega
  cases hstands.column hdepth treeId with
  | leaf value node =>
    obtain rfl := Option.some.inj (hc.symm.trans node)
    exact ⟨hid, htree, Nat.zero_le _, nofun⟩
  | split test offset node kind pos child =>
    obtain rfl := Option.some.inj (hc.symm.trans node)
    have hleft : c + offset.toNat < _ := (child .left).lt_size hdepth treeId
    refine ⟨hid, htree, by dsimp only; omega, fun j hj => ?_⟩
    obtain rfl := Option.some.inj ((feature?_nodeKind test).1.symm.trans hj)
    rw [Dataset.toNat_column]
    exact Nat.lt_of_lt_of_le test.feature.isLt hfeatures

end Growth

namespace Forest

variable {s : Settings Binary64} {d : Dataset Binary64} {f : Forest Binary64}
variable {history : History Binary64}

theorem tabular_of_train (h : s.train d = .ok (f, history)) : f.Tabular := by
  intro t ht
  obtain ⟨hdepth, round, -, residual, hessian, rfl⟩ := Training.grown_of_train h ht
  exact (Growth.fullBinary_grow (p := s.growth) hdepth).tabular

theorem exactFields_of_train (h : s.train d = .ok (f, history))
    (hrounds : s.numTrees.toNat ≤ Node.maxField) (hfeatures : d.numFeatures ≤ Node.maxField) :
    f.ExactFields := by
  intro t ht n hn
  obtain ⟨hdepth, round, hround, residual, hessian, rfl⟩ := Training.grown_of_train h ht
  have hword := s.numTrees.toNat_lt
  refine Growth.exactFields_grow (p := s.growth) hdepth ?_ hfeatures hn
  rw [UInt64.toNat_ofNat_of_lt' (show round < 2 ^ 64 by omega)]
  exact hround.trans hrounds

/-- Of the forests with exact numbers, tables keep exactly the tabular ones.  Trained
forests are among these, and their numbers are exact if those of the rounds and the
features are. -/
theorem roundTrips_iff_tabular :
    (∀ f : Forest Binary64, f.ExactFields → (f.RoundTrips ↔ f.Tabular)) ∧
    ∀ (s : Settings Binary64) (d : Dataset Binary64) (f : Forest Binary64)
      (history : History Binary64), s.train d = .ok (f, history) →
        (f.ExactFields → f.RoundTrips) ∧
        (s.numTrees.toNat ≤ Node.maxField → d.numFeatures ≤ Node.maxField → f.ExactFields) := by
  constructor
  · intro f hf
    exact hf.roundTrips_iff
  · intro s d f history h
    exact ⟨fun hf => hf.roundTrips_iff.2 (tabular_of_train h), exactFields_of_train h⟩

/-- A leaf that points somewhere. -/
def strayLeaf : Node Binary64 := ⟨1, 1, 1, .leaf 0⟩

/-- A forest that passes its check but is not tabular. -/
def strayForest : Forest Binary64 := ⟨0, #[⟨1, #[strayLeaf]⟩], 1, .regression⟩

theorem roundTrips_mixedData :
    (∃ f history, (Settings.threeRounds .regression).train Growth.mixedData = .ok (f, history) ∧
      f.ExactFields ∧ f.Tabular ∧ f.RoundTrips) ∧
    strayForest.ExactFields ∧ ¬ strayForest.Tabular ∧ ¬ strayForest.RoundTrips := by
  obtain ⟨hall, htrained⟩ := roundTrips_iff_tabular
  have hnode : ∀ t ∈ strayForest.trees, ∀ n ∈ t.nodes, n = strayLeaf := by simp [strayForest]
  have hstray : strayForest.ExactFields := by
    intro t ht n hn
    rw [hnode t ht n hn]
    exact ⟨by decide, by decide, by decide, nofun⟩
  have hleaf : ¬ strayForest.Tabular := by
    intro h
    have htree : Tree.Tabular ⟨1, #[strayLeaf]⟩ := h _ (by simp [strayForest])
    exact absurd (htree.leaf_offset strayLeaf (by simp) rfl) (by decide)
  refine ⟨?_, hstray, hleaf, fun h => hleaf ((hall _ hstray).1 h)⟩
  obtain ⟨f, history, h⟩ := Training.exists_train (s := Settings.threeRounds .regression)
    (d := Growth.mixedData) (by decide +kernel) (by decide +kernel)
  obtain ⟨hround, hexact⟩ := htrained _ _ f history h
  have hf := hexact (by decide +kernel) (by decide +kernel)
  exact ⟨f, history, h, hf, (hall f hf).1 (hround hf), hround hf⟩

end Forest

end GradientForest
