import Mathlib.Data.List.TakeWhile
import GradientForest.Scalar.Binary64
import GradientForest.Settings.Basic
import GradientForest.Tree.Growth
import GradientForest.Proofs.Tree.Layout

/-!
# Growth as a recursion

`expand` grows the subtree of a node from its number and its mask, and the
subtrees of its children inside it.  `Growth.grow` knows no recursion: it drains
a queue level by level and counts the waiting nodes to place the children.

The two are related by `layout`, which empties a queue of nested trees.  While
the queue of growth holds some seeds, the columns made so far, followed by the
layout of what the seeds expand to, do not change: `commit_seeds` says so for one
level and `levels_seeds` for all of them.  The seeds that wait stand on one level
(`Seeded`), so they are drained and committed all together.  In the end no seed
waits, and the columns are the layout of the expanded root (`grow_nodes`).

Growth stops by itself as no split stands below the allowed depth.  That depth is
below `Settings.maxExactLevel`, so all the node numbers fit into their words.
-/

namespace GradientForest

open Scalar

namespace SplitTest

variable {α : Type} [Scalar α]

/-- The test of a split that the search found. -/
def ofSplit {n : ℕ} (s : Split α n) : SplitTest α n :=
  match s.kind with
  | .scalar => .scalar s.feature s.threshold
  | .categorical => .categorical s.feature

/-- The masks of the two sides of a test. -/
def sides (d : Dataset α) (mask : Mask) : SplitTest α d.numFeatures → Mask × Mask
  | .scalar j threshold => mask.partitionScalar (.ofFn (d.features.column j)) threshold
  | .categorical j => mask.partitionCategorical (.ofFn (d.features.column j))

end SplitTest

/-- A word holds every column of a dataset. -/
theorem Dataset.toNat_column {α : Type} [Scalar α] {d : Dataset α} (j : Fin d.numFeatures) :
    (UInt64.ofNat j).toNat = j := by
  have hcapacity : Dataset.capacity < 2 ^ 64 := by decide
  have hj := j.isLt
  have hwidth : d.numFeatures < Dataset.capacity := d.width_lt
  exact UInt64.toNat_ofNat_of_lt' (show _ < 2 ^ 64 by omega)

namespace Growth

variable {α : Type} [Scalar α]

/-! ## The recursion -/

section Expand

variable (d : Dataset α) (p : GrowthParameters α) (residual hessian : Vector α d.numRows)

/-- The labels of all the rows equal the label of the first one. -/
def LabelsAgree (rows : List (Fin d.numRows)) : Prop :=
  ∀ first ∈ rows.head?, ∀ i ∈ rows, beq (d.labels.get i) (d.labels.get first) = true

instance (rows : List (Fin d.numRows)) : Decidable (LabelsAgree d rows) :=
  inferInstanceAs (Decidable (∀ first ∈ rows.head?, ∀ i ∈ rows,
    beq (d.labels.get i) (d.labels.get first) = true))

/-- The tree that grows from a node with a number and a mask. -/
def expand (id : NodeNumber) (mask : Mask) : NestedTree α d.numFeatures :=
  let rows := mask.activeRows d.numRows
  let value := leafValue p.lambda residual.get hessian.get rows
  if rows = [] then .leaf id 0
  else if _ : rows.length ≤ 1 ∨ p.maxDepth.toNat < id.level ∨
      (p.task = .classification ∧ LabelsAgree d rows) then .leaf id value
  else
    match Split.best? p.lambda d.features d.catalog residual.get hessian.get rows with
    | none => .leaf id value
    | some s =>
      if s.accepted then
        let test := SplitTest.ofSplit s
        let sides := test.sides d mask
        .split id test (expand id.left sides.1) (expand id.right sides.2)
      else .leaf id value
termination_by p.maxDepth.toNat + 1 - id.level
decreasing_by all_goals simp only [NodeNumber.level_left, NodeNumber.level_right]; omega

/-- The tree that grows on all rows. -/
def expandRoot : NestedTree α d.numFeatures :=
  expand d p residual hessian .root (.allActive d.numRows)

end Expand

/-! ## One node -/

variable {d : Dataset α} {p : GrowthParameters α} {residual hessian : Vector α d.numRows}

/-- What growth calls pure is classification with labels that agree. -/
theorem isPure_iff {task : Task} {rows : List (Fin d.numRows)} (hrows : rows ≠ []) :
    isPure d task rows = true ↔ task = .classification ∧ LabelsAgree d rows := by
  cases rows with
  | nil => exact absurd rfl hrows
  | cons i rest => cases task <;> simp [isPure, LabelsAgree]

theorem featureKind_ofSplit {rows : List (Fin d.numRows)} {s : Split α d.numFeatures}
    (h : Split.best? p.lambda d.features d.catalog residual.get hessian.get rows = some s) :
    (SplitTest.ofSplit s).featureKind = d.catalog.kind (SplitTest.ofSplit s).feature := by
  rw [Split.best?, Option.map_eq_some_iff] at h
  obtain ⟨j, -, rfl⟩ := h
  unfold Split.ofColumn SplitTest.ofSplit
  cases hkind : d.catalog.kind j with
  | scalar => exact hkind.symm
  | categorical => exact hkind.symm

theorem divide_eq (mask : Mask) (s : Split α d.numFeatures) :
    divide d mask s = .split (SplitTest.ofSplit s).nodeKind ((SplitTest.ofSplit s).sides d mask).1
      ((SplitTest.ofSplit s).sides d mask).2 := by
  unfold divide SplitTest.ofSplit
  cases s.kind <;> rfl

variable (d p residual hessian) in
/-- What becomes of a node, by the recursion and by growth.  Either it is a leaf
with the value of its active rows, or it is a split on a feature of the tested
kind that stands within the depth. -/
theorem expand_cases (id : NodeNumber) (mask : Mask) :
    (∃ value, value = leafValue p.lambda residual.get hessian.get (mask.activeRows d.numRows) ∧
      expand d p residual hessian id mask = .leaf id value ∧
      ((id : ℕ) < 2 ^ 64 → resolve d p residual hessian id.toId mask = .leaf value)) ∨
    (∃ test : SplitTest α d.numFeatures, id.level ≤ p.maxDepth.toNat ∧
      test.featureKind = d.catalog.kind test.feature ∧
      expand d p residual hessian id mask =
        .split id test (expand d p residual hessian id.left (test.sides d mask).1)
          (expand d p residual hessian id.right (test.sides d mask).2) ∧
      ((id : ℕ) < 2 ^ 64 → resolve d p residual hessian id.toId mask =
        .split test.nodeKind (test.sides d mask).1 (test.sides d mask).2)) := by
  rw [expand]
  by_cases hrows : mask.activeRows d.numRows = []
  · left
    exact ⟨0, by simp [hrows, leafValue], by simp [hrows],
      fun _ => by simp [resolve, resolveRows, hrows, leafValue]⟩
  by_cases hstop : (mask.activeRows d.numRows).length ≤ 1 ∨ p.maxDepth.toNat < id.level ∨
      (p.task = .classification ∧ LabelsAgree d (mask.activeRows d.numRows))
  · left
    refine ⟨_, rfl, by simp [hrows, hstop], fun hid => ?_⟩
    rw [← isPure_iff hrows, ← NodeNumber.level_toId hid] at hstop
    simp [resolve, resolveRows, hstop]
  have hgo : (id : ℕ) < 2 ^ 64 → ¬((mask.activeRows d.numRows).length ≤ 1 ∨
      p.maxDepth.toNat < id.toId.level ∨ isPure d p.task (mask.activeRows d.numRows) = true) := by
    intro hid
    rwa [isPure_iff hrows, NodeNumber.level_toId hid]
  cases hbest : Split.best? p.lambda d.features d.catalog residual.get hessian.get
      (mask.activeRows d.numRows) with
  | none =>
    left
    refine ⟨_, rfl, ?_, fun hid => ?_⟩
    · simp only [if_neg hrows, dif_neg hstop]
    · simp only [resolve, resolveRows, if_neg (hgo hid), hbest]
  | some s =>
    by_cases haccepted : s.accepted = true
    · right
      refine ⟨.ofSplit s, by omega, featureKind_ofSplit hbest, ?_, fun hid => ?_⟩
      · simp only [if_neg hrows, dif_neg hstop, if_pos haccepted]
      · simp only [resolve, resolveRows, if_neg (hgo hid), hbest, if_pos haccepted, divide_eq]
    · left
      refine ⟨_, rfl, ?_, fun hid => ?_⟩
      · simp only [if_neg hrows, dif_neg hstop, if_neg haccepted]
      · simp only [resolve, resolveRows, if_neg (hgo hid), hbest, if_neg haccepted]

/-- The root of an expanded tree has the number it was expanded from. -/
@[simp] theorem id_expand (id : NodeNumber) (mask : Mask) :
    (expand d p residual hessian id mask).id = id := by
  rcases expand_cases d p residual hessian id mask with ⟨value, -, h, -⟩ | ⟨test, -, -, h, -⟩
  · rw [h, NestedTree.id_leaf]
  · rw [h, NestedTree.id_split]

/-- A child of an expanded tree is expanded from a number one level further
down, and within one level of the depth. -/
theorem expand_of_mem_children {id : NodeNumber} {mask : Mask} {s : NestedTree α d.numFeatures}
    (h : s ∈ (expand d p residual hessian id mask).children) :
    ∃ id' mask', s = expand d p residual hessian id' mask' ∧ id'.level = id.level + 1 ∧
      id.level ≤ p.maxDepth.toNat := by
  rcases expand_cases d p residual hessian id mask with ⟨value, -, he, -⟩ | ⟨test, hlevel, -, he, -⟩
  · rw [he] at h
    cases h
  · rw [he] at h
    simp only [NestedTree.children, List.mem_cons, List.not_mem_nil, or_false] at h
    rcases h with rfl | rfl
    · exact ⟨_, _, rfl, id.level_left, hlevel⟩
    · exact ⟨_, _, rfl, id.level_right, hlevel⟩

/-- An expanded tree is numbered. -/
theorem numbered_expand (id : NodeNumber) (mask : Mask) :
    (expand d p residual hessian id mask).Numbered := by
  induction hk : p.maxDepth.toNat + 1 - id.level using Nat.strong_induction_on
    generalizing id mask with
  | _ k ih =>
    rcases expand_cases d p residual hessian id mask with ⟨value, -, h, -⟩ | ⟨test, hlevel, -, h, -⟩
    · rw [h]
      trivial
    · rw [h]
      have hleft := id.level_left
      have hright := id.level_right
      exact ⟨id_expand _ _, id_expand _ _, ih _ (by omega) _ _ rfl, ih _ (by omega) _ _ rfl⟩

/-- An expanded tree has at most as many levels as the depth leaves. -/
theorem height_expand_le (id : NodeNumber) (mask : Mask) :
    (expand d p residual hessian id mask).height ≤ p.maxDepth.toNat + 1 - id.level + 1 := by
  induction hk : p.maxDepth.toNat + 1 - id.level using Nat.strong_induction_on
    generalizing id mask with
  | _ k ih =>
    rcases expand_cases d p residual hessian id mask with ⟨value, -, h, -⟩ | ⟨test, hlevel, -, h, -⟩
    · rw [h, NestedTree.height]
      omega
    · have hleft := id.level_left
      have hright := id.level_right
      have ihl := ih _ (by omega) id.left (test.sides d mask).1 rfl
      have ihr := ih _ (by omega) id.right (test.sides d mask).2 rfl
      rw [h, NestedTree.height]
      omega

/-! ## The queue of growth -/

section Seeds

variable (d p residual hessian)

/-- A number and a mask that wait in the queue. -/
def pending (seed : NodeNumber × Mask) : Pending Mask := ⟨seed.1.toId, seed.2⟩

/-- The nested tree that a seed expands to. -/
def expandSeed (seed : NodeNumber × Mask) : NestedTree α d.numFeatures :=
  expand d p residual hessian seed.1 seed.2

/-- The seeds of the children of the node that a seed becomes. -/
def offspring (seed : NodeNumber × Mask) : List (NodeNumber × Mask) :=
  match expandSeed d p residual hessian seed with
  | .leaf .. => []
  | .split _ test _ _ =>
    [(seed.1.left, (test.sides d seed.2).1), (seed.1.right, (test.sides d seed.2).2)]

/-- The columns that a queue of seeds will fill. -/
def columns (treeId : UInt64) (seeds : List (NodeNumber × Mask)) : List (Node α) :=
  (NestedTree.layout (seeds.map (expandSeed d p residual hessian))).map fun e =>
    e.1.toNode treeId e.2

/-- What becomes of a seed, as growth commits it. -/
def outcome (seed : NodeNumber × Mask) : NodeId × Resolution α :=
  (seed.1.toId, resolve d p residual hessian seed.1.toId seed.2)

end Seeds

theorem children_expandSeed (seed : NodeNumber × Mask) :
    (expandSeed d p residual hessian seed).children =
      (offspring d p residual hessian seed).map (expandSeed d p residual hessian) := by
  rcases expand_cases d p residual hessian seed.1 seed.2 with ⟨value, -, h, -⟩ | ⟨test, -, -, h, -⟩
  · simp [offspring, expandSeed, h, NestedTree.children]
  · simp [offspring, expandSeed, h, NestedTree.children]

theorem level_of_mem_offspring {seed child : NodeNumber × Mask}
    (h : child ∈ offspring d p residual hessian seed) :
    child.1.level = seed.1.level + 1 ∧ seed.1.level ≤ p.maxDepth.toNat := by
  rcases expand_cases d p residual hessian seed.1 seed.2 with
    ⟨value, -, he, -⟩ | ⟨test, hlevel, -, he, -⟩
  · simp [offspring, expandSeed, he] at h
  · simp only [offspring, expandSeed, he, List.mem_cons, List.not_mem_nil, or_false] at h
    rcases h with rfl | rfl
    · exact ⟨seed.1.level_left, hlevel⟩
    · exact ⟨seed.1.level_right, hlevel⟩

theorem columns_cons (treeId : UInt64) (seed : NodeNumber × Mask)
    (seeds : List (NodeNumber × Mask)) :
    columns d p residual hessian treeId (seed :: seeds) =
      (expandSeed d p residual hessian seed).toNode treeId (seeds.length + 1) ::
        columns d p residual hessian treeId (seeds ++ offspring d p residual hessian seed) := by
  simp only [columns, List.map_cons, NestedTree.layout_cons, children_expandSeed, List.map_append,
    List.length_map]

variable (d p residual hessian) in
/-- Committing the seeds of a level moves their columns from what is to come to
what is there, and their offspring into the queue. -/
theorem commit_seeds (treeId : UInt64) (level waiting : List (NodeNumber × Mask)) (s : State α)
    (hlevel : ∀ seed ∈ level, (seed.1 : ℕ) < 2 ^ 64)
    (hs : s.frontier.entries = waiting.map pending) :
    (commit treeId (level.map (outcome d p residual hessian)) s).frontier.entries =
        (waiting ++ level.flatMap (offspring d p residual hessian)).map pending ∧
      (commit treeId (level.map (outcome d p residual hessian)) s).nodes.toList ++
          columns d p residual hessian treeId
            (waiting ++ level.flatMap (offspring d p residual hessian)) =
        s.nodes.toList ++ columns d p residual hessian treeId (level ++ waiting) := by
  induction level generalizing waiting s with
  | nil => simp [commit, hs]
  | cons seed level ih =>
    have hseed : (seed.1 : ℕ) < 2 ^ 64 := hlevel seed List.mem_cons_self
    have hrest : ∀ e ∈ level, (e.1 : ℕ) < 2 ^ 64 := fun e he =>
      hlevel e (List.mem_cons_of_mem _ he)
    rw [List.map_cons, outcome, List.cons_append, columns_cons, List.flatMap_cons]
    rcases expand_cases d p residual hessian seed.1 seed.2 with
      ⟨value, -, he, hr⟩ | ⟨test, -, -, he, hr⟩
    · have hoffspring : offspring d p residual hessian seed = [] := by
        simp [offspring, expandSeed, he]
      obtain ⟨hentries, hcolumns⟩ :=
        ih waiting { s with nodes := s.nodes.push (.leaf seed.1.toId treeId value) } hrest hs
      rw [hr hseed, commit, hoffspring, List.nil_append, List.append_nil]
      refine ⟨hentries, hcolumns.trans ?_⟩
      simp [expandSeed, he, NestedTree.toNode]
    · have hoffspring : offspring d p residual hessian seed =
          [(seed.1.left, (test.sides d seed.2).1), (seed.1.right, (test.sides d seed.2).2)] := by
        simp [offspring, expandSeed, he]
      have hlength : s.frontier.length = waiting.length := by
        rw [Frontier.length, hs, List.length_map]
      obtain ⟨hentries, hcolumns⟩ := ih (waiting ++ offspring d p residual hessian seed)
        { nodes := s.nodes.push ⟨seed.1.toId, treeId,
            .ofNat (level.length + waiting.length + 1), test.nodeKind⟩
          frontier := s.frontier.pushChildren seed.1.toId (test.sides d seed.2).1
            (test.sides d seed.2).2 } hrest (by
          simp [Frontier.pushChildren, hs, hoffspring, pending])
      rw [hr hseed, commit, List.length_map, hlength, ← List.append_assoc]
      refine ⟨hentries, hcolumns.trans ?_⟩
      simp [expandSeed, he, NestedTree.toNode]

/-- A queue on one level drains completely. -/
theorem drainLevel_of_level {ρ : Type} {f : Frontier ρ} {l : ℕ}
    (h : ∀ e ∈ f.entries, e.id.level = l) : f.drainLevel = (f.entries, ⟨[]⟩) := by
  obtain ⟨entries⟩ := f
  cases entries with
  | nil => rfl
  | cons e es =>
    have hfirst : e.id.level = l := h e List.mem_cons_self
    have hall : ∀ x ∈ e :: es, decide (x.id.level = e.id.level) = true := by
      intro x hx
      rw [decide_eq_true_eq, h x hx, hfirst]
    simp only [Frontier.drainLevel, Prod.mk.injEq, Frontier.mk.injEq]
    exact ⟨List.takeWhile_eq_self_iff.2 hall, List.dropWhile_eq_nil_iff.2 hall⟩

omit [Scalar α] in
/-- Nothing becomes of an empty queue. -/
theorem levels_of_empty {resolveNode : NodeId → Mask → Resolution α} {treeId : UInt64}
    {s : State α} (h : s.frontier.entries = []) (steps : ℕ) :
    levels resolveNode treeId steps s = s := by
  cases steps with
  | zero => rfl
  | succ steps =>
    have hfrontier : s.frontier = ⟨[]⟩ := congrArg Frontier.mk h
    rw [levels, hfrontier, Frontier.drainLevel_nil]

/-- The queue holds seeds that all stand on one level, at most one below the depth. -/
structure Seeded (p : GrowthParameters α) (seeds : List (NodeNumber × Mask)) (l : ℕ)
    (s : State α) : Prop where
  entries : s.frontier.entries = seeds.map pending
  level : ∀ seed ∈ seeds, seed.1.level = l ∧ l ≤ p.maxDepth.toNat + 1

namespace Seeded

variable {seeds : List (NodeNumber × Mask)} {l : ℕ} {s : State α} {treeId : UInt64}

omit [Scalar α] in
theorem lt_word (h : Seeded p seeds l s) (hdepth : p.maxDepth.toNat < Settings.maxExactLevel) :
    ∀ seed ∈ seeds, (seed.1 : ℕ) < 2 ^ 64 := by
  have hmax : Settings.maxExactLevel = 52 := rfl
  intro seed hseed
  obtain ⟨hl, hle⟩ := h.level seed hseed
  exact NodeNumber.lt_of_level_le (by omega)

omit [Scalar α] in
theorem level_of_mem (h : Seeded p seeds l s)
    (hdepth : p.maxDepth.toNat < Settings.maxExactLevel) :
    ∀ e ∈ s.frontier.entries, e.id.level = l := by
  intro e he
  rw [h.entries] at he
  obtain ⟨seed, hseed, rfl⟩ := List.mem_map.1 he
  rw [pending, NodeNumber.level_toId (h.lt_word hdepth seed hseed), (h.level seed hseed).1]

/-- The seeds are committed all together. -/
theorem levels_succ (h : Seeded p seeds l s) (hdepth : p.maxDepth.toNat < Settings.maxExactLevel)
    (steps : ℕ) :
    levels (resolve d p residual hessian) treeId (steps + 1) s =
      levels (resolve d p residual hessian) treeId steps
        (commit treeId (seeds.map (outcome d p residual hessian))
          { s with frontier := ⟨[]⟩ }) := by
  cases seeds with
  | nil =>
    have hempty : s.frontier = ⟨[]⟩ := congrArg Frontier.mk h.entries
    rw [List.map_nil, commit, ← hempty, levels_of_empty h.entries, levels_of_empty h.entries]
  | cons seed rest =>
    rw [levels, drainLevel_of_level (h.level_of_mem hdepth), h.entries]
    simp only [List.map_cons, List.map_map]
    rfl

/-- After the commit the queue holds the offspring, one level further down. -/
theorem commit (h : Seeded p seeds l s) (hdepth : p.maxDepth.toNat < Settings.maxExactLevel) :
    Seeded p (seeds.flatMap (offspring d p residual hessian)) (l + 1)
      (commit treeId (seeds.map (outcome d p residual hessian)) { s with frontier := ⟨[]⟩ }) := by
  obtain ⟨hentries, -⟩ := commit_seeds d p residual hessian treeId seeds []
    { s with frontier := ⟨[]⟩ } (h.lt_word hdepth) rfl
  refine ⟨hentries, fun child hchild => ?_⟩
  obtain ⟨e, he, hce⟩ := List.mem_flatMap.1 hchild
  obtain ⟨hl, -⟩ := h.level e he
  obtain ⟨hc, hle⟩ := level_of_mem_offspring hce
  omega

end Seeded

variable (d p) in
theorem seeded_start :
    Seeded p [(.root, .allActive d.numRows)] 1
      (⟨#[], .root (.allActive d.numRows)⟩ : State α) :=
  ⟨rfl, by simp⟩

variable (d residual hessian) in
/-- With steps left for the levels down to the depth, growth fills exactly the
columns of the seeds that wait. -/
theorem levels_seeds (hdepth : p.maxDepth.toNat < Settings.maxExactLevel) (treeId : UInt64)
    (steps l : ℕ) (seeds : List (NodeNumber × Mask)) (s : State α) (hs : Seeded p seeds l s)
    (hsteps : p.maxDepth.toNat + 2 ≤ steps + l) :
    (levels (resolve d p residual hessian) treeId steps s).nodes.toList =
      s.nodes.toList ++ columns d p residual hessian treeId seeds := by
  induction steps generalizing l seeds s with
  | zero =>
    have hnil : seeds = [] := by
      refine List.eq_nil_iff_forall_not_mem.2 fun seed hseed => ?_
      have := (hs.level seed hseed).2
      omega
    simp [levels, hnil, columns]
  | succ steps ih =>
    obtain ⟨-, hcolumns⟩ := commit_seeds d p residual hessian treeId seeds []
      { s with frontier := ⟨[]⟩ } (hs.lt_word hdepth) rfl
    rw [List.nil_append, List.append_nil] at hcolumns
    rw [hs.levels_succ hdepth, ih (l + 1) _ _ (hs.commit hdepth) (by omega), hcolumns]

variable (d residual hessian) in
/-- The columns of a grown tree are the layout of the expanded root. -/
theorem grow_nodes (hdepth : p.maxDepth.toNat < Settings.maxExactLevel) (treeId : UInt64) :
    (grow d p treeId residual hessian).nodes.toList =
      (NestedTree.layout [expandRoot d p residual hessian]).map fun e => e.1.toNode treeId e.2 := by
  have hmax : Settings.maxExactLevel = 52 := rfl
  have h := levels_seeds d residual hessian hdepth treeId
    (levelBound d.numRows) 1 _ _ (seeded_start d p) (by rw [levelBound]; omega)
  simpa [grow, columns, expandSeed, expandRoot] using h

variable (d p residual hessian) in
theorem numbered_expandRoot : (expandRoot d p residual hessian).Numbered := numbered_expand _ _

/-- Residuals and weights of the dataset's length pass the check. -/
theorem build_toArray (d : Dataset α) (p : GrowthParameters α) (treeId : UInt64)
    (residual hessian : Vector α d.numRows) :
    build d p treeId residual.toArray hessian.toArray = .ok (grow d p treeId residual hessian) :=
  dif_pos ⟨residual.size_toArray, hessian.size_toArray⟩

/-- Building a tree succeeds on residuals and weights of the dataset's length,
and gives the recursively grown tree in level order. -/
theorem build_eq_flatten (d : Dataset α) (p : GrowthParameters α)
    (hdepth : p.maxDepth.toNat < Settings.maxExactLevel) (treeId : UInt64)
    (residual hessian : Vector α d.numRows) :
    build d p treeId residual.toArray hessian.toArray =
      .ok ⟨treeId, ((expandRoot d p residual hessian).flatten treeId).toArray⟩ := by
  have hnodes := grow_nodes d residual hessian hdepth treeId
  rw [← NestedTree.flatten_eq_layout treeId (numbered_expandRoot d p residual hessian)] at hnodes
  rw [build_toArray, ← hnodes]
  rfl

/-! ## A dataset that grows both kinds of splits -/

/-- Six rows of a scalar, undefined in the third row, and an indicator. -/
def mixedData : Dataset Binary64 where
  features := ⟨6, 2, #v[#v[1, 0], #v[2, 1], #v[nan, 0], #v[4, 1], #v[5, 0], #v[6, 1]]⟩
  labels := #v[1, 1, 3, 5, 0, 8]
  catalog := ⟨[.scalar, .categorical]⟩
  names := none
  height_pos := by decide
  catalog_length := by decide
  indicators := by decide +kernel
  height_lt := by decide
  width_lt := by decide

theorem build_mixedData :
    (2 : UInt64).toNat < Settings.maxExactLevel ∧
    build mixedData ⟨.regression, 2, 0⟩ 1 mixedData.labels.toArray (.replicate 6 1) =
      .ok ⟨1, ((expandRoot mixedData ⟨.regression, 2, 0⟩ mixedData.labels
        (.replicate 6 1)).flatten 1).toArray⟩ ∧
    build mixedData ⟨.regression, 2, 0⟩ 1 mixedData.labels.toArray (.replicate 6 1) =
      .ok ⟨1, #[⟨1, 1, 1, .scalar 0 (11 / 2)⟩, ⟨2, 1, 2, .categorical 1⟩, .leaf 3 1 8,
        .leaf 4 1 3, .leaf 5 1 (1 / 2)]⟩ :=
  ⟨by decide, build_eq_flatten mixedData ⟨.regression, 2, 0⟩ (by decide) 1 mixedData.labels
    (.replicate 6 1), by decide +kernel⟩

end Growth

end GradientForest
