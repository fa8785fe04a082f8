import GradientForest.Tree.Growth
import GradientForest.Proofs.Outcome

/-!
# Other leaf values and other tree numbers

`Tree.mapLeaves` changes the leaf values of a tree, and `Tree.withId` its number.  Both
leave the shape of the tree alone, with its node numbers, offsets and tests.

Growth hands leaf values and the tree number on without looking at them.  So if every
node resolves to the changed leaf values, the changed tree grows (`Growth.levels_copy`).
A walk does not look at them either and ends in the leaf where it ended before, or fails
where it failed (`Tree.evaluate_mapLeaves`).
-/

namespace GradientForest

open Scalar

variable {α : Type} {f : α → α}

/-! ## Changed trees -/

/-- A leaf with another value, a split as it is. -/
def NodeKind.mapLeaf (f : α → α) : NodeKind α → NodeKind α
  | .leaf value => .leaf (f value)
  | .scalar feature threshold => .scalar feature threshold
  | .categorical feature => .categorical feature

@[simp] theorem NodeKind.mapLeaf_id (kind : NodeKind α) : kind.mapLeaf id = kind := by
  cases kind <;> rfl

/-- The node with its leaf value changed. -/
def Node.mapLeaf (f : α → α) (n : Node α) : Node α := { n with kind := n.kind.mapLeaf f }

/-- The node in a tree with another number. -/
def Node.withTreeId (treeId : UInt64) (n : Node α) : Node α := { n with treeId }

/-- The tree with its leaf values changed. -/
def Tree.mapLeaves (f : α → α) (t : Tree α) : Tree α :=
  { t with nodes := t.nodes.map (Node.mapLeaf f) }

/-- The tree with another number. -/
def Tree.withId (id : UInt64) (t : Tree α) : Tree α := ⟨id, t.nodes.map (Node.withTreeId id)⟩

/-- The last of two numbers counts. -/
theorem Tree.withId_withId (t : Tree α) (id id' : UInt64) :
    (t.withId id).withId id' = t.withId id' :=
  congrArg (Tree.mk id') Array.map_map

/-- The outcome with its leaf value changed. -/
def Resolution.mapLeaf (f : α → α) : Resolution α → Resolution α
  | .leaf value => .leaf (f value)
  | .split kind left right => .split (kind.mapLeaf f) left right

@[simp] theorem Resolution.mapLeaf_id (r : Resolution α) : r.mapLeaf id = r := by
  cases r with
  | leaf value => rfl
  | split kind left right => rw [mapLeaf, NodeKind.mapLeaf_id]

/-! ## Growth -/

namespace Growth

/-- The state with all its nodes changed. -/
def State.map (g : Node α → Node α) (s : State α) : State α := ⟨s.nodes.map g, s.frontier⟩

section Copy

variable {treeId treeId' : UInt64} {g : Node α → Node α}
  (hg : ∀ id offset kind, g ⟨id, treeId, offset, kind⟩ = ⟨id, treeId', offset, kind.mapLeaf f⟩)

include hg

theorem commit_copy (outcomes : List (NodeId × Resolution α)) (s : State α) :
    commit treeId' (outcomes.map (Prod.map id (Resolution.mapLeaf f))) (s.map g) =
      (commit treeId outcomes s).map g := by
  induction outcomes generalizing s with
  | nil => rfl
  | cons outcome outcomes ih =>
    obtain ⟨number, resolution⟩ := outcome
    cases resolution with
    | leaf value =>
      have hleaf : g (.leaf number treeId value) = .leaf number treeId' (f value) :=
        hg number 0 (.leaf value)
      rw [commit, ← ih, State.map, State.map, Array.map_push, hleaf]
      rfl
    | split kind left right =>
      rw [commit, ← ih, State.map, State.map, Array.map_push, hg, List.map_cons, Prod.map,
        Resolution.mapLeaf, commit, List.length_map]
      rfl

/-- Outcomes with changed leaf values grow the changed nodes. -/
theorem levels_copy {resolveNode resolveNode' : NodeId → Mask → Resolution α}
    (hresolve : ∀ id mask, resolveNode' id mask = (resolveNode id mask).mapLeaf f) (steps : ℕ)
    (s : State α) :
    levels resolveNode' treeId' steps (s.map g) = (levels resolveNode treeId steps s).map g := by
  induction steps generalizing s with
  | zero => rfl
  | succ steps ih =>
    have hdrain : (s.map g).frontier.drainLevel = s.frontier.drainLevel := rfl
    rw [levels, levels, hdrain]
    rcases s.frontier.drainLevel with ⟨_ | ⟨e, level⟩, rest⟩
    · rfl
    · have houtcomes : ((e :: level).map fun e => (e.id, resolveNode' e.id e.rows)) =
          ((e :: level).map fun e => (e.id, resolveNode e.id e.rows)).map
            (Prod.map id (Resolution.mapLeaf f)) := by
        rw [List.map_map]
        exact List.map_congr_left fun e _ => congrArg (Prod.mk e.id) (hresolve e.id e.rows)
      dsimp only
      rw [houtcomes, ← ih, ← commit_copy hg]
      rfl

/-- From an empty table on, the whole table is changed. -/
theorem nodes_copy {resolveNode resolveNode' : NodeId → Mask → Resolution α}
    (hresolve : ∀ id mask, resolveNode' id mask = (resolveNode id mask).mapLeaf f) (steps : ℕ)
    (frontier : Frontier Mask) :
    (levels resolveNode' treeId' steps ⟨#[], frontier⟩).nodes =
      (levels resolveNode treeId steps ⟨#[], frontier⟩).nodes.map g := by
  have hempty : State.map g ⟨#[], frontier⟩ = ⟨#[], frontier⟩ :=
    congrArg (State.mk · frontier) Array.map_empty
  have hlevels := levels_copy hg hresolve steps ⟨#[], frontier⟩
  rw [hempty] at hlevels
  exact congrArg State.nodes hlevels

end Copy

variable [Scalar α] {d : Dataset α} {p : GrowthParameters α}

/-- The number of a tree has no part in its growth. -/
theorem grow_withId (treeId treeId' : UInt64) (residual hessian : Vector α d.numRows) :
    grow d p treeId' residual hessian = (grow d p treeId residual hessian).withId treeId' :=
  congrArg (Tree.mk treeId') <| nodes_copy (f := id)
    (fun id offset kind => by rw [NodeKind.mapLeaf_id]; rfl)
    (fun id mask => (Resolution.mapLeaf_id (resolve d p residual hessian id mask)).symm) _ _

end Growth

/-! ## Walks -/

/-- The turn with the value of a leaf changed. -/
def Turn.mapStop (f : α → α) : Turn α → Turn α
  | .stop value => .stop (f value)
  | .to side => .to side

variable [Scalar α]

theorem NodeKind.turn_mapLeaf (row : Array α) (kind : NodeKind α) :
    (kind.mapLeaf f).turn row = (kind.turn row).map (Turn.mapStop f) := by
  cases kind with
  | leaf value => rfl
  | scalar feature threshold =>
    rw [mapLeaf, turn]
    cases featureValue row feature <;> rfl
  | categorical feature =>
    rw [mapLeaf, turn]
    cases featureValue row feature with
    | error e => rfl
    | ok v =>
      simp only [bind, Except.bind]
      cases Side.ofIndicator v <;> rfl

namespace Tree

theorem walkFrom_mapLeaves (t : Tree α) (row : Array α) (steps : ℕ) (column : UInt64) :
    (t.mapLeaves f).walkFrom row steps column = (t.walkFrom row steps column).map f := by
  induction steps generalizing column with
  | zero => rfl
  | succ steps ih =>
    have hnode : (t.mapLeaves f).nodes[column.toNat]? =
        t.nodes[column.toNat]?.map (Node.mapLeaf f) := Array.getElem?_map
    rw [walkFrom, walkFrom, hnode]
    cases t.nodes[column.toNat]? with
    | none => rfl
    | some n =>
      dsimp only [Option.map_some]
      have hchild side : childColumn column (n.mapLeaf f) side = childColumn column n side := rfl
      simp only [hchild]
      rw [Node.mapLeaf, NodeKind.turn_mapLeaf]
      rcases n.kind.turn row with e | value | side
      · rfl
      · rfl
      · simp only [Except.map, Turn.mapStop, bind, Except.bind]
        split
        · rfl
        · cases childColumn column n side with
          | error e => rfl
          | ok child => exact ih child

/-- A row reaches the leaf that it reached before. -/
theorem evaluate_mapLeaves (t : Tree α) (row : Array α) :
    (t.mapLeaves f).evaluate row = (t.evaluate row).map f := by
  have hsize : (t.mapLeaves f).size = t.size := Array.size_map
  rw [evaluate, evaluate, hsize, walkFrom_mapLeaves]

theorem evaluateAll_mapLeaves (t : Tree α) (m : Matrix α) :
    (t.mapLeaves f).evaluateAll m = (t.evaluateAll m).map (Vector.map f) := by
  rw [evaluateAll, evaluateAll, ← vector_mapM_map]
  simp only [evaluate_mapLeaves]

end Tree

end GradientForest
