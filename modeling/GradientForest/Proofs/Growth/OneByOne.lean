import GradientForest.Proofs.Growth.Expansion

/-!
# Growing one node at a time

`Growth.levels` drains a whole level, resolves its nodes and commits them together.
`Growth.Grows` takes the oldest entry of the queue alone, makes its column, appends its
children, and goes on until the queue is empty.

Between the two stands a queue in two parts: the entries of a drained level that are not
committed yet, and behind them the entries that wait in the frontier.  One commit does to
the two parts what one pop does to the whole queue (`grows_commit`), whatever the
outcomes are.  So a drained level may be put back at any time (`grows_levels`), even if
entries of other levels wait behind it.  In a grown tree they never do: every queue is
on one level and drains completely (`seeded_levels`).
-/

namespace GradientForest

open Scalar

namespace Growth

variable {α : Type}

/-- Takes the oldest entry of the queue and makes its column.  The children of a split
will stand as many columns ahead as entries are left, plus one. -/
def popOne (resolveNode : NodeId → Mask → Resolution α) (treeId : UInt64) (s : State α) :
    Option (State α) :=
  match s.frontier.pop? with
  | none => none
  | some (e, rest) =>
    match resolveNode e.id e.rows with
    | .leaf value => some ⟨s.nodes.push (.leaf e.id treeId value), rest⟩
    | .split kind left right => some
      ⟨s.nodes.push ⟨e.id, treeId, .ofNat (rest.length + 1), kind⟩,
        rest.pushChildren e.id left right⟩

/-- One entry after the other is taken until none waits. -/
inductive Grows (resolveNode : NodeId → Mask → Resolution α) (treeId : UInt64) :
    State α → State α → Prop where
  | done {s : State α} (empty : popOne resolveNode treeId s = none) : Grows resolveNode treeId s s
  | pop {s s' s'' : State α} (one : popOne resolveNode treeId s = some s')
    (rest : Grows resolveNode treeId s' s'') : Grows resolveNode treeId s s''

variable {resolveNode : NodeId → Mask → Resolution α} {treeId : UInt64} {s s' t : State α}

/-! ## Popping and committing -/

/-- Growth goes on from the state after one pop. -/
theorem grows_pop (h : popOne resolveNode treeId s = some s') :
    Grows resolveNode treeId s t ↔ Grows resolveNode treeId s' t := by
  constructor
  · intro hs
    cases hs with
    | done empty => cases empty.symm.trans h
    | pop one rest =>
      obtain rfl := Option.some.inj (one.symm.trans h)
      exact rest
  · exact .pop h

/-- Growth ends with an empty queue. -/
theorem grows_empty (h : s.frontier.entries = []) : Grows resolveNode treeId s t ↔ t = s := by
  have hnone : popOne resolveNode treeId s = none := by
    rw [popOne, Frontier.pop?, h]
  constructor
  · intro hs
    cases hs with
    | done => rfl
    | pop one => cases hnone.symm.trans one
  · rintro rfl
    exact .done hnone

/-- Popping the entries of a level is committing them. -/
theorem grows_commit (level waiting : List (Pending Mask)) (nodes : Array (Node α)) :
    Grows resolveNode treeId ⟨nodes, ⟨level ++ waiting⟩⟩ t ↔
      Grows resolveNode treeId
        (commit treeId (level.map fun e => (e.id, resolveNode e.id e.rows)) ⟨nodes, ⟨waiting⟩⟩)
        t := by
  induction level generalizing waiting nodes with
  | nil => rfl
  | cons e level ih =>
    rw [List.map_cons]
    cases hresolve : resolveNode e.id e.rows with
    | leaf value =>
      have hpop : popOne resolveNode treeId ⟨nodes, ⟨e :: level ++ waiting⟩⟩ =
          some ⟨nodes.push (.leaf e.id treeId value), ⟨level ++ waiting⟩⟩ := by
        simp only [popOne, Frontier.pop?, List.cons_append, hresolve]
      rw [grows_pop hpop, ih, commit]
    | split kind left right =>
      -- the children queue up behind the waiting entries, and those are what commit sees
      have hpop : popOne resolveNode treeId ⟨nodes, ⟨e :: level ++ waiting⟩⟩ =
          some ⟨nodes.push ⟨e.id, treeId, .ofNat (level.length + waiting.length + 1), kind⟩,
            ⟨level ++ (waiting ++ [⟨e.id.left, left⟩, ⟨e.id.right, right⟩])⟩⟩ := by
        simp only [popOne, Frontier.pop?, Frontier.pushChildren, Frontier.length,
          List.cons_append, List.length_append, List.append_assoc, hresolve]
      rw [grows_pop hpop, ih, commit, List.length_map]
      rfl

/-- Growth goes on from the state after any number of levels. -/
theorem grows_levels (steps : ℕ) :
    Grows resolveNode treeId s t ↔
      Grows resolveNode treeId (levels resolveNode treeId steps s) t := by
  induction steps generalizing s with
  | zero => rfl
  | succ steps ih =>
    rw [levels]
    have hqueue := s.frontier.drainLevel_append
    cases hdrain : s.frontier.drainLevel with
    | mk level rest =>
      rw [hdrain] at hqueue
      cases level with
      | nil => rfl
      | cons e level =>
        rw [← ih, ← grows_commit, hqueue]

/-! ## The queue on one level -/

/-- A queue that is more than one level below the depth is empty. -/
theorem Seeded.entries_eq_nil {p : GrowthParameters α} {seeds : List (NodeNumber × Mask)}
    {l : ℕ} (h : Seeded p seeds l s) (hl : p.maxDepth.toNat + 1 < l) :
    s.frontier.entries = [] := by
  rw [h.entries, List.map_eq_nil_iff, List.eq_nil_iff_forall_not_mem]
  intro seed hseed
  have := (h.level seed hseed).2
  omega

variable [Scalar α] {d : Dataset α} {p : GrowthParameters α}
variable {residual hessian : Vector α d.numRows}

variable (residual hessian treeId) in
/-- After some levels the queue holds seeds of the level that many levels further down. -/
theorem Seeded.levels {seeds : List (NodeNumber × Mask)} {l : ℕ} (h : Seeded p seeds l s)
    (hdepth : p.maxDepth.toNat < Settings.maxExactLevel) (k : ℕ) :
    ∃ seeds', Seeded p seeds' (k + l) (levels (resolve d p residual hessian) treeId k s) := by
  induction k generalizing seeds l s with
  | zero =>
    rw [Nat.zero_add]
    exact ⟨seeds, h⟩
  | succ k ih =>
    rw [h.levels_succ hdepth, Nat.succ_add_eq_add_succ]
    exact ih (h.commit hdepth)

section Build

variable (d p) (treeId : UInt64) (residual hessian : Vector α d.numRows)

/-- The state with the root waiting. -/
def start : State α := ⟨#[], .root (.allActive d.numRows)⟩

/-- The queue that growth drains after some levels. -/
def queueAt (k : ℕ) : Frontier Mask :=
  (levels (resolve d p residual hessian) treeId k (start d)).frontier

theorem grows_grow (hdepth : p.maxDepth.toNat < Settings.maxExactLevel) :
    Grows (resolve d p residual hessian) treeId (start d) t ↔
      t = ⟨(grow d p treeId residual hessian).nodes, ⟨[]⟩⟩ := by
  have hmax : Settings.maxExactLevel = 52 := rfl
  obtain ⟨seeds, hseeds⟩ :=
    (seeded_start d p).levels treeId residual hessian hdepth (levelBound d.numRows)
  have hempty := hseeds.entries_eq_nil (by rw [levelBound]; omega)
  have hstate : levels (resolve d p residual hessian) treeId (levelBound d.numRows) (start d) =
      ⟨(grow d p treeId residual hessian).nodes, ⟨[]⟩⟩ :=
    congrArg (State.mk _) (congrArg Frontier.mk hempty)
  rw [grows_levels (levelBound d.numRows), hstate]
  exact grows_empty rfl

/-- Building a tree level by level gives the table that grows from the root one node at a
time, and every queue that is drained on the way is on one level. -/
theorem build_oneByOne (hdepth : p.maxDepth.toNat < Settings.maxExactLevel) :
    (∃ t, build d p treeId residual.toArray hessian.toArray = .ok t ∧ t.id = treeId ∧
      ∀ s, Grows (resolve d p residual hessian) treeId (start d) s ↔ s = ⟨t.nodes, ⟨[]⟩⟩) ∧
    ∀ k, (∀ e ∈ (queueAt d p treeId residual hessian k).entries, e.id.level = k + 1) ∧
      (queueAt d p treeId residual hessian k).drainLevel =
        ((queueAt d p treeId residual hessian k).entries, ⟨[]⟩) := by
  constructor
  · exact ⟨_, build_toArray d p treeId residual hessian, rfl,
      fun s => grows_grow d p treeId residual hessian hdepth⟩
  · intro k
    obtain ⟨seeds, hseeds⟩ := (seeded_start d p).levels treeId residual hessian hdepth k
    have hlevel := hseeds.level_of_mem hdepth
    exact ⟨hlevel, drainLevel_of_level hlevel⟩

theorem build_oneByOne_mixedData :
    (2 : UInt64).toNat < Settings.maxExactLevel ∧
    (∃ t, build mixedData ⟨.regression, 2, 0⟩ 1 mixedData.labels.toArray (.replicate 6 1) =
      .ok t ∧ t.id = 1 ∧
      ∀ s, Grows (resolve mixedData ⟨.regression, 2, 0⟩ mixedData.labels (.replicate 6 1)) 1
        (start mixedData) s ↔ s = ⟨t.nodes, ⟨[]⟩⟩) ∧
    ∀ k, (∀ e ∈ (queueAt mixedData ⟨.regression, 2, 0⟩ 1 mixedData.labels (.replicate 6 1)
        k).entries, e.id.level = k + 1) ∧
      (queueAt mixedData ⟨.regression, 2, 0⟩ 1 mixedData.labels (.replicate 6 1) k).drainLevel =
        ((queueAt mixedData ⟨.regression, 2, 0⟩ 1 mixedData.labels (.replicate 6 1) k).entries,
          ⟨[]⟩) :=
  ⟨by decide, build_oneByOne mixedData ⟨.regression, 2, 0⟩ 1 mixedData.labels (.replicate 6 1)
    (by decide)⟩

/-- Behind the root of the example its two children wait. -/
example : (queueAt mixedData ⟨.regression, 2, 0⟩ 1 mixedData.labels (.replicate 6 1)
    1).entries.map Pending.id = [2, 3] := by
  decide +kernel

end Build

end Growth

end GradientForest
