import GradientForest.Tree.Node

/-!
# The frontier

Growth keeps the nodes that still wait to be resolved in a queue, each with a
payload that tells which rows reach it.  Children enter in pairs, left first.
`drainLevel` takes all the entries at the front that stand on one level.
-/

namespace GradientForest

/-- A node that waits to be resolved. -/
structure Pending (ρ : Type) where
  /-- The number of the node. -/
  id : NodeId
  /-- The rows that reach it. -/
  rows : ρ
deriving DecidableEq, Repr

/-- The waiting nodes, oldest first. -/
structure Frontier (ρ : Type) where
  /-- The entries. -/
  entries : List (Pending ρ)
deriving DecidableEq, Repr

namespace Frontier

variable {ρ : Type}

/-- The frontier that holds the root alone. -/
def root (rows : ρ) : Frontier ρ := ⟨[⟨1, rows⟩]⟩

/-- The number of waiting nodes. -/
def length (f : Frontier ρ) : Nat := f.entries.length

/-- Whether no node waits. -/
def isEmpty (f : Frontier ρ) : Bool := f.entries.isEmpty

/-- Takes the oldest entry. -/
def pop? (f : Frontier ρ) : Option (Pending ρ × Frontier ρ) :=
  match f.entries with
  | [] => none
  | e :: es => some (e, ⟨es⟩)

/-- Appends both children of a node. -/
def pushChildren (f : Frontier ρ) (parent : NodeId) (left right : ρ) : Frontier ρ :=
  ⟨f.entries ++ [⟨parent.left, left⟩, ⟨parent.right, right⟩]⟩

/-- Takes the entries at the front that stand on the level of the first one. -/
def drainLevel (f : Frontier ρ) : List (Pending ρ) × Frontier ρ :=
  match f.entries with
  | [] => ([], f)
  | e :: _ =>
    let onLevel := fun (x : Pending ρ) => x.id.level = e.id.level
    (f.entries.takeWhile onLevel, ⟨f.entries.dropWhile onLevel⟩)

@[simp] theorem drainLevel_nil : (⟨[]⟩ : Frontier ρ).drainLevel = ([], ⟨[]⟩) := rfl

/-- Draining loses nothing and keeps the order. -/
theorem drainLevel_append (f : Frontier ρ) :
    f.drainLevel.1 ++ f.drainLevel.2.entries = f.entries := by
  unfold drainLevel
  split
  · simp [*]
  · exact List.takeWhile_append_dropWhile

end Frontier

end GradientForest
