import GradientForest.Scalar.Basic

/-!
# Training history

The training metric before the first round and after every round.  The best
round is found by a running comparison that keeps the earlier round while its
metric is not above the later one.
-/

namespace GradientForest

open Scalar

/-- The training metric over the rounds. -/
structure History (α : Type) where
  /-- The name of the metric. -/
  metric : String
  /-- The metric before the first round. -/
  initial : α
  /-- The metric after each round. -/
  rounds : Array α
deriving DecidableEq, Repr

namespace History

variable {α : Type} [Scalar α]

/-- The history before the first round. -/
def start (metric : String) (initial : α) : History α := ⟨metric, initial, #[]⟩

/-- Records the metric after another round. -/
def push (h : History α) (value : α) : History α := { h with rounds := h.rounds.push value }

/-- The number of recorded rounds. -/
def length (h : History α) : Nat := h.rounds.size

/-- Whether no round is recorded. -/
def isEmpty (h : History α) : Bool := h.rounds.isEmpty

/-- The metric after the last round, or before the first. -/
def last (h : History α) : α := h.rounds.back?.getD h.initial

/-- The round to keep of the best one so far and the next. -/
def keepBetter (best : Option (Nat × α)) (round : Nat × α) : Option (Nat × α) :=
  match best with
  | some b => if le b.2 round.2 then some b else some round
  | none => some round

/-- The number of the best round, counted from 1. -/
def bestRound (h : History α) : Option Nat :=
  ((h.rounds.toList.zipIdx 1).foldl (fun best (v, i) => keepBetter best (i, v)) none).map Prod.fst

end History

end GradientForest
