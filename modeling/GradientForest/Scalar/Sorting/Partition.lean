import GradientForest.Scalar.Sorting.Blocks

/-!
# Sorting by partition

A long list is split around one of its elements, the pivot, and the parts are
sorted.  Both parts keep the order of their elements.  The pivot is a median of
three elements, or for longer lists a median of such medians.  A pivot that is
not above the pivot to the left of its part splits off everything that is not
above it, and that needs no more sorting.

The number of nested splits is limited.  A part that reaches the limit is left
to another sort.
-/

namespace GradientForest.Sorting

variable {β : Type}

/-- The one of three positions whose value is between the two others. -/
def medianOf (before : β → β → Bool) (value : Nat → β) (i j k : Nat) : Nat :=
  let belowJ := before (value i) (value j)
  let belowK := before (value i) (value k)
  if belowJ = belowK then
    if before (value j) (value k) = belowJ then j else k
  else i

/-- A median of three positions.  When each starts a stretch of at least eight
elements, it first gives way to a median of its stretch. -/
def pseudoMedian (before : β → β → Bool) (value : Nat → β) (i j k stretch : Nat) : Nat :=
  if stretch < 8 then medianOf before value i j k
  else
    let m := stretch / 8
    let within := fun i => pseudoMedian before value i (i + 4 * m) (i + 7 * m) m
    medianOf before value (within i) (within j) (within k)
termination_by stretch

/-- The position of the pivot of a list of the given size. -/
def pivotPosition (before : β → β → Bool) (value : Nat → β) (size : Nat) : Nat :=
  let m := size / 8
  pseudoMedian before value 0 (4 * m) (7 * m) m

/-- Splits a list by a test, except for the element at `position`, which goes
where it is told. -/
def splitAround (position : Nat) (positionLeft : Bool) (left : β → Bool) (xs : List β) :
    List β × List β :=
  let (l, r) := xs.zipIdx.partition fun (x, i) => if i = position then positionLeft else left x
  (l.map Prod.fst, r.map Prod.fst)

/-- Sorts by at most `limit` nested splits, and by `other` where these do not
suffice.  `bound` is the pivot to the left of the list, if there is one. -/
def sortParts (before : β → β → Bool) (other : List β → List β) :
    Nat → Option β → List β → List β
  | _, _, [] => []
  | 0, _, x :: xs =>
    if (x :: xs).length ≤ blockSize then sortBlock before (x :: xs) else other (x :: xs)
  | limit + 1, bound, x :: xs =>
    if (x :: xs).length ≤ blockSize then sortBlock before (x :: xs)
    else
      let items := (x :: xs).toArray
      let position := pivotPosition before (items.getD · x) items.size
      let pivot := items.getD position x
      let repeated := match bound with
        | some b => !before b pivot
        | none => false
      let (low, high) := splitAround position false (before · pivot) (x :: xs)
      if repeated || low.isEmpty then
        let (same, above) := splitAround position true (fun y => !before pivot y) (x :: xs)
        same ++ sortParts before other limit none above
      else
        sortParts before other limit bound low ++ sortParts before other limit (some pivot) high

end GradientForest.Sorting
