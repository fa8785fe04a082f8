import GradientForest.Scalar.Sorting.Partition

/-!
# Sorting by runs

A list is cut into runs, which are merged two by two.  A stretch that is in
order already, or strictly in the opposite order, is a run when it is long
enough.  Elsewhere the list is cut into pieces.  Which runs are merged first
depends on where they lie: `mergeDepth` is the depth in a balanced tree over the
list at which two neighbours come apart, and the deeper merge comes first.

In `sortByBlocks` the pieces are short and sorted at once.  In `sortByParts`
they are not sorted until they meet a sorted run, and neighbours that are both
unsorted are only put together.

`sortAlways` is the sort for comparisons that do not order all elements.
-/

namespace GradientForest.Sorting

variable {β : Type}

/-- A stretch of a list. -/
structure Run (β : Type) where
  /-- The elements. -/
  items : List β
  /-- Whether they are in order. -/
  sorted : Bool

/-! ## Finding runs -/

/-- The number of elements that follow each other, from the one after `x` on. -/
def countFollowing (follows : β → β → Bool) (x : β) : List β → Nat
  | [] => 0
  | y :: ys => if follows x y then countFollowing follows y ys + 1 else 0

/-- The run in order at the front of a list, and what follows it.  A run in
strictly opposite order is turned around. -/
def leadingRun (before : β → β → Bool) : List β → List β × List β
  | x :: y :: rest =>
    if before y x then
      let n := countFollowing (fun x y => before y x) x (y :: rest) + 1
      (((x :: y :: rest).take n).reverse, (x :: y :: rest).drop n)
    else
      let n := countFollowing (fun x y => !before y x) x (y :: rest) + 1
      ((x :: y :: rest).take n, (x :: y :: rest).drop n)
  | xs => (xs, [])

/-- The run at the front of a list: the leading one if it has at least `good`
elements, and otherwise a piece of the given size. -/
def nextRun (before : β → β → Bool) (good size : Nat) (piece : List β → Run β) (xs : List β) :
    Run β × List β :=
  let (run, rest) := leadingRun before xs
  if good ≤ run.length then (⟨run, true⟩, rest) else (piece (xs.take size), xs.drop size)

/-- An estimate of the square root. -/
def rootEstimate (n : Nat) : Nat :=
  let shift := (1 + n.log2) / 2
  ((1 <<< shift) + (n >>> shift)) / 2

/-- The least size of a leading run that is used, in a list of `n` elements. -/
def goodSize (n : Nat) : Nat := if n ≤ 4096 then min (n - n / 2) 64 else rootEstimate n

/-! ## Merging runs -/

/-- Merges two lists in order, from the side of the shorter one. -/
def mergeLists (before : β → β → Bool) (left right : List β) : List β :=
  let n := left.length + right.length
  if left.length ≤ right.length then
    let (taken, leftRest, rightRest) := takeFirst before n left right
    taken ++ leftRest ++ rightRest
  else
    let (taken, rightRest, leftRest) := takeLast before n left right
    leftRest.reverse ++ rightRest.reverse ++ taken.reverse

/-- The elements of a run in order. -/
def Run.settle (finish : List β → List β) (r : Run β) : List β :=
  if r.sorted then r.items else finish r.items

/-- Two neighbours as one run. -/
def Run.join (before : β → β → Bool) (finish : List β → List β) (left right : Run β) : Run β :=
  if left.sorted || right.sorted then
    ⟨mergeLists before (left.settle finish) (right.settle finish), true⟩
  else ⟨left.items ++ right.items, false⟩

/-- The depth at which two neighbours come apart, in a balanced tree over `n`
elements.  The neighbours lie between the three given positions. -/
def mergeDepth (n start middle stop : Nat) : Nat :=
  let scale := ((1 <<< 62) + n - 1) / n
  63 - ((scale * (start + middle)) ^^^ (scale * (middle + stop))).log2

/-- Joins a run with those of the waiting ones that come apart at the given depth
or deeper, the last one first. -/
def joinWaiting (join : Run β → Run β → Run β) (depth : Nat) :
    List (Run β × Nat) → Run β → List (Run β × Nat) × Run β
  | [], r => ([], r)
  | (l, d) :: waiting, r =>
    if depth ≤ d then joinWaiting join depth waiting (join l r) else ((l, d) :: waiting, r)

/-- Joins all runs of a list of `n` elements.  `r` is the last run so far, which
starts at `start`, and `rest` is still to be cut, into at most `fuel` runs. -/
def joinRuns (next : List β → Run β × List β) (join : Run β → Run β → Run β) (n : Nat) :
    Nat → Nat → List (Run β × Nat) → Run β → List β → Run β
  | 0, _, waiting, r, _ => (joinWaiting join 0 waiting r).2
  | fuel + 1, start, waiting, r, rest =>
    if rest.isEmpty then (joinWaiting join 0 waiting r).2
    else
      let (s, rest) := next rest
      let middle := start + r.items.length
      let depth := mergeDepth n start middle (middle + s.items.length)
      let (waiting, r) := joinWaiting join depth waiting r
      joinRuns next join n fuel middle ((r, depth) :: waiting) s rest

/-- Sorts by runs.  `finish` sorts the pieces that are not sorted. -/
def sortRuns (before : β → β → Bool) (size : Nat) (piece : List β → Run β)
    (finish : List β → List β) (xs : List β) : List β :=
  let n := xs.length
  let next := nextRun before (goodSize n) size piece
  let (r, rest) := next xs
  (joinRuns next (Run.join before finish) n n 0 [] r rest).settle finish

/-! ## The whole sort -/

/-- Sorts by runs with pieces that are sorted at once. -/
def sortByBlocks (before : β → β → Bool) (xs : List β) : List β :=
  sortRuns before blockSize (fun ys => ⟨sortBlock before ys, true⟩) id xs

/-- Sorts by runs with pieces that are sorted by partition when needed. -/
def sortByParts (before : β → β → Bool) (xs : List β) : List β :=
  sortRuns before (goodSize xs.length) (fun ys => ⟨ys, false⟩)
    (fun ys => sortParts before (sortByBlocks before) (2 * ys.length.log2) none ys) xs

/-- Sorts a list by a comparison that need not order all elements: by insertion
up to 20 elements, by blocks up to two of them, by parts beyond. -/
def sortAlways (before : β → β → Bool) (xs : List β) : List β :=
  if xs.length ≤ 20 then sort before xs
  else if xs.length ≤ 2 * blockSize then sortByBlocks before xs
  else sortByParts before xs

end GradientForest.Sorting
