import GradientForest.Scalar.Sorting

/-!
# Sorting short lists in two halves

A list of at most `blockSize` elements is sorted in two halves.  A half starts
from its first eight or four elements, sorted by a network of comparisons, and
the others are inserted one by one.  `mergeEnds` merges the halves from both
ends at once.

When the comparison orders all elements, the result is the one of every stable
sort.  When it does not, as with undefined values, the comparisons made here
decide where the elements go.
-/

namespace GradientForest.Sorting

variable {β : Type}

/-- Takes up to `n` elements from the fronts of two lists, as long as both have
one.  `second` says when the front of the second list is taken. -/
def takeFronts (second : β → β → Bool) : Nat → List β → List β → List β × List β × List β
  | n + 1, x :: xs, y :: ys =>
    if second x y then
      let (taken, rest) := takeFronts second n (x :: xs) ys
      (y :: taken, rest)
    else
      let (taken, rest) := takeFronts second n xs (y :: ys)
      (x :: taken, rest)
  | _, xs, ys => ([], xs, ys)

/-- Takes up to `n` elements from the fronts, where equal ones come from the
left list first. -/
def takeFirst (before : β → β → Bool) (n : Nat) (left right : List β) :
    List β × List β × List β :=
  takeFronts (fun x y => before y x) n left right

/-- Takes up to `n` elements from the ends, where equal ones come from the right
list first.  All three lists are given from last to first, the right one before
the left one. -/
def takeLast (before : β → β → Bool) (n : Nat) (left right : List β) :
    List β × List β × List β :=
  takeFronts before n right.reverse left.reverse

/-- Merges two lists from both ends at once, as many elements from each end as
the left list has.  The right list may have one element more, and the element
in the middle comes from the list that still has it.  Without a consistent order
the ends may not meet, and then the lists stay as they are. -/
def mergeEnds (before : β → β → Bool) (left right : List β) : List β :=
  let n := left.length
  let (first, leftRest, rightRest) := takeFirst before n left right
  let (last, _, leftRest') := takeLast before n left right
  let kept := leftRest.length + leftRest'.length
  let middle :=
    if right.length ≤ n then []
    else if n < kept then leftRest.take 1
    else rightRest.take 1
  if n ≤ kept ∧ kept ≤ right.length then first ++ middle ++ last.reverse
  else left ++ right

/-- Two elements in order. -/
def two (before : β → β → Bool) (x y : β) : β × β := if before y x then (y, x) else (x, y)

/-- Four elements in order, by five comparisons: of neighbours, of the smaller
and the larger ones, and of the two that are left. -/
def four (before : β → β → Bool) (p q r s : β) : List β :=
  let (a, b) := two before p q
  let (c, d) := two before r s
  let low := before c a
  let high := before d b
  let left := if low then a else if high then c else b
  let right := if high then d else if low then b else c
  let (x, y) := two before left right
  [if low then c else a, x, y, if high then b else d]

/-- The first eight or four elements of a half sorted by networks, and the other
ones.  `size` is the size of the whole list. -/
def startHalf (before : β → β → Bool) (size : Nat) : List β → List β × List β
  | a :: b :: c :: d :: rest =>
    if 16 ≤ size then
      match rest with
      | e :: f :: g :: h :: rest =>
        (mergeEnds before (four before a b c d) (four before e f g h), rest)
      | _ => ([], a :: b :: c :: d :: rest)
    else if 8 ≤ size then (four before a b c d, rest)
    else ([], a :: b :: c :: d :: rest)
  | xs => ([], xs)

/-- A half of a list of the given size, sorted. -/
def sortHalf (before : β → β → Bool) (size : Nat) (xs : List β) : List β :=
  let (start, rest) := startHalf before size xs
  (sortOnto before start.reverse rest).reverse

/-- The size of the longest lists that are sorted in two halves. -/
def blockSize : Nat := 32

/-- Sorts a short list. -/
def sortBlock (before : β → β → Bool) (xs : List β) : List β :=
  let size := xs.length
  if size < 2 then xs
  else
    mergeEnds before (sortHalf before size (xs.take (size / 2)))
      (sortHalf before size (xs.drop (size / 2)))

end GradientForest.Sorting
