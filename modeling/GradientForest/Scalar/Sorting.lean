/-!
# Insertion sort

A stable sort by a strict comparison.  An element moves left past its
neighbours as long as it comes strictly before them, so equal elements keep
their order, and an element that compares with nothing stays where it is and
stops the others.

`insertLast` works on the reversed sorted part, so the neighbour on the left is
the head of the list.
-/

namespace GradientForest.Sorting

variable {β : Type}

/-- Puts `x` behind the sorted elements that it does not come before.  The list
holds the sorted part from last to first. -/
def insertLast (before : β → β → Bool) (x : β) : List β → List β
  | [] => [x]
  | y :: ys => if before x y then y :: insertLast before x ys else x :: y :: ys

/-- The elements of `xs` sorted behind those of `acc`, from last to first. -/
def sortOnto (before : β → β → Bool) (acc : List β) : List β → List β
  | [] => acc
  | x :: xs => sortOnto before (insertLast before x acc) xs

/-- Sorts a list by a strict comparison, stably. -/
def sort (before : β → β → Bool) (xs : List β) : List β :=
  (sortOnto before [] xs).reverse

@[simp] theorem length_insertLast (before : β → β → Bool) (x : β) (ys : List β) :
    (insertLast before x ys).length = ys.length + 1 := by
  induction ys with
  | nil => rfl
  | cons y ys ih =>
    unfold insertLast
    split <;> simp [ih]

theorem length_sortOnto (before : β → β → Bool) (acc xs : List β) :
    (sortOnto before acc xs).length = acc.length + xs.length := by
  induction xs generalizing acc with
  | nil => rfl
  | cons x xs ih => simp [sortOnto, ih]; omega

@[simp] theorem length_sort (before : β → β → Bool) (xs : List β) :
    (sort before xs).length = xs.length := by
  simp [sort, length_sortOnto]

theorem insertLast_perm (before : β → β → Bool) (x : β) (ys : List β) :
    (insertLast before x ys).Perm (x :: ys) := by
  induction ys with
  | nil => exact .refl _
  | cons y ys ih =>
    unfold insertLast
    split
    · exact (ih.cons y).trans (.swap x y ys)
    · exact .refl _

theorem sortOnto_perm (before : β → β → Bool) (acc xs : List β) :
    (sortOnto before acc xs).Perm (acc ++ xs) := by
  induction xs generalizing acc with
  | nil => simp [sortOnto]
  | cons x xs ih =>
    exact (ih _).trans (((insertLast_perm before x acc).append_right xs).trans
      List.perm_middle.symm)

/-- Sorting only rearranges. -/
theorem sort_perm (before : β → β → Bool) (xs : List β) : (sort before xs).Perm xs :=
  (List.reverse_perm _).trans (by simpa using sortOnto_perm before [] xs)

end GradientForest.Sorting
