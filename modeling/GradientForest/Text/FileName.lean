/-!
# File names

The extension of a path decides the format of a file.  The name of a file is
the last part of its path, empty parts and single dots aside.  Its extension is
what follows the last dot, unless that dot is the first character.

A path can also lead into folders.  `canHoldFile` tells at which paths there can
be a file where there are no folders.
-/

namespace GradientForest.FileName

/-- The parts of a path between slashes. -/
def parts : List Char → List (List Char)
  | [] => [[]]
  | c :: cs =>
    match parts cs with
    | [] => [[c]]
    | p :: ps => if c = '/' then [] :: p :: ps else (c :: p) :: ps

/-- The name of the file at the end of a path.  A path that ends in two dots
names no file. -/
def name? (path : List Char) : Option (List Char) :=
  match ((parts path).filter fun p => p ≠ [] ∧ p ≠ ['.']).getLast? with
  | some p => if p = ['.', '.'] then none else some p
  | none => none

/-- What follows the last dot of a name, unless the dot is its first
character. -/
def extensionOfName? (name : List Char) : Option (List Char) :=
  let after := (name.reverse.takeWhile (· ≠ '.')).reverse
  if after.length + 1 < name.length then some after else none

/-- The extension of a path. -/
def extension? (path : String) : Option String :=
  ((name? path.toList).bind extensionOfName?).map String.ofList

/-- Whether a part of a path can name a file: it is no dot or pair of dots, and
has between one and 255 bytes, none of them zero. -/
def isName (part : List Char) : Bool :=
  part ≠ ['.'] ∧ part ≠ ['.', '.'] ∧ part ≠ [] ∧ '\x00' ∉ part ∧
    (String.ofList part).utf8ByteSize ≤ 255

/-- The most bytes of a path. -/
def maxPathBytes : Nat := 4095

/-- Whether a file can be put at a path where there are no folders to lead into:
the path is not too long and ends in a name, with nothing but dots before. -/
def canHoldFile (path : String) : Bool :=
  path.utf8ByteSize ≤ maxPathBytes &&
    match (parts path.toList).reverse with
    | name :: before => isName name && before.all fun p => p ∈ [[], ['.'], ['.', '.']]
    | [] => false

example : extension? "a.tar.json" = some "json" := by decide
example : extension? ".json" = none := by decide
example : extension? "dir.json/m" = none := by decide
example : extension? "m." = some "" := by decide
example : extension? "noext" = none := by decide
example : canHoldFile "./m.json" = true := by decide
example : canHoldFile "dir/m.json" = false := by decide
example : canHoldFile "m.json/" = false := by decide

end GradientForest.FileName
