import GradientForest.Decimal.Layout

/-!
# Writing JSON

Documents are written with one item per line, indented by two blanks per level.
Empty lists are written as `[]`.  `Outline` is a document whose words and
numbers are already characters.
-/

namespace GradientForest.Json

/-- A document to be written. -/
inductive Outline where
  /-- A word or number. -/
  | atom (chars : List Char)
  /-- A list. -/
  | list (items : List Outline)
  /-- An object. -/
  | object (fields : List (String × Outline))

namespace Outline

/-- A name between quotes.  Names have no characters to escape. -/
def quoted (s : String) : List Char := '"' :: s.toList ++ ['"']

/-- A name as a value. -/
def word (s : String) : Outline := .atom (quoted s)

/-- A count. -/
def count (n : UInt64) : Outline := .atom (Nat.toDigits 10 n.toNat)

/-- A number.  Undefined and infinite numbers have no literal and become the
null value. -/
def number (x : Binary64) : Outline :=
  .atom (if x.isFinite then NumberStyle.json.chars x else "null".toList)

/-- A line break and the indentation of a level. -/
def newline (level : Nat) : List Char := '\n' :: List.replicate (2 * level) ' '

/-- Lines of one level, separated by commas. -/
def lines (level : Nat) : List (List Char) → List Char
  | [] => []
  | [l] => newline level ++ l
  | l :: ls => newline level ++ l ++ ',' :: lines level ls

mutual

/-- A document at a level of indentation. -/
def render (level : Nat) : Outline → List Char
  | .atom cs => cs
  | .list [] => ['[', ']']
  | .list (x :: xs) =>
    '[' :: lines (level + 1) (renderItems (level + 1) (x :: xs)) ++ newline level ++ [']']
  | .object [] => ['\x7b', '\x7d']
  | .object (f :: fs) =>
    '\x7b' :: lines (level + 1) (renderFields (level + 1) (f :: fs)) ++ newline level ++ ['\x7d']

/-- The items of a list. -/
def renderItems (level : Nat) : List Outline → List (List Char)
  | [] => []
  | x :: xs => render level x :: renderItems level xs

/-- The fields of an object. -/
def renderFields (level : Nat) : List (String × Outline) → List (List Char)
  | [] => []
  | (key, x) :: fs => (quoted key ++ ':' :: ' ' :: render level x) :: renderFields level fs

end

/-- A whole document. -/
def document (x : Outline) : String := .ofList (x.render 0)

end Outline

end GradientForest.Json
