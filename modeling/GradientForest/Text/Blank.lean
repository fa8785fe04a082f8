/-!
# Blanks

The white space of Unicode, and trimming it from both ends of a text.
-/

namespace GradientForest.Text

/-- The inclusive ranges of code points with the property White_Space. -/
def blankRanges : List (Nat × Nat) :=
  [(0x09, 0x0D), (0x20, 0x20), (0x85, 0x85), (0xA0, 0xA0), (0x1680, 0x1680), (0x2000, 0x200A),
    (0x2028, 0x2029), (0x202F, 0x202F), (0x205F, 0x205F), (0x3000, 0x3000)]

/-- Whether a character is white space. -/
def isBlank (c : Char) : Bool := blankRanges.any fun r => r.1 ≤ c.toNat && c.toNat ≤ r.2

/-- Drops blanks from the end. -/
def dropBlanksEnd (cs : List Char) : List Char := (cs.reverse.dropWhile isBlank).reverse

/-- Drops blanks from both ends. -/
def trimChars (cs : List Char) : List Char := dropBlanksEnd (cs.dropWhile isBlank)

/-- Drops blanks from both ends of a text. -/
def trim (s : String) : String := .ofList (trimChars s.toList)

end GradientForest.Text
