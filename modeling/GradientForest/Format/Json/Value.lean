import GradientForest.Binary64.Rounding

/-!
# JSON values

A document as a tree.  A number keeps its literal, since a count has to be
written as one.  A text that names half of a surrogate pair, or holds a stray
byte, is `none`: it may be skipped but not read.

The accessors say how settings and models are read off a value.  A structure is
an object whose unknown fields are ignored and whose known fields occur once, or
a list of the fields in order.
-/

namespace GradientForest

/-- A number literal. -/
structure JsonNumber where
  /-- Whether there is a minus sign. -/
  negative : Bool
  /-- Whether there is neither a point nor an exponent. -/
  integral : Bool
  /-- The digits. -/
  coefficient : Nat
  /-- The power of ten. -/
  exponent : Int
deriving DecidableEq, Repr

/-- A JSON value. -/
inductive Json where
  /-- The null value. -/
  | null
  /-- A truth value. -/
  | bool (value : Bool)
  /-- A number. -/
  | number (value : JsonNumber)
  /-- A text, if it can be read. -/
  | text (value : Option String)
  /-- A list. -/
  | list (items : List Json)
  /-- An object. -/
  | object (fields : List (Option String × Json))
deriving Repr

namespace Json

/-- A number in the range of binary64. -/
def float? : Json → Option Binary64
  | .number n =>
    let r := Binary64.rankOfDecimal n.coefficient n.exponent
    if r < Binary64.infinityRank then some (Binary64.ofRank n.negative r) else none
  | _ => none

/-- A count below `2 ^ 64`, written without sign, point and exponent. -/
def count? : Json → Option UInt64
  | .number n =>
    if n.integral ∧ !n.negative ∧ n.coefficient < UInt64.size then some (.ofNat n.coefficient)
    else none
  | _ => none

/-- A list. -/
def list? : Json → Option (List Json)
  | .list items => some items
  | _ => none

/-- A list whose items can all be read. -/
def listOf? {β : Type} (item : Json → Option β) (v : Json) : Option (List β) := do
  (← v.list?).mapM item

/-- A word that stands for one of finitely many values, alone or as the only key
of an object with a null value. -/
def word? : Json → Option String
  | .text s => s
  | .object [(key, .null)] => key
  | _ => none

/-- The value behind a key, if the key occurs at most once. -/
def fieldOnce? (fields : List (Option String × Json)) (key : String) : Option (Option Json) :=
  match fields.filter fun f => f.1 = some key with
  | [] => some none
  | [f] => some (some f.2)
  | _ => none

/-- The values of the named fields of an object.  All keys have to be readable,
and the named ones occur at most once. -/
def namedFields? (names : List String) (fields : List (Option String × Json)) :
    Option (List (Option Json)) :=
  if fields.all fun f => f.1.isSome then names.mapM (fieldOnce? fields) else none

/-- The fields of a structure that may lack any of them.  A list gives the first
ones. -/
def partialFields? (names : List String) : Json → Option (List (Option Json))
  | .object fields => namedFields? names fields
  | .list items =>
    if items.length ≤ names.length then
      some (items.map some ++ List.replicate (names.length - items.length) none)
    else none
  | _ => none

/-- The fields of a structure that has all of them. -/
def fields? (names : List String) (v : Json) : Option (List Json) := do
  (← partialFields? names v).mapM id

/-- The name and content of a tagged value, an object with one key. -/
def tagged? : Json → Option (String × Json)
  | .object [(some key, v)] => some (key, v)
  | _ => none

end Json

end GradientForest
