import GradientForest.Binary64.Rounding

/-!
# TOML values

A document is a table.  Tables remember how they came to be, since that decides
who may add to them.  A table that a header or a document defines is complete
under its keys, one that a dotted key makes is open to further dotted keys, and
one that only a longer header implies may still be defined.  A table in braces
is closed.

`insertAt` is the only way to change a table.
-/

namespace GradientForest

/-- How a table came to be. -/
inductive TableOrigin where
  /-- By its own header, or as the document. -/
  | defined
  /-- By the header of a table below it. -/
  | implied
  /-- By a dotted key. -/
  | dotted
deriving DecidableEq, Repr

/-- A TOML value. -/
inductive Toml where
  /-- A text. -/
  | text (s : String)
  /-- An integer of 64 bits with sign. -/
  | integer (i : Int)
  /-- A number. -/
  | float (x : Binary64)
  /-- A truth value. -/
  | bool (b : Bool)
  /-- A date, a time or both. -/
  | moment
  /-- A list in brackets. -/
  | array (items : List Toml)
  /-- A table in braces. -/
  | inline (entries : List (String × Toml))
  /-- An open table. -/
  | table (origin : TableOrigin) (entries : List (String × Toml))
  /-- A list of tables made by headers in double brackets. -/
  | tables (elements : List Toml)

namespace Toml

/-- The entries of a table. -/
abbrev Entries := List (String × Toml)

/-- The value behind a key. -/
def find? (key : String) (es : Entries) : Option Toml := es.lookup key

/-- The entries with the value behind a key replaced. -/
def replace (key : String) (v : Toml) (es : Entries) : Entries :=
  es.map fun e => if e.1 = key then (key, v) else e

/-- The entries without a key. -/
def remove (key : String) (es : Entries) : Entries := es.filter fun e => e.1 ≠ key

/-- Changes the entries of the table at the end of a path.  Missing tables on
the way are made with the given origin.  A dotted path does not enter tables
that are defined elsewhere, and no path enters closed values.  A path enters the
last element of a list of tables. -/
def insertAt (made : TableOrigin) (change : TableOrigin → Entries → Option Entries) :
    List String → TableOrigin → Entries → Option Entries
  | [], origin, es => change origin es
  | key :: path, _, es =>
    match find? key es with
    | none => do
      let inner ← insertAt made change path made []
      return es ++ [(key, .table made inner)]
    | some (.table origin inner) =>
      if made = .dotted ∧ origin = .defined then none
      else do
        let inner ← insertAt made change path origin inner
        return replace key (.table origin inner) es
    | some (.tables elements) =>
      match elements.getLast? with
      | some (.table origin inner) => do
        let inner ← insertAt made change path origin inner
        return replace key (.tables (elements.dropLast ++ [.table origin inner])) es
      | _ => none
    | some _ => none

/-- Adds a value behind a dotted key.  The table that takes it is the current
one or was made by dotted keys, and does not have the key yet. -/
def addKey (path : List String) (key : String) (v : Toml) (es : Entries) : Option Entries :=
  insertAt .dotted (fun origin es =>
    if (origin = .dotted) = (path = []) then none
    else if (find? key es).isSome then none
    else some (es ++ [(key, v)])) path .defined es

/-- Whether a value is a table or list without content. -/
def isEmptyContainer : Toml → Bool
  | .array items => items.isEmpty
  | .inline entries | .table _ entries => entries.isEmpty
  | .tables elements => elements.isEmpty
  | _ => false

/-- A word that stands for one of finitely many values, alone or as the only key
of a table with an empty container. -/
def word? : Toml → Option String
  | .text s => some s
  | .inline [(key, v)] | .table _ [(key, v)] => if v.isEmptyContainer then some key else none
  | _ => none

/-- A count. -/
def count? : Toml → Option UInt64
  | .integer i => if 0 ≤ i then some (.ofNat i.toNat) else none
  | _ => none

/-- A number, also written as an integer. -/
def float? : Toml → Option Binary64
  | .integer i => some (Binary64.ofDecimal (i < 0) i.natAbs 0)
  | .float x => some x
  | _ => none

end Toml

end GradientForest
