import GradientForest.Error
import GradientForest.Text.Utf8

/-!
# Delimited text

Records are lines of fields.  A field may be quoted; inside the quotes a quote
is written twice, and delimiters and line ends are part of the field.  A line
feed, a carriage return, or both end a record, and empty lines are skipped.  A
byte order mark at the start is skipped too.

`records` splits bytes into records and never fails.  Whether a record has the
right length and holds text is checked by `Record.texts`.
-/

namespace GradientForest.Csv

/-- A record with the place where it began. -/
structure Record where
  /-- The fields. -/
  fields : List (List UInt8)
  /-- The line, from 1. -/
  line : Nat
  /-- The byte. -/
  byte : Nat
deriving DecidableEq, Repr

/-- Where the reader stands inside a record. -/
inductive Place where
  /-- Before the first field. -/
  | beforeRecord
  /-- Before a field. -/
  | beforeField
  /-- In a field without quotes, or behind the quotes of one. -/
  | inField
  /-- Between quotes. -/
  | inQuotes
  /-- Behind a quote between quotes. -/
  | behindQuote
deriving DecidableEq, Repr

/-- What a byte does at a place. -/
inductive Action where
  /-- It is skipped. -/
  | skip (next : Place)
  /-- It belongs to the field. -/
  | keep (next : Place)
  /-- It ends the field. -/
  | endField
  /-- It ends the record. -/
  | endRecord
deriving DecidableEq, Repr

/-- The quote. -/
def quote : UInt8 := 0x22

/-- Line feeds and carriage returns end records. -/
def isLineEnd (b : UInt8) : Bool := b = 0x0A || b = 0x0D

/-- What a byte does outside quotes. -/
def plainAction (delimiter b : UInt8) : Action :=
  if b = delimiter then .endField
  else if isLineEnd b then .endRecord
  else .keep .inField

/-- What a byte does at a place. -/
def action (delimiter : UInt8) : Place → UInt8 → Action
  | .beforeRecord, b =>
    if isLineEnd b then .skip .beforeRecord
    else if b = quote then .skip .inQuotes
    else plainAction delimiter b
  | .beforeField, b => if b = quote then .skip .inQuotes else plainAction delimiter b
  | .inField, b => plainAction delimiter b
  | .inQuotes, b => if b = quote then .skip .behindQuote else .keep .inQuotes
  | .behindQuote, b => if b = quote then .keep .inQuotes else plainAction delimiter b

/-- The state of the reader. -/
structure Reader where
  /-- Where it stands. -/
  place : Place
  /-- The current field, last byte first. -/
  field : List UInt8
  /-- The finished fields of the current record, last first. -/
  fields : List (List UInt8)
  /-- The line and byte where the current record began. -/
  started : Nat × Nat
  /-- The line and byte of the next byte. -/
  next : Nat × Nat

/-- The reader before a record. -/
def Reader.atRecord (next : Nat × Nat) : Reader := ⟨.beforeRecord, [], [], next, next⟩

/-- The record that ends here. -/
def Reader.record (r : Reader) : Record :=
  ⟨(r.field.reverse :: r.fields).reverse, r.started.1, r.started.2⟩

/-- The position behind a byte. -/
def advance (b : UInt8) (next : Nat × Nat) : Nat × Nat :=
  (if b = 0x0A then next.1 + 1 else next.1, next.2 + 1)

/-- The records of the rest of the bytes. -/
def readFrom (delimiter : UInt8) (r : Reader) : List UInt8 → List Record
  | [] => if r.place = .beforeRecord then [] else [r.record]
  | b :: bs =>
    let next := advance b r.next
    match action delimiter r.place b with
    | .skip place => readFrom delimiter { r with place, next } bs
    | .keep place => readFrom delimiter { r with place, next, field := b :: r.field } bs
    | .endField =>
      readFrom delimiter
        { r with
          place := .beforeField
          next
          field := []
          fields := r.field.reverse :: r.fields } bs
    | .endRecord => r.record :: readFrom delimiter (.atRecord next) bs

/-- The records of a byte sequence. -/
def records (delimiter : UInt8) : List UInt8 → List Record
  | 0xEF :: 0xBB :: 0xBF :: bs => readFrom delimiter (.atRecord (1, 3)) bs
  | bs => readFrom delimiter (.atRecord (1, 0)) bs

/-- The fields of a record as texts.  The record has the given number and has to
have as many fields as expected. -/
def Record.texts (expected number : Nat) (r : Record) : Except Error (List String) :=
  if r.fields.length ≠ expected then
    .error (.csv (.unequalLengths number r.line r.byte r.fields.length expected))
  else
    match r.fields.mapM Text.ofUtf8? with
    | some fields => .ok fields
    | none => .error (.csv .notUtf8)

/-- One record as a line.  A record without fields is written as an empty
quoted field. -/
def line (fields : List (List Char)) : List Char :=
  (if fields.isEmpty then ['"', '"'] else List.intercalate [','] fields) ++ ['\n']

end GradientForest.Csv
