import GradientForest.Decimal.Literal
import GradientForest.Format.Toml.Value

/-!
# TOML words

The readers of everything that is smaller than a list or table: blanks and
comments, keys, texts, numbers, dates and times.  Each takes characters from the
front and returns what follows.
-/

namespace GradientForest.Toml.Lexer

/-! ## Blanks, comments and line ends -/

/-- Drops spaces and tabs. -/
def skipSpace : List Char → List Char := List.dropWhile fun c => c = ' ' ∨ c = '\t'

/-- A line end: a line feed, with or without a carriage return before it. -/
def newline? : List Char → Option (List Char)
  | '\n' :: rest => some rest
  | '\x0d' :: '\n' :: rest => some rest
  | _ => none

/-- Whether a character may stand in a comment or text: no control character
other than tab. -/
def isPrintable (c : Char) : Bool := c = '\t' || (0x20 ≤ c.toNat && c.toNat ≠ 0x7F)

/-- Drops a comment. -/
def skipComment : List Char → List Char
  | '#' :: rest => rest.dropWhile isPrintable
  | cs => cs

/-- The end of a line with what may stand before it, or the end of the text. -/
def lineEnd? (cs : List Char) : Option (List Char) :=
  match skipComment (skipSpace cs) with
  | [] => some []
  | cs => newline? cs

/-- Drops spaces, comments and line ends, for at most `n` lines. -/
def skipLines : Nat → List Char → List Char
  | 0, cs => cs
  | n + 1, cs =>
    let inLine := skipSpace cs
    match newline? (skipComment inLine) with
    | some rest => skipLines n rest
    | none => inLine

/-! ## Texts -/

/-- The character of an escape of one letter. -/
def simpleEscape? : Char → Option Char
  | 'b' => some '\x08'
  | 't' => some '\t'
  | 'n' => some '\n'
  | 'f' => some '\x0c'
  | 'r' => some '\x0d'
  | '"' => some '"'
  | '\\' => some '\\'
  | _ => none

/-- The value of a hexadecimal digit. -/
def hexDigit? (c : Char) : Option Nat :=
  if c.isDigit then some (c.toNat - '0'.toNat)
  else if 'a' ≤ c ∧ c ≤ 'f' then some (c.toNat - 'a'.toNat + 10)
  else if 'A' ≤ c ∧ c ≤ 'F' then some (c.toNat - 'A'.toNat + 10)
  else none

/-- The value of digits in a base. -/
def radixValue (base : Nat) (ds : List Nat) : Nat := ds.foldl (fun acc d => base * acc + d) 0

/-- The character with a code of `n` hexadecimal digits. -/
def unicodeEscape? (n : Nat) (cs : List Char) : Option (Char × List Char) := do
  let ds := cs.take n
  if ds.length ≠ n then none
  else
    let code := radixValue 16 (← ds.mapM hexDigit?)
    if code.isValidChar then some (Char.ofNat code, cs.drop n) else none

/-- The character of an escape behind its backslash. -/
def escape? : List Char → Option (Char × List Char)
  | 'u' :: rest => unicodeEscape? 4 rest
  | 'U' :: rest => unicodeEscape? 8 rest
  | c :: rest => (simpleEscape? c).map (·, rest)
  | [] => none

/-- A text in double quotes behind the first one, for at most `n` characters. -/
def basicBody? : Nat → List Char → Option (List Char × List Char)
  | 0, _ => none
  | _, [] => none
  | _, '"' :: rest => some ([], rest)
  | n + 1, '\\' :: rest => do
    let (c, rest) ← escape? rest
    let (cs, rest) ← basicBody? n rest
    return (c :: cs, rest)
  | n + 1, c :: rest =>
    if isPrintable c then do
      let (cs, rest) ← basicBody? n rest
      return (c :: cs, rest)
    else none

/-- A text in single quotes behind the first one. -/
def literalBody? : List Char → Option (List Char × List Char)
  | [] => none
  | '\'' :: rest => some ([], rest)
  | c :: rest =>
    if isPrintable c then do
      let (cs, rest) ← literalBody? rest
      return (c :: cs, rest)
    else none

/-- Three or more quotes close a text of several lines.  Up to two of them
belong to the text: these quotes, and what follows all of them. -/
def closing? (quote : Char) (cs : List Char) : Option (List Char × List Char) :=
  let run := (cs.takeWhile (· = quote)).length
  if run < 3 then none
  else
    let inside := min 2 (run - 3)
    some (List.replicate inside quote, cs.drop (inside + 3))

/-- Behind a backslash at the end of a line: the text up to the next character
that is no blank, for at most `n` lines. -/
def continuation? (n : Nat) (cs : List Char) : Option (List Char) :=
  (newline? (skipSpace cs)).map (go n)
where
  /-- Drops spaces and line ends. -/
  go : Nat → List Char → List Char
    | 0, cs => cs
    | n + 1, cs =>
      match newline? (skipSpace cs) with
      | some rest => go n rest
      | none => skipSpace cs

/-- A text of several lines, for at most `n` characters.  Escapes are read in
texts with double quotes only. -/
def multilineBody? (quote : Char) : Nat → List Char → Option (List Char × List Char)
  | 0, _ => none
  | n + 1, cs =>
    match closing? quote cs with
    | some closed => some closed
    | none =>
      match newline? cs with
      | some rest => (multilineBody? quote n rest).map fun (s, rest) => ('\n' :: s, rest)
      | none =>
        match cs with
        | [] => none
        | c :: rest =>
          if c = '\\' ∧ quote = '"' then
            match continuation? n rest with
            | some rest => multilineBody? quote n rest
            | none => do
              let (c, rest) ← escape? rest
              let (s, rest) ← multilineBody? quote n rest
              return (c :: s, rest)
          else if isPrintable c then
            (multilineBody? quote n rest).map fun (s, rest) => (c :: s, rest)
          else none

/-- A text of several lines behind its opening quotes.  A line end right behind
them does not count. -/
def multiline? (quote : Char) (cs : List Char) : Option (List Char × List Char) :=
  multilineBody? quote (cs.length + 1) ((newline? cs).getD cs)

/-- A text. -/
def text? : List Char → Option (String × List Char)
  | '"' :: '"' :: '"' :: rest => (multiline? '"' rest).map fun (s, rest) => (.ofList s, rest)
  | '"' :: rest => (basicBody? (rest.length + 1) rest).map fun (s, rest) => (.ofList s, rest)
  | '\'' :: '\'' :: '\'' :: rest =>
    (multiline? '\'' rest).map fun (s, rest) => (.ofList s, rest)
  | '\'' :: rest => (literalBody? rest).map fun (s, rest) => (.ofList s, rest)
  | _ => none

/-! ## Keys -/

/-- Whether a character may stand in a key without quotes. -/
def isBare (c : Char) : Bool := c.isAlphanum || c = '_' || c = '-'

/-- One part of a key. -/
def keyPart? : List Char → Option (String × List Char)
  | '"' :: rest => (basicBody? (rest.length + 1) rest).map fun (s, rest) => (.ofList s, rest)
  | '\'' :: rest => (literalBody? rest).map fun (s, rest) => (.ofList s, rest)
  | cs =>
    let (bare, rest) := cs.span isBare
    if bare.isEmpty then none else some (.ofList bare, rest)

/-- A key of at most `n` parts, with blanks around each. -/
def key? : Nat → List Char → Option (List String × List Char)
  | 0, _ => none
  | n + 1, cs => do
    let (part, rest) ← keyPart? (skipSpace cs)
    match skipSpace rest with
    | '.' :: rest =>
      let (parts, rest) ← key? n rest
      return (part :: parts, rest)
    | rest => return ([part], rest)

/-! ## Numbers -/

/-- A digit, and further digits with single underscores between them. -/
def digits? (digit? : Char → Option Nat) : List Char → Option (List Nat × List Char)
  | [] => none
  | c :: rest =>
    match digit? c with
    | none => none
    | some d =>
      match rest with
      | '_' :: rest' =>
        match digits? digit? rest' with
        | some (ds, rest) => some (d :: ds, rest)
        | none => some ([d], rest)
      | rest =>
        match digits? digit? rest with
        | some (ds, rest) => some (d :: ds, rest)
        | none => some ([d], rest)

/-- The value of a digit below a base. -/
def digitBelow? (base : Nat) (c : Char) : Option Nat := (hexDigit? c).filter (· < base)

/-- A sign.  True means minus. -/
def sign : List Char → Bool × List Char
  | '-' :: rest => (true, rest)
  | '+' :: rest => (false, rest)
  | cs => (false, cs)

/-- Decimal digits that do not start with zero, or zero alone. -/
def whole? : List Char → Option (List Nat × List Char)
  | '0' :: rest => some ([0], rest)
  | cs => digits? (digitBelow? 10) cs

/-- An integer within 64 bits with sign. -/
def bounded? (i : Int) : Option Toml :=
  if Int64.minValue.toInt ≤ i ∧ i ≤ Int64.maxValue.toInt then some (.integer i) else none

/-- An integer in a base, behind the letter that announces it. -/
def radix? (base : Nat) (cs : List Char) : Option (Toml × List Char) := do
  let (ds, rest) ← digits? (digitBelow? base) cs
  return (← bounded? (radixValue base ds), rest)

/-- An integer. -/
def integer? : List Char → Option (Toml × List Char)
  | '0' :: 'x' :: rest => radix? 16 rest
  | '0' :: 'o' :: rest => radix? 8 rest
  | '0' :: 'b' :: rest => radix? 2 rest
  | cs => do
    let (negative, body) := sign cs
    let (ds, rest) ← whole? body
    let n : Int := radixValue 10 ds
    return (← bounded? (if negative then -n else n), rest)

/-- The digits behind a point, if there is a point with digits behind it. -/
def places? : List Char → Option (List Nat × List Char)
  | '.' :: rest => digits? (digitBelow? 10) rest
  | _ => none

/-- An exponent, if there is one with digits. -/
def exponent? : List Char → Option (Int × List Char)
  | c :: rest =>
    if c = 'e' ∨ c = 'E' then do
      let (negative, body) := sign rest
      let (ds, rest) ← digits? (digitBelow? 10) body
      let e : Int := Literal.exponentValue ds
      return (if negative then -e else e, rest)
    else none
  | [] => none

/-- The number with these parts.  Positive numbers beyond the range are refused,
negative ones are infinite. -/
def floatOf? (negative : Bool) (whole places : List Nat) (e : Int) : Option Toml :=
  let x := Binary64.ofDecimal negative (radixValue 10 (whole ++ places)) (e - places.length)
  if !negative ∧ Binary64.rank x = Binary64.infinityRank then none else some (.float x)

/-- The words for infinite and undefined numbers. -/
def special? (negative : Bool) : List Char → Option (Toml × List Char)
  | 'i' :: 'n' :: 'f' :: rest =>
    some (.float (Binary64.infinite negative), rest)
  | 'n' :: 'a' :: 'n' :: rest =>
    some (.float (Binary64.undefined negative), rest)
  | _ => none

/-- What a run of digits with a sign turns out to be. -/
inductive Numeral where
  /-- A number with a point or an exponent. -/
  | float (whole places : List Nat) (exponent : Int) (rest : List Char)
  /-- No such number. -/
  | other

/-- Digits with a point or an exponent. -/
def numeral (body : List Char) : Numeral :=
  match whole? body with
  | none => .other
  | some (whole, rest) =>
    match exponent? rest with
    | some (e, rest) => .float whole [] e rest
    | none =>
      match places? rest with
      | none => .other
      | some (places, rest) =>
        match exponent? rest with
        | some (e, rest) => .float whole places e rest
        | none => .float whole places 0 rest

/-- A number or an integer. -/
def number? (cs : List Char) : Option (Toml × List Char) :=
  let (negative, body) := sign cs
  match numeral body with
  | .float whole places e rest => (floatOf? negative whole places e).map (·, rest)
  | .other =>
    match special? negative body with
    | some found => some found
    | none => integer? cs

/-! ## Dates and times -/

/-- A number of exactly `n` digits within bounds. -/
def fixed? (n low high : Nat) (cs : List Char) : Option (Nat × List Char) :=
  let ds := cs.take n
  if ds.length = n ∧ ds.all Char.isDigit then
    let v := Literal.digitsValue 0 ds
    if low ≤ v ∧ v ≤ high then some (v, cs.drop n) else none
  else none

/-- A single character. -/
def exactly? (c : Char) : List Char → Option (List Char)
  | d :: rest => if d = c then some rest else none
  | [] => none

/-- The number of days of a month. -/
def daysIn (year month : Nat) : Nat :=
  if month = 2 then
    if year % 4 = 0 ∧ (year % 100 ≠ 0 ∨ year % 400 = 0) then 29 else 28
  else if month = 4 ∨ month = 6 ∨ month = 9 ∨ month = 11 then 30
  else 31

/-- A date. -/
def date? (cs : List Char) : Option (List Char) := do
  let (year, rest) ← fixed? 4 0 9999 cs
  let rest ← exactly? '-' rest
  let (month, rest) ← fixed? 2 1 12 rest
  let rest ← exactly? '-' rest
  let (_, rest) ← fixed? 2 1 (daysIn year month) rest
  return rest

/-- The digits of a fraction of a second, if there is one. -/
def skipFraction : List Char → List Char
  | '.' :: c :: rest => if c.isDigit then rest.dropWhile Char.isDigit else '.' :: c :: rest
  | cs => cs

/-- A time of day. -/
def time? (cs : List Char) : Option (List Char) := do
  let (_, rest) ← fixed? 2 0 23 cs
  let rest ← exactly? ':' rest
  let (_, rest) ← fixed? 2 0 59 rest
  let rest ← exactly? ':' rest
  let (_, rest) ← fixed? 2 0 60 rest
  return skipFraction rest

/-- An offset from universal time. -/
def offset? : List Char → Option (List Char)
  | c :: rest =>
    if c = 'Z' ∨ c = 'z' then some rest
    else if c = '+' ∨ c = '-' then do
      let (_, rest) ← fixed? 2 0 23 rest
      let rest ← exactly? ':' rest
      let (_, rest) ← fixed? 2 0 59 rest
      return rest
    else none
  | [] => none

/-- The time behind a date, if there is one. -/
def timeBehindDate? : List Char → Option (List Char)
  | c :: rest =>
    if c = 'T' ∨ c = 't' ∨ c = ' ' then do
      let rest ← time? rest
      return (offset? rest).getD rest
    else none
  | [] => none

/-- A date, a time or both. -/
def moment? (cs : List Char) : Option (List Char) :=
  match date? cs with
  | some rest => some ((timeBehindDate? rest).getD rest)
  | none => time? cs

end GradientForest.Toml.Lexer
