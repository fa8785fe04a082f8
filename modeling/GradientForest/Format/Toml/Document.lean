import GradientForest.Format.Toml.Lexer

/-!
# TOML documents

A document is a sequence of lines.  A line holds a key with its value, a header,
or nothing.  A header names the table that takes the following keys; in double
brackets it adds a table to a list.  Lists and tables in braces nest to less
than `maxNesting` levels, and a key has fewer parts than that.
-/

namespace GradientForest.Toml

open Lexer

namespace Document

/-- The bound on nesting and on the parts of a key. -/
def maxNesting : Nat := 80

/-! ## Values -/

/-- A key with its last part split off. -/
def splitKey? (parts : List String) : Option (List String × String) :=
  parts.getLast?.map fun last => (parts.dropLast, last)

mutual

/-- A value, with the levels of nesting that are left. -/
def value? : Nat → Nat → List Char → Option (Toml × List Char)
  | 0, _, _ => none
  | n + 1, depth, cs =>
    match cs with
    | '"' :: _ | '\'' :: _ => (text? cs).map fun (s, rest) => (.text s, rest)
    | '[' :: rest =>
      if depth ≤ 1 then none
      else (items? n (depth - 1) rest).map fun (items, rest) => (.array items, rest)
    | '\x7b' :: rest =>
      if depth ≤ 1 then none
      else
        match skipSpace rest with
        | '\x7d' :: rest => some (.inline [], rest)
        | rest =>
          (pairs? n (depth - 1) [] rest).map fun (entries, rest) => (.inline entries, rest)
    | 't' :: 'r' :: 'u' :: 'e' :: rest => some (.bool true, rest)
    | 'f' :: 'a' :: 'l' :: 's' :: 'e' :: rest => some (.bool false, rest)
    | _ =>
      match moment? cs with
      | some rest => some (.moment, rest)
      | none => number? cs

/-- The items of a list up to its closing bracket. -/
def items? : Nat → Nat → List Char → Option (List Toml × List Char)
  | 0, _, _ => none
  | n + 1, depth, cs =>
    match skipLines n cs with
    | ']' :: rest => some ([], rest)
    | cs =>
      match value? n depth cs with
      | none => none
      | some (v, rest) =>
        match skipLines n rest with
        | ',' :: rest => (items? n depth rest).map fun (vs, rest) => (v :: vs, rest)
        | ']' :: rest => some ([v], rest)
        | _ => none

/-- The keys of a table in braces up to its closing brace, added to `es`. -/
def pairs? : Nat → Nat → Entries → List Char → Option (Entries × List Char)
  | 0, _, _, _ => none
  | n + 1, depth, es, cs =>
    match key? (maxNesting - 1) cs with
    | some (parts, '=' :: rest) =>
      match splitKey? parts, value? n depth (skipSpace rest) with
      | some (path, key), some (v, rest) =>
        match addKey path key v es with
        | none => none
        | some es =>
          match skipSpace rest with
          | ',' :: rest => pairs? n depth es rest
          | '\x7d' :: rest => some (es, rest)
          | _ => none
      | _, _ => none
    | _ => none

end

/-! ## Headers -/

/-- The table that takes the following keys. -/
structure Section where
  /-- Where it belongs in the document.  The document itself has no path. -/
  path : List String
  /-- Whether it is added to a list of tables. -/
  isElement : Bool
  /-- Its entries. -/
  entries : Entries

/-- The document before its first line. -/
def start : Entries × Section := ([], ⟨[], false, []⟩)

/-- Puts a finished section into the document. -/
def finish (root : Entries) (s : Section) : Option Entries :=
  match splitKey? s.path with
  | none => some s.entries
  | some (path, key) =>
    insertAt .implied (fun _ es =>
      match find? key es with
      | none =>
        let t := Toml.table .defined s.entries
        some (es ++ [(key, if s.isElement then .tables [t] else t)])
      | some (.tables elements) =>
        if s.isElement then
          some (replace key (.tables (elements ++ [.table .defined s.entries])) es)
        else none
      | some _ => none) path .defined root

/-- What the document already holds at a path: the table in which the last key
would stand. -/
def parent? (path : List String) (root : Entries) : Option Entries :=
  match path with
  | [] => some root
  | key :: path =>
    match find? key root with
    | none => some []
    | some (.table _ inner) => parent? path inner
    | some (.tables elements) =>
      match elements.getLast? with
      | some (.table _ inner) => parent? path inner
      | _ => none
    | some _ => none

/-- Opens the section of a header.  A table that was only implied is taken out
of the document to be completed. -/
def openSection (isElement : Bool) (parts : List String) (root : Entries) :
    Option (Entries × Section) := do
  let (path, key) ← splitKey? parts
  let es ← parent? path root
  match find? key es, isElement with
  | none, _ => return (root, ⟨parts, isElement, []⟩)
  | some (.tables _), true => return (root, ⟨parts, true, []⟩)
  | some (.table .implied inner), false =>
    let root ← insertAt .implied (fun _ es => some (remove key es)) path .defined root
    return (root, ⟨parts, false, inner⟩)
  | _, _ => none

/-- A header behind its first bracket. -/
def header? (cs : List Char) : Option (Bool × List String × List Char) :=
  match cs with
  | '[' :: rest => do
    let (parts, rest) ← key? (maxNesting - 1) rest
    match rest with
    | ']' :: ']' :: rest => return (true, parts, rest)
    | _ => none
  | rest => do
    let (parts, rest) ← key? (maxNesting - 1) rest
    match rest with
    | ']' :: rest => return (false, parts, rest)
    | _ => none

/-! ## Lines -/

/-- A key with its value, added to a section. -/
def keyLine? (s : Section) (cs : List Char) : Option (Section × List Char) := do
  let (parts, rest) ← key? (maxNesting - 1) cs
  match rest with
  | '=' :: rest =>
    let (path, key) ← splitKey? parts
    let (v, rest) ← value? (2 * rest.length + 2) maxNesting (skipSpace rest)
    let entries ← addKey path key v s.entries
    return ({ s with entries }, ← lineEnd? rest)
  | _ => none

/-- The lines of a document, at most `n`. -/
def lines? : Nat → Entries × Section → List Char → Option Entries
  | 0, _, _ => none
  | n + 1, (root, s), cs =>
    match skipSpace cs with
    | [] => finish root s
    | '[' :: rest => do
      let (isElement, parts, rest) ← header? rest
      let rest ← lineEnd? rest
      let root ← finish root s
      lines? n (← openSection isElement parts root) rest
    | cs =>
      match lineEnd? cs with
      | some rest => lines? n (root, s) rest
      | none => do
        let (s, rest) ← keyLine? s cs
        lines? n (root, s) rest

/-- Reads a document.  A byte order mark at its start is skipped. -/
def read? (text : String) : Option Entries :=
  let cs := match text.toList with
    | '\uFEFF' :: cs => cs
    | cs => cs
  lines? (cs.length + 1) start cs

end Document

end GradientForest.Toml
