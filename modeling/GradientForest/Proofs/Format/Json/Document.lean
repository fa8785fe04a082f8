import Mathlib.Data.List.DropRight
import GradientForest.Proofs.Format.Json.Number
import GradientForest.Proofs.Text.Utf8

/-!
# Documents in JSON

`Reads` says which value a document stands for: the null word for the null value, a
numeral for its number, a plain name for its text, a list for its items and an object
for its fields.  The reader finds this
value in the rendered document, at any indentation and whatever follows
(`value?_render`).  The budget of the reader bounds the nesting and the number of items,
and the length of the text bounds both.

So a document is read as its value (`ofString?_document`), also from its bytes
(`ofBytes?_document`).
-/

namespace GradientForest.Json

open Text (Symbol)
open Reader

/-! ## What documents stand for -/

/-- A name without characters to escape. -/
def Plain (s : String) : Prop := ∀ c ∈ s.toList, 0x20 ≤ c.toNat ∧ c ≠ '"' ∧ c ≠ '\\'

instance (s : String) : Decidable (Plain s) :=
  List.decidableBAll (fun c : Char => 0x20 ≤ c.toNat ∧ c ≠ '"' ∧ c ≠ '\\') s.toList

mutual

/-- The value that a document stands for. -/
inductive Reads : Outline → Json → Prop where
  /-- The null word. -/
  | null : Reads (.atom "null".toList) .null
  /-- A numeral. -/
  | number (negative : Bool) (n : Numeral) :
    Reads (.atom (n.signed negative)) (.number (n.toNumber negative))
  /-- A name. -/
  | word {s : String} (plain : Plain s) : Reads (.word s) (.text (some s))
  /-- A list. -/
  | list {xs : List Outline} {vs : List Json} (items : ReadsItems xs vs) :
    Reads (.list xs) (.list vs)
  /-- An object. -/
  | object {fs : List (String × Outline)} {gs : List (Option String × Json)}
    (fields : ReadsFields fs gs) : Reads (.object fs) (.object gs)

/-- The values of the items of a list. -/
inductive ReadsItems : List Outline → List Json → Prop where
  /-- No items. -/
  | nil : ReadsItems [] []
  /-- An item in front. -/
  | cons {x : Outline} {v : Json} {xs : List Outline} {vs : List Json} (head : Reads x v)
    (tail : ReadsItems xs vs) : ReadsItems (x :: xs) (v :: vs)

/-- The values of the fields of an object. -/
inductive ReadsFields : List (String × Outline) → List (Option String × Json) → Prop where
  /-- No fields. -/
  | nil : ReadsFields [] []
  /-- A field in front. -/
  | cons {key : String} {x : Outline} {v : Json} {fs : List (String × Outline)}
    {gs : List (Option String × Json)} (plain : Plain key) (head : Reads x v)
    (tail : ReadsFields fs gs) : ReadsFields ((key, x) :: fs) ((some key, v) :: gs)

end

/-! ## Blanks -/

/-- The blanks of the grammar. -/
def IsBlank (c : Char) : Prop := c = ' ' ∨ c = '\n' ∨ c = '\t' ∨ c = '\x0d'

instance (c : Char) : Decidable (IsBlank c) :=
  inferInstanceAs (Decidable (c = ' ' ∨ c = '\n' ∨ c = '\t' ∨ c = '\x0d'))

theorem skipBlanks_of_not_blank {c : Char} (h : ¬ IsBlank c) (cs : List Symbol) :
    skipBlanks (some c :: cs) = some c :: cs := by
  refine List.dropWhile_cons_of_neg ?_
  simpa [IsBlank] using h

theorem skipBlanks_skipBlanks (cs : List Symbol) : skipBlanks (skipBlanks cs) = skipBlanks cs :=
  List.dropWhile_idempotent _ _

theorem skipBlanks_newline (level : ℕ) (cs : List Symbol) :
    skipBlanks ((Outline.newline level).map some ++ cs) = skipBlanks cs := by
  refine List.dropWhile_append_of_pos ?_
  intro s hs
  obtain ⟨c, hc, rfl⟩ := List.mem_map.1 hs
  rcases List.mem_cons.1 hc with rfl | hc
  · rfl
  · rw [List.eq_of_mem_replicate hc]
    rfl

/-- Blanks in front of a value do not matter. -/
theorem value?_congr (n : ℕ) {cs ds : List Symbol} (h : skipBlanks cs = skipBlanks ds) :
    value? n cs = value? n ds := by
  cases n with
  | zero => rw [value?, value?]
  | succ n => rw [value?, h, value?]

theorem items?_congr (n : ℕ) {cs ds : List Symbol} (h : skipBlanks cs = skipBlanks ds) :
    items? n cs = items? n ds := by
  cases n with
  | zero => rw [items?, items?]
  | succ n => rw [items?, value?_congr n h, items?]

theorem fields?_congr (n : ℕ) {cs ds : List Symbol} (h : skipBlanks cs = skipBlanks ds) :
    Reader.fields? n cs = Reader.fields? n ds := by
  cases n with
  | zero => rw [Reader.fields?, Reader.fields?]
  | succ n => rw [Reader.fields?, h, Reader.fields?]

/-! ## Names and numerals -/

theorem pieces?_plain {cs : List Char} (h : ∀ c ∈ cs, 0x20 ≤ c.toNat ∧ c ≠ '"' ∧ c ≠ '\\')
    (rest : List Symbol) :
    pieces? (cs.map some ++ some '"' :: rest) = some (cs.map Piece.char, rest) := by
  induction cs with
  | nil => rw [List.map_nil, List.nil_append, pieces?, List.map_nil]
  | cons c cs ih =>
    obtain ⟨⟨hcontrol, hquote, hescape⟩, hcs⟩ := List.forall_mem_cons.1 h
    rw [List.map_cons, List.cons_append, pieces?, if_neg (by omega), ih hcs]
    · rfl
    all_goals simp [hquote, hescape]

theorem joinPieces?_chars (cs : List Char) : joinPieces? (cs.map Piece.char) = some cs := by
  induction cs with
  | nil => rfl
  | cons c cs ih => rw [List.map_cons, joinPieces?, ih, Option.map_some]

theorem textBody?_plain {s : String} (h : Plain s) (rest : List Symbol) :
    textBody? ((s.toList ++ ['"']).map some ++ rest) = some (some s, rest) := by
  rw [List.map_append, List.append_assoc, List.map_singleton, List.singleton_append, textBody?,
    pieces?_plain h, Option.map_some]
  simp only [joinPieces?_chars, Option.map_some, String.ofList_toList]

theorem value?_word {s : String} (h : Plain s) (n : ℕ) (rest : List Symbol) :
    value? (n + 1) ((Outline.quoted s).map some ++ rest) = some (.text (some s), rest) := by
  have hblank : ¬ IsBlank '"' := by decide
  rw [Outline.quoted, List.cons_append, List.map_cons, List.cons_append, value?,
    skipBlanks_of_not_blank hblank]
  change (textBody? _).map _ = _
  rw [textBody?_plain h, Option.map_some]

/-- The characters that a numeral starts with: the digits and the minus sign. -/
def IsSignOrDigit (c : Char) : Prop := c = '-' ∨ c.isDigit = true

theorem exists_signed_eq (negative : Bool) (n : Numeral) :
    ∃ c cs, n.signed negative = c :: cs ∧ IsSignOrDigit c := by
  cases negative with
  | true => exact ⟨'-', n.chars, rfl, .inl rfl⟩
  | false =>
    obtain ⟨d, ds, hchars, hd⟩ := n.exists_chars_eq
    exact ⟨d, ds, hchars, .inr hd⟩

theorem ne_of_isSignOrDigit {c d : Char} (hc : IsSignOrDigit c)
    (hd : d ≠ '-' ∧ d.isDigit = false) : c ≠ d := by
  rintro rfl
  rcases hc with hminus | hdigit
  · exact hd.1 hminus
  · exact Bool.false_ne_true (hd.2.symm.trans hdigit)

theorem not_isBlank_of_isSignOrDigit {c : Char} (hc : IsSignOrDigit c) : ¬ IsBlank c := by
  rintro (h | h | h | h)
  all_goals exact ne_of_isSignOrDigit hc (by decide) h

/-- What starts with a sign or a digit is read as a number. -/
theorem value?_number {c : Char} (hc : IsSignOrDigit c) (n : ℕ) (cs : List Symbol) :
    value? (n + 1) (some c :: cs) =
      (number? (some c :: cs)).map fun p => (.number p.1, p.2) := by
  rw [value?, skipBlanks_of_not_blank (not_isBlank_of_isSignOrDigit hc)]
  split
  case h_7 => rfl
  all_goals
    rename_i heq
    injection heq with hhead
    injection hhead with hhead
    exact absurd hhead (ne_of_isSignOrDigit hc (by decide))

theorem value?_signed (negative : Bool) (m : Numeral) (n : ℕ) {rest : List Symbol}
    (h : Delimited rest) :
    value? (n + 1) ((m.signed negative).map some ++ rest) =
      some (.number (m.toNumber negative), rest) := by
  have hnumber := number?_signed negative m h
  obtain ⟨c, cs, hchars, hc⟩ := exists_signed_eq negative m
  rw [hchars, List.map_cons, List.cons_append] at hnumber ⊢
  rw [value?_number hc, hnumber, Option.map_some]

/-! ## Rendered documents -/

/-- A rendered document starts with a character that ends nothing. -/
theorem exists_render_eq {x : Outline} {v : Json} (h : Reads x v) (level : ℕ) :
    ∃ c cs, x.render level = c :: cs ∧ ¬ IsBlank c ∧ c ≠ ']' := by
  cases h with
  | null => exact ⟨'n', ['u', 'l', 'l'], by rw [Outline.render]; rfl, by decide, by decide⟩
  | number negative n =>
    obtain ⟨c, cs, hchars, hc⟩ := exists_signed_eq negative n
    refine ⟨c, cs, ?_, not_isBlank_of_isSignOrDigit hc, ne_of_isSignOrDigit hc (by decide)⟩
    rw [Outline.render, hchars]
  | @word s _ =>
    refine ⟨'"', s.toList ++ ['"'], ?_, by decide, by decide⟩
    rw [Outline.word, Outline.render]
    rfl
  | list items =>
    cases items with
    | nil => exact ⟨'[', [']'], by rw [Outline.render], by decide, by decide⟩
    | cons => exact ⟨'[', _, by rw [Outline.render]; rfl, by decide, by decide⟩
  | object fields =>
    cases fields with
    | nil => exact ⟨'\x7b', ['\x7d'], by rw [Outline.render], by decide, by decide⟩
    | cons => exact ⟨'\x7b', _, by rw [Outline.render]; rfl, by decide, by decide⟩

section Steps

variable {n : ℕ} {cs body afterKey content after rest : List Symbol} {v : Json} {vs : List Json}
  {key : Option String} {gs : List (Option String × Json)}

theorem value?_list (hhead : ∀ ds, skipBlanks body ≠ some ']' :: ds)
    (hitems : items? n body = some (vs, rest)) :
    value? (n + 1) (some '[' :: body) = some (.list vs, rest) := by
  have hitems' : items? n (skipBlanks body) = some (vs, rest) := by
    rw [items?_congr n (skipBlanks_skipBlanks body), hitems]
  rw [value?, skipBlanks_of_not_blank (by decide)]
  simp only [hitems', Option.map_some]

theorem items?_last (hvalue : value? n cs = some (v, after))
    (hafter : skipBlanks after = some ']' :: rest) : items? (n + 1) cs = some ([v], rest) := by
  rw [items?, hvalue]
  simp only [hafter]

theorem items?_cons (hvalue : value? n cs = some (v, after))
    (hafter : skipBlanks after = some ',' :: body) (hitems : items? n body = some (vs, rest)) :
    items? (n + 1) cs = some (v :: vs, rest) := by
  rw [items?, hvalue]
  simp only [hafter, hitems, Option.map_some]

theorem value?_object (hhead : ∃ ds, skipBlanks body = some '"' :: ds)
    (hfields : Reader.fields? n body = some (gs, rest)) :
    value? (n + 1) (some '\x7b' :: body) = some (.object gs, rest) := by
  obtain ⟨ds, hbody⟩ := hhead
  have hfields' : Reader.fields? n (some '"' :: ds) = some (gs, rest) := by
    rw [← hbody, fields?_congr n (skipBlanks_skipBlanks body), hfields]
  rw [value?, skipBlanks_of_not_blank (by decide)]
  simp only [hbody]
  change (Reader.fields? n (some '"' :: ds)).map _ = _
  rw [hfields', Option.map_some]

theorem fields?_last (hcs : skipBlanks cs = some '"' :: body)
    (hkey : textBody? body = some (key, afterKey))
    (hcolon : skipBlanks afterKey = some ':' :: content)
    (hvalue : value? n content = some (v, after))
    (hafter : skipBlanks after = some '\x7d' :: rest) :
    Reader.fields? (n + 1) cs = some ([(key, v)], rest) := by
  rw [Reader.fields?, hcs]
  simp only [hkey, hcolon, hvalue, hafter]

theorem fields?_cons {more : List Symbol} (hcs : skipBlanks cs = some '"' :: body)
    (hkey : textBody? body = some (key, afterKey))
    (hcolon : skipBlanks afterKey = some ':' :: content)
    (hvalue : value? n content = some (v, after)) (hafter : skipBlanks after = some ',' :: more)
    (hfields : Reader.fields? n more = some (gs, rest)) :
    Reader.fields? (n + 1) cs = some ((key, v) :: gs, rest) := by
  rw [Reader.fields?, hcs]
  simp only [hkey, hcolon, hvalue, hafter, hfields, Option.map_some]

end Steps

theorem length_newline_pos (level : ℕ) : 0 < (Outline.newline level).length := Nat.succ_pos _

theorem lines_cons_cons (level : ℕ) (l l' : List Char) (ls : List (List Char)) :
    Outline.lines level (l :: l' :: ls) =
      Outline.newline level ++ (l ++ ',' :: Outline.lines level (l' :: ls)) :=
  List.append_assoc _ _ _

theorem exists_lines_eq (level : ℕ) (l : List Char) (ls : List (List Char)) :
    ∃ tail, Outline.lines level (l :: ls) = Outline.newline level ++ (l ++ tail) := by
  cases ls with
  | nil => exact ⟨[], by rw [Outline.lines, List.append_nil]⟩
  | cons l' ls => exact ⟨_, lines_cons_cons level l l' ls⟩

/-- Behind the blanks of the first line stands its first character. -/
theorem skipBlanks_lines (level : ℕ) {l : List Char} {c : Char} {cs : List Char} (hl : l = c :: cs)
    (hc : ¬ IsBlank c) (ls : List (List Char)) (rest : List Symbol) :
    ∃ ds, skipBlanks ((Outline.lines level (l :: ls)).map some ++ rest) = some c :: ds := by
  obtain ⟨tail, htail⟩ := exists_lines_eq level l ls
  refine ⟨(cs ++ tail).map some ++ rest, ?_⟩
  rw [htail, List.map_append, List.append_assoc, skipBlanks_newline, hl, List.cons_append,
    List.map_cons, List.cons_append, skipBlanks_of_not_blank hc]

theorem skipBlanks_closing (level : ℕ) {c : Char} (hc : ¬ IsBlank c) (rest : List Symbol) :
    skipBlanks ((Outline.newline level).map some ++ some c :: rest) = some c :: rest := by
  rw [skipBlanks_newline, skipBlanks_of_not_blank hc]

theorem delimited_closing (level : ℕ) (rest : List Symbol) :
    Delimited ((Outline.newline level).map some ++ rest) := .newline _

/-- With a budget above twice the length of the text, rendered documents are read, and so
are the lines of lists and objects up to their closing brackets. -/
structure Within (n : ℕ) : Prop where
  /-- Documents. -/
  value {x : Outline} {v : Json} (h : Reads x v) (level : ℕ)
    (hn : 2 * (x.render level).length < n) {rest : List Symbol} (hrest : Delimited rest) :
    value? n ((x.render level).map some ++ rest) = some (v, rest)
  /-- The lines of a list. -/
  items {x : Outline} {v : Json} {xs : List Outline} {vs : List Json} (head : Reads x v)
    (tail : ReadsItems xs vs) (level inner : ℕ)
    (hn : 2 * (Outline.lines level (Outline.renderItems level (x :: xs))).length < n)
    (rest : List Symbol) :
    items? n ((Outline.lines level (Outline.renderItems level (x :: xs))).map some ++
      ((Outline.newline inner).map some ++ some ']' :: rest)) = some (v :: vs, rest)
  /-- The lines of an object. -/
  fields {key : String} {x : Outline} {v : Json} {fs : List (String × Outline)}
    {gs : List (Option String × Json)} (plain : Plain key) (head : Reads x v)
    (tail : ReadsFields fs gs) (level inner : ℕ)
    (hn : 2 * (Outline.lines level (Outline.renderFields level ((key, x) :: fs))).length < n)
    (rest : List Symbol) :
    Reader.fields? n
      ((Outline.lines level (Outline.renderFields level ((key, x) :: fs))).map some ++
        ((Outline.newline inner).map some ++ some '\x7d' :: rest)) =
          some ((some key, v) :: gs, rest)

namespace Within

variable {n : ℕ} {x : Outline} {v : Json}

theorem value_succ (ih : Within n) (h : Reads x v) (level : ℕ)
    (hn : 2 * (x.render level).length < n + 1) {rest : List Symbol} (hrest : Delimited rest) :
    value? (n + 1) ((x.render level).map some ++ rest) = some (v, rest) := by
  cases h with
  | null =>
    rw [Outline.render]
    rfl
  | number negative m =>
    rw [Outline.render]
    exact value?_signed negative m n hrest
  | word plain =>
    rw [Outline.word, Outline.render]
    exact value?_word plain n rest
  | list items =>
    cases items with
    | nil =>
      rw [Outline.render]
      rfl
    | cons head tail =>
      obtain ⟨c, cs, hrender, hc, hbracket⟩ := exists_render_eq head (level + 1)
      rw [Outline.render, List.length_append, List.length_append, List.length_cons] at hn
      have hitems := ih.items head tail (level + 1) level (by omega) rest
      rw [Outline.renderItems] at hitems
      obtain ⟨ds, hds⟩ := skipBlanks_lines (level + 1) hrender hc _ _
      rw [Outline.render, Outline.renderItems]
      simp only [List.map_append, List.map_cons, List.map_nil, List.cons_append,
        List.append_assoc, List.nil_append]
      refine value?_list (fun ds' hds' => ?_) hitems
      rw [hds] at hds'
      injection hds' with hhead
      injection hhead with hhead
      exact hbracket hhead
  | object fields =>
    cases fields with
    | nil =>
      rw [Outline.render]
      rfl
    | @cons key _ _ _ _ plain head tail =>
      rw [Outline.render, List.length_append, List.length_append, List.length_cons] at hn
      have hfields := ih.fields plain head tail (level + 1) level (by omega) rest
      have hquote : ¬ IsBlank '"' := by decide
      obtain ⟨ds, hds⟩ := skipBlanks_lines (level + 1) rfl hquote _ _
      rw [Outline.renderFields] at hfields
      rw [Outline.render, Outline.renderFields]
      rw [List.map_append, List.map_cons, List.map_append, List.append_assoc, List.cons_append,
        List.append_assoc]
      exact value?_object ⟨ds, hds⟩ hfields

theorem items_succ (ih : Within n) {xs : List Outline} {vs : List Json} (head : Reads x v)
    (tail : ReadsItems xs vs) (level inner : ℕ)
    (hn : 2 * (Outline.lines level (Outline.renderItems level (x :: xs))).length < n + 1)
    (rest : List Symbol) :
    items? (n + 1) ((Outline.lines level (Outline.renderItems level (x :: xs))).map some ++
      ((Outline.newline inner).map some ++ some ']' :: rest)) = some (v :: vs, rest) := by
  have hnewline := length_newline_pos level
  cases tail with
  | nil =>
    rw [Outline.renderItems, Outline.renderItems, Outline.lines] at hn ⊢
    rw [List.length_append] at hn
    rw [List.map_append, List.append_assoc]
    refine items?_last ?_ (skipBlanks_closing inner (by decide) rest)
    rw [value?_congr n (skipBlanks_newline level _)]
    exact ih.value head level (by omega) (delimited_closing inner _)
  | cons head' tail' =>
    rw [Outline.renderItems, Outline.renderItems, lines_cons_cons, ← Outline.renderItems] at hn ⊢
    rw [List.length_append, List.length_append, List.length_cons] at hn
    rw [List.map_append, List.map_append, List.append_assoc, List.append_assoc, List.map_cons,
      List.cons_append]
    refine items?_cons ?_ (skipBlanks_of_not_blank (by decide) _)
      (ih.items head' tail' level inner (by omega) rest)
    rw [value?_congr n (skipBlanks_newline level _)]
    exact ih.value head level (by omega) (.comma _)

theorem fields_succ (ih : Within n) {key : String} {fs : List (String × Outline)}
    {gs : List (Option String × Json)} (plain : Plain key) (head : Reads x v)
    (tail : ReadsFields fs gs) (level inner : ℕ)
    (hn : 2 * (Outline.lines level (Outline.renderFields level ((key, x) :: fs))).length < n + 1)
    (rest : List Symbol) :
    Reader.fields? (n + 1)
      ((Outline.lines level (Outline.renderFields level ((key, x) :: fs))).map some ++
        ((Outline.newline inner).map some ++ some '\x7d' :: rest)) =
          some ((some key, v) :: gs, rest) := by
  have hnewline := length_newline_pos level
  have hquoted (ds : List Symbol) : skipBlanks ((Outline.quoted key).map some ++ ds) =
      some '"' :: ((key.toList ++ ['"']).map some ++ ds) := skipBlanks_of_not_blank (by decide) _
  have hcolon (ds : List Symbol) : skipBlanks (some ':' :: ds) = some ':' :: ds :=
    skipBlanks_of_not_blank (by decide) ds
  have hblank (ds : List Symbol) : skipBlanks (some ' ' :: ds) = skipBlanks ds := rfl
  cases tail with
  | nil =>
    rw [Outline.renderFields, Outline.renderFields, Outline.lines] at hn ⊢
    rw [List.length_append, List.length_append, List.length_cons, List.length_cons] at hn
    simp only [List.map_append, List.map_cons, List.append_assoc, List.cons_append]
    refine fields?_last ((skipBlanks_newline level _).trans (hquoted _))
      (textBody?_plain plain _) (hcolon _) ?_ (skipBlanks_closing inner (by decide) rest)
    rw [value?_congr n (hblank _)]
    exact ih.value head level (by omega) (delimited_closing inner _)
  | @cons key' x' v' fs' gs' plain' head' tail' =>
    rw [Outline.renderFields, Outline.renderFields, lines_cons_cons, ← Outline.renderFields] at hn ⊢
    rw [List.length_append, List.length_append, List.length_append, List.length_cons,
      List.length_cons, List.length_cons] at hn
    simp only [List.map_append, List.map_cons, List.append_assoc, List.cons_append]
    refine fields?_cons ((skipBlanks_newline level _).trans (hquoted _))
      (textBody?_plain plain _) (hcolon _) ?_ (skipBlanks_of_not_blank (by decide) _)
      (ih.fields plain' head' tail' level inner (by omega) rest)
    rw [value?_congr n (hblank _)]
    exact ih.value head level (by omega) (.comma _)

end Within

theorem within (n : ℕ) : Within n := by
  induction n with
  | zero =>
    exact ⟨fun _ _ hn => absurd hn (Nat.not_lt_zero _),
      fun _ _ _ _ hn => absurd hn (Nat.not_lt_zero _),
      fun _ _ _ _ _ hn => absurd hn (Nat.not_lt_zero _)⟩
  | succ n ih => exact ⟨ih.value_succ, ih.items_succ, ih.fields_succ⟩

/-! ## Whole documents -/

/-- A document is read as its value. -/
theorem ofString?_document {x : Outline} {v : Json} (h : Reads x v) :
    ofString? x.document = some v := by
  have hvalue := (within (2 * (x.render 0).length + 1)).value h 0 (by omega) .nil
  rw [List.append_nil] at hvalue
  rw [ofString?, Outline.document, String.toList_ofList, ofSymbols?, List.length_map, hvalue]
  rfl

theorem ofBytes?_document {x : Outline} {v : Json} (h : Reads x v) :
    ofBytes? (Text.toUtf8 x.document) = some v := by
  rw [ofBytes?, Text.symbols_toUtf8]
  exact ofString?_document h

end GradientForest.Json
