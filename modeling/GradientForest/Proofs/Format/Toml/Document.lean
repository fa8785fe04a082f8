import GradientForest.Proofs.Format.Toml.Number

/-!
# Lines of TOML

`Reads` says which value the text behind an equals sign stands for: a name between quotes,
the digits of a natural number, or a numeral with a point.  A document of such lines with
different bare keys has the keys with these values as its entries (`Document.read?_lines`).
-/

namespace GradientForest.Toml

open Lexer Document

/-! ## Values -/

/-- A name without characters to escape, and not empty. -/
def Plain (s : String) : Prop :=
  s.toList ≠ [] ∧ ∀ c ∈ s.toList, isPrintable c = true ∧ c ≠ '"' ∧ c ≠ '\\'

instance (s : String) : Decidable (Plain s) :=
  have := List.decidableBAll (fun c : Char => isPrintable c = true ∧ c ≠ '"' ∧ c ≠ '\\') s.toList
  inferInstanceAs (Decidable (_ ∧ _))

/-- The value that a text at the end of a line stands for. -/
inductive Reads : List Char → Toml → Prop where
  /-- A name between quotes. -/
  | word {s : String} (plain : Plain s) : Reads ('"' :: (s.toList ++ ['"'])) (.text s)
  /-- The digits of an integer. -/
  | integer {n : ℕ} (within : (n : ℤ) ≤ Int64.maxValue.toInt) :
    Reads (Nat.toDigits 10 n) (.integer n)
  /-- A finite number with a point. -/
  | number (negative : Bool) (p : Positional) (places : p.places ≠ [])
    (finite : p.decimal.rank < Binary64.infinityRank) :
    Reads (p.signed negative) (.float (p.decimal.toBinary64 negative))

/-- A finite number is written as a text that stands for it. -/
theorem reads_number {x : Binary64} (hx : x.isFinite = true) :
    Reads (NumberStyle.toml.chars x) (.float x) := by
  obtain ⟨p, hchars, hfinite, hread, hplaces⟩ := Literal.exists_signed .toml rfl hx
  have hreads := Reads.number x.isNegative p (hplaces rfl) hfinite
  rwa [← hchars, hread] at hreads

theorem basicBody?_plain {cs : List Char}
    (h : ∀ c ∈ cs, isPrintable c = true ∧ c ≠ '"' ∧ c ≠ '\\') {n : ℕ} (hn : cs.length < n)
    (rest : List Char) : basicBody? n (cs ++ '"' :: rest) = some (cs, rest) := by
  induction cs generalizing n with
  | nil =>
    obtain ⟨m, rfl⟩ : ∃ m, n = m + 1 := ⟨n - 1, by omega⟩
    rfl
  | cons c cs ih =>
    obtain ⟨⟨hprintable, hquote, hescape⟩, hcs⟩ := List.forall_mem_cons.1 h
    rw [List.length_cons] at hn
    obtain ⟨m, rfl⟩ : ∃ m, n = m + 1 := ⟨n - 1, by omega⟩
    have hbody := ih hcs (Nat.lt_of_succ_lt_succ hn)
    rw [List.cons_append, basicBody?, if_pos hprintable, hbody]
    · rfl
    all_goals simp [hquote, hescape]

theorem text?_plain {s : String} (h : Plain s) (rest : List Char) :
    text? ('"' :: (s.toList ++ ['"']) ++ rest) = some (s, rest) := by
  obtain ⟨hne, hplain⟩ := h
  obtain ⟨c, cs, hcs⟩ := List.exists_cons_of_ne_nil hne
  have hc : c ≠ '"' := (hplain c (hcs ▸ List.mem_cons_self)).2.1
  have hlength : s.toList.length < (s.toList ++ '"' :: rest).length + 1 := by
    rw [List.length_append]
    omega
  have hbody := basicBody?_plain hplain hlength rest
  rw [List.cons_append, List.append_assoc, List.singleton_append, text?]
  · simp only [hbody, Option.map_some, String.ofList_toList]
  · intro rest' heq
    rw [hcs, List.cons_append] at heq
    exact hc (List.cons.inj heq).1

/-- What starts with a digit or a minus sign and is no date is read as a number. -/
theorem value?_number {c : Char} (hc : c = '-' ∨ c.isDigit = true) {cs : List Char}
    (hmoment : moment? (c :: cs) = none) (n depth : ℕ) :
    value? (n + 1) depth (c :: cs) = number? (c :: cs) := by
  have hother {d : Char} (hd : ¬ (d = '-' ∨ d.isDigit = true)) : c ≠ d := by
    rintro rfl
    exact hd hc
  rw [value?]
  · rw [hmoment]
  all_goals
    intro rest heq
    exact hother (by decide) (List.cons.inj heq).1

/-- The text of a value at the end of a line is read up to this end. -/
theorem value?_reads {cs : List Char} {v : Toml} (h : Reads cs v) (n depth : ℕ)
    (rest : List Char) : value? (n + 1) depth (cs ++ '\n' :: rest) = some (v, '\n' :: rest) := by
  cases h with
  | word plain =>
    have htext := text?_plain plain ('\n' :: rest)
    rw [List.cons_append] at htext ⊢
    rw [value?, htext, Option.map_some]
  | @integer m within =>
    have hdigits : ∀ c ∈ Nat.toDigits 10 m, c.isDigit = true := fun _ => Layout.isDigit_toDigits
    have hdash : '-' ∉ Nat.toDigits 10 m := fun hmem => absurd (hdigits _ hmem) (by decide)
    have hcolon : ':' ∉ Nat.toDigits 10 m := fun hmem => absurd (hdigits _ hmem) (by decide)
    have hmoment := moment?_eq_none hdash hcolon rest
    have hread := number?_toDigits within rest
    obtain ⟨d, ds, hds⟩ := List.exists_cons_of_ne_nil (Nat.toDigits_ne_nil (n := m) (b := 10))
    rw [hds, List.cons_append] at hmoment hread ⊢
    rw [value?_number (.inr (hdigits d (hds ▸ List.mem_cons_self))) hmoment, hread]
  | number negative p places finite =>
    have hread := number?_signed p places finite negative rest
    cases negative with
    | true =>
      rw [Positional.signed, if_pos rfl, List.cons_append] at hread ⊢
      rw [value?_number (.inl rfl) (moment?_minus _), hread]
    | false =>
      have hdash : '-' ∉ p.chars := fun hmem => absurd (Positional.isDigit_or_point hmem) (by decide)
      have hcolon : ':' ∉ p.chars := fun hmem => absurd (Positional.isDigit_or_point hmem) (by decide)
      have hmoment := moment?_eq_none hdash hcolon rest
      obtain ⟨d, ds, hchars, hd⟩ := Literal.exists_chars_eq p
      rw [Positional.signed, if_neg Bool.false_ne_true] at hread ⊢
      rw [hchars, List.cons_append] at hmoment hread ⊢
      rw [value?_number (.inr hd) hmoment, hread]

/-- The text of a value does not start with a blank. -/
theorem skipSpace_reads {cs : List Char} {v : Toml} (h : Reads cs v) (rest : List Char) :
    skipSpace (cs ++ rest) = cs ++ rest := by
  have hstart : ∃ c ds, cs = c :: ds ∧ ¬ (c = ' ' ∨ c = '\t') := by
    have hdigit {d : Char} (hd : d.isDigit = true) : ¬ (d = ' ' ∨ d = '\t') := by
      rintro (rfl | rfl) <;> cases hd
    cases h with
    | word => exact ⟨_, _, rfl, by decide⟩
    | @integer m =>
      obtain ⟨d, ds, hds⟩ := List.exists_cons_of_ne_nil (Nat.toDigits_ne_nil (n := m) (b := 10))
      exact ⟨d, ds, hds, hdigit (Layout.isDigit_toDigits (hds ▸ List.mem_cons_self))⟩
    | number negative p =>
      obtain ⟨d, ds, hchars, hd⟩ := Literal.exists_chars_eq p
      cases negative with
      | true => exact ⟨'-', p.chars, rfl, by decide⟩
      | false => exact ⟨d, ds, hchars, hdigit hd⟩
  obtain ⟨c, ds, rfl, hc⟩ := hstart
  exact List.dropWhile_cons_of_neg (by simpa using hc)

/-! ## Lines -/

/-- A key without quotes. -/
def Bare (key : String) : Prop := key.toList ≠ [] ∧ ∀ c ∈ key.toList, isBare c = true

instance (key : String) : Decidable (Bare key) :=
  have := List.decidableBAll (fun c : Char => isBare c = true) key.toList
  inferInstanceAs (Decidable (_ ∧ _))

/-- A line with a key and the text of its value. -/
def line (key : String) (cs : List Char) : List Char :=
  key.toList ++ ' ' :: '=' :: ' ' :: (cs ++ ['\n'])

/-- The entries that lines stand for. -/
inductive ReadsLines : List (String × List Char) → Entries → Prop where
  /-- No lines. -/
  | nil : ReadsLines [] []
  /-- A line in front. -/
  | cons {key : String} {cs : List Char} {v : Toml} {ls : List (String × List Char)}
    {es : Entries} (bare : Bare key) (head : Reads cs v) (tail : ReadsLines ls es) :
    ReadsLines ((key, cs) :: ls) ((key, v) :: es)

theorem ne_of_isBare {c d : Char} (hc : isBare c = true) (hd : isBare d = false) : c ≠ d := by
  rintro rfl
  exact Bool.false_ne_true (hd.symm.trans hc)

/-- A bare key starts with a character that no other line starts with. -/
theorem Bare.exists_cons {key : String} (h : Bare key) :
    ∃ c cs, key.toList = c :: cs ∧ isBare c = true := by
  obtain ⟨c, cs, hcs⟩ := List.exists_cons_of_ne_nil h.1
  exact ⟨c, cs, hcs, h.2 c (hcs ▸ List.mem_cons_self)⟩

theorem skipSpace_of_isBare {c : Char} (hc : isBare c = true) (cs : List Char) :
    skipSpace (c :: cs) = c :: cs := by
  refine List.dropWhile_cons_of_neg ?_
  have hspace : c ≠ ' ' := ne_of_isBare hc (by decide)
  have htab : c ≠ '\t' := ne_of_isBare hc (by decide)
  simp [hspace, htab]

theorem keyPart?_bare {key : String} (h : Bare key) (rest : List Char) :
    keyPart? (key.toList ++ ' ' :: rest) = some (key, ' ' :: rest) := by
  obtain ⟨c, cs, hcs, hc⟩ := h.exists_cons
  have hdouble : c ≠ '"' := ne_of_isBare hc (by decide)
  have hsingle : c ≠ '\'' := ne_of_isBare hc (by decide)
  have hspan : (key.toList ++ ' ' :: rest).span isBare = (key.toList, ' ' :: rest) := by
    have hend : isBare ' ' = false := by decide
    rw [List.span_eq_takeWhile_dropWhile, List.takeWhile_append_of_pos h.2,
      List.dropWhile_append_of_pos h.2, List.takeWhile_cons_of_neg (by simp [hend]),
      List.dropWhile_cons_of_neg (by simp [hend]), List.append_nil]
  have hne : key.toList.isEmpty = false := List.isEmpty_eq_false_iff.2 h.1
  rw [keyPart?]
  · simp only [hspan, hne, String.ofList_toList]
    rfl
  all_goals
    intro rest' heq
    rw [hcs, List.cons_append] at heq
    first
    | exact hdouble (List.cons.inj heq).1
    | exact hsingle (List.cons.inj heq).1

theorem key?_bare {key : String} (h : Bare key) (n : ℕ) (rest : List Char) :
    key? (n + 1) (key.toList ++ ' ' :: '=' :: rest) = some ([key], '=' :: rest) := by
  have hpart := keyPart?_bare h ('=' :: rest)
  obtain ⟨c, cs, hcs, hc⟩ := h.exists_cons
  rw [hcs, List.cons_append] at hpart ⊢
  rw [key?, skipSpace_of_isBare hc, hpart]
  rfl

/-- A new key is added to a table at its end. -/
theorem addKey_nil {key : String} {es : Entries} (h : find? key es = none) (v : Toml) :
    addKey [] key v es = some (es ++ [(key, v)]) := by
  simp [addKey, insertAt, h]

/-- A line is read into the section that it stands in. -/
theorem keyLine?_line {key : String} {cs : List Char} {v : Toml} (hkey : Bare key)
    (hvalue : Reads cs v) {s : Section} (hnew : find? key s.entries = none) (rest : List Char) :
    keyLine? s (line key cs ++ rest) =
      some ({ s with entries := s.entries ++ [(key, v)] }, rest) := by
  have hread (n depth : ℕ) : value? (n + 2) depth (skipSpace (' ' :: (cs ++ '\n' :: rest))) =
      some (v, '\n' :: rest) := by
    change value? (n + 2) depth (skipSpace (cs ++ '\n' :: rest)) = _
    rw [skipSpace_reads hvalue]
    exact value?_reads hvalue (n + 1) depth rest
  have hline : line key cs ++ rest =
      key.toList ++ ' ' :: '=' :: (' ' :: (cs ++ '\n' :: rest)) := by
    simp [line]
  have hend : lineEnd? ('\n' :: rest) = some rest := rfl
  rw [hline, keyLine?]
  simp [maxNesting, key?_bare hkey, splitKey?, hread, addKey_nil hnew, hend]

/-! ## Documents -/

/-- A line of a document starts with a key. -/
theorem exists_line_eq {key : String} (h : Bare key) (cs rest : List Char) :
    ∃ c ds, line key cs ++ rest = c :: ds ∧ isBare c = true := by
  obtain ⟨c, ds, hds, hc⟩ := h.exists_cons
  refine ⟨c, ds ++ ' ' :: '=' :: ' ' :: (cs ++ ['\n']) ++ rest, ?_, hc⟩
  rw [line, hds, List.cons_append, List.cons_append]

theorem lineEnd?_of_isBare {c : Char} (hc : isBare c = true) (cs : List Char) :
    lineEnd? (c :: cs) = none := by
  have hcomment : c ≠ '#' := ne_of_isBare hc (by decide)
  have hfeed : c ≠ '\n' := ne_of_isBare hc (by decide)
  have hreturn : c ≠ '\x0d' := ne_of_isBare hc (by decide)
  simp [lineEnd?, skipSpace_of_isBare hc, skipComment, hcomment, newline?, hfeed, hreturn]

/-- One line takes one step. -/
theorem lines?_line {key : String} {cs : List Char} {v : Toml} (hkey : Bare key)
    (hvalue : Reads cs v) {s : Section} (hnew : find? key s.entries = none) (n : ℕ)
    (root : Entries) (rest : List Char) :
    lines? (n + 1) (root, s) (line key cs ++ rest) =
      lines? n (root, { s with entries := s.entries ++ [(key, v)] }) rest := by
  have hline := keyLine?_line hkey hvalue hnew rest
  obtain ⟨c, ds, hds, hc⟩ := exists_line_eq hkey cs rest
  have hbracket : c ≠ '[' := ne_of_isBare hc (by decide)
  rw [hds] at hline ⊢
  rw [lines?, skipSpace_of_isBare hc]
  simp [hbracket, lineEnd?_of_isBare hc, hline]

theorem find?_eq_none {key : String} {es : Entries} (h : key ∉ es.map Prod.fst) :
    find? key es = none := by
  refine List.lookup_eq_none_iff.2 fun e he => ?_
  rw [bne_iff_ne]
  rintro rfl
  exact h (List.mem_map_of_mem he)

/-- Lines with different keys are read one by one into the document. -/
theorem lines?_lines {ls : List (String × List Char)} {es : Entries} (h : ReadsLines ls es)
    {s : Section} (hpath : s.path = []) (hkeys : ((s.entries ++ es).map Prod.fst).Nodup) {n : ℕ}
    (hn : ls.length < n) (root : Entries) :
    lines? n (root, s) (ls.flatMap fun l => line l.1 l.2) = some (s.entries ++ es) := by
  obtain ⟨n, rfl⟩ : ∃ m, n = m + 1 := ⟨n - 1, by omega⟩
  induction h generalizing s n with
  | nil =>
    rw [List.append_nil]
    change finish root s = _
    rw [finish, hpath]
    rfl
  | @cons key cs v ls es bare head tail ih =>
    rw [List.length_cons] at hn
    obtain ⟨n, rfl⟩ : ∃ m, n = m + 1 := ⟨n - 1, by omega⟩
    rw [List.append_cons] at hkeys ⊢
    have hnew : key ∉ s.entries.map Prod.fst := by
      intro hmem
      rw [List.map_append, List.map_append, List.nodup_append] at hkeys
      have hdisjoint := (List.nodup_append.1 hkeys.1).2.2
      exact hdisjoint key hmem key List.mem_cons_self rfl
    rw [List.flatMap_cons, lines?_line bare head (find?_eq_none hnew)]
    exact ih (s := { s with entries := s.entries ++ [(key, v)] }) hpath hkeys n
      (Nat.lt_of_succ_lt_succ hn)

theorem length_le_flatMap_line (ls : List (String × List Char)) :
    ls.length ≤ (ls.flatMap fun l => line l.1 l.2).length := by
  induction ls with
  | nil => exact Nat.le_refl 0
  | cons l ls ih =>
    rw [List.flatMap_cons, List.length_append, List.length_cons, line, List.length_append,
      List.length_cons]
    omega

/-- A document of lines with different keys has these keys with their values. -/
theorem Document.read?_lines {text : String} {ls : List (String × List Char)} {es : Entries}
    (htext : text.toList = ls.flatMap fun l => line l.1 l.2) (h : ReadsLines ls es)
    (hkeys : (es.map Prod.fst).Nodup) : read? text = some es := by
  have hmark : ∀ cs, text.toList ≠ '\uFEFF' :: cs := by
    intro cs heq
    rw [htext] at heq
    cases h with
    | nil => cases heq
    | @cons key value _ ls _ bare =>
      obtain ⟨c, ds, hds, hc⟩ := exists_line_eq bare value (ls.flatMap fun l => line l.1 l.2)
      rw [List.flatMap_cons, hds] at heq
      exact ne_of_isBare hc (by decide) (List.cons.inj heq).1
  have hlines := lines?_lines (s := ⟨[], false, []⟩) h rfl hkeys
    (Nat.lt_succ_of_le (length_le_flatMap_line ls)) []
  rw [read?]
  split
  next cs heq => exact absurd heq (hmark cs)
  next => rw [htext, start, hlines, List.nil_append]

end GradientForest.Toml
