import GradientForest.Proofs.Decimal.Characters
import GradientForest.Proofs.Format.Json.Prefix

/-!
# JSON documents in ASCII

A document with words, numbers and keys in ASCII is rendered in ASCII, since brackets,
commas and blanks are.  So a prefix of its bytes is the bytes of a prefix, and no strict
prefix of the bytes of an object is read (`ofBytes?_prefix`).
-/

namespace GradientForest.Json

open Text (IsAscii)

namespace Outline

/-- The words, numbers and keys of a document are in ASCII. -/
inductive InAscii : Outline → Prop where
  /-- A word or number. -/
  | atom {cs : List Char} (chars : ∀ c ∈ cs, IsAscii c) : InAscii (.atom cs)
  /-- A list. -/
  | list {xs : List Outline} (items : ∀ x ∈ xs, InAscii x) : InAscii (.list xs)
  /-- An object. -/
  | object {fs : List (String × Outline)} (keys : ∀ f ∈ fs, ∀ c ∈ f.1.toList, IsAscii c)
    (values : ∀ f ∈ fs, InAscii f.2) : InAscii (.object fs)

/-! ## Parts of documents -/

theorem isAscii_quoted {s : String} (h : ∀ c ∈ s.toList, IsAscii c) :
    ∀ c ∈ quoted s, IsAscii c := by
  intro c hc
  obtain rfl | hc | rfl : c = '"' ∨ c ∈ s.toList ∨ c = '"' := by simpa [quoted] using hc
  · decide
  · exact h c hc
  · decide

-- The premises about names are stated with `List.Forall`, which is decided along the list.
-- Characters are finitely many, so `∀ c ∈ cs` could also be decided by trying them all.

theorem inAscii_word {s : String} (h : s.toList.Forall IsAscii) : InAscii (.word s) :=
  .atom (isAscii_quoted (List.forall_iff_forall_mem.1 h))

theorem isAscii_of_isDecimal {c : Char} (h : Layout.IsDecimal c) : IsAscii c :=
  List.forall_iff_forall_mem.1 (by decide) c h

theorem inAscii_count (n : UInt64) : InAscii (.count n) :=
  .atom fun _ hc => isAscii_of_isDecimal (Layout.isDecimal_toDigits hc)

theorem inAscii_number (x : Binary64) : InAscii (.number x) := by
  have hnull : ∀ c ∈ "null".toList, IsAscii c := List.forall_iff_forall_mem.1 (by decide)
  refine .atom fun c hc => ?_
  split_ifs at hc
  · obtain hdecimal | hnan | hinfinity := NumberStyle.uses_of_mem_chars hc
    · exact isAscii_of_isDecimal hdecimal
    · exact hnull c hnan
    · exact hnull c hinfinity
  · exact hnull c hc

theorem inAscii_object (names : List String) (xs : List Outline)
    (hnames : ∀ s ∈ names, s.toList.Forall IsAscii) (hxs : ∀ x ∈ xs, InAscii x) :
    InAscii (.object (names.zip xs)) :=
  .object (fun _ hf => List.forall_iff_forall_mem.1 (hnames _ (List.of_mem_zip hf).1))
    (fun _ hf => hxs _ (List.of_mem_zip hf).2)

/-! ## Rendered documents -/

theorem isAscii_newline (level : ℕ) : ∀ c ∈ newline level, IsAscii c := by
  intro c hc
  obtain rfl | hc := List.mem_cons.1 hc
  · decide
  · rw [List.eq_of_mem_replicate hc]
    decide

theorem isAscii_lines (level : ℕ) {ls : List (List Char)} (h : ∀ l ∈ ls, ∀ c ∈ l, IsAscii c) :
    ∀ c ∈ lines level ls, IsAscii c := by
  intro c hc
  fun_induction lines level ls with
  | case1 => cases hc
  | case2 l =>
    obtain hc | hc := List.mem_append.1 hc
    · exact isAscii_newline level c hc
    · exact h l List.mem_cons_self c hc
  | case3 l ls _ ih =>
    rw [List.append_assoc, List.mem_append, List.mem_append, List.mem_cons] at hc
    obtain hc | hc | rfl | hc := hc
    · exact isAscii_newline level c hc
    · exact h l List.mem_cons_self c hc
    · decide
    · exact ih (fun l' hl' => h l' (List.mem_cons_of_mem _ hl')) hc

theorem renderItems_eq_map (level : ℕ) (xs : List Outline) :
    renderItems level xs = xs.map (render level) := by
  induction xs with
  | nil => rw [renderItems, List.map_nil]
  | cons x xs ih => rw [renderItems, ih, List.map_cons]

theorem renderFields_eq_map (level : ℕ) (fs : List (String × Outline)) :
    renderFields level fs = fs.map fun f => quoted f.1 ++ ':' :: ' ' :: f.2.render level := by
  induction fs with
  | nil => rw [renderFields, List.map_nil]
  | cons f fs ih => rw [renderFields, ih, List.map_cons]

/-- Lines between brackets. -/
theorem isAscii_bracketed (level : ℕ) {ls : List (List Char)} (h : ∀ l ∈ ls, ∀ c ∈ l, IsAscii c)
    {opening closing : Char} (hopening : IsAscii opening) (hclosing : IsAscii closing) :
    ∀ c ∈ opening :: lines (level + 1) ls ++ newline level ++ [closing], IsAscii c := by
  intro c hc
  obtain rfl | hc | hc | rfl : c = opening ∨ c ∈ lines (level + 1) ls ∨ c ∈ newline level ∨
      c = closing := by simpa using hc
  · exact hopening
  · exact isAscii_lines _ h c hc
  · exact isAscii_newline level c hc
  · exact hclosing

theorem InAscii.render {x : Outline} (h : InAscii x) (level : ℕ) :
    ∀ c ∈ x.render level, IsAscii c := by
  induction h generalizing level with
  | atom chars =>
    rw [Outline.render]
    exact chars
  | @list xs _ ih =>
    cases xs with
    | nil =>
      rw [Outline.render]
      exact List.forall_iff_forall_mem.1 (by decide)
    | cons x xs =>
      rw [Outline.render, renderItems_eq_map]
      refine isAscii_bracketed level (fun l hl => ?_) (by decide) (by decide)
      obtain ⟨y, hy, rfl⟩ := List.mem_map.1 hl
      exact ih y hy (level + 1)
  | @object fs keys _ ih =>
    cases fs with
    | nil =>
      rw [Outline.render]
      exact List.forall_iff_forall_mem.1 (by decide)
    | cons f fs =>
      rw [Outline.render, renderFields_eq_map]
      refine isAscii_bracketed level (fun l hl => ?_) (by decide) (by decide)
      obtain ⟨g, hg, rfl⟩ := List.mem_map.1 hl
      intro c hc
      rw [List.mem_append, List.mem_cons, List.mem_cons] at hc
      obtain hc | rfl | rfl | hc := hc
      · exact isAscii_quoted (keys g hg) c hc
      · decide
      · decide
      · exact ih g hg (level + 1) c hc

end Outline

/-- No strict prefix of the bytes of an object in ASCII is read as a document. -/
theorem ofBytes?_prefix {fs : List (String × Outline)} {v : Json} (h : Reads (.object fs) v)
    (hascii : (Outline.object fs).InAscii) {front : List UInt8}
    (hcut : front <+: Text.toUtf8 (Outline.object fs).document)
    (hne : front ≠ Text.toUtf8 (Outline.object fs).document) : ofBytes? front = none := by
  obtain ⟨ds, hds, rfl⟩ := Text.exists_prefix_of_toUtf8 (hascii.render 0) hcut
  rw [ofBytes?, Text.symbols_toUtf8, String.toList_ofList]
  refine ofSymbols?_prefix h (hds.map some) fun heq => hne ?_
  rw [List.map_injective_iff.2 (fun _ _ => Option.some.inj) heq]
  rfl

end GradientForest.Json
