import Mathlib.Data.List.Basic
import GradientForest.Format.Csv
import GradientForest.Proofs.Text.Utf8

/-!
# Lines are split into their fields

A field without commas, quotes and line ends is read as it stands: its bytes are kept one by
one (`readFrom_field`), the comma behind it starts the next field and the line feed ends the
record.  So a line of such fields is one record with these fields (`readFrom_line`), and
lines one after another are as many records (`fields_records`).  An empty field would be
lost in a line of its own, which is why fields have characters here.
-/

namespace GradientForest.Csv

open Text (IsAscii byte)

/-- The byte between fields. -/
abbrev comma : UInt8 := 0x2C

/-- A byte that stands for itself in a field. -/
def IsPlain (b : UInt8) : Prop := b ≠ comma ∧ b ≠ quote ∧ isLineEnd b = false

instance (b : UInt8) : Decidable (IsPlain b) :=
  inferInstanceAs (Decidable (b ≠ comma ∧ b ≠ quote ∧ isLineEnd b = false))

/-- A field that is written as it stands. -/
structure IsPlainField (f : List UInt8) : Prop where
  /-- It is not empty. -/
  ne_nil : f ≠ []
  /-- Its bytes stand for themselves. -/
  plain : ∀ b ∈ f, IsPlain b

/-! ## Steps -/

theorem action_plain {b : UInt8} (hb : IsPlain b) {place : Place} (hplace : place ≠ .inQuotes) :
    action comma place b = .keep .inField := by
  obtain ⟨hcomma, hquote, hend⟩ := hb
  cases place with
  | inQuotes => exact absurd rfl hplace
  | _ => simp [action, plainAction, hcomma, hquote, hend]

section Steps

variable (field : List UInt8) (fields : List (List UInt8)) (started next : ℕ × ℕ)

/-- The bytes of a field are kept. -/
theorem readFrom_field (place : Place) (hplace : place ≠ .inQuotes) {f : List UInt8}
    (hf : IsPlainField f) (rest : List UInt8) :
    ∃ next', readFrom comma ⟨place, field, fields, started, next⟩ (f ++ rest) =
      readFrom comma ⟨.inField, f.reverse ++ field, fields, started, next'⟩ rest := by
  obtain ⟨hne, hplain⟩ := hf
  -- the place varies: it is in front of the field for the first byte and in it for the others
  induction f generalizing place field next with
  | nil => exact absurd rfl hne
  | cons b bs ih =>
    obtain ⟨hb, hbs⟩ := List.forall_mem_cons.1 hplain
    rw [List.cons_append, readFrom, action_plain hb hplace]
    cases bs with
    | nil => exact ⟨_, rfl⟩
    | cons b' bs =>
      obtain ⟨next', hnext⟩ := ih (b :: field) (advance b next) .inField nofun
        (List.cons_ne_nil _ _) hbs
      have hreverse : (b :: b' :: bs).reverse ++ field = (b' :: bs).reverse ++ b :: field := by
        rw [List.reverse_cons, List.append_assoc]
        rfl
      exact ⟨next', hnext.trans (by rw [hreverse])⟩

/-- A comma ends a field. -/
theorem readFrom_comma (rest : List UInt8) :
    ∃ next', readFrom comma ⟨.inField, field, fields, started, next⟩ (comma :: rest) =
      readFrom comma ⟨.beforeField, [], field.reverse :: fields, started, next'⟩ rest :=
  ⟨_, rfl⟩

/-- A line feed ends a record. -/
theorem readFrom_lineFeed (rest : List UInt8) :
    ∃ record next', record.fields = fields.reverse ++ [field.reverse] ∧
      readFrom comma ⟨.inField, field, fields, started, next⟩ (0x0A :: rest) =
        record :: readFrom comma (.atRecord next') rest :=
  ⟨_, _, List.reverse_cons, rfl⟩

/-- Fields up to the end of a line are the rest of a record. -/
theorem readFrom_fields (place : Place) (hplace : place ≠ .inQuotes) {fs : List (List UInt8)}
    (hne : fs ≠ []) (hfs : ∀ f ∈ fs, IsPlainField f) (rest : List UInt8) :
    ∃ record next', record.fields = fields.reverse ++ fs ∧
      readFrom comma ⟨place, [], fields, started, next⟩
          (List.intercalate [comma] fs ++ 0x0A :: rest) =
        record :: readFrom comma (.atRecord next') rest := by
  induction fs generalizing place fields next with
  | nil => exact absurd rfl hne
  | cons f fs ih =>
    obtain ⟨hf, hfs⟩ := List.forall_mem_cons.1 hfs
    cases fs with
    | nil =>
      obtain ⟨between, hfield⟩ :=
        readFrom_field [] fields started next place hplace hf (0x0A :: rest)
      obtain ⟨record, next', hrecord, hend⟩ :=
        readFrom_lineFeed (f.reverse ++ []) fields started between rest
      refine ⟨record, next', ?_, ?_⟩
      · rw [hrecord, List.append_nil, List.reverse_reverse]
      · rw [List.intercalate_singleton, hfield, hend]
    | cons f' fs =>
      have hsplit : List.intercalate [comma] (f :: f' :: fs) ++ 0x0A :: rest =
          f ++ comma :: (List.intercalate [comma] (f' :: fs) ++ 0x0A :: rest) := by
        rw [List.intercalate_cons_cons, List.append_assoc, List.append_assoc,
          List.singleton_append]
      obtain ⟨between, hfield⟩ := readFrom_field [] fields started next place hplace hf
        (comma :: (List.intercalate [comma] (f' :: fs) ++ 0x0A :: rest))
      obtain ⟨behind, hcomma⟩ := readFrom_comma (f.reverse ++ []) fields started between
        (List.intercalate [comma] (f' :: fs) ++ 0x0A :: rest)
      obtain ⟨record, next', hrecord, hread⟩ := ih ((f.reverse ++ []).reverse :: fields) behind
        .beforeField nofun (List.cons_ne_nil _ _) hfs
      refine ⟨record, next', ?_, ?_⟩
      · rw [hrecord, List.append_nil, List.reverse_reverse, List.reverse_cons, List.append_assoc,
          List.singleton_append]
      · rw [hsplit, hfield, hcomma, hread]

end Steps

/-! ## Lines -/

/-- The bytes of a line. -/
def lineBytes (fs : List (List UInt8)) : List UInt8 := List.intercalate [comma] fs ++ [0x0A]

/-- Lines of fields are read as one record each. -/
theorem fields_readFrom {rows : List (List (List UInt8))}
    (h : ∀ fs ∈ rows, fs ≠ [] ∧ ∀ f ∈ fs, IsPlainField f) (next : ℕ × ℕ) :
    (readFrom comma (.atRecord next) (rows.flatMap lineBytes)).map Record.fields = rows := by
  induction rows generalizing next with
  | nil => rfl
  | cons fs rows ih =>
    obtain ⟨⟨hne, hfs⟩, hrows⟩ := List.forall_mem_cons.1 h
    obtain ⟨record, next', hrecord, hread⟩ :=
      readFrom_fields [] next next .beforeRecord nofun hne hfs (rows.flatMap lineBytes)
    have hsplit : (fs :: rows).flatMap lineBytes =
        List.intercalate [comma] fs ++ 0x0A :: rows.flatMap lineBytes := by
      rw [List.flatMap_cons, lineBytes, List.append_assoc, List.singleton_append]
    rw [hsplit, Reader.atRecord, hread, List.map_cons, ih hrows, hrecord]
    rfl

/-- Bytes that do not start with a byte order mark are records from the start. -/
theorem records_eq_readFrom {bytes : List UInt8} (h : ∀ b ∈ bytes.head?, b ≠ 0xEF) :
    records comma bytes = readFrom comma (.atRecord (1, 0)) bytes := by
  rw [records]
  rintro bs rfl
  exact h 0xEF rfl rfl

/-! ## Texts -/

/-- A text that is written as it stands. -/
structure IsPlainText (f : List Char) : Prop where
  /-- It is not empty. -/
  ne_nil : f ≠ []
  /-- It is in ASCII. -/
  ascii : ∀ c ∈ f, IsAscii c
  /-- Its characters stand for themselves. -/
  plain : ∀ c ∈ f, IsPlain (byte c)

theorem IsPlainText.bytes {f : List Char} (h : IsPlainText f) : IsPlainField (f.map byte) where
  ne_nil := List.map_eq_nil_iff.not.2 h.ne_nil
  plain := List.forall_mem_map.2 h.plain

theorem map_line {fs : List (List Char)} (hne : fs ≠ []) :
    (line fs).map byte = lineBytes (fs.map (List.map byte)) := by
  have hfields : (List.intercalate [','] fs).map byte =
      List.intercalate [comma] (fs.map (List.map byte)) := by
    induction fs with
    | nil => rfl
    | cons f fs ih =>
      cases fs with
      | nil => rw [List.intercalate_singleton, List.map_singleton, List.intercalate_singleton]
      | cons f' fs =>
        rw [List.intercalate_cons_cons, List.map_append, List.map_append,
          ih (List.cons_ne_nil _ _)]
        exact List.intercalate_cons_cons.symm
  rw [line, if_neg (by simpa using hne), List.map_append, hfields]
  rfl

theorem mem_line {fs : List (List Char)} (hne : fs ≠ []) {c : Char} (h : c ∈ line fs) :
    c = ',' ∨ c = '\n' ∨ ∃ f ∈ fs, c ∈ f := by
  rw [line, if_neg (by simpa using hne), List.mem_append, List.mem_singleton] at h
  rcases h with hfields | hend
  swap
  · exact .inr (.inl hend)
  induction fs with
  | nil => exact absurd rfl hne
  | cons f fs ih =>
    cases fs with
    | nil =>
      rw [List.intercalate_singleton] at hfields
      exact .inr (.inr ⟨f, List.mem_cons_self, hfields⟩)
    | cons f' fs =>
      rw [List.intercalate_cons_cons, List.mem_append, List.mem_append, List.mem_singleton]
        at hfields
      obtain (hf | hcomma) | hrest := hfields
      · exact .inr (.inr ⟨f, List.mem_cons_self, hf⟩)
      · exact .inl hcomma
      · exact (ih (List.cons_ne_nil _ _) hrest).imp_right (.imp_right fun ⟨g, hg, hc⟩ =>
          ⟨g, List.mem_cons_of_mem _ hg, hc⟩)

/-- Lines of plain texts are read as one record each. -/
theorem fields_records {rows : List (List (List Char))}
    (h : ∀ fs ∈ rows, fs ≠ [] ∧ ∀ f ∈ fs, IsPlainText f) :
    (records comma (Text.toUtf8 (.ofList (rows.flatMap line)))).map Record.fields =
      rows.map (List.map (List.map byte)) := by
  have hascii : ∀ c ∈ rows.flatMap line, IsAscii c := by
    intro c hc
    obtain ⟨fs, hfs, hc⟩ := List.mem_flatMap.1 hc
    obtain rfl | rfl | ⟨f, hf, hc⟩ := mem_line (h fs hfs).1 hc
    · decide
    · decide
    · exact ((h fs hfs).2 f hf).ascii c hc
  have hbytes : (rows.flatMap line).map byte =
      (rows.map (List.map (List.map byte))).flatMap lineBytes := by
    rw [List.map_flatMap, List.flatMap_map]
    exact List.flatMap_congr fun fs hfs => map_line (h fs hfs).1
  have hmark : ∀ b ∈ ((rows.flatMap line).map byte).head?, b ≠ 0xEF := by
    rintro b hb rfl
    obtain ⟨c, hc, hbyte⟩ := List.mem_map.1 (List.mem_of_mem_head? hb)
    have hsmall : c.toNat < 0x80 := hascii c hc
    rw [← Text.toNat_byte hsmall, hbyte] at hsmall
    exact absurd hsmall (by decide)
  rw [Text.toUtf8_ascii hascii, records_eq_readFrom hmark, hbytes]
  refine fields_readFrom (List.forall_mem_map.2 fun fs hfs => ⟨?_, ?_⟩) _
  · exact List.map_eq_nil_iff.not.2 (h fs hfs).1
  · exact List.forall_mem_map.2 fun f hf => ((h fs hfs).2 f hf).bytes

theorem mapM_ofUtf8? {fs : List (List Char)} (hfs : ∀ f ∈ fs, IsPlainText f) :
    (fs.map (List.map byte)).mapM Text.ofUtf8? = some (fs.map String.ofList) := by
  induction fs with
  | nil => rfl
  | cons f fs ih =>
    obtain ⟨hf, hfs⟩ := List.forall_mem_cons.1 hfs
    rw [List.map_cons, List.mapM_cons, ih hfs, ← Text.toUtf8_ascii hf.ascii, Text.ofUtf8?_toUtf8]
    rfl

/-- A record of plain texts is decoded. -/
theorem texts_of_fields {r : Record} {fs : List (List Char)}
    (hr : r.fields = fs.map (List.map byte)) (hfs : ∀ f ∈ fs, IsPlainText f) (number : ℕ) :
    r.texts fs.length number = .ok (fs.map String.ofList) := by
  rw [Record.texts, hr, List.length_map, if_neg (not_not.2 rfl), mapM_ofUtf8? hfs]

end GradientForest.Csv
