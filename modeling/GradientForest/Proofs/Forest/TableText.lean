import GradientForest.Forest.Table
import GradientForest.Forest.TableText
import GradientForest.Proofs.Decimal.Characters
import GradientForest.Proofs.Decimal.PlainNumber
import GradientForest.Proofs.Format.Csv
import GradientForest.Proofs.Outcome

/-!
# Tables as text lose nothing

A table is written one line per row, its numbers without exponent.  The few characters that
numbers have are no commas, quotes, line ends or blanks (`TableText.spelling`), so the lines
are split into the fields that were joined, every field is read as the number it was written
for, and the rows have one length.

The only thing lost is the sign and the payload of an undefined value (`TableText.kept`).
That a table has rows and columns is needed: a text without lines has no columns, and a row
without fields is written as an empty pair of quotes, which is read as one field.
-/

namespace GradientForest

/-! ## Matrices and their rows -/

namespace Matrix

variable {α β : Type}

theorem length_toLists (m : Matrix α) : m.toLists.length = m.height := by
  rw [toLists, List.length_map, Vector.length_toList]

theorem length_of_mem_toLists {m : Matrix α} {row : List α} (h : row ∈ m.toLists) :
    row.length = m.width := by
  obtain ⟨v, -, rfl⟩ := List.mem_map.1 h
  exact v.length_toList

/-- A matrix is determined by its width and its rows. -/
theorem eq_of_toLists {m m' : Matrix α} (hwidth : m.width = m'.width)
    (h : m.toLists = m'.toLists) : m = m' := by
  have hheight : m.height = m'.height := by rw [← length_toLists, h, length_toLists]
  obtain ⟨height, width, rows⟩ := m
  obtain ⟨height', width', rows'⟩ := m'
  obtain rfl : width = width' := hwidth
  obtain rfl : height = height' := hheight
  have hrows : rows.toList = rows'.toList :=
    List.map_injective_iff.2 (fun _ _ => Vector.toList_inj.1) h
  rw [Vector.toList_inj.1 hrows]

/-- The rows of a matrix are the rows of this matrix. -/
theorem ofRows?_toLists (m : Matrix α) : ofRows? m.width m.toLists = some m := by
  have hlength : ∀ r ∈ m.toLists, r.length = m.width := fun _ => length_of_mem_toLists
  rw [ofRows?, dif_pos hlength]
  refine congrArg some (eq_of_toLists rfl ?_)
  refine List.ext_getElem ?_ fun i hi hi' => ?_
  · rw [length_toLists]
  · simp [toLists]

theorem toLists_ofFn_entry (g : α → β) (m : Matrix α) :
    (ofFn fun i j => g (m.entry i j)).toLists = m.toLists.map (List.map g) := by
  refine List.ext_getElem ?_ fun i hi hi' => List.ext_getElem ?_ fun j hj hj' => ?_
  · simp [toLists, ofFn]
  · simp [toLists, ofFn]
  · simp [toLists, ofFn, entry]

end Matrix

namespace TableText

/-! ## Fields -/

/-- The number that a text keeps: the number itself, and of an undefined value nothing but
that it is undefined. -/
def kept (x : Binary64) : Binary64 := if x.isUndefined then .undefined false else x

theorem trimChars_eq {cs : List Char} (h : ∀ c ∈ cs, Text.isBlank c = false) :
    Text.trimChars cs = cs := by
  have hdrop {ds : List Char} (hds : ∀ c ∈ ds, Text.isBlank c = false) :
      ds.dropWhile Text.isBlank = ds := by
    cases ds with
    | nil => rfl
    | cons d ds =>
      exact List.dropWhile_cons_of_neg (by rw [hds d List.mem_cons_self]; exact Bool.false_ne_true)
  rw [Text.trimChars, hdrop h, Text.dropBlanksEnd,
    hdrop fun c hc => h c (List.mem_reverse.1 hc), List.reverse_reverse]

/-- The characters of numbers stand for themselves in a line. -/
theorem spelling {x : Binary64} {c : Char} (h : c ∈ NumberStyle.plain.chars x) :
    Text.IsAscii c ∧ Csv.IsPlain (Text.byte c) ∧ Text.isBlank c = false := by
  have hdecimals : ∀ c, Layout.IsDecimal c →
      Text.IsAscii c ∧ Csv.IsPlain (Text.byte c) ∧ Text.isBlank c = false :=
    List.forall_iff_forall_mem.1 (by decide)
  have hwords : ∀ c ∈ "NaN".toList ++ "inf".toList,
      Text.IsAscii c ∧ Csv.IsPlain (Text.byte c) ∧ Text.isBlank c = false :=
    List.forall_iff_forall_mem.1 (by decide)
  obtain hdecimal | hword := NumberStyle.uses_of_mem_chars h
  · exact hdecimals c hdecimal
  · exact hwords c (List.mem_append.2 hword)

theorem isPlainText_plain (x : Binary64) : Csv.IsPlainText (NumberStyle.plain.chars x) where
  ne_nil h := by
    have hread := Literal.number_plain x
    rw [h] at hread
    cases hread
  ascii _ hc := (spelling hc).1
  plain _ hc := (spelling hc).2.1

theorem value_plain (x : Binary64) :
    value (.ofList (NumberStyle.plain.chars x)) = .ok (kept x) := by
  rw [value, String.toList_ofList, trimChars_eq fun c hc => (spelling hc).2.2,
    Literal.number_plain]
  rfl

/-! ## Records -/

theorem mapM_value (row : List Binary64) :
    (row.map fun x => String.ofList (NumberStyle.plain.chars x)).mapM value =
      .ok (row.map kept) := by
  refine mapM_of_forall₂ (List.forall₂_map_left_iff.2 (List.forall₂_map_right_iff.2 ?_))
  exact List.forall₂_same.2 fun x _ => value_plain x

/-- The fields of a row. -/
def fields (row : List Binary64) : List (List Char) := row.map NumberStyle.plain.chars

theorem rows_of_fields {width : ℕ} {records : List Csv.Record} {table : List (List Binary64)}
    (hrecords : records.map Csv.Record.fields =
      table.map fun row => (fields row).map (List.map Text.byte))
    (hwidth : ∀ row ∈ table, row.length = width) :
    rows width records = .ok (table.map (List.map kept)) := by
  have hrow {r : Csv.Record} {row : List Binary64}
      (hr : r.fields = (fields row).map (List.map Text.byte)) (hlength : row.length = width)
      (i : ℕ) : (do (← r.texts width i).mapM value) = .ok (row.map kept) := by
    have htexts := Csv.texts_of_fields hr
      (List.forall_mem_map.2 fun x _ => isPlainText_plain x) i
    rw [fields, List.length_map, hlength] at htexts
    rw [htexts, List.map_map]
    exact mapM_value row
  -- records are counted, but only refused ones show their number
  rw [rows]
  generalize 0 = k
  induction table generalizing records k with
  | nil =>
    rw [List.map_eq_nil_iff.1 hrecords]
    rfl
  | cons row table ih =>
    obtain ⟨r, records, rfl, hr, hrecords⟩ := List.map_eq_cons_iff.1 hrecords
    obtain ⟨hlength, hwidth⟩ := List.forall_mem_cons.1 hwidth
    rw [List.zipIdx_cons, List.mapM_cons, ih hrecords hwidth]
    change ((do (← r.texts width k).mapM value) >>= _) = _
    rw [hrow hr hlength k]
    rfl

/-! ## Tables -/

theorem fields_records_write {m : Matrix Binary64} (hwidth : 0 < m.width) :
    (Csv.records 0x2C (Text.toUtf8 (write m))).map Csv.Record.fields =
      m.toLists.map fun row => (fields row).map (List.map Text.byte) := by
  have hplain : ∀ fs ∈ m.toLists.map fields, fs ≠ [] ∧ ∀ f ∈ fs, Csv.IsPlainText f := by
    refine List.forall_mem_map.2 fun row hrow => ⟨?_, ?_⟩
    · refine List.map_eq_nil_iff.not.2 (List.ne_nil_of_length_pos ?_)
      rwa [Matrix.length_of_mem_toLists hrow]
    · exact List.forall_mem_map.2 fun x _ => isPlainText_plain x
  have hrecords := Csv.fields_records hplain
  rw [List.flatMap_map, List.map_map] at hrecords
  exact hrecords

/-- The matrix of the numbers that a text keeps. -/
def keptMatrix (m : Matrix Binary64) : Matrix Binary64 := .ofFn fun i j => kept (m.entry i j)

theorem read_eq_of_pos {m : Matrix Binary64} (hheight : 0 < m.height) (hwidth : 0 < m.width) :
    read (write m) = .ok (keptMatrix m) := by
  have hfields := fields_records_write hwidth
  have hrows := rows_of_fields hfields fun _ => Matrix.length_of_mem_toLists
  have hmatrix : Matrix.ofRows? m.width (m.toLists.map (List.map kept)) = some (keptMatrix m) := by
    rw [← Matrix.toLists_ofFn_entry]
    exact Matrix.ofRows?_toLists (keptMatrix m)
  obtain ⟨row, table, htable⟩ := List.exists_cons_of_length_pos
    (hheight.trans_eq m.length_toLists.symm)
  have hfirst : row.length = m.width :=
    Matrix.length_of_mem_toLists (htable ▸ List.mem_cons_self)
  rw [read]
  generalize Csv.records 0x2C (Text.toUtf8 (write m)) = records at hfields hrows
  rw [htable] at hfields
  obtain ⟨r, records, rfl, hr, -⟩ := List.map_eq_cons_iff.1 hfields
  have hlength : r.fields.length = m.width := by
    rw [hr, List.length_map, fields, List.length_map, hfirst]
  simp only [hlength, hrows, bind, Except.bind, hmatrix]
  rfl

end TableText

/-- Tables with rows and columns are read as they were written, every cell with its bits but
for the undefined ones.  The tables of forests are such tables, with a single column if there
are no trees. -/
theorem TableText.read_write :
    (∀ m : Matrix Binary64, 0 < m.height → 0 < m.width → read (write m) = .ok (keptMatrix m)) ∧
      ∀ f : Forest Binary64, read (write f.toTable) = .ok (keptMatrix f.toTable) := by
  have hheight : 0 < Node.recordFields := by decide
  refine ⟨fun m => read_eq_of_pos, fun f => read_eq_of_pos hheight ?_⟩
  change 0 < f.tableColumns.size
  rw [Forest.tableColumns, Array.size_append]
  exact Nat.add_pos_left Nat.one_pos _

/-- A single column with minus zero, an undefined value with a sign and a payload, the
smallest number and minus infinity. -/
def TableText.cornerTable : Matrix Binary64 :=
  ⟨4, 1, #v[#v[.ofRank true 0], #v[⟨0xFFF0000000000001⟩], #v[⟨1⟩], #v[.infinite true]]⟩

theorem TableText.read_write_cornerTable :
    0 < cornerTable.height ∧ 0 < cornerTable.width ∧
      read (write cornerTable) =
        .ok ⟨4, 1, #v[#v[.ofRank true 0], #v[⟨0x7FF8000000000000⟩], #v[⟨1⟩], #v[.infinite true]]⟩ :=
  ⟨by decide, by decide, (read_write.1 cornerTable (by decide) (by decide)).trans
    (congrArg Except.ok (by decide +kernel))⟩

end GradientForest
