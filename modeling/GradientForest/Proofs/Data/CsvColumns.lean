import Mathlib.Data.List.Basic
import Mathlib.Data.List.Forall2
import GradientForest.Data.Csv
import GradientForest.Proofs.Outcome

/-!
# Values stay in their rows and columns

A data file with a header of `n` names is a table if all its records have `n` fields.  One
position holds the labels, and the features stand at the others, `featurePositions`, in
their order.  Without its label position a list has its members at the feature positions
(`getElem?_eraseIdx_eq`), whether it is the header, the fields of a record or their values.

A file is read exactly if each of its fields holds a value and each categorical name is the
name of a feature (`columns_eq_ok_iff`, `allValues_eq_ok_iff`).  Then the value of every
field is in the row of its record, with the labels or in the column of its position
(`read_table`).
-/

namespace GradientForest

open Scalar

/-! ## Categorical columns -/

namespace Catalog

variable {kinds : List FeatureKind} {js : List ℕ}

theorem length_foldl_set :
    (js.foldl (fun kinds j => kinds.set j .categorical) kinds).length = kinds.length := by
  induction js generalizing kinds with
  | nil => rfl
  | cons j js ih =>
    rw [List.foldl_cons, ih]
    exact List.length_set

theorem getElem?_foldl_set (k : ℕ) :
    (js.foldl (fun kinds j => kinds.set j .categorical) kinds)[k]? =
      if k ∈ js then kinds[k]?.map fun _ => .categorical else kinds[k]? := by
  induction js generalizing kinds with
  | nil => simp
  | cons j js ih =>
    rw [List.foldl_cons, ih, List.getElem?_set]
    by_cases hkj : j = k
    · subst hkj
      by_cases hk : j < kinds.length <;> simp [hk]
    · simp [hkj, Ne.symm hkj]

theorem length_withCategorical (n : ℕ) (js : List ℕ) : (withCategorical n js).length = n := by
  rw [length, withCategorical, length_foldl_set, List.length_replicate]

/-- The listed columns are categorical, and no others. -/
theorem kind_withCategorical (n : ℕ) (js : List ℕ) (k : ℕ) :
    (withCategorical n js).kind k = .categorical ↔ k < n ∧ k ∈ js := by
  rw [kind, withCategorical, List.getD_eq_getElem?_getD, getElem?_foldl_set,
    List.getElem?_replicate]
  by_cases hk : k < n <;> by_cases hmem : k ∈ js <;> simp [hk, hmem]

end Catalog

/-! ## Checked parts -/

namespace Dataset

variable {α : Type} [Scalar α] {features : Matrix α} {labels : List α} {catalog : Catalog}

theorem features_of_ofParts {d : Dataset α} (h : ofParts features labels catalog = .ok d) :
    d.features = features := by
  rw [ofParts] at h
  split at h
  · cases h
  split at h
  · cases h
  split at h
  · cases h
  split at h
  · cases h
  split at h
  · cases h
    rfl
  · cases h

/-- Parts that pass the checks can be given as many names as there are columns. -/
theorem ofParts_withNames {names : List String} (h : names.length = features.width) :
    (do
      let d ← ofParts features labels catalog
      d.withNames names) =
      (ofParts features labels catalog).map fun d => { d with names := some names } := by
  cases hd : ofParts features labels catalog with
  | error e => rfl
  | ok d => exact if_pos (h.trans (congrArg Matrix.width (features_of_ofParts hd)).symm)

end Dataset

/-! ## Matrices of rows -/

namespace Matrix

variable {α : Type}

theorem ofRows?_eq_some {width : ℕ} {rows : List (List α)} (h : ∀ r ∈ rows, r.length = width) :
    ∃ m, ofRows? width rows = some m ∧ m.height = rows.length ∧ m.width = width ∧
      ∀ i j, (rows[i.val]?.bind fun r => r[j.val]?) = some (m.entry i j) := by
  refine ⟨_, dif_pos h, rfl, rfl, fun i j => ?_⟩
  have hi : i.val < rows.length := i.isLt
  have hj : j.val < rows[i.val].length := (h _ (List.getElem_mem hi)).symm ▸ j.isLt
  rw [List.getElem?_eq_getElem hi, Option.bind_some, List.getElem?_eq_getElem hj]
  simp [entry]

end Matrix

namespace CsvOptions

/-! ## Positions -/

/-- The positions of the features: all but the one of the labels. -/
def featurePositions (n target : ℕ) : List ℕ := (List.range n).filter (· ≠ target)

theorem featurePositions_eq (n target : ℕ) :
    featurePositions n target = (List.range n).eraseIdx target := by
  by_cases htarget : target < n
  · have hidx : (List.range n).idxOf target = target := by
      have h := List.nodup_range.idxOf_getElem target (by rwa [List.length_range])
      rwa [List.getElem_range] at h
    rw [← List.erase_eq_eraseIdx_of_idxOf hidx, List.nodup_range.erase_eq_filter]
    exact List.filter_congr fun p _ => by rw [bne, beq_eq_decide, decide_not]
  · rw [List.eraseIdx_of_length_le (by simpa using htarget), featurePositions,
      List.filter_eq_self]
    intro p hp
    have hp : p < n := List.mem_range.1 hp
    exact decide_eq_true (by omega)

/-- A list without its member at the label position has its members at the feature
positions. -/
theorem getElem?_eraseIdx_eq {β : Type} (xs : List β) (target j : ℕ) :
    (xs.eraseIdx target)[j]? = (featurePositions xs.length target)[j]?.bind (xs[·]?) := by
  have hrange (k : ℕ) : (List.range xs.length)[k]?.bind (xs[·]?) = xs[k]? := by
    by_cases hk : k < xs.length
    · rw [List.getElem?_range hk, Option.bind_some]
    · rw [List.getElem?_eq_none (by simpa using hk), List.getElem?_eq_none (by simpa using hk),
        Option.bind_none]
  rw [featurePositions_eq, List.getElem?_eraseIdx, List.getElem?_eraseIdx]
  split <;> exact (hrange _).symm

/-- The names of the features, in the order of their positions. -/
def featureNames (names : List String) (target : ℕ) : List String :=
  (featurePositions names.length target).filterMap (names[·]?)

theorem getElem?_filterMap_positions {β : Type} (xs : List β) {ps : List ℕ}
    (h : ∀ p ∈ ps, p < xs.length) (j : ℕ) :
    (ps.filterMap (xs[·]?))[j]? = ps[j]?.bind (xs[·]?) := by
  induction ps generalizing j with
  | nil => rfl
  | cons p ps ih =>
    obtain ⟨hp, hps⟩ := List.forall_mem_cons.1 h
    rw [List.filterMap_cons_some (List.getElem?_eq_getElem hp)]
    cases j with
    | zero => exact (List.getElem?_eq_getElem hp).symm
    | succ j => exact ih hps j

/-- The features are named by the header without the label. -/
theorem featureNames_eq (names : List String) (target : ℕ) :
    featureNames names target = names.eraseIdx target := by
  have hpositions : ∀ p ∈ featurePositions names.length target, p < names.length :=
    fun p hp => List.mem_range.1 (List.mem_of_mem_filter hp)
  refine List.ext_getElem? fun j => ?_
  rw [featureNames, getElem?_filterMap_positions names hpositions, getElem?_eraseIdx_eq]

/-! ## Values -/

/-- The text of a field, without the blanks around it. -/
def fieldText? (field : List UInt8) : Option String := (Text.ofUtf8? field).map Text.trim

/-- A text for a missing value. -/
def IsMissing (s : String) : Prop := s.toLower ∈ ["", "na", "nan"]

/-- The value of a field.  It is undefined for a missing value, and otherwise the number that
the field is a literal of. -/
inductive Holds (field : List UInt8) : Binary64 → Prop
  | missing {s : String} (htext : fieldText? field = some s) (h : IsMissing s) : Holds field nan
  | number {s : String} {v : Binary64} (htext : fieldText? field = some s)
      (h : Literal.number? s = some v) : Holds field v

/-- The value of a field, if it holds one. -/
def fieldValue? (field : List UInt8) : Option Binary64 := (fieldText? field).bind value?

theorem isMissing_iff {s : String} : IsMissing s ↔
    s.toList.map Char.toLower = [] ∨ s.toList.map Char.toLower = ['n', 'a', 'n'] ∨
      s.toList.map Char.toLower = ['n', 'a'] := by
  have hlower (t : String) : s.toLower = t ↔ s.toList.map Char.toLower = t.toList := by
    change s.map Char.toLower = t ↔ _
    rw [← String.toList_inj, String.toList_map]
  simp only [IsMissing, List.mem_cons, List.not_mem_nil, or_false, hlower]
  exact or_congr_right or_comm

theorem eq_or_eq_of_toLower {c d : Char} (h : c.toLower = d) :
    c = d ∨ c.toNat + 32 = d.toNat := by
  unfold Char.toLower at h
  split at h
  next hcase =>
    have hupper : c.val.toNat ≤ 90 := UInt32.le_iff_toNat_le.1 hcase.2
    have hshift : ('a'.val - 'A'.val).toNat = 32 := rfl
    subst h
    simp only [Char.toNat, UInt32.toNat_add]
    omega
  · exact .inl h

theorem eq_n_or_eq_N {c : Char} (h : c.toLower = 'n') : c = 'n' ∨ c = 'N' :=
  (eq_or_eq_of_toLower h).imp_right fun h => Char.toNat_inj.1 (Nat.add_right_cancel h)

theorem eq_a_or_eq_A {c : Char} (h : c.toLower = 'a') : c = 'a' ∨ c = 'A' :=
  (eq_or_eq_of_toLower h).imp_right fun h => Char.toNat_inj.1 (Nat.add_right_cancel h)

/-- A text for a missing value is no number, or it is the literal of the undefined one. -/
theorem eq_nan_of_number {s : String} (hs : IsMissing s) {v : Binary64}
    (hv : Literal.number? s = some v) : v = nan := by
  rw [Literal.number?] at hv
  revert hv
  obtain h | h | h := isMissing_iff.1 hs
  · rw [List.map_eq_nil_iff.1 h]
    exact nofun
  · obtain ⟨n, _, hcs, hn, h⟩ := List.map_eq_cons_iff.1 h
    obtain ⟨a, _, rfl, ha, h⟩ := List.map_eq_cons_iff.1 h
    obtain ⟨m, _, rfl, hm, h⟩ := List.map_eq_cons_iff.1 h
    obtain rfl := List.map_eq_nil_iff.1 h
    rw [hcs]
    obtain rfl | rfl := eq_n_or_eq_N hn <;> obtain rfl | rfl := eq_a_or_eq_A ha <;>
      obtain rfl | rfl := eq_n_or_eq_N hm <;> exact fun hv => (Option.some.inj hv).symm
  · obtain ⟨n, _, hcs, hn, h⟩ := List.map_eq_cons_iff.1 h
    obtain ⟨a, _, rfl, ha, h⟩ := List.map_eq_cons_iff.1 h
    obtain rfl := List.map_eq_nil_iff.1 h
    rw [hcs]
    obtain rfl | rfl := eq_n_or_eq_N hn <;> obtain rfl | rfl := eq_a_or_eq_A ha <;> exact nofun

theorem value?_eq_some_iff {s : String} {v : Binary64} :
    value? s = some v ↔ (IsMissing s ∧ v = nan) ∨ Literal.number? s = some v := by
  by_cases hs : IsMissing s
  · have hvalue : value? s = some nan := if_pos (isMissing_iff.1 hs)
    rw [hvalue]
    constructor
    · rintro ⟨⟩
      exact .inl ⟨hs, rfl⟩
    · rintro (⟨-, rfl⟩ | hv)
      · rfl
      · rw [eq_nan_of_number hs hv]
  · have hvalue : value? s = Literal.number? s := if_neg (isMissing_iff.not.1 hs)
    rw [hvalue, or_iff_right fun h => hs h.1]

theorem holds_iff {field : List UInt8} {v : Binary64} :
    Holds field v ↔ fieldValue? field = some v := by
  rw [fieldValue?, Option.bind_eq_some_iff]
  constructor
  · rintro (⟨htext, h⟩ | ⟨htext, h⟩)
    · exact ⟨_, htext, value?_eq_some_iff.2 (.inl ⟨h, rfl⟩)⟩
    · exact ⟨_, htext, value?_eq_some_iff.2 (.inr h)⟩
  · rintro ⟨s, htext, h⟩
    obtain ⟨hs, rfl⟩ | h := value?_eq_some_iff.1 h
    · exact .missing htext hs
    · exact .number htext h

/-- A field holds one value at most. -/
theorem Holds.unique {field : List UInt8} {v w : Binary64} (hv : Holds field v)
    (hw : Holds field w) : v = w :=
  Option.some.inj ((holds_iff.1 hv).symm.trans (holds_iff.1 hw))

/-! ## Rows -/

theorem texts_eq_ok_iff {r : Csv.Record} {expected number : ℕ} {texts : List String} :
    r.texts expected number = .ok texts ↔ r.fields.length = expected ∧
      List.Forall₂ (fun field text => Text.ofUtf8? field = some text) r.fields texts := by
  rw [Csv.Record.texts, ← option_mapM_eq_some_iff]
  by_cases hlength : r.fields.length = expected
  · rw [if_neg (not_not.2 hlength), and_iff_right hlength]
    cases r.fields.mapM Text.ofUtf8? <;> simp
  · rw [if_pos hlength]
    exact ⟨nofun, fun h => absurd h.1 hlength⟩

theorem rowValues_eq_ok_iff {row : ℕ} {headers fields : List String} {vs : List Binary64}
    (h : headers.length = fields.length) : rowValues row headers fields = .ok vs ↔
      List.Forall₂ (fun field v => value? field = some v) fields vs := by
  have hsnd : (headers.zip fields).map Prod.snd = fields := List.map_snd_zip (Nat.le_of_eq h.symm)
  rw [rowValues, list_mapM_eq_ok_iff]
  conv_rhs => rw [← hsnd, List.forall₂_map_left_iff]
  refine list_forall₂_congr fun ⟨_, field⟩ v => ?_
  dsimp only
  cases value? field <;> simp

/-- A record is read exactly if it has the length of the header and each of its fields holds
a value. -/
theorem row_eq_ok_iff {headers : List String} {r : Csv.Record} {i : ℕ} {vs : List Binary64} :
    (do
      let fields ← r.texts headers.length (i + 1)
      rowValues i headers (fields.map Text.trim)) = .ok vs ↔
      r.fields.length = headers.length ∧ List.Forall₂ Holds r.fields vs := by
  have hholds (field : List UInt8) (v : Binary64) : Holds field v ↔
      ∃ text, Text.ofUtf8? field = some text ∧ value? (Text.trim text) = some v := by
    simp only [holds_iff, fieldValue?, fieldText?, Option.bind_map, Option.bind_eq_some_iff,
      Function.comp_apply]
  rw [bind_eq_ok_iff, list_forall₂_congr hholds, list_forall₂_comp_iff]
  constructor
  · rintro ⟨texts, htexts, hvalues⟩
    obtain ⟨hlength, htexts⟩ := texts_eq_ok_iff.1 htexts
    rw [rowValues_eq_ok_iff (by rw [List.length_map, ← hlength, htexts.length_eq]),
      List.forall₂_map_left_iff] at hvalues
    exact ⟨hlength, texts, htexts, hvalues⟩
  · rintro ⟨hlength, texts, htexts, hvalues⟩
    refine ⟨texts, texts_eq_ok_iff.2 ⟨hlength, htexts⟩, ?_⟩
    rwa [rowValues_eq_ok_iff (by rw [List.length_map, ← hlength, htexts.length_eq]),
      List.forall₂_map_left_iff]

/-- Rows of the values that records hold. -/
def HoldRows : List Csv.Record → List (List Binary64) → Prop :=
  List.Forall₂ fun r vs => List.Forall₂ Holds r.fields vs

theorem allValues_eq_ok_iff {headers : List String} {records : List Csv.Record}
    {rows : List (List Binary64)} : allValues headers records = .ok rows ↔
      (∀ r ∈ records, r.fields.length = headers.length) ∧ HoldRows records rows := by
  rw [allValues, list_mapM_eq_ok_iff, HoldRows, ← List.forall₂_and_left]
  conv_rhs => rw [← List.zipIdx_map_fst 0 records, List.forall₂_map_left_iff]
  exact list_forall₂_congr fun _ _ => row_eq_ok_iff

/-- A record holds a value at a position. -/
def HoldsAt (records : List Csv.Record) (i p : ℕ) (v : Binary64) : Prop :=
  ∃ r field, records[i]? = some r ∧ r.fields[p]? = some field ∧ Holds field v

/-- Each field holds a value. -/
def IsReadable (records : List Csv.Record) : Prop :=
  ∀ r ∈ records, ∀ field ∈ r.fields, ∃ v, Holds field v

instance (records : List Csv.Record) : Decidable (IsReadable records) :=
  decidable_of_iff (∀ r ∈ records, ∀ field ∈ r.fields, (fieldValue? field).isSome = true)
    (by simp only [IsReadable, holds_iff, Option.isSome_iff_exists])

theorem isReadable_iff {records : List Csv.Record} :
    IsReadable records ↔ ∃ rows, HoldRows records rows := by
  simp only [HoldRows, exists_list_forall₂_iff, IsReadable]

section HoldRows

variable {records : List Csv.Record} {rows : List (List Binary64)}

theorem HoldRows.holdsAt (h : HoldRows records rows) {i p : ℕ} {vs : List Binary64} {v : Binary64}
    (hvs : rows[i]? = some vs) (hv : vs[p]? = some v) : HoldsAt records i p v := by
  obtain ⟨hi, rfl⟩ := List.getElem?_eq_some_iff.1 hvs
  obtain ⟨hp, rfl⟩ := List.getElem?_eq_some_iff.1 hv
  have hi' : i < records.length := h.length_eq ▸ hi
  have hrow : List.Forall₂ Holds records[i].fields rows[i] := h.get hi' hi
  have hp' : p < records[i].fields.length := hrow.length_eq ▸ hp
  exact ⟨records[i], records[i].fields[p], List.getElem?_eq_getElem hi',
    List.getElem?_eq_getElem hp', hrow.get hp' hp⟩

theorem HoldRows.length_row (h : HoldRows records rows) {n : ℕ}
    (hn : ∀ r ∈ records, r.fields.length = n) : ∀ vs ∈ rows, vs.length = n := by
  intro vs hvs
  obtain ⟨i, hi, rfl⟩ := List.getElem_of_mem hvs
  have hi' : i < records.length := h.length_eq ▸ hi
  have hrow : List.Forall₂ Holds records[i].fields rows[i] := h.get hi' hi
  rw [← hrow.length_eq, hn _ (List.getElem_mem hi')]

theorem HoldRows.label (h : HoldRows records rows) {n target : ℕ}
    (hn : ∀ vs ∈ rows, vs.length = n) (htarget : target < n) {i : ℕ} {y : Binary64}
    (hy : (rows.map (·.getD target 0))[i]? = some y) : HoldsAt records i target y := by
  rw [List.getElem?_map, Option.map_eq_some_iff] at hy
  obtain ⟨vs, hvs, rfl⟩ := hy
  have hlt : target < vs.length := hn vs (List.mem_of_getElem? hvs) ▸ htarget
  refine h.holdsAt hvs ?_
  rw [List.getD_eq_getElem?_getD, List.getElem?_eq_getElem hlt, Option.getD_some]

theorem HoldRows.feature (h : HoldRows records rows) {n target : ℕ}
    (hn : ∀ vs ∈ rows, vs.length = n) {i j : ℕ} {x : Binary64}
    (hx : ((rows.map (·.eraseIdx target))[i]?.bind (·[j]?)) = some x) :
    ∃ p : ℕ, (featurePositions n target)[j]? = some p ∧ HoldsAt records i p x := by
  obtain ⟨xs, hxs, hx⟩ := Option.bind_eq_some_iff.1 hx
  rw [List.getElem?_map, Option.map_eq_some_iff] at hxs
  obtain ⟨vs, hvs, rfl⟩ := hxs
  rw [getElem?_eraseIdx_eq, hn vs (List.mem_of_getElem? hvs)] at hx
  obtain ⟨p, hp, hx⟩ := Option.bind_eq_some_iff.1 hx
  exact ⟨p, hp, h.holdsAt hvs hx⟩

end HoldRows

/-! ## Columns -/

theorem columnOf_eq_ok_iff {names : List String} {name : String} {i : ℕ} :
    columnOf names name = .ok i ↔ name ∈ names ∧ names.idxOf name = i := by
  have hidx : names.findIdx (· = name) = names.idxOf name :=
    congrArg (names.findIdx ·) (funext fun _ => (beq_eq_decide ..).symm)
  rw [columnOf]
  by_cases hname : name ∈ names
  · have hfind : names.findIdx? (· = name) = some (names.idxOf name) :=
      List.findIdx?_eq_some_iff_findIdx_eq.2 ⟨List.idxOf_lt_length_of_mem hname, hidx⟩
    rw [hfind, and_iff_right hname]
    exact ⟨Except.ok.inj, congrArg _⟩
  · have hfind : names.findIdx? (· = name) = none :=
      List.findIdx?_eq_none_iff.2 fun x hx => decide_eq_false fun h => hname (h ▸ hx)
    rw [hfind]
    exact ⟨nofun, fun h => absurd h.1 hname⟩

theorem columns_eq_ok_iff {names listed : List String} {js : List ℕ} :
    listed.mapM (columnOf names) = .ok js ↔
      (∀ name ∈ listed, name ∈ names) ∧ listed.map names.idxOf = js := by
  rw [list_mapM_eq_ok_iff, list_forall₂_congr fun _ _ => columnOf_eq_ok_iff, List.forall₂_and_left,
    ← List.forall₂_eq_eq_eq, List.forall₂_map_left_iff]

/-! ## Tables -/

/-- A header of names and behind it records of the same length. -/
structure IsTable (options : CsvOptions) (bytes : List UInt8) (names : List String)
    (records : List Csv.Record) : Prop where
  /-- The first record holds the names. -/
  header : ∃ r, Csv.records options.delimiter bytes = r :: records ∧
    List.Forall₂ (fun field name => fieldText? field = some name) r.fields names
  /-- The other records have a field for each name. -/
  length_eq : ∀ r ∈ records, r.fields.length = names.length

/-- Features, labels and kinds have their values from the fields of the records and from the
list of categorical names. -/
structure IsSplit (names listed : List String) (records : List Csv.Record) (target : ℕ)
    (features : Matrix Binary64) (labels : List Binary64) (catalog : Catalog) : Prop where
  /-- There is one row for each record. -/
  height_eq : features.height = records.length
  /-- There is one label for each record. -/
  labels_length : labels.length = records.length
  /-- There is one column for each name of a feature. -/
  width_eq : features.width = names.length - 1
  /-- There is one kind for each column. -/
  catalog_length : catalog.length = names.length - 1
  /-- The labels are the values at their position. -/
  label : ∀ i y, labels[i]? = some y → HoldsAt records i target y
  /-- The features are the values at the other positions, in their order. -/
  entry : ∀ (i : Fin features.height) (j : Fin features.width), ∃ p : ℕ,
    (featurePositions names.length target)[j.val]? = some p ∧
      HoldsAt records i p (features.entry i j)
  /-- The first columns with the listed names are categorical, and no others. -/
  kind : ∀ j, catalog.kind j = .categorical ↔
    ∃ name ∈ listed, (featureNames names target).idxOf name = j

variable {options : CsvOptions} {bytes : List UInt8} {names : List String}
  {records : List Csv.Record}

/-- The header of a table is read as its names. -/
theorem IsTable.exists_texts (h : IsTable options bytes names records) :
    ∃ r texts, Csv.records options.delimiter bytes = r :: records ∧
      r.texts r.fields.length 0 = .ok texts ∧ texts.map Text.trim = names := by
  obtain ⟨r, hrecords, hnames⟩ := h.header
  have hholds (field : List UInt8) (name : String) : fieldText? field = some name ↔
      ∃ text, Text.ofUtf8? field = some text ∧ Text.trim text = name :=
    Option.map_eq_some_iff
  obtain ⟨texts, htexts, htrim⟩ := list_forall₂_comp_iff.1 ((list_forall₂_congr hholds).1 hnames)
  refine ⟨r, texts, hrecords, texts_eq_ok_iff.2 ⟨rfl, htexts⟩, ?_⟩
  rwa [← List.forall₂_map_left_iff (R := Eq), List.forall₂_eq_eq_eq] at htrim

/-- Rows of a table are split and checked. -/
theorem read_of_rows (h : IsTable options bytes names records) (htarget : options.target ∈ names)
    {target : ℕ} (hidx : names.idxOf options.target = target) {js : List ℕ}
    (hjs : options.categorical.mapM (columnOf (names.eraseIdx target)) = .ok js)
    {rows : List (List Binary64)} (hrows : allValues names records = .ok rows)
    {m : Matrix Binary64} (hm : Matrix.ofRows? (names.eraseIdx target).length
      (rows.map (·.eraseIdx target)) = some m) :
    options.read bytes = (do
      let d ← Dataset.ofParts m (rows.map (·.getD target 0))
        (Catalog.withCategorical (names.eraseIdx target).length js)
      d.withNames (names.eraseIdx target)) := by
  obtain ⟨r, texts, hrecords, htexts, hnames⟩ := h.exists_texts
  have hcolumn : columnOf names options.target = .ok target :=
    columnOf_eq_ok_iff.2 ⟨htarget, hidx⟩
  simp only [read, hrecords, htexts, hnames, hcolumn, List.tail_cons, hjs, hrows, hm, ok_bind]

/-- A table that is read has only columns and fields that are read. -/
theorem exists_of_read (h : IsTable options bytes names records) (htarget : options.target ∈ names)
    {target : ℕ} (hidx : names.idxOf options.target = target) {d : Dataset Binary64}
    (hd : options.read bytes = .ok d) :
    (∃ js, options.categorical.mapM (columnOf (names.eraseIdx target)) = .ok js) ∧
      ∃ rows, allValues names records = .ok rows := by
  obtain ⟨r, texts, hrecords, htexts, hnames⟩ := h.exists_texts
  have hcolumn : columnOf names options.target = .ok target :=
    columnOf_eq_ok_iff.2 ⟨htarget, hidx⟩
  simp only [read, hrecords, htexts, hnames, hcolumn, List.tail_cons, ok_bind] at hd
  obtain ⟨js, hjs, hd⟩ := bind_eq_ok_iff.1 hd
  obtain ⟨rows, hrows, -⟩ := bind_eq_ok_iff.1 hd
  exact ⟨⟨js, hjs⟩, rows, hrows⟩

/-- The values of a table are split into labels and features. -/
theorem exists_isSplit (h : IsTable options bytes names records) {target : ℕ}
    (htarget : target < names.length) {rows : List (List Binary64)}
    (hrows : HoldRows records rows) {listed : List String}
    (hlisted : ∀ name ∈ listed, name ∈ names.eraseIdx target) :
    ∃ m, Matrix.ofRows? (names.eraseIdx target).length (rows.map (·.eraseIdx target)) = some m ∧
      IsSplit names listed records target m (rows.map (·.getD target 0))
        (Catalog.withCategorical (names.eraseIdx target).length
          (listed.map (names.eraseIdx target).idxOf)) := by
  have hwidth : (names.eraseIdx target).length = names.length - 1 :=
    List.length_eraseIdx_of_lt htarget
  have hlength : ∀ vs ∈ rows, vs.length = names.length := hrows.length_row h.length_eq
  have hfeatures : ∀ vs ∈ rows.map (·.eraseIdx target),
      vs.length = (names.eraseIdx target).length := by
    intro vs hvs
    obtain ⟨vs, hmem, rfl⟩ := List.mem_map.1 hvs
    rw [hwidth, List.length_eraseIdx_of_lt (hlength vs hmem ▸ htarget), hlength vs hmem]
  obtain ⟨m, hm, hheight, hmwidth, hentry⟩ := Matrix.ofRows?_eq_some hfeatures
  refine ⟨m, hm, ?_⟩
  constructor
  case height_eq => rw [hheight, List.length_map, hrows.length_eq]
  case labels_length => rw [List.length_map, hrows.length_eq]
  case width_eq => rw [hmwidth, hwidth]
  case catalog_length => rw [Catalog.length_withCategorical, hwidth]
  case label => exact fun i y hy => hrows.label hlength htarget hy
  case entry => exact fun i j => hrows.feature hlength (hentry i j)
  case kind =>
    intro j
    rw [Catalog.kind_withCategorical, featureNames_eq, List.mem_map]
    refine and_iff_right_of_imp ?_
    rintro ⟨name, hname, rfl⟩
    exact List.idxOf_lt_length_of_mem (hlisted name hname)

/-- A table is read into features, labels and kinds that hold the values of its fields.  They
are checked as a dataset, which gets the names of the features.  A field without a value or a
listed name that no feature has is an error. -/
theorem read_table (h : IsTable options bytes names records) (htarget : options.target ∈ names) :
    (IsReadable records →
      (∀ name ∈ options.categorical, name ∈ featureNames names (names.idxOf options.target)) →
      ∃ features labels catalog,
        IsSplit names options.categorical records (names.idxOf options.target)
          features labels catalog ∧
        options.read bytes = (Dataset.ofParts features labels catalog).map fun d =>
          { d with names := some (featureNames names (names.idxOf options.target)) }) ∧
    (¬ IsReadable records ∨
      (∃ name ∈ options.categorical, name ∉ featureNames names (names.idxOf options.target)) →
      ∃ e, options.read bytes = .error e) := by
  rw [featureNames_eq]
  have hlt : names.idxOf options.target < names.length := List.idxOf_lt_length_of_mem htarget
  generalize hidx : names.idxOf options.target = target at hlt
  constructor
  · intro hreadable hlisted
    obtain ⟨rows, hrows⟩ := isReadable_iff.1 hreadable
    obtain ⟨m, hm, hsplit⟩ := exists_isSplit h hlt hrows hlisted
    have hwidth : (names.eraseIdx target).length = m.width := by
      rw [hsplit.width_eq, List.length_eraseIdx_of_lt hlt]
    have hread := read_of_rows h htarget hidx (columns_eq_ok_iff.2 ⟨hlisted, rfl⟩)
      (allValues_eq_ok_iff.2 ⟨h.length_eq, hrows⟩) hm
    exact ⟨m, _, _, hsplit, hread.trans (Dataset.ofParts_withNames hwidth)⟩
  · intro hfault
    cases hd : options.read bytes with
    | error e => exact ⟨e, rfl⟩
    | ok d =>
      obtain ⟨⟨js, hjs⟩, rows, hrows⟩ := exists_of_read h htarget hidx hd
      have hlisted := (columns_eq_ok_iff.1 hjs).1
      have hreadable : IsReadable records :=
        isReadable_iff.2 ⟨rows, (allValues_eq_ok_iff.1 hrows).2⟩
      rcases hfault with hfault | ⟨name, hname, hfault⟩
      · exact absurd hreadable hfault
      · exact absurd (hlisted name hname) hfault

/-- A file with the labels between the features, a repeated name and missing values. -/
def splitFile : List UInt8 := Text.toUtf8 "x;y; x ;flag\n1;3.5;7;0\n;\" NA \";1e1;1\n"

/-- The names of its columns. -/
def splitNames : List String := ["x", "y", "x", "flag"]

/-- The records behind its header. -/
def splitRecords : List Csv.Record := (Csv.records 0x3B splitFile).tail

/-- The second column holds the labels, and the listed ones hold indicators. -/
def splitOptions (listed : List String) : CsvOptions := ⟨"y", listed, 0x3B⟩

/-- With a listed feature the file is read, and with the label listed it is not. -/
theorem read_table_splitFile :
    (∀ listed, (splitOptions listed).IsTable splitFile splitNames splitRecords) ∧
    "y" ∈ splitNames ∧ IsReadable splitRecords ∧
    "flag" ∈ featureNames splitNames 1 ∧ "y" ∉ featureNames splitNames 1 ∧
    (∃ features labels catalog,
      IsSplit splitNames ["flag"] splitRecords 1 features labels catalog ∧
      (splitOptions ["flag"]).read splitFile =
        (Dataset.ofParts features labels catalog).map fun d =>
          { d with names := some (featureNames splitNames 1) }) ∧
    ∃ e, (splitOptions ["y"]).read splitFile = .error e := by
  have htable : ∀ listed, (splitOptions listed).IsTable splitFile splitNames splitRecords :=
    fun _ => {
      header := ⟨⟨_, _, _⟩, rfl, .cons (by decide +kernel) (.cons (by decide +kernel)
        (.cons (by decide +kernel) (.cons (by decide +kernel) .nil)))⟩
      length_eq := by decide +kernel }
  have htarget : "y" ∈ splitNames := by decide +kernel
  have hreadable : IsReadable splitRecords := by decide +kernel
  have hflag : "flag" ∈ featureNames splitNames 1 := by decide +kernel
  have hy : "y" ∉ featureNames splitNames 1 := by decide +kernel
  have hposition : splitNames.idxOf "y" = 1 := by decide +kernel
  have hlisted : ∀ name ∈ ["flag"], name ∈ featureNames splitNames 1 := by
    rintro name (_ | ⟨_, ⟨⟩⟩)
    exact hflag
  have hread := (read_table (htable ["flag"]) htarget).1 hreadable (hposition.symm ▸ hlisted)
  have hfail := (read_table (htable ["y"]) htarget).2
    (.inr ⟨"y", List.mem_singleton_self _, hposition.symm ▸ hy⟩)
  simp only [splitOptions, hposition] at hread
  exact ⟨htable, htarget, hreadable, hflag, hy, hread, hfail⟩

end CsvOptions

end GradientForest
