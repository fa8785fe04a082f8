import GradientForest.Proofs.Binary64.Whole
import GradientForest.Proofs.Outcome
import GradientForest.Tree.Record

/-!
# Reading and writing node records

A record holds a node in six numbers, five of them whole.  `ofRecord_eq_ok_iff` says
which records are read as which node.  Two facts follow from it.

A node whose numbers are exact in binary64 is read back from its own record exactly
when it has a positive id, and children if and only if it is a split
(`ofRecord_toRecord_iff`).

Writing a node that was read gives its record again, but minus zero has lost its sign,
and a categorical split has 1 for its last field (`toRecord_of_ofRecord`).
-/

namespace GradientForest

open Scalar

namespace Node

theorem maxField_eq : maxField = 2 * Binary64.fractionSteps := by decide

/-! ## Whole fields -/

theorem integerField_eq_ok_iff {field : String} {x : Binary64} {w : UInt64} :
    integerField field x = .ok w ↔ w.toNat ≤ maxField ∧ x.natural? = some w.toNat := by
  have hmax : maxField < 2 ^ 64 := by decide
  rw [integerField]
  cases hx : x.natural? with
  | none => simp
  | some n =>
    dsimp only
    split
    next hn =>
      have hword : (UInt64.ofNat n).toNat = n := UInt64.toNat_ofNat_of_lt' (show n < 2 ^ 64 by omega)
      constructor
      · intro h
        cases h
        rw [hword]
        exact ⟨hn, rfl⟩
      · rintro ⟨-, h⟩
        rw [Option.some.inj h, UInt64.ofNat_toNat]
    next hn =>
      constructor
      · intro h
        cases h
      · rintro ⟨hw, h⟩
        exact absurd (Option.some.inj h ▸ hw) hn

theorem integerField_ofNat (field : String) {w : UInt64} (h : w.toNat ≤ maxField) :
    integerField field (ofNat w.toNat) = .ok w :=
  integerField_eq_ok_iff.2 ⟨h, Binary64.natural?_ofNat (maxField_eq ▸ h)⟩

theorem ofNat_of_integerField {field : String} {x : Binary64} {w : UInt64}
    (h : integerField field x = .ok w) : ofNat w.toNat = x.plainZero :=
  Binary64.ofNat_of_natural? (integerField_eq_ok_iff.1 h).2

/-- Only zero has two ways to be written. -/
theorem eq_ofNat_iff {field : String} {x : Binary64} {w : UInt64}
    (h : integerField field x = .ok w) {k : ℕ} (hpos : 0 < k) (hk : k ≤ maxField) :
    x = ofNat k ↔ w.toNat = k := by
  have hk' : (Binary64.ofNat k).natural? = some k := Binary64.natural?_ofNat (maxField_eq ▸ hk)
  constructor
  · rintro rfl
    exact Option.some.inj ((integerField_eq_ok_iff.1 h).2.symm.trans hk')
  · rintro rfl
    have hplain := ofNat_of_integerField h
    rw [Binary64.plainZero] at hplain
    split at hplain
    · have hzero : (0 : Binary64).natural? = some 0 := Binary64.natural?_ofNat (Nat.zero_le _)
      change Binary64.ofNat w.toNat = 0 at hplain
      rw [← hplain, hk'] at hzero
      exact absurd (Option.some.inj hzero) (by omega)
    · exact hplain.symm

/-! ## The kind of a node -/

theorem kindOfFields_eq_ok_iff {id childOffset feature code : UInt64} {last : Binary64}
    {kind : NodeKind Binary64} :
    kindOfFields id childOffset feature code last = .ok kind ↔
      code = .ofNat kind.code ∧ feature = kind.featureField ∧
        (kind.isLeaf = true ↔ childOffset = 0) ∧ (kind.isLeaf = true ↔ feature = 0) ∧
        kind.valueField = if kind.code = 2 then 1 else last := by
  rw [kindOfFields]
  constructor
  · intro h
    split_ifs at h with hleaf hempty hsplit hfull hscalar
    · cases h
      obtain ⟨hfeature, hoffset⟩ := not_or.1 hempty
      rw [not_not] at hfeature hoffset
      exact ⟨hleaf, hfeature, iff_of_true rfl hoffset, iff_of_true rfl hfeature, rfl⟩
    · cases h
      obtain ⟨hfeature, hoffset⟩ := not_or.1 hfull
      exact ⟨hscalar, (UInt64.sub_add_cancel feature 1).symm, iff_of_false nofun hoffset,
        iff_of_false nofun hfeature, rfl⟩
    · cases h
      obtain ⟨hfeature, hoffset⟩ := not_or.1 hfull
      exact ⟨hsplit.resolve_left hscalar, (UInt64.sub_add_cancel feature 1).symm,
        iff_of_false nofun hoffset, iff_of_false nofun hfeature, rfl⟩
  · rintro ⟨rfl, rfl, hoffset, hfeature, hvalue⟩
    cases kind with
    | leaf value =>
      obtain rfl : value = last := hvalue
      have hchildren : childOffset = 0 := hoffset.1 rfl
      simp [NodeKind.code, NodeKind.featureField, hchildren]
    | scalar j threshold =>
      obtain rfl : threshold = last := hvalue
      have hchildren : childOffset ≠ 0 := fun h => nomatch hoffset.2 h
      have htested : j + 1 ≠ 0 := fun h => nomatch hfeature.2 h
      simp [NodeKind.code, NodeKind.featureField, hchildren, htested]
    | categorical j =>
      have hchildren : childOffset ≠ 0 := fun h => nomatch hoffset.2 h
      have htested : j + 1 ≠ 0 := fun h => nomatch hfeature.2 h
      simp [NodeKind.code, NodeKind.featureField, hchildren, htested]

/-! ## Records -/

theorem length_of_ofRecord {fields : List Binary64} {n : Node Binary64}
    (h : ofRecord fields = .ok n) :
    ∃ id treeId childOffset feature code last,
      fields = [id, treeId, childOffset, feature, code, last] := by
  unfold ofRecord at h
  split at h
  next => exact ⟨_, _, _, _, _, _, rfl⟩
  next => cases h

/-- Each field of a record is read on its own, and the last one is kept but for
categorical splits. -/
theorem ofRecord_eq_ok_iff {id treeId childOffset feature code last : Binary64}
    {n : Node Binary64} :
    ofRecord [id, treeId, childOffset, feature, code, last] = .ok n ↔
      (1 ≤ n.id ∧ (n.isLeaf = true ↔ n.childOffset = 0) ∧
        (n.isLeaf = true ↔ n.kind.featureField = 0)) ∧
      integerField "node_id" id = .ok n.id ∧
      integerField "tree_id" treeId = .ok n.treeId ∧
      integerField "child_offset" childOffset = .ok n.childOffset ∧
      integerField "feature_index" feature = .ok n.kind.featureField ∧
      integerField "feature_type_code" code = .ok (.ofNat n.kind.code) ∧
      n.kind.valueField = if n.kind.code = 2 then 1 else last := by
  simp only [ofRecord, bind_eq_ok_iff, pure_eq_ok_iff, check_eq_ok_iff, kindOfFields_eq_ok_iff]
  constructor
  · rintro ⟨_, hid, hpos, _, htree, _, hoffset, _, hfeature, _, hcode, kind, ⟨rfl, rfl, hleaf⟩, rfl⟩
    exact ⟨⟨UInt64.not_lt.1 hpos, hleaf.1, hleaf.2.1⟩, hid, htree, hoffset, hfeature, hcode,
      hleaf.2.2⟩
  · rintro ⟨⟨hpos, hoffset_iff, hfeature_iff⟩, hid, htree, hoffset, hfeature, hcode, hvalue⟩
    exact ⟨_, hid, UInt64.not_lt.2 hpos, _, htree, _, hoffset, _, hfeature, _, hcode, n.kind,
      ⟨rfl, rfl, hoffset_iff, hfeature_iff, hvalue⟩, rfl⟩

/-! ## Writing and reading back -/

/-- The numbers of a node are exact in binary64. -/
structure ExactFields (n : Node Binary64) : Prop where
  id : n.id.toNat ≤ maxField
  treeId : n.treeId.toNat ≤ maxField
  childOffset : n.childOffset.toNat ≤ maxField
  feature : ∀ j, n.feature? = some j → j.toNat < maxField

theorem toList_toRecord (n : Node Binary64) :
    n.toRecord.toList = [ofNat n.id.toNat, ofNat n.treeId.toNat, ofNat n.childOffset.toNat,
      ofNat n.kind.featureField.toNat, ofNat n.kind.code, n.kind.valueField] := rfl

theorem toNat_add_one {j : UInt64} (h : j.toNat < maxField) : (j + 1).toNat = j.toNat + 1 := by
  have hmax : maxField < 2 ^ 64 := by decide
  rw [UInt64.toNat_add]
  exact Nat.mod_eq_of_lt (by simp only [UInt64.toNat_one]; omega)

theorem ExactFields.toNat_featureField {n : Node Binary64} (h : n.ExactFields) :
    n.kind.featureField.toNat ≤ maxField ∧ (n.isLeaf = true ↔ n.kind.featureField = 0) := by
  have hsplit : ∀ j : UInt64, j.toNat < maxField →
      (j + 1).toNat ≤ maxField ∧ (false = true ↔ j + 1 = 0) := by
    intro j hj
    rw [toNat_add_one hj]
    refine ⟨hj, nofun, fun h0 => ?_⟩
    have hnat := toNat_add_one hj
    rw [h0] at hnat
    exact absurd hnat (Nat.zero_ne_add_one _)
  obtain ⟨id, treeId, childOffset, kind⟩ := n
  cases kind with
  | leaf value => exact ⟨Nat.zero_le _, fun _ => rfl, fun _ => rfl⟩
  | scalar j threshold => exact hsplit j (h.feature j rfl)
  | categorical j => exact hsplit j (h.feature j rfl)

theorem integerField_code (field : String) (kind : NodeKind Binary64) :
    integerField field (ofNat kind.code) = .ok (.ofNat kind.code) := by
  cases kind with
  | leaf => exact integerField_ofNat field (w := 0) (by decide)
  | scalar => exact integerField_ofNat field (w := 1) (by decide)
  | categorical => exact integerField_ofNat field (w := 2) (by decide)

theorem valueField_eq (kind : NodeKind Binary64) :
    kind.valueField = if kind.code = 2 then 1 else kind.valueField := by
  cases kind <;> rfl

theorem ofRecord_toRecord_iff {n : Node Binary64} (h : n.ExactFields) :
    ofRecord n.toRecord.toList = .ok n ↔
      1 ≤ n.id ∧ (n.isLeaf = true ↔ n.childOffset = 0) := by
  obtain ⟨hfeature, hleaf⟩ := h.toNat_featureField
  rw [toList_toRecord, ofRecord_eq_ok_iff]
  constructor
  · rintro ⟨⟨hid, hoffset, -⟩, -⟩
    exact ⟨hid, hoffset⟩
  · rintro ⟨hid, hoffset⟩
    exact ⟨⟨hid, hoffset, hleaf⟩, integerField_ofNat _ h.id, integerField_ofNat _ h.treeId,
      integerField_ofNat _ h.childOffset, integerField_ofNat _ hfeature,
      integerField_code _ n.kind, valueField_eq n.kind⟩

/-! ## Reading and writing back -/

/-- What becomes of a record when the node that it holds is written again. -/
def rewriteRecord : List Binary64 → List Binary64
  | [id, treeId, childOffset, feature, code, last] =>
    [id.plainZero, treeId.plainZero, childOffset.plainZero, feature.plainZero, code.plainZero,
      if code = 2 then 1 else last]
  | fields => fields

theorem toNat_code (kind : NodeKind Binary64) : (UInt64.ofNat kind.code).toNat = kind.code := by
  cases kind <;> rfl

theorem code_eq_two_iff {field : String} {code : Binary64} {kind : NodeKind Binary64}
    (h : integerField field code = .ok (.ofNat kind.code)) : code = 2 ↔ kind.code = 2 := by
  rw [← toNat_code kind]
  exact eq_ofNat_iff h (by decide) (by decide)

theorem toRecord_of_ofRecord {fields : List Binary64} {n : Node Binary64}
    (h : ofRecord fields = .ok n) : n.toRecord.toList = rewriteRecord fields := by
  obtain ⟨id, treeId, childOffset, feature, code, last, rfl⟩ := length_of_ofRecord h
  obtain ⟨-, hid, htreeId, hoffset, hfeature, hcode, hvalue⟩ := ofRecord_eq_ok_iff.1 h
  rw [toList_toRecord, rewriteRecord, ofNat_of_integerField hid, ofNat_of_integerField htreeId,
    ofNat_of_integerField hoffset, ofNat_of_integerField hfeature, ← ofNat_of_integerField hcode,
    toNat_code, hvalue]
  simp only [code_eq_two_iff hcode]

theorem head?_eq_one_iff {fields : List Binary64} {n : Node Binary64}
    (h : ofRecord fields = .ok n) : fields.head? = some 1 ↔ n.id = 1 := by
  obtain ⟨id, treeId, childOffset, feature, code, last, rfl⟩ := length_of_ofRecord h
  rw [List.head?_cons, Option.some.injEq, ← UInt64.toNat_inj]
  exact eq_ofNat_iff (ofRecord_eq_ok_iff.1 h).2.1 Nat.one_pos (by decide)

end Node

end GradientForest
