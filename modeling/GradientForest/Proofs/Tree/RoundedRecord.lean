import GradientForest.Proofs.Binary64.Levels
import GradientForest.Proofs.Tree.Record

/-!
# Records of nodes with large numbers

A record holds every whole number up to `2 ^ 53`, and reading refuses the numbers above.
The number `2 ^ 53 + 1` lies in the middle between two neighbours in binary64 and is
written as the even one, which is `2 ^ 53`.  So it passes the check of the field and comes
back as one less (`Node.integerField_ofNat_iff`).  All larger numbers are refused.

`Node.stored` is the node that the record of a node holds.  It is the only node that is
ever read from this record, and it is another node exactly when one of the four whole
fields is `2 ^ 53 + 1` (`Node.misread_iff`).
-/

namespace GradientForest

open Scalar

namespace Binary64

/-- The first number above `2 ^ 53` that binary64 has. -/
theorem exists_units_above :
    ∃ r < infinityRank, units r = (2 * fractionSteps + 2) * unitsPerOne := by
  have hone : oneExponent = 1074 := rfl
  have hf : 1 < fractionSteps := by decide
  have hdouble : (fractionSteps + 1) * 2 = 2 * fractionSteps + 2 := by omega
  refine ⟨_, rank_lt_infinityRank (e := oneExponent + 1) (by omega) hf, ?_⟩
  rw [units_eq _ hf, Nat.pow_succ', ← unitsPerOne_eq, ← Nat.mul_assoc, hdouble]

/-- Natural numbers from there on are not rounded below it. -/
theorem le_of_natural?_ofNat {n k : ℕ} (hn : 2 * fractionSteps + 2 ≤ n)
    (h : (Binary64.ofNat n).natural? = some k) : 2 * fractionSteps + 2 ≤ k := by
  obtain ⟨r, hr, hunits⟩ := exists_units_above
  have hrank : r ≤ nearestRank (n * unitsPerOne) 1 := by
    have hle : units r * 1 ≤ n * unitsPerOne := by
      rw [Nat.mul_one, hunits]
      exact Nat.mul_le_mul_right _ hn
    have hmin := le_nearestRank Nat.one_pos hle
    rwa [min_eq_right hr.le] at hmin
  have hsign : nearestRank (n * unitsPerOne) 1 < signBit.toNat :=
    Nat.lt_of_le_of_lt (Nat.min_le_left _ _) infinityRank_lt
  rw [natural?, Binary64.ofNat, rank_ofRank false hsign] at h
  split at h
  next =>
    rw [← Option.some.inj h, Nat.le_div_iff_mul_le unitsPerOne_pos, ← hunits]
    exact units_strictMono.monotone hrank
  next => cases h

/-- The number above `2 ^ 53` is rounded to it. -/
theorem ofNat_middle : Binary64.ofNat (2 * fractionSteps + 1) = .ofNat (2 * fractionSteps) := by
  decide +kernel

end Binary64

/-! ## One field -/

namespace Node

/-- What a field of a record keeps of a whole number. -/
def storedField (w : UInt64) : UInt64 := if w.toNat = maxField + 1 then .ofNat maxField else w

theorem storedField_eq_self {w : UInt64} (h : w.toNat ≠ maxField + 1) : storedField w = w :=
  if_neg h

theorem storedField_eq_self_iff {w : UInt64} : storedField w = w ↔ w.toNat ≠ maxField + 1 := by
  constructor
  · intro h hw
    rw [storedField, if_pos hw, ← UInt64.toNat_inj, hw] at h
    exact absurd h (by decide)
  · exact storedField_eq_self

@[simp] theorem storedField_eq_zero_iff {w : UInt64} : storedField w = 0 ↔ w = 0 := by
  by_cases hw : w.toNat = maxField + 1
  · rw [storedField, if_pos hw]
    refine iff_of_false (by decide) ?_
    rintro rfl
    exact absurd hw (by decide)
  · rw [storedField_eq_self hw]

/-- A whole number is read back if it is at most `2 ^ 53 + 1`, and then as what the field
keeps of it. -/
theorem integerField_ofNat_iff {field : String} {w v : UInt64} :
    integerField field (ofNat w.toNat) = .ok v ↔
      w.toNat ≤ maxField + 1 ∧ v = storedField w := by
  rcases Nat.lt_trichotomy w.toNat (maxField + 1) with hlt | heq | hgt
  · rw [integerField_ofNat field (Nat.le_of_lt_succ hlt), storedField_eq_self (Nat.ne_of_lt hlt)]
    constructor
    · intro h
      exact ⟨Nat.le_of_lt hlt, (Except.ok.inj h).symm⟩
    · rintro ⟨-, rfl⟩
      rfl
  · have hword : (UInt64.ofNat maxField).toNat = maxField := by decide
    have hmiddle : (ofNat w.toNat : Binary64) = ofNat (UInt64.ofNat maxField).toNat := by
      rw [heq, hword, maxField_eq]
      exact Binary64.ofNat_middle
    rw [hmiddle, integerField_ofNat field hword.le, storedField, if_pos heq]
    constructor
    · intro h
      exact ⟨heq.le, (Except.ok.inj h).symm⟩
    · rintro ⟨-, rfl⟩
      rfl
  · -- what is above the middle is not rounded below the next number, which is refused
    refine iff_of_false (fun h => ?_) fun h => absurd h.1 (Nat.not_le.2 hgt)
    obtain ⟨hv, hnatural⟩ := integerField_eq_ok_iff.1 h
    have habove := Binary64.le_of_natural?_ofNat (maxField_eq ▸ hgt) hnatural
    rw [← maxField_eq] at habove
    omega

end Node

/-! ## The kind -/

namespace NodeKind

/-- The kind that a record holds. -/
def stored : NodeKind Binary64 → NodeKind Binary64
  | .leaf value => .leaf value
  | .scalar feature threshold => .scalar (Node.storedField (feature + 1) - 1) threshold
  | .categorical feature => .categorical (Node.storedField (feature + 1) - 1)

@[simp] theorem code_stored (kind : NodeKind Binary64) : kind.stored.code = kind.code := by
  cases kind <;> rfl

@[simp] theorem valueField_stored (kind : NodeKind Binary64) :
    kind.stored.valueField = kind.valueField := by
  cases kind <;> rfl

@[simp] theorem featureField_stored (kind : NodeKind Binary64) :
    kind.stored.featureField = Node.storedField kind.featureField := by
  cases kind with
  | leaf => rfl
  | scalar feature | categorical feature => exact UInt64.sub_add_cancel _ 1

@[simp] theorem isLeaf_stored (kind : NodeKind Binary64) : kind.stored.isLeaf = kind.isLeaf := by
  cases kind <;> rfl

/-- A kind is determined by its fields in the record. -/
theorem eq_of_fields {kind kind' : NodeKind Binary64} (hcode : kind.code = kind'.code)
    (hfeature : kind.featureField = kind'.featureField)
    (hvalue : kind.valueField = kind'.valueField) : kind = kind' := by
  cases kind <;> cases kind' <;> simp_all [code, featureField, valueField]

end NodeKind

namespace Node

/-! ## Whole records -/

/-- The node that the record of a node holds. -/
def stored (n : Node Binary64) : Node Binary64 :=
  ⟨storedField n.id, storedField n.treeId, storedField n.childOffset, n.kind.stored⟩

/-- What reading asks of the record of a node: a positive id, children and a feature for
splits alone, and no number above `2 ^ 53 + 1`. -/
structure Readable (n : Node Binary64) : Prop where
  /-- The id is positive. -/
  id_ne_zero : n.id ≠ 0
  /-- Leaves point nowhere, and splits do not point at themselves. -/
  childOffset : n.isLeaf = true ↔ n.childOffset = 0
  /-- Only splits have a feature. -/
  feature : n.isLeaf = true ↔ n.kind.featureField = 0
  /-- The fields are in range. -/
  fields : ∀ w ∈ [n.id, n.treeId, n.childOffset, n.kind.featureField], w.toNat ≤ maxField + 1

variable {n m : Node Binary64}

theorem integerField_code_iff {field : String} {kind kind' : NodeKind Binary64} :
    integerField field (ofNat kind.code) = .ok (.ofNat kind'.code) ↔ kind'.code = kind.code := by
  rw [integerField_code, Except.ok.injEq, ← UInt64.toNat_inj, toNat_code, toNat_code, eq_comm]

theorem ofRecord_toRecord_eq_ok_iff :
    ofRecord n.toRecord.toList = .ok m ↔ n.Readable ∧ m = n.stored := by
  have hpos (w : UInt64) : 1 ≤ w ↔ w ≠ 0 := by
    rw [UInt64.le_iff_toNat_le, ne_eq, ← UInt64.toNat_inj]
    exact Nat.one_le_iff_ne_zero
  rw [toList_toRecord, ofRecord_eq_ok_iff]
  simp only [integerField_ofNat_iff, integerField_code_iff, hpos]
  constructor
  · rintro ⟨⟨hid, hoffset, hfeature⟩, ⟨hidle, hidEq⟩, ⟨htreele, htreeEq⟩, ⟨hoffsetle, hoffsetEq⟩,
      ⟨hfeaturele, hfeatureEq⟩, hcode, hvalue⟩
    have hkind : m.kind = n.kind.stored := by
      refine NodeKind.eq_of_fields (hcode.trans n.kind.code_stored.symm)
        (hfeatureEq.trans n.kind.featureField_stored.symm) ?_
      rw [hvalue, hcode, NodeKind.valueField_stored]
      exact (valueField_eq n.kind).symm
    have hleaf : m.isLeaf = n.isLeaf := by rw [isLeaf, hkind, NodeKind.isLeaf_stored, isLeaf]
    rw [hidEq, ne_eq, storedField_eq_zero_iff] at hid
    rw [hleaf, hoffsetEq, storedField_eq_zero_iff] at hoffset
    rw [hleaf, hfeatureEq, storedField_eq_zero_iff] at hfeature
    refine ⟨⟨hid, hoffset, hfeature, ?_⟩, ?_⟩
    · simp only [List.forall_mem_cons]
      exact ⟨hidle, htreele, hoffsetle, hfeaturele, nofun⟩
    · obtain ⟨id, treeId, childOffset, kind⟩ := m
      exact congr (congr (congr (congrArg Node.mk hidEq) htreeEq) hoffsetEq) hkind
  · rintro ⟨h, rfl⟩
    obtain ⟨hid, htree, hoffset, hfeature, -⟩ := by
      simpa only [List.forall_mem_cons] using h.fields
    have hleaf : n.stored.isLeaf = n.isLeaf := n.kind.isLeaf_stored
    refine ⟨⟨?_, ?_, ?_⟩, ⟨hid, rfl⟩, ⟨htree, rfl⟩, ⟨hoffset, rfl⟩,
      ⟨hfeature, n.kind.featureField_stored⟩, n.kind.code_stored, ?_⟩
    · rw [stored, ne_eq, storedField_eq_zero_iff]
      exact h.id_ne_zero
    · rw [hleaf, stored, storedField_eq_zero_iff]
      exact h.childOffset
    · rw [hleaf, stored, NodeKind.featureField_stored, storedField_eq_zero_iff]
      exact h.feature
    · rw [stored, NodeKind.valueField_stored, NodeKind.code_stored]
      exact valueField_eq n.kind

theorem stored_eq_self_iff :
    n.stored = n ↔
      ∀ w ∈ [n.id, n.treeId, n.childOffset, n.kind.featureField], w.toNat ≠ maxField + 1 := by
  obtain ⟨id, treeId, childOffset, kind⟩ := n
  have hkind : storedField kind.featureField = kind.featureField ↔ kind.stored = kind := by
    constructor
    · intro h
      exact NodeKind.eq_of_fields kind.code_stored (kind.featureField_stored.trans h)
        kind.valueField_stored
    · intro h
      rw [← NodeKind.featureField_stored, h]
  simp only [List.forall_mem_cons, ← storedField_eq_self_iff, hkind]
  simp [stored]

/-- From the record of a node no other node is read than the stored one.  A node comes back
as another node when it is readable and one of its whole fields is `2 ^ 53 + 1`. -/
theorem misread_iff (n : Node Binary64) :
    (∀ m, ofRecord n.toRecord.toList = .ok m ↔ n.Readable ∧ m = n.stored) ∧
    ((∃ m, ofRecord n.toRecord.toList = .ok m ∧ m ≠ n) ↔ n.Readable ∧
      ∃ w ∈ [n.id, n.treeId, n.childOffset, n.kind.featureField], w.toNat = 2 ^ 53 + 1) := by
  refine ⟨fun m => ofRecord_toRecord_eq_ok_iff, ?_⟩
  have hstored : n.stored ≠ n ↔
      ∃ w ∈ [n.id, n.treeId, n.childOffset, n.kind.featureField], w.toNat = 2 ^ 53 + 1 := by
    rw [ne_eq, stored_eq_self_iff]
    push Not
    rfl
  simp only [ofRecord_toRecord_eq_ok_iff, ← hstored]
  constructor
  · rintro ⟨m, ⟨hreadable, rfl⟩, hne⟩
    exact ⟨hreadable, hne⟩
  · rintro ⟨hreadable, hne⟩
    exact ⟨n.stored, ⟨hreadable, rfl⟩, hne⟩

/-- A leaf with the number above `2 ^ 53` is read back with the number `2 ^ 53`, and a split
on the feature behind `2 ^ 53` others as a split on the feature before it. -/
theorem misread_middle :
    ofRecord (leaf 9007199254740993 1 (1 / 2)).toRecord.toList =
      .ok (leaf 9007199254740992 1 (1 / 2)) ∧
    ofRecord (⟨1, 1, 1, .categorical 9007199254740992⟩ : Node Binary64).toRecord.toList =
      .ok ⟨1, 1, 1, .categorical 9007199254740991⟩ := by
  constructor <;> decide +kernel

end Node

end GradientForest
