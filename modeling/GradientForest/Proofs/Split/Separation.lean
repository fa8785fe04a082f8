import Mathlib.Data.Fin.VecNotation
import GradientForest.Proofs.Binary64.Midpoint
import GradientForest.Proofs.Growth.Routing
import GradientForest.Proofs.Split.Scan

/-!
# The sides of an accepted threshold

The scan judges a cut between two neighbouring values `a < b` by the rows up to `a` and the
rows from `b` on.  What a node does with its rows is decided by the threshold alone.  The
threshold comes from one cut (`search_eq_cut`), so the two agree when it separates the two
values (`separates_iff`), and then each of the children of a mask holds one side of the cut
(`Separates.partition`).

In binary64 the threshold is a midpoint that has been rounded.  It separates its neighbours
just when they are bisectable (`search_separates_iff`).
-/

namespace GradientForest

open Scalar

namespace Side

variable {α : Type} [Scalar α] {threshold v : α}

theorem ofThreshold_eq_left : ofThreshold threshold v = some .left ↔ lt v threshold = true := by
  rw [ofThreshold]
  split_ifs with hlt hle <;> simp [hlt]

theorem ofThreshold_eq_right : ofThreshold threshold v = some .right ↔
    lt v threshold = false ∧ le threshold v = true := by
  rw [ofThreshold]
  split_ifs with hlt hle <;> simp_all

end Side

namespace ThresholdSplit

/-! ## The cut of an accepted threshold -/

section Cut

variable {α : Type} [Scalar α]

/-- The leader that a cut makes. -/
def Leader.ofCut (lambda : α) (total : GradientSum α) (samples : List (Sample α)) (cut : α × α) :
    Leader α :=
  let below := sumUpTo .zero samples cut.1
  let gain := GradientSum.gain lambda below (total.minus below) total
  ⟨gain, lt 0 gain, midpoint cut.1 cut.2, gain⟩

theorem foldl_considerCut (lambda : α) (total : GradientSum α) (samples : List (Sample α))
    (leader : Leader α) (l : List (α × α)) :
    l.foldl (considerCut lambda total .zero samples) leader = leader ∨
      ∃ cut ∈ l, l.foldl (considerCut lambda total .zero samples) leader =
        .ofCut lambda total samples cut := by
  induction l generalizing leader with
  | nil => exact .inl rfl
  | cons cut l ih =>
    rw [List.foldl_cons]
    rcases ih (considerCut lambda total .zero samples leader cut) with h | ⟨cut', hcut', h⟩
    · rw [h, considerCut, Leader.consider]
      split_ifs
      · exact .inr ⟨cut, List.mem_cons_self, rfl⟩
      · exact .inl rfl
    · exact .inr ⟨cut', List.mem_cons_of_mem _ hcut', h⟩

/-- No sample lies between the two values of a cut. -/
theorem Ordered.of_mem_cuts {κ : Type} [LinearOrder κ] {place : α → κ} {samples : List (Sample α)}
    (h : Ordered place samples) {a b : α} (hcut : (a, b) ∈ cuts (samples.map Sample.value)) :
    place a < place b ∧ ∀ x ∈ samples, place x.value ≤ place a ∨ place b ≤ place x.value := by
  induction samples with
  | nil => cases hcut
  | cons x samples ih =>
    cases samples with
    | nil => cases hcut
    | cons y rest =>
      have hx : ∀ z ∈ y :: rest, place x.value ≤ place z.value := (List.pairwise_cons.1 h.sorted).1
      have hlater : (a, b) ∈ cuts ((y :: rest).map Sample.value) →
          place a < place b ∧
            ∀ z ∈ x :: y :: rest, place z.value ≤ place a ∨ place b ≤ place z.value := by
        intro hcut
        obtain ⟨hlt, hbetween⟩ := ih h.tail hcut
        refine ⟨hlt, List.forall_mem_cons.2 ⟨.inl ?_, hbetween⟩⟩
        obtain ⟨z, hz, rfl⟩ := List.mem_map.1 (mem_of_mem_cuts hcut).1
        exact hx z hz
      rw [List.map_cons, List.map_cons, cuts] at hcut
      split_ifs at hcut with htie
      · exact hlater hcut
      · rcases List.mem_cons.1 hcut with heq | hcut
        · cases heq
          have hy : ∀ z ∈ rest, place y.value ≤ place z.value :=
            (List.pairwise_cons.1 h.tail.sorted).1
          rw [h.le_iff y (List.mem_cons_of_mem _ List.mem_cons_self) x List.mem_cons_self,
            not_le] at htie
          exact ⟨htie, List.forall_mem_cons.2
            ⟨.inl (le_refl _), List.forall_mem_cons.2
              ⟨.inr (le_refl _), fun z hz => .inr (hy z hz)⟩⟩⟩
        · exact hlater hcut

end Cut

/-! ## Neighbours and sides -/

section Sides

variable {α ι : Type} [Scalar α]

/-- Two different values of a column on some rows, without another one between them. -/
structure Neighbours (column : ι → α) (rows : List ι) (a b : α) : Prop where
  lower : ∃ i ∈ rows, column i = a
  upper : ∃ i ∈ rows, column i = b
  lt : Scalar.lt a b = true
  between : ∀ i ∈ rows, isNaN (column i) = false →
    le (column i) a = true ∨ le b (column i) = true

/-- The values below a threshold are those up to `a`, and the values from it on are those from
`b` on. -/
def Separates (column : ι → α) (rows : List ι) (a b threshold : α) : Prop :=
  ∀ i ∈ rows, isNaN (column i) = false →
    (lt (column i) threshold = true ↔ le (column i) a = true) ∧
      (le threshold (column i) = true ↔ le b (column i) = true)

/-- The children of a mask hold the rows of the two sides of a cut, and each child has one. -/
structure Divides {n : ℕ} (column : Fin n → α) (rows : List (Fin n)) (a b : α)
    (children : Mask × Mask) : Prop where
  left : ∀ i : Fin n, children.1.isActive i = true ↔ i ∈ rows ∧ le (column i) a = true
  right : ∀ i : Fin n, children.2.isActive i = true ↔ i ∈ rows ∧ le b (column i) = true
  left_nonempty : ∃ i : Fin n, children.1.isActive i = true
  right_nonempty : ∃ i : Fin n, children.2.isActive i = true

/-- The rows with a value in the order of their values. -/
def sortedRows (column : ι → α) (rows : List ι) : List ι :=
  Sorting.sort (fun i k => lt (column i) (column k)) (rows.filter fun i => !isNaN (column i))

/-- What the scan finds for the rows up to a value against the rest. -/
def gainUpTo (lambda : α) (column residual hessian : ι → α) (rows : List ι) (a : α) : α :=
  let total := GradientSum.ofRows residual hessian (sortedRows column rows)
  let below := GradientSum.ofRows residual hessian
    ((sortedRows column rows).filter fun i => le (column i) a)
  GradientSum.gain lambda below (total.minus below) total

theorem mem_sortedRows {column : ι → α} {rows : List ι} {i : ι} :
    i ∈ sortedRows column rows ↔ i ∈ rows ∧ isNaN (column i) = false := by
  rw [sortedRows, (Sorting.sort_perm _ _).mem_iff, List.mem_filter, Bool.not_eq_true']

/-- The leader of a cut has the gain of the rows up to its lower value. -/
theorem best_ofCut (lambda : α) (column residual hessian : ι → α) (rows : List ι) (cut : α × α) :
    (Leader.ofCut lambda (GradientSum.ofRows residual hessian (sortedRows column rows))
      ((sortedRows column rows).map fun i => ⟨column i, residual i, hessian i⟩) cut).best =
        ⟨lt 0 (gainUpTo lambda column residual hessian rows cut.1), midpoint cut.1 cut.2,
          gainUpTo lambda column residual hessian rows cut.1⟩ := by
  rw [Leader.ofCut, sumUpTo, List.filter_map, List.foldl_map]
  rfl

/-- An accepted threshold is the midpoint of a cut and has its gain. -/
theorem search_eq_cut {κ : Type} [LinearOrder κ] {place : α → κ} {lambda : α}
    {column residual hessian : ι → α} {rows : List ι}
    (h : Ordered place ((sortedRows column rows).map fun i => ⟨column i, residual i, hessian i⟩))
    (haccepted : (search lambda column residual hessian rows).accepted = true) :
    ∃ a b, (a, b) ∈ cuts ((sortedRows column rows).map column) ∧
      (search lambda column residual hessian rows).threshold = midpoint a b ∧
      (search lambda column residual hessian rows).gain =
        gainUpTo lambda column residual hessian rows a := by
  have hscan : search lambda column residual hessian rows =
      ((cuts ((sortedRows column rows).map column)).foldl (considerCut lambda
        (GradientSum.ofRows residual hessian (sortedRows column rows)) .zero
        ((sortedRows column rows).map fun i => ⟨column i, residual i, hessian i⟩))
          .start).best := by
    rw [search_eq_rows, ← sortedRows]
    simp only
    rw [scan_eq _ _ _ _ h, List.map_map]
    rfl
  rw [hscan] at haccepted ⊢
  rcases foldl_considerCut lambda (GradientSum.ofRows residual hessian (sortedRows column rows))
    ((sortedRows column rows).map fun i => ⟨column i, residual i, hessian i⟩) .start
    (cuts ((sortedRows column rows).map column)) with hstart | ⟨cut, hcut, hleader⟩
  · rw [hstart] at haccepted
    cases haccepted
  · rw [hleader, best_ofCut]
    exact ⟨cut.1, cut.2, hcut, rfl, rfl⟩

end Sides

/-! ## Thresholds of binary64 columns -/

section Binary64

open Binary64

variable {ι : Type} {column : ι → Binary64} {rows : List ι} {a b : Binary64}

theorem ordered_sortedRows (column residual hessian : ι → Binary64) (rows : List ι) :
    Ordered level ((sortedRows column rows).map fun i => ⟨column i, residual i, hessian i⟩) where
  le_iff x hx y hy := by
    obtain ⟨i, hi, rfl⟩ := List.mem_map.1 hx
    obtain ⟨k, hk, rfl⟩ := List.mem_map.1 hy
    simp only [le_iff_level, (mem_sortedRows.1 hi).2, (mem_sortedRows.1 hk).2, true_and]
  sorted := by
    refine List.pairwise_map.2 (Sorting.pairwise_sort fun i hi k hk => ?_)
    have hdefined : ∀ i ∈ rows.filter fun i => !isNaN (column i), isNaN (column i) = false :=
      fun i hi => Bool.not_eq_true' _ ▸ (List.mem_filter.1 hi).2
    simp only [lt_iff_level, hdefined i hi, hdefined k hk, true_and]

/-- The two values of a cut are neighbours. -/
theorem neighbours_of_mem_cuts (h : (a, b) ∈ cuts ((sortedRows column rows).map column)) :
    Neighbours column rows a b := by
  obtain ⟨hlt, hbetween⟩ := (ordered_sortedRows column column column rows).of_mem_cuts
    (by rwa [List.map_map])
  obtain ⟨⟨i, hi, rfl⟩, ⟨k, hk, rfl⟩⟩ :=
    (mem_of_mem_cuts h).imp List.mem_map.1 List.mem_map.1
  rw [mem_sortedRows] at hi hk
  refine ⟨⟨i, hi.1, rfl⟩, ⟨k, hk.1, rfl⟩, lt_iff_level.2 ⟨hi.2, hk.2, hlt⟩, fun l hl hdefined => ?_⟩
  refine (hbetween _ (List.mem_map_of_mem (mem_sortedRows.2 ⟨hl, hdefined⟩))).imp ?_ ?_
  · exact fun hle => le_iff_level.2 ⟨hdefined, hi.2, hle⟩
  · exact fun hle => le_iff_level.2 ⟨hk.2, hdefined, hle⟩

/-- A threshold separates neighbours when it lies above the lower one and not above the upper
one. -/
theorem separates_iff (h : Neighbours column rows a b) (threshold : Binary64) :
    Separates column rows a b threshold ↔
      Scalar.lt a threshold = true ∧ Scalar.le threshold b = true := by
  obtain ⟨ha, hb, hab⟩ := lt_iff_level.1 h.lt
  constructor
  · intro hseparates
    obtain ⟨i, hi, rfl⟩ := h.lower
    obtain ⟨k, hk, rfl⟩ := h.upper
    exact ⟨(hseparates i hi ha).1.2 (le_iff_level.2 ⟨ha, ha, le_refl _⟩),
      (hseparates k hk hb).2.2 (le_iff_level.2 ⟨hb, hb, le_refl _⟩)⟩
  · rintro ⟨hlow, hhigh⟩ i hi hdefined
    obtain ⟨-, ht, hlow⟩ := lt_iff_level.1 hlow
    obtain ⟨-, -, hhigh⟩ := le_iff_level.1 hhigh
    have hbetween : (column i).level ≤ a.level ∨ b.level ≤ (column i).level :=
      (h.between i hi hdefined).imp (fun h => (le_iff_level.1 h).2.2) fun h =>
        (le_iff_level.1 h).2.2
    simp only [lt_iff_level, le_iff_level, hdefined, ht, ha, hb, true_and]
    omega

/-- A threshold that separates neighbours sends each side of the cut to a child of the mask of
the rows. -/
theorem Separates.divides {n : ℕ} {column : Fin n → Binary64} {rows : List (Fin n)}
    {threshold : Binary64} (h : Separates column rows a b threshold)
    (hneighbours : Neighbours column rows a b) {mask : Mask}
    (hmask : ∀ i : Fin n, mask.isActive i = true ↔ i ∈ rows) :
    Divides column rows a b (mask.partitionScalar (.ofFn column) threshold) := by
  obtain ⟨ha, hb, hab⟩ := lt_iff_level.1 hneighbours.lt
  have hside (i : Fin n) (side : Side) :
      (side.pick (mask.partitionScalar (.ofFn column) threshold)).isActive i = true ↔
        i ∈ rows ∧ Side.ofThreshold threshold (column i) = some side := by
    rw [← hmask]
    exact Mask.isActive_partitionBy (by simp) side
  have hleft (i : Fin n) :
      (mask.partitionScalar (.ofFn column) threshold).1.isActive i = true ↔
        i ∈ rows ∧ Scalar.le (column i) a = true := by
    refine (hside i .left).trans (and_congr_right fun hi => ?_)
    rw [Side.ofThreshold_eq_left]
    cases hdefined : isNaN (column i) with
    | true => simp [lt_iff_level, le_iff_level, hdefined]
    | false => exact (h i hi hdefined).1
  have hright (i : Fin n) :
      (mask.partitionScalar (.ofFn column) threshold).2.isActive i = true ↔
        i ∈ rows ∧ Scalar.le b (column i) = true := by
    refine (hside i .right).trans (and_congr_right fun hi => ?_)
    rw [Side.ofThreshold_eq_right, ← Bool.not_eq_true]
    cases hdefined : isNaN (column i) with
    | true => simp [le_iff_level, hdefined]
    | false =>
      rw [(h i hi hdefined).1, (h i hi hdefined).2]
      simp only [le_iff_level, hdefined, ha, hb, true_and]
      omega
  obtain ⟨i, hi, rfl⟩ := hneighbours.lower
  obtain ⟨k, hk, rfl⟩ := hneighbours.upper
  exact ⟨hleft, hright, ⟨i, (hleft i).2 ⟨hi, le_iff_level.2 ⟨ha, ha, le_refl _⟩⟩⟩,
    k, (hright k).2 ⟨hk, le_iff_level.2 ⟨hb, hb, le_refl _⟩⟩⟩

/-- An accepted threshold belongs to a cut between two neighbouring values, whose gain it has.
It separates the two, and then it divides the rows into the sides of the cut, just when they are
bisectable. -/
theorem search_separates_iff {n : ℕ} (lambda : Binary64)
    (column residual hessian : Fin n → Binary64) (rows : List (Fin n))
    (haccepted : (search lambda column residual hessian rows).accepted = true) :
    ∃ a b, Neighbours column rows a b ∧
      (search lambda column residual hessian rows).threshold = midpoint a b ∧
      (search lambda column residual hessian rows).gain =
        gainUpTo lambda column residual hessian rows a ∧
      (Separates column rows a b (search lambda column residual hessian rows).threshold ↔
        Bisectable a b) ∧
      (Bisectable a b → ∀ mask : Mask, (∀ i : Fin n, mask.isActive i = true ↔ i ∈ rows) →
        Divides column rows a b (mask.partitionScalar (.ofFn column)
          (search lambda column residual hessian rows).threshold)) := by
  obtain ⟨a, b, hcut, hthreshold, hgain⟩ :=
    search_eq_cut (ordered_sortedRows column residual hessian rows) haccepted
  have hneighbours := neighbours_of_mem_cuts hcut
  have hseparates : Separates column rows a b (midpoint a b) ↔ Bisectable a b :=
    (separates_iff hneighbours _).trans (midpoint_between_iff hneighbours.lt)
  rw [hthreshold]
  exact ⟨a, b, hneighbours, rfl, hgain, hseparates, fun hbisectable mask hmask =>
    (hseparates.2 hbisectable).divides hneighbours hmask⟩

/-- A column with a missing value and both zeros. -/
def steps : Fin 5 → Binary64 := ![2, -0, undefined false, 1, 0]

/-- The search on all rows of this column, from the last to the first. -/
def stepsSplit : ThresholdSplit Binary64 :=
  search 1 steps ![5, 1, 3, 5, 1] (fun _ => 1) [4, 3, 2, 1, 0]

theorem search_separates_steps :
    stepsSplit.accepted = true ∧
    ∃ a b, Neighbours steps [4, 3, 2, 1, 0] a b ∧ stepsSplit.threshold = midpoint a b ∧
      stepsSplit.gain = gainUpTo 1 steps ![5, 1, 3, 5, 1] (fun _ => 1) [4, 3, 2, 1, 0] a ∧
      (Separates steps [4, 3, 2, 1, 0] a b stepsSplit.threshold ↔ Bisectable a b) ∧
      (Bisectable a b → ∀ mask : Mask,
        (∀ i : Fin 5, mask.isActive i = true ↔ i ∈ ([4, 3, 2, 1, 0] : List (Fin 5))) →
          Divides steps [4, 3, 2, 1, 0] a b
            (mask.partitionScalar (.ofFn steps) stepsSplit.threshold)) :=
  ⟨by decide +kernel, search_separates_iff 1 steps ![5, 1, 3, 5, 1] (fun _ => 1) [4, 3, 2, 1, 0]
    (by decide +kernel)⟩

/-- One and the next number. -/
def adjacent : Fin 2 → Binary64 := ![1, ⟨0x3ff0000000000001⟩]

/-- The search on the two rows of this column. -/
def adjacentSplit : ThresholdSplit Binary64 :=
  search 0 adjacent ![0, 1] (fun _ => 1) (List.finRange 2)

/-- The threshold between one and the next number is one.  The row at one is not below it, and
the left child gets no row. -/
theorem search_not_separates_adjacent :
    adjacentSplit.accepted = true ∧
    Neighbours adjacent (List.finRange 2) (adjacent 0) (adjacent 1) ∧
    ¬ Separates adjacent (List.finRange 2) (adjacent 0) (adjacent 1) adjacentSplit.threshold ∧
    ((Mask.allActive 2).partitionScalar (.ofFn adjacent) adjacentSplit.threshold).1.activeRows 2 =
      [] := by
  have hneighbours : Neighbours adjacent (List.finRange 2) (adjacent 0) (adjacent 1) :=
    ⟨⟨0, by decide, rfl⟩, ⟨1, by decide, rfl⟩, by decide +kernel, by decide +kernel⟩
  refine ⟨by decide +kernel, hneighbours, fun h => ?_, by decide +kernel⟩
  exact absurd ((separates_iff hneighbours _).1 h).1 (by decide +kernel)

end Binary64

end ThresholdSplit

end GradientForest
