import Mathlib.Algebra.Order.Field.Rat
import Mathlib.Data.Finset.Image
import Mathlib.Data.Finset.Prod
import Mathlib.Tactic.Linarith
import GradientForest.Proofs.Scalar.Sorted
import GradientForest.Proofs.Split.Rational
import GradientForest.Proofs.Split.RowOrder

/-!
# The threshold scan is an exhaustive search

The scan sorts the rows, carries prefix sums and takes the sums to the right of a
threshold from the total.  On rational numbers this finds what trying every threshold
would find.  `candidates` are the midpoints of neighbouring values of a column, and
`gainAt` sums the rows on both sides of a threshold from scratch.  The answer of the scan
is the least of the candidates with the largest gain (`search_exhaustive`).

`gaps` lists the neighbours in a sorted list, and these are the cuts that the scan stops
at.  Below a cut are the rows below its midpoint, so the scan considers the candidates in
increasing order, each with its gain (`scan_eq_consider`).  A later one wins only with a
larger gain, and that keeps the least of the best ones in the lead (`Leads.consider`).
-/

namespace GradientForest

open Scalar

/-! ## Neighbours in a sorted list -/

section Gaps

variable {κ : Type} [LinearOrder κ]

/-- The neighbours in a list of which the first is smaller. -/
def gaps : List κ → List (κ × κ)
  | a :: b :: rest => if b ≤ a then gaps (b :: rest) else (a, b) :: gaps (b :: rest)
  | _ => []

theorem mem_gaps_iff {xs : List κ} (h : xs.Pairwise (· ≤ ·)) {a b : κ} :
    (a, b) ∈ gaps xs ↔ a ∈ xs ∧ b ∈ xs ∧ a < b ∧ ∀ c ∈ xs, c ≤ a ∨ b ≤ c := by
  induction xs with
  | nil => simp [gaps]
  | cons x xs ih =>
    cases xs with
    | nil =>
      simp only [gaps, List.not_mem_nil, List.mem_singleton, false_iff]
      rintro ⟨rfl, rfl, hlt, -⟩
      exact lt_irrefl _ hlt
    | cons y rest =>
      obtain ⟨hx, hrest⟩ := List.pairwise_cons.1 h
      have hy : ∀ z ∈ y :: rest, y ≤ z := by
        intro z hz
        rcases List.mem_cons.1 hz with rfl | hz
        · exact le_refl _
        · exact (List.pairwise_cons.1 hrest).1 z hz
      rw [gaps]
      split_ifs with htie
      · -- the first value occurs again, so it adds no neighbours
        obtain rfl : x = y := le_antisymm (hx y List.mem_cons_self) htie
        rw [ih hrest]
        simp
      · rw [List.mem_cons, ih hrest, Prod.mk.injEq]
        rw [not_le] at htie
        constructor
        · rintro (⟨rfl, rfl⟩ | ⟨ha, hb, hlt, hbetween⟩)
          · refine ⟨List.mem_cons_self, List.mem_cons_of_mem _ List.mem_cons_self, htie, ?_⟩
            intro c hc
            rcases List.mem_cons.1 hc with rfl | hc
            · exact .inl (le_refl _)
            · exact .inr (hy c hc)
          · refine ⟨List.mem_cons_of_mem _ ha, List.mem_cons_of_mem _ hb, hlt, ?_⟩
            intro c hc
            rcases List.mem_cons.1 hc with rfl | hc
            · exact .inl (hx a ha)
            · exact hbetween c hc
        · rintro ⟨ha, hb, hlt, hbetween⟩
          have hb' : b ∈ y :: rest := by
            rcases List.mem_cons.1 hb with rfl | hb
            · rcases List.mem_cons.1 ha with rfl | ha
              · exact absurd hlt (lt_irrefl _)
              · exact absurd (hx a ha) (not_le.2 hlt)
            · exact hb
          rcases List.mem_cons.1 ha with rfl | ha
          · rcases hbetween y (List.mem_cons_of_mem _ List.mem_cons_self) with hle | hle
            · exact absurd hle (not_le.2 htie)
            · exact .inl ⟨rfl, le_antisymm hle (hy b hb')⟩
          · exact .inr ⟨ha, hb', hlt, fun c hc => hbetween c (List.mem_cons_of_mem _ hc)⟩

theorem pairwise_gaps {xs : List κ} (h : xs.Pairwise (· ≤ ·)) :
    (gaps xs).Pairwise fun g g' => g.2 ≤ g'.1 := by
  induction xs with
  | nil => exact .nil
  | cons x xs ih =>
    cases xs with
    | nil => exact .nil
    | cons y rest =>
      have hrest := h.of_cons
      rw [gaps]
      split_ifs with htie
      · exact ih hrest
      · refine List.pairwise_cons.2 ⟨fun g hg => ?_, ih hrest⟩
        obtain ⟨hfirst, -⟩ := (mem_gaps_iff hrest).1 hg
        rcases List.mem_cons.1 hfirst with heq | hfirst
        · exact le_of_eq heq.symm
        · exact (List.pairwise_cons.1 hrest).1 _ hfirst

end Gaps

/-- A rational sample as an exact one. -/
def Sample.exact (x : Sample ℚ) : Sample Exact :=
  ⟨.rational x.value, .rational x.residual, .rational x.hessian⟩

namespace ThresholdSplit

/-! ## Trying every threshold -/

section Specification

variable {ι : Type} (lambda : ℚ) (value : ι → Option ℚ) (residual hessian : ι → ℚ)
variable (rows : List ι)

/-- The different values of a column on some rows. -/
def valuesOn : Finset ℚ := (rows.filterMap value).toFinset

/-- The midpoints of neighbouring values. -/
def candidates : Finset ℚ :=
  ((valuesOn value rows ×ˢ valuesOn value rows).filter fun (a, b) =>
    a < b ∧ ∀ c ∈ valuesOn value rows, c ≤ a ∨ b ≤ c).image fun (a, b) => (a + b) / 2

/-- The rows whose value has a property. -/
def rowsWhere (P : ℚ → Bool) : List ι := rows.filter fun i => (value i).any P

/-- The score of the rows whose value has a property. -/
def scoreWhere (P : ℚ → Bool) : ℚ :=
  (GradientSum.rationalSum residual hessian (rowsWhere value rows P)).rationalScore lambda

/-- What it gains to part the rows below a threshold from the others that have a value. -/
def gainAt (threshold : ℚ) : ℚ :=
  scoreWhere lambda value residual hessian rows (fun v => v < threshold) +
    scoreWhere lambda value residual hessian rows (fun v => threshold ≤ v) -
    scoreWhere lambda value residual hessian rows fun _ => true

/-- The rows with a value, as samples. -/
def rationalSamples : List (Sample ℚ) :=
  rows.filterMap fun i => (value i).map fun v => ⟨v, residual i, hessian i⟩

variable {lambda value residual hessian rows}

theorem mem_candidates_iff {t : ℚ} :
    t ∈ candidates value rows ↔ ∃ a b, (a ∈ valuesOn value rows ∧ b ∈ valuesOn value rows ∧ a < b ∧
      ∀ c ∈ valuesOn value rows, c ≤ a ∨ b ≤ c) ∧ (a + b) / 2 = t := by
  simp only [candidates, Finset.mem_image, Finset.mem_filter, Finset.mem_product, Prod.exists,
    and_assoc]

theorem map_value_rationalSamples :
    (rationalSamples value residual hessian rows).map Sample.value = rows.filterMap value := by
  rw [rationalSamples, List.map_filterMap]
  refine List.filterMap_congr fun i _ => ?_
  rw [Option.map_map]
  exact Option.map_id'

/-- Samples with a property are summed as the rows are whose value has it. -/
theorem rationalSum_filter_samples (P : ℚ → Bool) :
    GradientSum.rationalSum Sample.residual Sample.hessian
        ((rationalSamples value residual hessian rows).filter fun x => P x.value) =
      GradientSum.rationalSum residual hessian (rowsWhere value rows P) := by
  induction rows with
  | nil => rfl
  | cons i rows ih =>
    simp only [GradientSum.rationalSum, rationalSamples, rowsWhere, GradientSum.mk.injEq] at ih ⊢
    cases hv : value i with
    | none => simpa [hv] using ih
    | some v => cases hP : P v <;> simpa [hv, hP] using ih

/-- The rows on the two sides of a threshold are all the rows with a value. -/
theorem sum_rowsWhere (f : ι → ℚ) (threshold : ℚ) :
    ((rowsWhere value rows fun _ => true).map f).sum -
        ((rowsWhere value rows fun v => v < threshold).map f).sum =
      ((rowsWhere value rows fun v => threshold ≤ v).map f).sum := by
  induction rows with
  | nil => simp [rowsWhere]
  | cons i rows ih =>
    simp only [rowsWhere] at ih ⊢
    cases hv : value i with
    | none => simpa [hv] using ih
    | some v =>
      by_cases hlt : v < threshold
      · simp only [List.filter_cons, hv, Option.any_some, hlt, not_le.2 hlt, decide_true,
          decide_false, if_true, Bool.false_eq_true, if_false, List.map_cons, List.sum_cons]
        linarith
      · simp only [List.filter_cons, hv, Option.any_some, hlt, not_lt.1 hlt, decide_true,
          decide_false, if_true, Bool.false_eq_true, if_false, List.map_cons, List.sum_cons]
        linarith

end Specification

/-! ## The candidates in order -/

section Leads

variable [Exact.Functions] {gain : ℚ → ℚ} {thresholds : List ℚ} {leader : Leader Exact}

/-- The leader after some thresholds is the first of those with the largest gain. -/
def Leads (gain : ℚ → ℚ) (thresholds : List ℚ) (leader : Leader Exact) : Prop :=
  thresholds = [] ∧ leader = .start ∨ ∃ t ∈ thresholds,
    leader = ⟨.rational (gain t), decide (0 < gain t), .rational t, .rational (gain t)⟩ ∧
      ∀ u ∈ thresholds, gain u ≤ gain t ∧ (gain u = gain t → t ≤ u)

/-- A larger threshold takes the lead with a larger gain only. -/
theorem Leads.consider (h : Leads gain thresholds leader) {next : ℚ}
    (hnext : ∀ t ∈ thresholds, t < next) :
    Leads gain (thresholds ++ [next])
      (leader.consider (.rational (gain next)) (.rational next)) := by
  right
  rcases h with ⟨rfl, rfl⟩ | ⟨t, ht, rfl, hbest⟩
  · exact ⟨next, List.mem_singleton_self next, rfl, by simp⟩
  · simp only [Leader.consider, Exact.lt_rational, Exact.zero_eq, decide_eq_true_eq]
    split_ifs with hlt
    · refine ⟨next, by simp, rfl, fun u hu => ?_⟩
      rcases List.mem_append.1 hu with hu | hu
      · have hless := lt_of_le_of_lt (hbest u hu).1 hlt
        exact ⟨hless.le, fun heq => absurd heq (ne_of_lt hless)⟩
      · rw [List.mem_singleton.1 hu]
        exact ⟨le_refl _, fun _ => le_refl _⟩
    · refine ⟨t, List.mem_append_left _ ht, rfl, fun u hu => ?_⟩
      rcases List.mem_append.1 hu with hu | hu
      · exact hbest u hu
      · rw [List.mem_singleton.1 hu]
        exact ⟨not_lt.1 hlt, fun _ => (hnext t ht).le⟩

theorem leads_foldl (gain : ℚ → ℚ) (h : thresholds.Pairwise (· < ·)) :
    Leads gain thresholds
      (thresholds.foldl (fun l t => l.consider (.rational (gain t)) (.rational t)) .start) := by
  induction thresholds using List.reverseRecOn with
  | nil => exact .inl ⟨rfl, rfl⟩
  | append_singleton thresholds next ih =>
    obtain ⟨hbefore, -, hlast⟩ := List.pairwise_append.1 h
    rw [List.foldl_append]
    exact (ih hbefore).consider fun t ht => hlast t ht next (List.mem_singleton_self next)

end Leads

/-! ## The scan -/

section Scan

variable [Exact.Functions] {ι : Type} (lambda : ℚ) (value : ι → Option ℚ)
variable (residual hessian : ι → ℚ) (rows : List ι)

/-- The rational samples in the order of their values. -/
def sortedSamples : List (Sample ℚ) :=
  Sorting.sort (fun a b => lt (Exact.rational a.value) (.rational b.value))
    (rationalSamples value residual hessian rows)

theorem samples_exact :
    samples (fun i => .ofOption (value i)) (fun i => .rational (residual i))
        (fun i => .rational (hessian i)) rows =
      (rationalSamples value residual hessian rows).map Sample.exact := by
  induction rows with
  | nil => rfl
  | cons i rows ih =>
    rw [samples, rationalSamples] at ih ⊢
    cases hv : value i with
    | none =>
      have hmissing : isNaN (Exact.ofOption (value i)) = true := by
        rw [hv]
        rfl
      rw [List.filter_cons_of_neg (by simp [hmissing]), List.filterMap_cons_none (by rw [hv]; rfl),
        ih]
    | some v =>
      have hpresent : isNaN (Exact.ofOption (value i)) = false := by
        rw [hv]
        exact Exact.isNaN_rational v
      rw [List.filter_cons_of_pos (by simp [hpresent]), List.map_cons, ih,
        List.filterMap_cons_some (by rw [hv]; rfl), List.map_cons, hv]
      rfl

theorem sortedSamples_perm : (sortedSamples value residual hessian rows).Perm
    (rationalSamples value residual hessian rows) := Sorting.sort_perm _ _

theorem pairwise_sortedSamples :
    (sortedSamples value residual hessian rows).Pairwise fun a b => a.value ≤ b.value :=
  Sorting.pairwise_sort fun a _ b _ => by rw [Exact.lt_rational, decide_eq_true_eq]

theorem mem_sortedSamples_value {v : ℚ} :
    v ∈ (sortedSamples value residual hessian rows).map Sample.value ↔ v ∈ valuesOn value rows := by
  rw [((sortedSamples_perm value residual hessian rows).map _).mem_iff, map_value_rationalSamples,
    valuesOn, List.mem_toFinset]

/-- The sums of the sorted samples with a property. -/
theorem rationalSum_sortedSamples (P : ℚ → Bool) :
    GradientSum.rationalSum Sample.residual Sample.hessian
        ((sortedSamples value residual hessian rows).filter fun x => P x.value) =
      GradientSum.rationalSum residual hessian (rowsWhere value rows P) := by
  rw [← rationalSum_filter_samples]
  exact GradientSum.rationalSum_perm ((sortedSamples_perm value residual hessian rows).filter _) _ _

/-- The cuts of rational values are their gaps. -/
theorem cuts_rational (values : List ℚ) :
    cuts (values.map Exact.rational) =
      (gaps values).map fun g => (Exact.rational g.1, Exact.rational g.2) := by
  induction values with
  | nil => rfl
  | cons a values ih =>
    cases values with
    | nil => rfl
    | cons b rest =>
      rw [List.map_cons] at ih
      rw [List.map_cons, List.map_cons, cuts, gaps, ih]
      simp only [Exact.le_rational, decide_eq_true_eq]
      split_ifs <;> rfl

variable {value rows} in
/-- Below a cut are the rows below its midpoint. -/
theorem sumUpTo_gap {a b : ℚ}
    (h : (a, b) ∈ gaps ((sortedSamples value residual hessian rows).map Sample.value)) :
    sumUpTo .zero ((sortedSamples value residual hessian rows).map Sample.exact) (.rational a) =
      (GradientSum.rationalSum residual hessian
        (rowsWhere value rows fun v => v < (a + b) / 2)).exact := by
  obtain ⟨-, -, hlt, hbetween⟩ := (mem_gaps_iff
    (List.pairwise_map.2 (pairwise_sortedSamples value residual hessian rows))).1 h
  have hbelow : ∀ x ∈ sortedSamples value residual hessian rows,
      le x.exact.value (.rational a) = decide (x.value < (a + b) / 2) := by
    intro x hx
    rw [Sample.exact, Exact.le_rational, decide_eq_decide]
    rcases hbetween x.value (List.mem_map_of_mem hx) with hle | hle
    · exact iff_of_true hle (by linarith)
    · exact iff_of_false (by linarith) (by linarith)
  rw [sumUpTo, List.filter_map, List.foldl_map, ← rationalSum_sortedSamples,
    List.filter_congr (p := (fun x => le x.value (.rational a)) ∘ Sample.exact) hbelow,
    GradientSum.zero_eq_exact]
  exact (GradientSum.foldl_add_exact Sample.residual Sample.hessian _ _).trans (by
    rw [zero_add, zero_add, GradientSum.rationalSum])

/-- All the samples together. -/
theorem ofRows_sortedSamples :
    GradientSum.ofRows Sample.residual Sample.hessian
        ((sortedSamples value residual hessian rows).map Sample.exact) =
      (GradientSum.rationalSum residual hessian (rowsWhere value rows fun _ => true)).exact := by
  rw [← rationalSum_sortedSamples, List.filter_true, ← GradientSum.ofRows_exact, GradientSum.ofRows,
    GradientSum.ofRows, List.foldl_map]
  rfl

variable {value rows} in
/-- A cut is considered at its midpoint and with what the midpoint gains. -/
theorem considerCut_gap {a b : ℚ}
    (h : (a, b) ∈ gaps ((sortedSamples value residual hessian rows).map Sample.value))
    (leader : Leader Exact) :
    considerCut (.rational lambda)
        (GradientSum.rationalSum residual hessian (rowsWhere value rows fun _ => true)).exact .zero
        ((sortedSamples value residual hessian rows).map Sample.exact) leader
        (.rational a, .rational b) =
      leader.consider (.rational (gainAt lambda value residual hessian rows ((a + b) / 2)))
        (.rational ((a + b) / 2)) := by
  have hright : GradientSum.rationalSum residual hessian
      (rowsWhere value rows fun v => (a + b) / 2 ≤ v) =
        ⟨_, _⟩ := congrArg₂ GradientSum.mk (sum_rowsWhere residual ((a + b) / 2)).symm
          (sum_rowsWhere hessian ((a + b) / 2)).symm
  rw [considerCut, sumUpTo_gap residual hessian h, GradientSum.minus_exact,
    GradientSum.gain_exact, Exact.midpoint_rational, gainAt, scoreWhere, scoreWhere, scoreWhere,
    hright, show a + (b - a) / 2 = (a + b) / 2 by ring]
  rfl

/-- The scan considers the candidates from the least to the greatest. -/
theorem search_eq_consider :
    ∃ thresholds : List ℚ, thresholds.Pairwise (· < ·) ∧
      (∀ t, t ∈ thresholds ↔ t ∈ candidates value rows) ∧
      search (Exact.rational lambda) (fun i => .ofOption (value i))
          (fun i => .rational (residual i)) (fun i => .rational (hessian i)) rows =
        (thresholds.foldl (fun l t => l.consider
          (.rational (gainAt lambda value residual hessian rows t)) (.rational t))
          Leader.start).best := by
  let sorted := sortedSamples value residual hessian rows
  have hsorted : (sorted.map Sample.value).Pairwise (· ≤ ·) :=
    List.pairwise_map.2 (pairwise_sortedSamples value residual hessian rows)
  refine ⟨(gaps (sorted.map Sample.value)).map fun g => (g.1 + g.2) / 2, ?_, fun t => ?_, ?_⟩
  · refine List.pairwise_map.2 ((pairwise_gaps hsorted).imp_of_mem fun {g g'} hg hg' hle => ?_)
    have hlt := ((mem_gaps_iff hsorted).1 hg).2.2.1
    have hlt' := ((mem_gaps_iff hsorted).1 hg').2.2.1
    linarith
  · rw [mem_candidates_iff]
    simp only [List.mem_map, Prod.exists, mem_gaps_iff hsorted, ← mem_sortedSamples_value value
      residual hessian rows]
    rfl
  · let total :=
      (GradientSum.rationalSum residual hessian (rowsWhere value rows fun _ => true)).exact
    have hexact : Sorting.sort (fun a b => lt a.value b.value)
        ((rationalSamples value residual hessian rows).map Sample.exact) =
          sorted.map Sample.exact := Sorting.sort_map Sample.exact _ _
    have hordered := ordered_sort (fun i => .ofOption (value i)) (fun i => .rational (residual i))
      (fun i => .rational (hessian i)) rows
    rw [samples_exact, hexact] at hordered
    have hscan : scan (.rational lambda) total .zero .start (sorted.map Sample.exact) =
        ((gaps (sorted.map Sample.value)).map fun g => (g.1 + g.2) / 2).foldl (fun l t =>
          l.consider (.rational (gainAt lambda value residual hessian rows t)) (.rational t))
          .start := by
      rw [scan_eq _ _ _ _ hordered, List.map_map,
        show Sample.value ∘ Sample.exact = Exact.rational ∘ Sample.value from rfl, ← List.map_map,
        cuts_rational, List.foldl_map, List.foldl_map]
      exact List.foldl_ext _ _ _ fun leader g hg =>
        considerCut_gap lambda residual hessian hg leader
    rw [← hscan, search_eq_scan, samples_exact, hexact, ofRows_sortedSamples]

end Scan

/-- On rational values the search finds what trying every candidate finds: the least of those
with the largest gain, accepted when it gains something.  Without candidates it finds
nothing. -/
theorem search_exhaustive [Exact.Functions] {ι : Type} (lambda : ℚ) (value : ι → Option ℚ)
    (residual hessian : ι → ℚ) (rows : List ι) :
    (candidates value rows = ∅ →
      search (Exact.rational lambda) (fun i => .ofOption (value i))
        (fun i => .rational (residual i)) (fun i => .rational (hessian i)) rows =
          ⟨false, .undefined, .rational 0⟩) ∧
    ((candidates value rows).Nonempty → ∃ t ∈ candidates value rows,
      search (Exact.rational lambda) (fun i => .ofOption (value i))
        (fun i => .rational (residual i)) (fun i => .rational (hessian i)) rows =
          ⟨decide (0 < gainAt lambda value residual hessian rows t), .rational t,
            .rational (gainAt lambda value residual hessian rows t)⟩ ∧
        ∀ u ∈ candidates value rows,
          gainAt lambda value residual hessian rows u ≤
              gainAt lambda value residual hessian rows t ∧
            (gainAt lambda value residual hessian rows u =
              gainAt lambda value residual hessian rows t → t ≤ u)) := by
  obtain ⟨thresholds, hincrease, hmem, hsearch⟩ :=
    search_eq_consider lambda value residual hessian rows
  rw [hsearch]
  rcases leads_foldl (gainAt lambda value residual hessian rows) hincrease with
    ⟨hnil, hstart⟩ | ⟨t, ht, hleader, hbest⟩
  · have hnone : ∀ t, t ∉ candidates value rows := by
      intro t ht
      rw [← hmem, hnil] at ht
      cases ht
    refine ⟨fun _ => ?_, fun ⟨t, ht⟩ => absurd ht (hnone t)⟩
    rw [hstart]
    rfl
  · have hcandidate := (hmem t).1 ht
    refine ⟨fun hempty => ?_, fun _ => ⟨t, hcandidate, ?_, fun u hu => hbest u ((hmem u).2 hu)⟩⟩
    · rw [hempty] at hcandidate
      cases hcandidate
    · rw [hleader]

open scoped Exact

/-- Both candidates gain the same, and the smaller one is the threshold. -/
example :
    (search (Exact.rational 0) (fun i => ([1, 2, 3].map Exact.rational).getD i .undefined)
      (fun i => ([1, 0, -1].map Exact.rational).getD i .undefined) (fun _ => .rational 1)
      [2, 0, 1]).threshold = .rational (3 / 2) := by
  decide +kernel

end ThresholdSplit

end GradientForest
