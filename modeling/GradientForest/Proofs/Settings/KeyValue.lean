import Mathlib.Data.List.Basic
import GradientForest.Proofs.Decimal.PlainNumber
import GradientForest.Proofs.Outcome
import GradientForest.Proofs.Settings.Allowed
import GradientForest.Proofs.Settings.Texts

/-!
# Keys and values in any order

Pairs of keys and values come in some order, and each changes the settings that the pairs
before it made.  When every setting is named once, the result is described without that
order: it is what the values make of the default settings
(`Settings.foldlM_setPair_eq_ok_iff`).  So another order gives the same settings or fails
too, and pairs whose key names nothing might as well be missing (`Settings.ofPairs_perm`).

Writing settings as pairs and reading these gives the settings back up to the verbosity,
which has no key (`Settings.ofPairs_toPairs`).
-/

namespace GradientForest.Settings

open scoped Scalar

/-! ## Names -/

/-- The names of a setting, the one that is written first. -/
def Key.names : Key → List String
  | .task => ["mode", "objective"]
  | .numTrees => ["num_trees", "num_iterations"]
  | .learningRate => ["learning_rate"]
  | .maxDepth => ["max_depth"]
  | .lambda => ["lambda", "lambda_l2"]
  | .numThreads => ["num_threads"]

theorem Key.ofName?_eq_some_iff {name : String} {k : Key} :
    Key.ofName? name = some k ↔ name ∈ k.names := by
  constructor
  · intro h
    rw [Key.ofName?] at h
    split_ifs at h with htask htrees hrate hdepth hlambda hthreads
    all_goals
      cases h
      simp [Key.names, *]
  · intro h
    have hnames : ∀ name ∈ k.names, Key.ofName? name = some k := by
      cases k <;> decide
    exact hnames name h

/-- No setting is named twice, by two of its names. -/
def NamedOnce (names : List String) : Prop :=
  ∀ k : Key, ∀ a ∈ k.names, ∀ b ∈ k.names, a ∈ names → b ∈ names → a = b

/-- The texts that pairs of keys and values give for the settings. -/
def Gives (pairs : List (String × String)) (k : Key) (text : String) : Prop :=
  ∃ name ∈ k.names, (name, text) ∈ pairs

variable {base s t : Settings Binary64} {pairs pairs' : List (String × String)}
  {pair : String × String} {k : Key}

theorem gives_nil {text : String} : ¬ Gives [] k text := by
  rintro ⟨_, -, h⟩
  cases h

theorem gives_cons_of_some (h : Key.ofName? pair.1 = some k) :
    Gives (pair :: pairs) = withText k pair.2 (Gives pairs) := by
  funext k' text
  refine propext ⟨?_, ?_⟩
  · rintro ⟨name, hname, hpair⟩
    rcases List.mem_cons.1 hpair with rfl | hpair
    · have hk : some k' = some k := (Key.ofName?_eq_some_iff.2 hname).symm.trans h
      exact .inl ⟨Option.some.inj hk, rfl⟩
    · exact .inr ⟨name, hname, hpair⟩
  · rintro (⟨rfl, rfl⟩ | ⟨name, hname, hpair⟩)
    · exact ⟨pair.1, Key.ofName?_eq_some_iff.1 h, List.mem_cons_self⟩
    · exact ⟨name, hname, List.mem_cons_of_mem _ hpair⟩

theorem gives_cons_of_none (h : Key.ofName? pair.1 = none) :
    Gives (pair :: pairs) = Gives pairs := by
  funext k' text
  refine propext ⟨?_, ?_⟩
  · rintro ⟨name, hname, hpair⟩
    rcases List.mem_cons.1 hpair with rfl | hpair
    · cases h.symm.trans (Key.ofName?_eq_some_iff.2 hname)
    · exact ⟨name, hname, hpair⟩
  · rintro ⟨name, hname, hpair⟩
    exact ⟨name, hname, List.mem_cons_of_mem _ hpair⟩

/-- The texts do not depend on the order of the pairs. -/
theorem gives_perm (h : pairs.Perm pairs') : Gives pairs = Gives pairs' := by
  funext k text
  simp only [Gives, h.mem_iff]

/-! ## Pairs in a row -/

/-- Two pairs do not name the same setting. -/
def Apart (p q : String × String) : Prop :=
  ∀ k, Key.ofName? p.1 = some k → Key.ofName? q.1 ≠ some k

theorem Apart.symm {p q : String × String} (h : Apart p q) : Apart q p :=
  fun k hq hp => h k hp hq

theorem pairwise_apart (hkeys : (pairs.map Prod.fst).Nodup)
    (honce : NamedOnce (pairs.map Prod.fst)) : pairs.Pairwise Apart := by
  refine (List.pairwise_map.1 hkeys).imp_of_mem ?_
  intro p q hp hq hne k hpk hqk
  rw [Key.ofName?_eq_some_iff] at hpk hqk
  exact hne (honce k p.1 hpk q.1 hqk (List.mem_map_of_mem hp) (List.mem_map_of_mem hq))

theorem not_gives_of_apart (h : Key.ofName? pair.1 = some k)
    (hapart : ∀ q ∈ pairs, Apart pair q) (text : String) : ¬ Gives pairs k text := by
  rintro ⟨name, hname, hpair⟩
  exact hapart _ hpair k h (Key.ofName?_eq_some_iff.2 hname)

/-- Pairs that name different settings make of given settings what their texts make of
them. -/
theorem foldlM_setPair_eq_ok_iff (hapart : pairs.Pairwise Apart) :
    pairs.foldlM setPair base = .ok s ↔ Applied (Gives pairs) base s := by
  induction pairs generalizing base with
  | nil =>
    rw [applied_iff_eq fun _ _ => gives_nil]
    exact pure_eq_ok_iff.trans eq_comm
  | cons pair pairs ih =>
    obtain ⟨hpair, hpairs⟩ := List.pairwise_cons.1 hapart
    rw [List.foldlM_cons, setPair]
    cases hname : Key.ofName? pair.1 with
    | none =>
      rw [gives_cons_of_none hname]
      exact ih hpairs
    | some k =>
      rw [gives_cons_of_some hname]
      cases hread : k.read? pair.2 with
      | none =>
        dsimp only
        rw [set_of_read?_eq_none hread]
        exact iff_of_false (by intro h; cases h) (not_applied_withText hread)
      | some x =>
        dsimp only
        rw [set_of_read?_eq_some hread, ok_bind, ih hpairs]
        exact applied_put_iff hread (not_gives_of_apart hname hpair)

/-- Pairs can be applied when the text of every known key can be read. -/
theorem exists_foldlM_setPair (base : Settings Binary64)
    (h : ∀ k text, Gives pairs k text → (k.read? text).isSome = true) :
    ∃ s, pairs.foldlM setPair base = .ok s := by
  induction pairs generalizing base with
  | nil => exact ⟨base, rfl⟩
  | cons pair pairs ih =>
    rw [List.foldlM_cons, setPair]
    cases hname : Key.ofName? pair.1 with
    | none =>
      rw [gives_cons_of_none hname] at h
      exact ih base h
    | some k =>
      rw [gives_cons_of_some hname] at h
      obtain ⟨x, hread⟩ := Option.isSome_iff_exists.1 (h k pair.2 (.inl ⟨rfl, rfl⟩))
      dsimp only
      rw [set_of_read?_eq_some hread, ok_bind]
      exact ih (base.put k x) fun k' text hgives => h k' text (.inr hgives)

/-- Pairs whose key names no setting change nothing. -/
theorem foldlM_setPair_filter (base : Settings Binary64) (pairs : List (String × String)) :
    (pairs.filter fun p => (Key.ofName? p.1).isSome).foldlM setPair base =
      pairs.foldlM setPair base := by
  induction pairs generalizing base with
  | nil => rfl
  | cons pair pairs ih =>
    rw [List.foldlM_cons, setPair]
    cases hname : Key.ofName? pair.1 with
    | none =>
      rw [List.filter_cons_of_neg (by simp [hname])]
      exact ih base
    | some k =>
      rw [List.filter_cons_of_pos (by simp [hname]), List.foldlM_cons, setPair, hname]
      dsimp only
      cases base.set k pair.1 pair.2 with
      | error e => rfl
      | ok t => exact ih t

/-! ## Settings from pairs -/

theorem build_eq_ok_iff : s.build = .ok t ↔ s.validate = .ok () ∧ s = t := by
  rw [build, bind_eq_ok_iff]
  constructor
  · rintro ⟨⟨⟩, hs, h⟩
    exact ⟨hs, pure_eq_ok_iff.1 h⟩
  · rintro ⟨hs, rfl⟩
    exact ⟨(), hs, rfl⟩

theorem ofPairs_eq_ok_iff (hapart : pairs.Pairwise Apart) :
    ofPairs pairs = .ok s ↔ Applied (Gives pairs) default s ∧ s.validate = .ok () := by
  rw [ofPairs, bind_eq_ok_iff]
  constructor
  · rintro ⟨t, ht, hbuild⟩
    obtain ⟨hvalid, rfl⟩ := build_eq_ok_iff.1 hbuild
    exact ⟨(foldlM_setPair_eq_ok_iff hapart).1 ht, hvalid⟩
  · rintro ⟨happlied, hvalid⟩
    exact ⟨s, (foldlM_setPair_eq_ok_iff hapart).2 happlied, build_eq_ok_iff.2 ⟨hvalid, rfl⟩⟩

theorem existsUnique_applied_iff (hapart : pairs.Pairwise Apart) :
    (∃! s, Applied (Gives pairs) base s) ↔
      ∀ k text, Gives pairs k text → (k.read? text).isSome = true := by
  constructor
  · rintro ⟨s, hs, -⟩ k text hgives
    rw [hs.read k text hgives]
    rfl
  · intro h
    obtain ⟨s, hs⟩ := exists_foldlM_setPair base h
    have happlied := (foldlM_setPair_eq_ok_iff hapart).1 hs
    exact ⟨s, happlied, fun t ht => ht.unique happlied⟩

/-- Pairs that name no setting twice give the same settings in every order, or fail in every
order.  They give settings exactly when every text can be read and the result is allowed,
whatever else stands among them. -/
theorem ofPairs_perm (hkeys : (pairs.map Prod.fst).Nodup)
    (honce : NamedOnce (pairs.map Prod.fst)) (hperm : pairs.Perm pairs') :
    ((∃ s, ofPairs pairs = .ok s ∧ ofPairs pairs' = .ok s ∧ s.validate = .ok ()) ∨
      ∃ e e', ofPairs pairs = .error e ∧ ofPairs pairs' = .error e') ∧
    (∀ s, ofPairs pairs = .ok s ↔ Applied (Gives pairs) default s ∧ s.validate = .ok ()) ∧
    ((∃! s, Applied (Gives pairs) default s) ↔
      ∀ k text, Gives pairs k text → (k.read? text).isSome = true) ∧
    ofPairs (pairs.filter fun p => (Key.ofName? p.1).isSome) = ofPairs pairs := by
  have hapart := pairwise_apart hkeys honce
  have hapart' : pairs'.Pairwise Apart := (hperm.pairwise_iff Apart.symm).1 hapart
  have hsame (s : Settings Binary64) : ofPairs pairs' = .ok s ↔ ofPairs pairs = .ok s := by
    rw [ofPairs_eq_ok_iff hapart, ofPairs_eq_ok_iff hapart', gives_perm hperm]
  refine ⟨?_, fun s => ofPairs_eq_ok_iff hapart, existsUnique_applied_iff hapart, ?_⟩
  · cases hpairs : ofPairs pairs with
    | ok s => exact .inl ⟨s, rfl, (hsame s).2 hpairs, ((ofPairs_eq_ok_iff hapart).1 hpairs).2⟩
    | error e =>
      cases hpairs' : ofPairs pairs' with
      | ok s => cases hpairs.symm.trans ((hsame s).1 hpairs')
      | error e' => exact .inr ⟨e, e', rfl, rfl⟩
  · rw [ofPairs, ofPairs, foldlM_setPair_filter]

/-- Pairs with second names, an unknown key and a word in capitals. -/
def loosePairs : List (String × String) :=
  [("objective", "BINARY"), ("num_iterations", "+12"), ("colour", "red"), ("lambda_l2", "0")]

theorem ofPairs_perm_loosePairs :
    (loosePairs.map Prod.fst).Nodup ∧ NamedOnce (loosePairs.map Prod.fst) ∧
    ((∃ s, ofPairs loosePairs = .ok s ∧ ofPairs loosePairs.reverse = .ok s ∧
        s.validate = .ok ()) ∨
      ∃ e e', ofPairs loosePairs = .error e ∧ ofPairs loosePairs.reverse = .error e') ∧
    ofPairs loosePairs = .ok ⟨.classification, 12, 3 / 10, 6, 0, 0, .info⟩ := by
  have hkeys : (loosePairs.map Prod.fst).Nodup := by decide
  have honce : NamedOnce (loosePairs.map Prod.fst) := by
    intro k
    cases k <;> decide
  obtain ⟨hsame, -, -, -⟩ := ofPairs_perm hkeys honce (List.reverse_perm loosePairs).symm
  refine ⟨hkeys, honce, hsame, by decide +kernel⟩

/-! ## Pairs from settings -/

theorem gives_toPairs_iff {text : String} : Gives s.toPairs k text ↔ text = s.get k := by
  constructor
  · rintro ⟨name, hname, hpair⟩
    obtain ⟨k', -, hk'⟩ := List.mem_map.1 hpair
    obtain ⟨rfl, rfl⟩ := Prod.mk.inj hk'
    have hsame : some k' = some k :=
      (Key.ofName?_name k').symm.trans (Key.ofName?_eq_some_iff.2 hname)
    rw [Option.some.inj hsame]
  · rintro rfl
    have hk : k ∈ Key.all := by cases k <;> decide
    exact ⟨k.name, Key.ofName?_eq_some_iff.1 (Key.ofName?_name k), List.mem_map_of_mem hk⟩

theorem pairwise_apart_toPairs (s : Settings Binary64) : s.toPairs.Pairwise Apart := by
  have hall : Key.all.Nodup := by decide
  refine List.pairwise_map.2 (hall.imp ?_)
  intro k k' hne k'' hk hk'
  rw [Key.ofName?_name] at hk hk'
  exact hne (Option.some.inj (hk.trans hk'.symm))

theorem parse_name (t : Task) : Task.parse t.name = .ok t := by
  cases t <;> rfl

theorem isUndefined_of_isFinite {x : Binary64} (h : x.isFinite = true) : x.isUndefined = false := by
  rw [Binary64.isFinite, decide_eq_true_eq] at h
  exact decide_eq_false (Nat.lt_asymm h)

/-- The text of a setting is read as its value. -/
theorem read?_get (hs : s.Allowed) (k : Key) : k.read? (s.get k) = some (s.valueAt k) := by
  cases k with
  | task =>
    change (Task.parse s.task.name).toOption = some s.task
    rw [parse_name]
    rfl
  | numTrees => exact Literal.count?_toString s.numTrees
  | maxDepth => exact Literal.count?_toString s.maxDepth
  | numThreads => exact Literal.count?_toString s.numThreads
  | learningRate => exact Literal.number?_render (isUndefined_of_isFinite hs.isFinite_learningRate)
  | lambda => exact Literal.number?_render (isUndefined_of_isFinite hs.isFinite_lambda)

/-- The pairs of settings give back all but the verbosity. -/
theorem ofPairs_of_perm_toPairs (hs : s.validate = .ok ()) (hperm : pairs.Perm s.toPairs) :
    ofPairs pairs = .ok { s with verbosity := (default : Settings Binary64).verbosity } := by
  have hapart : pairs.Pairwise Apart :=
    (hperm.pairwise_iff Apart.symm).2 (pairwise_apart_toPairs s)
  rw [ofPairs_eq_ok_iff hapart, validate_withVerbosity, gives_perm hperm]
  refine ⟨⟨rfl, fun k text h => ?_, fun k h => ?_⟩, hs⟩
  · rw [gives_toPairs_iff.1 h, read?_get (validate_eq_ok_iff.1 hs) k]
    cases k <;> rfl
  · exact absurd (gives_toPairs_iff.2 rfl) (h (s.get k))

/-- Settings that are written as pairs are read from these in any order, but with the usual
verbosity.  So exactly the settings with this verbosity are given back. -/
theorem ofPairs_toPairs (hs : s.validate = .ok ()) (hperm : pairs.Perm s.toPairs) :
    ofPairs pairs = .ok { s with verbosity := .info } ∧
    (ofPairs pairs = .ok s ↔ s.verbosity = .info) := by
  have hread : ofPairs pairs = .ok { s with verbosity := .info } := ofPairs_of_perm_toPairs hs hperm
  refine ⟨hread, ?_⟩
  rw [hread]
  constructor
  · intro h
    rw [← Except.ok.inj h]
  · intro h
    rw [← h]

/-- Settings with a learning rate that has no short decimal, minus zero and the largest
count. -/
def tunedSettings : Settings Binary64 :=
  ⟨.classification, 7, 1 / 3, 51, -0, 18446744073709551615, .info⟩

theorem ofPairs_toPairs_tunedSettings :
    tunedSettings.validate = .ok () ∧ tunedSettings.toPairs.reverse.Perm tunedSettings.toPairs ∧
    ofPairs tunedSettings.toPairs.reverse = .ok tunedSettings := by
  have hvalid : tunedSettings.validate = .ok () := by decide +kernel
  have hperm := List.reverse_perm tunedSettings.toPairs
  exact ⟨hvalid, hperm, (ofPairs_toPairs hvalid hperm).2.2 rfl⟩

/-- The usual settings, with everything logged. -/
def verboseSettings : Settings Binary64 := { default with verbosity := .debug }

/-- What is logged gets lost. -/
theorem ofPairs_toPairs_verboseSettings :
    verboseSettings.validate = .ok () ∧ ofPairs verboseSettings.toPairs = .ok default ∧
    ofPairs verboseSettings.toPairs ≠ .ok verboseSettings := by
  have hvalid : verboseSettings.validate = .ok () := by decide +kernel
  have hread : ofPairs verboseSettings.toPairs = .ok default :=
    ofPairs_of_perm_toPairs hvalid (.refl _)
  refine ⟨hvalid, hread, ?_⟩
  rw [hread]
  intro h
  cases congrArg Settings.verbosity (Except.ok.inj h)

end GradientForest.Settings
