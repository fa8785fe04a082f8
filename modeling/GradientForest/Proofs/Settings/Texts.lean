import GradientForest.Settings.KeyValue

/-!
# Settings read from texts

`Settings.valueAt` is the value of a setting that can be given as a text, `Key.read?` reads
such a text, and `Settings.put` changes the value.  So setting one of the settings from a
text either puts the value that is read, or fails with the fault of this setting and text
(`Settings.set_eq`).

`Settings.Applied` says what texts for some of the settings make of given settings: every
setting with a text has the value that is read from it, and the others are kept.  It speaks
of no order, there is at most one such result (`Applied.unique`), and a text for a further
setting can be put before the others (`applied_put_iff`).  Whoever applies texts one after
another is described by it, by induction on the texts.
-/

namespace GradientForest.Settings

/-! ## One setting -/

/-- The values of a setting. -/
def Key.Value : Key → Type
  | .task => Task
  | .numTrees | .maxDepth | .numThreads => UInt64
  | .learningRate | .lambda => Binary64

/-- Reads a value of a setting. -/
def Key.read? : (k : Key) → String → Option k.Value
  | .task => fun text => (Task.parse text).toOption
  | .numTrees | .maxDepth | .numThreads => Literal.count?
  | .learningRate | .lambda => Literal.number?

/-- The fault of a text that is no value of a setting.  `shown` is the key as the fault
names it. -/
def Key.fault (shown text : String) : Key → Error
  | .task => .settings (.unknownTask text)
  | _ => .settings (.unreadableValue shown text)

/-- The value of a setting. -/
def valueAt (s : Settings Binary64) : (k : Key) → k.Value
  | .task => s.task
  | .numTrees => s.numTrees
  | .learningRate => s.learningRate
  | .maxDepth => s.maxDepth
  | .lambda => s.lambda
  | .numThreads => s.numThreads

/-- The settings with another value of one of them. -/
def put (s : Settings Binary64) : (k : Key) → k.Value → Settings Binary64
  | .task, t => { s with task := t }
  | .numTrees, n => { s with numTrees := n }
  | .learningRate, x => { s with learningRate := x }
  | .maxDepth, n => { s with maxDepth := n }
  | .lambda, x => { s with lambda := x }
  | .numThreads, n => { s with numThreads := n }

variable {s t base : Settings Binary64} {k k' : Key}

@[simp] theorem valueAt_put_self (s : Settings Binary64) (k : Key) (x : k.Value) :
    (s.put k x).valueAt k = x := by
  cases k <;> rfl

theorem valueAt_put_of_ne (s : Settings Binary64) (x : k.Value) (h : k' ≠ k) :
    (s.put k x).valueAt k' = s.valueAt k' := by
  cases k <;> cases k' <;> first | rfl | exact absurd rfl h

@[simp] theorem verbosity_put (s : Settings Binary64) (k : Key) (x : k.Value) :
    (s.put k x).verbosity = s.verbosity := by
  cases k <;> rfl

/-- Settings are their values and their verbosity. -/
theorem eq_of_valueAt (hvalue : ∀ k, s.valueAt k = t.valueAt k)
    (hverbosity : s.verbosity = t.verbosity) : s = t := by
  obtain ⟨task, numTrees, learningRate, maxDepth, lambda, numThreads, verbosity⟩ := s
  obtain rfl : task = t.task := hvalue .task
  obtain rfl : numTrees = t.numTrees := hvalue .numTrees
  obtain rfl : learningRate = t.learningRate := hvalue .learningRate
  obtain rfl : maxDepth = t.maxDepth := hvalue .maxDepth
  obtain rfl : lambda = t.lambda := hvalue .lambda
  obtain rfl : numThreads = t.numThreads := hvalue .numThreads
  obtain rfl : verbosity = t.verbosity := hverbosity
  rfl

theorem parse_eq (text : String) : Task.parse text =
    match (Task.parse text).toOption with
    | some t => .ok t
    | none => .error (.settings (.unknownTask text)) := by
  simp only [Task.parse]
  split
  · rfl
  · split <;> rfl

/-- A text for a setting puts the value that is read from it. -/
theorem set_eq (s : Settings Binary64) (k : Key) (shown text : String) :
    s.set k shown text =
      match k.read? text with
      | some x => .ok (s.put k x)
      | none => .error (k.fault shown text) := by
  cases k with
  | task =>
    rw [set, parse_eq]
    simp only [Key.read?]
    cases (Task.parse text).toOption <;> rfl
  | numTrees | maxDepth | numThreads =>
    simp only [set, Key.read?]
    cases Literal.count? text <;> rfl
  | learningRate | lambda =>
    simp only [set, Key.read?]
    cases Literal.number? text <;> rfl

theorem set_of_read?_eq_some {x : k.Value} {text : String} (h : k.read? text = some x)
    (s : Settings Binary64) (shown : String) : s.set k shown text = .ok (s.put k x) := by
  rw [set_eq, h]

theorem set_of_read?_eq_none {text : String} (h : k.read? text = none) (s : Settings Binary64)
    (shown : String) : s.set k shown text = .error (k.fault shown text) := by
  rw [set_eq, h]

/-! ## Several settings -/

/-- The settings that texts for some of the settings make of others.  `given` says which
texts there are. -/
structure Applied (given : Key → String → Prop) (base s : Settings Binary64) : Prop where
  /-- The verbosity has no text. -/
  verbosity : s.verbosity = base.verbosity
  /-- A setting with a text has the value that is read from it. -/
  read : ∀ k text, given k text → k.read? text = some (s.valueAt k)
  /-- A setting without a text is kept. -/
  kept : ∀ k, (∀ text, ¬ given k text) → s.valueAt k = base.valueAt k

variable {given : Key → String → Prop}

theorem Applied.refl (hnone : ∀ k text, ¬ given k text) (s : Settings Binary64) :
    Applied given s s where
  verbosity := rfl
  read k text h := absurd h (hnone k text)
  kept _ _ := rfl

theorem Applied.unique (hs : Applied given base s) (ht : Applied given base t) : s = t := by
  refine eq_of_valueAt (fun k => ?_) (hs.verbosity.trans ht.verbosity.symm)
  by_cases htext : ∃ text, given k text
  · obtain ⟨text, h⟩ := htext
    exact Option.some.inj ((hs.read k text h).symm.trans (ht.read k text h))
  · have hnone : ∀ text, ¬ given k text := fun text h => htext ⟨text, h⟩
    exact (hs.kept k hnone).trans (ht.kept k hnone).symm

/-- Without texts nothing changes. -/
theorem applied_iff_eq (hnone : ∀ k text, ¬ given k text) : Applied given base s ↔ s = base := by
  constructor
  · intro h
    exact h.unique (.refl hnone base)
  · rintro rfl
    exact .refl hnone s

/-- The texts `given`, and one for a further setting. -/
def withText (k : Key) (text : String) (given : Key → String → Prop) : Key → String → Prop :=
  fun k' text' => (k' = k ∧ text' = text) ∨ given k' text'

/-- The text of a further setting can be applied first. -/
theorem applied_put_iff {text : String} {x : k.Value} (hread : k.read? text = some x)
    (hnone : ∀ text, ¬ given k text) :
    Applied given (base.put k x) s ↔ Applied (withText k text given) base s := by
  constructor
  · intro h
    refine ⟨h.verbosity.trans (verbosity_put base k x), ?_, fun k' hk' => ?_⟩
    · rintro k' text' (⟨rfl, rfl⟩ | hgiven)
      · rw [hread, h.kept k' hnone, valueAt_put_self]
      · exact h.read k' text' hgiven
    · have hne : k' ≠ k := by
        rintro rfl
        exact hk' text (.inl ⟨rfl, rfl⟩)
      rw [h.kept k' fun text' hgiven => hk' text' (.inr hgiven), valueAt_put_of_ne base x hne]
  · intro h
    refine ⟨h.verbosity.trans (verbosity_put base k x).symm,
      fun k' text' hgiven => h.read k' text' (.inr hgiven), fun k' hk' => ?_⟩
    by_cases hne : k' = k
    · subst hne
      have hvalue := h.read k' text (.inl ⟨rfl, rfl⟩)
      rw [valueAt_put_self]
      exact Option.some.inj (hvalue.symm.trans hread)
    · rw [valueAt_put_of_ne base x hne]
      refine h.kept k' ?_
      rintro text' (⟨hk, -⟩ | hgiven)
      · exact hne hk
      · exact hk' text' hgiven

/-- No settings have the value of a text that cannot be read. -/
theorem not_applied_withText {text : String} (hread : k.read? text = none) :
    ¬ Applied (withText k text given) base s := by
  intro h
  cases hread.symm.trans (h.read k text (.inl ⟨rfl, rfl⟩))

end GradientForest.Settings
