import GradientForest.Settings.Environment
import GradientForest.Proofs.Settings.Texts

/-!
# Settings half changed

The variables of the environment are applied one after another to the settings themselves.
When a text cannot be read, the variables before it have been applied and stay so, and when
the result is not allowed, all of them have (`Settings.overrideAll_cases`).  So the settings
that an error leaves behind are in general not the ones that were there before.  They are
the same exactly when every variable that was applied gives the value that its setting had.
-/

namespace GradientForest.Settings

open scoped Scalar

/-- The texts that the environment has for some of the settings. -/
def InEnvironment (env : String → Option String) (ks : List Key) (k : Key) (text : String) : Prop :=
  k ∈ ks ∧ env (variableStem ++ k.variable) = some text

variable {env : String → Option String} {s t : Settings Binary64} {k : Key} {ks : List Key}
  {text : String}

theorem not_inEnvironment (h : k ∉ ks) (text : String) : ¬ InEnvironment env ks k text :=
  fun hmem => h hmem.1

theorem inEnvironment_cons_of_some (h : env (variableStem ++ k.variable) = some text) :
    InEnvironment env (k :: ks) = withText k text (InEnvironment env ks) := by
  funext k' text'
  refine propext ⟨?_, ?_⟩
  · rintro ⟨hk', henv⟩
    rcases List.mem_cons.1 hk' with rfl | hk'
    · exact .inl ⟨rfl, Option.some.inj (henv.symm.trans h)⟩
    · exact .inr ⟨hk', henv⟩
  · rintro (⟨rfl, rfl⟩ | ⟨hk', henv⟩)
    · exact ⟨List.mem_cons_self, h⟩
    · exact ⟨List.mem_cons_of_mem _ hk', henv⟩

theorem inEnvironment_cons_of_none (h : env (variableStem ++ k.variable) = none) :
    InEnvironment env (k :: ks) = InEnvironment env ks := by
  funext k' text'
  refine propext ⟨?_, ?_⟩
  · rintro ⟨hk', henv⟩
    rcases List.mem_cons.1 hk' with rfl | hk'
    · cases henv.symm.trans h
    · exact ⟨hk', henv⟩
  · rintro ⟨hk', henv⟩
    exact ⟨List.mem_cons_of_mem _ hk', henv⟩

/-- The variable of `k` has a text that cannot be read, and the variables of `before`, which
come first, have been applied. -/
structure StopsAt (env : String → Option String) (before : List Key) (k : Key) (text : String)
    (s t : Settings Binary64) : Prop where
  /-- The variable has a text. -/
  found : env (variableStem ++ k.variable) = some text
  /-- The text cannot be read. -/
  unreadable : k.read? text = none
  /-- The variables before it are applied. -/
  applied : Applied (InEnvironment env before) s t

/-- Variables are applied up to the first that cannot be read.  When all of them can, the
result is checked. -/
theorem overrideAll_cases (env : String → Option String) (hks : ks.Nodup)
    (s : Settings Binary64) :
    (∃ t, Applied (InEnvironment env ks) s t ∧ overrideAll env ks s = (t, t.validate)) ∨
    ∃ before k after text t, ks = before ++ k :: after ∧ StopsAt env before k text s t ∧
      overrideAll env ks s = (t, .error (k.fault (variableStem ++ k.variable) text)) := by
  induction ks generalizing s with
  | nil => exact .inl ⟨s, .refl (fun k => not_inEnvironment (by simp)) s, rfl⟩
  | cons k ks ih =>
    obtain ⟨hk, hks⟩ := List.nodup_cons.1 hks
    rw [overrideAll]
    cases henv : env (variableStem ++ k.variable) with
    | none =>
      rw [inEnvironment_cons_of_none henv]
      rcases ih hks s with happlied | ⟨before, k', after, text, t, rfl, hstops, hresult⟩
      · exact .inl happlied
      · refine .inr ⟨k :: before, k', after, text, t, rfl, ?_, hresult⟩
        refine ⟨hstops.found, hstops.unreadable, ?_⟩
        rw [inEnvironment_cons_of_none henv]
        exact hstops.applied
    | some text =>
      dsimp only
      cases hread : k.read? text with
      | none =>
        rw [set_of_read?_eq_none hread]
        refine .inr ⟨[], k, ks, text, s, rfl, ⟨henv, hread, ?_⟩, rfl⟩
        exact .refl (fun k => not_inEnvironment (by simp)) s
      | some x =>
        rw [set_of_read?_eq_some hread, inEnvironment_cons_of_some henv]
        rcases ih hks (s.put k x) with ⟨t, happlied, hresult⟩ |
          ⟨before, k', after, text', t, rfl, hstops, hresult⟩
        · refine .inl ⟨t, ?_, hresult⟩
          exact (applied_put_iff hread (not_inEnvironment hk)).1 happlied
        · have hbefore : k ∉ before := fun hmem => hk (List.mem_append_left _ hmem)
          refine .inr ⟨k :: before, k', after, text', t, rfl, ?_, hresult⟩
          refine ⟨hstops.found, hstops.unreadable, ?_⟩
          rw [inEnvironment_cons_of_some henv]
          exact (applied_put_iff hread (not_inEnvironment hbefore)).1 hstops.applied

/-- Applied texts leave settings alone exactly when they give the values that were there. -/
theorem Applied.eq_iff {given : Key → String → Prop} (h : Applied given s t) :
    t = s ↔ ∀ k text, given k text → k.read? text = some (s.valueAt k) := by
  constructor
  · rintro rfl
    exact h.read
  · intro hsame
    exact h.unique ⟨rfl, hsame, fun _ _ => rfl⟩

/-- Settings that an error leaves behind have the values of the variables that were applied
before it and are otherwise as they were.  Either all variables were applied and the result
is not allowed, or those before the first that cannot be read.  So the settings are unchanged
exactly when these variables give the values that were there. -/
theorem override_error {e : Error} (h : override env s = (t, .error e)) :
    ∃ before, Applied (InEnvironment env before) s t ∧
      (t = s ↔ ∀ k text, InEnvironment env before k text → k.read? text = some (s.valueAt k)) ∧
      ((before = Key.all ∧ t.validate = .error e) ∨
        ∃ k after text, Key.all = before ++ k :: after ∧
          env (variableStem ++ k.variable) = some text ∧ k.read? text = none ∧
          e = k.fault (variableStem ++ k.variable) text) := by
  have hall : Key.all.Nodup := by decide
  rcases overrideAll_cases env hall s with ⟨t', happlied, hresult⟩ |
    ⟨before, k, after, text, t', hsplit, hstops, hresult⟩
  · obtain ⟨rfl, hcheck⟩ := Prod.mk.inj (hresult.symm.trans h)
    exact ⟨Key.all, happlied, happlied.eq_iff, .inl ⟨rfl, hcheck⟩⟩
  · obtain ⟨rfl, herror⟩ := Prod.mk.inj (hresult.symm.trans h)
    refine ⟨before, hstops.applied, hstops.applied.eq_iff, .inr ?_⟩
    exact ⟨k, after, text, hsplit, hstops.found, hstops.unreadable, (Except.error.inj herror).symm⟩

/-- An environment with these variables. -/
def environment (texts : List (String × String)) (name : String) : Option String :=
  texts.lookup name

theorem override_error_noRounds :
    let env := environment [("TREEBOOST_NUM_TREES", "0"), ("TREEBOOST_MODE", "Binary")]
    let noRounds : Settings Binary64 := ⟨.classification, 0, 3 / 10, 6, 1, 0, .info⟩
    override env default =
      (noRounds, .error (.parameter "num_trees" "0" "must be at least 1")) ∧
    ∃ before, Applied (InEnvironment env before) default noRounds := by
  intro env noRounds
  have hresult : override env default =
      (noRounds, .error (.parameter "num_trees" "0" "must be at least 1")) :=
    Prod.ext (by decide +kernel) rfl
  obtain ⟨before, happlied, -⟩ := override_error hresult
  exact ⟨hresult, before, happlied⟩

/-- A number of rounds is kept although the regularisation that comes after it cannot be
read. -/
theorem override_keeps_numTrees :
    let env := environment [("TREEBOOST_NUM_TREES", "5"), ("TREEBOOST_LAMBDA", "bad")]
    let fiveRounds : Settings Binary64 := ⟨.regression, 5, 3 / 10, 6, 1, 0, .info⟩
    override env default =
      (fiveRounds, .error (.settings (.unreadableValue "TREEBOOST_LAMBDA" "bad"))) ∧
    fiveRounds ≠ default := by
  exact ⟨Prod.ext (by decide +kernel) rfl, by decide +kernel⟩

end GradientForest.Settings
