import Mathlib.Data.List.Forall2

/-!
# Outcomes of steps in a row

Steps that may fail succeed together only if each of them does.
-/

namespace GradientForest

variable {ε β γ δ : Type}

theorem exists_of_isOk {x : Except ε β} (h : x.isOk = true) : ∃ b, x = .ok b := by
  cases x with
  | error e => cases h
  | ok b => exact ⟨b, rfl⟩

theorem ok_bind {b : β} {f : β → Except ε γ} : (Except.ok b >>= f) = f b := rfl

theorem bind_eq_ok_iff {x : Except ε β} {f : β → Except ε γ} {c : γ} :
    x >>= f = .ok c ↔ ∃ b, x = .ok b ∧ f b = .ok c := by
  cases x with
  | error e =>
    constructor
    · intro h
      cases h
    · rintro ⟨b, h, -⟩
      cases h
  | ok b =>
    constructor
    · intro h
      exact ⟨b, rfl, h⟩
    · rintro ⟨b', hb, h⟩
      cases hb
      exact h

theorem pure_eq_ok_iff {b c : β} : (pure b : Except ε β) = .ok c ↔ b = c := by
  constructor
  · intro h
    cases h
    rfl
  · rintro rfl
    rfl

/-- A check that throws lets only the other outcomes through. -/
theorem check_eq_ok_iff {p : Prop} [Decidable p] {e : ε} {f : β → Except ε γ} {x : Except ε γ}
    {c : γ} : (if p then throw e >>= f else x) = .ok c ↔ ¬ p ∧ x = .ok c := by
  by_cases hp : p
  · rw [if_pos hp]
    exact ⟨nofun, fun h => absurd hp h.1⟩
  · rw [if_neg hp]
    exact ⟨fun h => ⟨hp, h⟩, fun h => h.2⟩

theorem forM_eq_ok_iff {f : β → Except ε Unit} {l : List β} :
    l.forM f = .ok () ↔ ∀ x ∈ l, f x = .ok () := by
  induction l with
  | nil => exact ⟨fun _ => nofun, fun _ => rfl⟩
  | cons x l ih =>
    change (f x >>= fun _ => l.forM f) = .ok () ↔ _
    rw [bind_eq_ok_iff, List.forall_mem_cons, ← ih]
    constructor
    · rintro ⟨_, hx, hl⟩
      exact ⟨hx, hl⟩
    · rintro ⟨hx, hl⟩
      exact ⟨(), hx, hl⟩

/-- Checks in a row fail in the way of the first one that fails. -/
theorem forM_eq_error_iff {f : β → Except ε Unit} {l : List β} {e : ε} :
    l.forM f = .error e ↔
      ∃ (i : ℕ) (x : β), l[i]? = some x ∧ f x = .error e ∧
        ∀ j < i, ∀ y, l[j]? = some y → f y = .ok () := by
  induction l with
  | nil =>
    constructor
    · intro h
      cases h
    · rintro ⟨i, x, h, -⟩
      cases h
  | cons x l ih =>
    change (f x >>= fun _ => l.forM f) = .error e ↔ _
    cases hx : f x with
    | error e' =>
      constructor
      · intro h
        cases h
        exact ⟨0, x, rfl, hx, nofun⟩
      · rintro ⟨i, y, hy, hfail, hbefore⟩
        cases i with
        | zero =>
          obtain rfl := Option.some.inj hy
          exact hx.symm.trans hfail
        | succ i => cases hx.symm.trans (hbefore 0 i.succ_pos x rfl)
    | ok _ =>
      change l.forM f = .error e ↔ _
      rw [ih]
      constructor
      · rintro ⟨i, y, hy, hfail, hbefore⟩
        refine ⟨i + 1, y, hy, hfail, fun j hj z hz => ?_⟩
        cases j with
        | zero =>
          obtain rfl := Option.some.inj hz
          exact hx
        | succ j => exact hbefore j (Nat.lt_of_succ_lt_succ hj) z hz
      · rintro ⟨i, y, hy, hfail, hbefore⟩
        cases i with
        | zero =>
          obtain rfl := Option.some.inj hy
          cases hx.symm.trans hfail
        | succ i =>
          exact ⟨i, y, hy, hfail, fun j hj z hz => hbefore (j + 1) (Nat.succ_lt_succ hj) z hz⟩

/-! ## Lists related element by element -/

theorem list_forall₂_congr {R S : β → γ → Prop} (h : ∀ x y, R x y ↔ S x y) {xs : List β}
    {ys : List γ} : List.Forall₂ R xs ys ↔ List.Forall₂ S xs ys :=
  ⟨.imp fun x y => (h x y).1, .imp fun x y => (h x y).2⟩

theorem list_forall₂_comp_iff {R : β → γ → Prop} {S : γ → δ → Prop} {xs : List β}
    {zs : List δ} : List.Forall₂ (fun x z => ∃ y, R x y ∧ S y z) xs zs ↔
      ∃ ys, List.Forall₂ R xs ys ∧ List.Forall₂ S ys zs := by
  constructor
  · intro h
    induction h with
    | nil => exact ⟨[], .nil, .nil⟩
    | cons hxz _ ih =>
      obtain ⟨y, hxy, hyz⟩ := hxz
      obtain ⟨ys, hxys, hyzs⟩ := ih
      exact ⟨y :: ys, .cons hxy hxys, .cons hyz hyzs⟩
  · rintro ⟨ys, hxys, hyzs⟩
    induction hxys generalizing zs with
    | nil =>
      cases hyzs
      exact .nil
    | cons hxy _ ih =>
      cases hyzs with
      | cons hyz hyzs => exact .cons ⟨_, hxy, hyz⟩ (ih hyzs)

theorem exists_list_forall₂_iff {R : β → γ → Prop} {xs : List β} :
    (∃ ys, List.Forall₂ R xs ys) ↔ ∀ x ∈ xs, ∃ y, R x y := by
  induction xs with
  | nil => exact ⟨fun _ => nofun, fun _ => ⟨[], .nil⟩⟩
  | cons x xs ih =>
    rw [List.forall_mem_cons, ← ih]
    constructor
    · rintro ⟨_, hx | ⟨hx, hxs⟩⟩
      exact ⟨⟨_, hx⟩, _, hxs⟩
    · rintro ⟨⟨y, hx⟩, ys, hxs⟩
      exact ⟨y :: ys, .cons hx hxs⟩

/-! ## Steps for every element -/

theorem forall₂_of_mapM {f : β → Except ε γ} {xs : List β} {ys : List γ}
    (h : xs.mapM f = .ok ys) : List.Forall₂ (fun x y => f x = .ok y) xs ys := by
  induction xs generalizing ys with
  | nil =>
    cases h
    exact .nil
  | cons x xs ih =>
    rw [List.mapM_cons, bind_eq_ok_iff] at h
    obtain ⟨y, hy, h⟩ := h
    obtain ⟨ys', hys, h⟩ := bind_eq_ok_iff.1 h
    obtain rfl := pure_eq_ok_iff.1 h
    exact .cons hy (ih hys)

theorem mapM_of_forall₂ {f : β → Except ε γ} {xs : List β} {ys : List γ}
    (h : List.Forall₂ (fun x y => f x = .ok y) xs ys) : xs.mapM f = .ok ys := by
  induction h with
  | nil => rfl
  | cons hx _ ih =>
    rw [List.mapM_cons, hx, ih]
    rfl

theorem list_mapM_eq_ok_iff {f : β → Except ε γ} {xs : List β} {ys : List γ} :
    xs.mapM f = .ok ys ↔ List.Forall₂ (fun x y => f x = .ok y) xs ys :=
  ⟨forall₂_of_mapM, mapM_of_forall₂⟩

theorem option_mapM_eq_some_iff {f : β → Option γ} {xs : List β} {ys : List γ} :
    xs.mapM f = some ys ↔ List.Forall₂ (fun x y => f x = some y) xs ys := by
  induction xs generalizing ys with
  | nil => simp [eq_comm]
  | cons x xs ih =>
    rw [List.mapM_cons, List.forall₂_cons_left_iff, Option.bind_eq_bind, Option.bind_eq_some_iff]
    constructor
    · rintro ⟨y, hy, h⟩
      obtain ⟨ys, hys, h⟩ := Option.bind_eq_some_iff.1 h
      exact ⟨y, ys, hy, ih.1 hys, (Option.some.inj h).symm⟩
    · rintro ⟨y, ys, hy, hys, rfl⟩
      exact ⟨y, hy, Option.bind_eq_some_iff.2 ⟨ys, ih.2 hys, rfl⟩⟩

theorem list_mapM_map (f : β → Except ε γ) (g : γ → δ) (xs : List β) :
    xs.mapM (fun x => (f x).map g) = (xs.mapM f).map (List.map g) := by
  induction xs with
  | nil => rfl
  | cons x xs ih =>
    rw [List.mapM_cons, List.mapM_cons, ih]
    cases f x with
    | error e => rfl
    | ok y => cases xs.mapM f <;> rfl

theorem toList_mapM {n : ℕ} (f : β → Except ε γ) (xs : Vector β n) :
    (xs.mapM f).map Vector.toList = xs.toList.mapM f := by
  have hlist : Array.toList <$> xs.toArray.mapM f = xs.toList.mapM f := Array.toList_mapM
  rw [← hlist, ← Vector.toArray_mapM]
  cases xs.mapM f <;> rfl

theorem getElem_of_mapM {n : ℕ} {f : β → Except ε γ} {xs : Vector β n} {ys : Vector γ n}
    (h : xs.mapM f = .ok ys) (i : ℕ) (hi : i < n) : f xs[i] = .ok ys[i] := by
  have hlists : xs.toList.mapM f = .ok ys.toList := by
    rw [← toList_mapM, h]
    rfl
  have hsame := (List.forall₂_iff_get.1 (forall₂_of_mapM hlists)).2 i (by simpa) (by simpa)
  simpa using hsame

theorem vector_mapM_eq_ok_iff {n : ℕ} {f : β → Except ε γ} {xs : Vector β n} {ys : Vector γ n} :
    xs.mapM f = .ok ys ↔ ∀ i (hi : i < n), f xs[i] = .ok ys[i] := by
  refine ⟨getElem_of_mapM, fun h => ?_⟩
  have hlists : xs.toList.mapM f = .ok ys.toList := by
    refine mapM_of_forall₂ (List.forall₂_iff_get.2 ⟨by simp, fun i hi _ => ?_⟩)
    simpa using h i (by simpa using hi)
  rw [← toList_mapM] at hlists
  cases hxs : xs.mapM f with
  | error e =>
    rw [hxs] at hlists
    cases hlists
  | ok zs =>
    rw [hxs] at hlists
    exact congrArg Except.ok (Vector.toList_inj.1 (Except.ok.inj hlists))

/-- Steps with the same outcomes have the same outcome together, errors included. -/
theorem vector_mapM_congr {n : ℕ} {f : β → Except ε γ} {xs ys : Vector β n}
    (h : ∀ i (hi : i < n), f xs[i] = f ys[i]) : xs.mapM f = ys.mapM f := by
  have houtcomes : xs.map f = ys.map f := Vector.ext fun i hi => by simpa using h i hi
  have hsplit (zs : Vector β n) : zs.mapM f = (zs.map f).mapM id :=
    (Vector.mapM_map (f := f) (g := id)).symm
  rw [hsplit, hsplit, houtcomes]

/-- A change of every result is a change of all the results together, and the errors stay
as they are. -/
theorem vector_mapM_map {n : ℕ} (f : β → Except ε γ) (g : γ → δ) (xs : Vector β n) :
    xs.mapM (fun x => (f x).map g) = (xs.mapM f).map (Vector.map g) := by
  have hlists : (xs.mapM fun x => (f x).map g).map Vector.toList =
      ((xs.mapM f).map (Vector.map g)).map Vector.toList := by
    rw [toList_mapM, list_mapM_map, ← toList_mapM]
    cases xs.mapM f with
    | error e => rfl
    | ok ys => exact congrArg Except.ok Vector.toList_map.symm
  revert hlists
  cases xs.mapM fun x => (f x).map g <;> cases xs.mapM f <;> intro hlists
  · exact congrArg Except.error (Except.error.inj hlists)
  · cases hlists
  · cases hlists
  · exact congrArg Except.ok (Vector.toList_inj.1 (Except.ok.inj hlists))

end GradientForest
