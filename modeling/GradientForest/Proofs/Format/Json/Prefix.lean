import GradientForest.Proofs.Format.Json.Document
import GradientForest.Proofs.Format.Prefix

/-!
# Prefixes of JSON documents

The texts, lists and objects of JSON end by themselves, so their readers are `Local`.  A
number does not: more digits may follow.  Its reader is local as long as it leaves
something (`LocalInside`), and inside a list or an object it does, since a bracket or a
comma has to follow.

`LocalWithin` says this of the readers with a budget, and that a larger budget changes
nothing either.  So no strict prefix of an object is read as a document
(`ofSymbols?_prefix`).
-/

namespace GradientForest.Json

open Text (Symbol)
open Reader

/-! ## Texts -/

theorem ne_of_simpleEscape? {e c : Char} (h : simpleEscape? e = some c) : e ≠ 'u' := by
  rintro rfl
  cases h

theorem local_pieces? : Local pieces? := by
  intro cs ps rest h more
  fun_induction pieces? cs generalizing ps rest with
  | case1 => cases h
  | case2 =>
    cases h
    rfl
  | case3 a b c d tail ih =>
    obtain ⟨code, hcode, h⟩ := Option.bind_eq_some_iff.1 h
    obtain ⟨⟨qs, between⟩, hqs, h⟩ := Option.bind_eq_some_iff.1 h
    cases h
    simp only [List.cons_append, pieces?, hcode, ih hqs, Option.bind_eq_bind, Option.bind_some]
    rfl
  | case4 e tail _ ih =>
    obtain ⟨c, hc, h⟩ := Option.bind_eq_some_iff.1 h
    obtain ⟨⟨qs, between⟩, hqs, h⟩ := Option.bind_eq_some_iff.1 h
    cases h
    rw [List.cons_append, List.cons_append, pieces?, hc, ih hqs]
    · rfl
    · exact fun _ _ _ _ _ _ he => ne_of_simpleEscape? hc he
  | case5 => cases h
  | case6 => cases h
  | case7 c tail hquote _ _ hescape hcontrol ih =>
    obtain ⟨⟨qs, between⟩, hqs, h⟩ := Option.bind_eq_some_iff.1 h
    cases h
    rw [List.cons_append, pieces?, if_neg hcontrol, ih hqs]
    · rfl
    all_goals simp_all
  | case8 tail ih =>
    obtain ⟨⟨qs, between⟩, hqs, h⟩ := Option.bind_eq_some_iff.1 h
    cases h
    rw [List.cons_append, pieces?, ih hqs]
    rfl

theorem local_textBody? : Local textBody? :=
  local_pieces?.map fun ps => (joinPieces? ps).map String.ofList

/-! ## Numbers -/

/-- More input behind what is taken is left, and nothing else changes, if something was
left before. -/
structure LocalInside {β : Type} (take? : List Symbol → Option (β × List Symbol)) : Prop where
  /-- More input is left. -/
  extend : ∀ ⦃cs x rest⦄, take? cs = some (x, rest) → rest ≠ [] →
    ∀ more, take? (cs ++ more) = some (x, rest ++ more)
  /-- Of nothing, nothing is left. -/
  nil : ∀ ⦃x rest⦄, take? [] = some (x, rest) → rest = []

namespace LocalInside

variable {β γ : Type} {take? : List Symbol → Option (β × List Symbol)}

theorem pure (x : β) : LocalInside fun cs => some (x, cs) where
  extend cs y rest h _ more := by
    cases h
    rfl
  nil y rest h := by
    cases h
    rfl

theorem bind (h : LocalInside take?) {next : β × List Symbol → Option (γ × List Symbol)}
    (hnext : ∀ x, LocalInside fun cs => next (x, cs)) :
    LocalInside fun cs => (take? cs).bind next where
  extend cs y rest hsome hrest more := by
    obtain ⟨⟨x, between⟩, htake, hy⟩ := Option.bind_eq_some_iff.1 hsome
    have hbetween : between ≠ [] := by
      rintro rfl
      exact hrest ((hnext x).nil hy)
    rw [h.extend htake hbetween more, Option.bind_some]
    exact (hnext x).extend hy hrest more
  nil y rest hsome := by
    obtain ⟨⟨x, between⟩, htake, hy⟩ := Option.bind_eq_some_iff.1 hsome
    obtain rfl := h.nil htake
    exact (hnext x).nil hy

end LocalInside

theorem spanDigits_append_more {cs : List Symbol} {ds : List Char} {rest : List Symbol}
    (h : spanDigits cs = (ds, rest)) (hrest : rest ≠ []) (more : List Symbol) :
    spanDigits (cs ++ more) = (ds, rest ++ more) := by
  fun_induction spanDigits cs generalizing ds rest with
  | case1 c tail hc ds' rest' hspan ih =>
    cases h
    rw [List.cons_append, spanDigits, if_pos hc, ih hspan hrest]
  | case2 c tail hc =>
    cases h
    rw [List.cons_append, spanDigits, if_neg hc]
  | case3 cs hcs =>
    cases h
    obtain ⟨s, tail, rfl⟩ := List.exists_cons_of_ne_nil hrest
    cases s with
    | some c => exact absurd rfl (hcs c tail)
    | none => rfl

theorem map_append_of_spanDigits {cs : List Symbol} {ds : List Char} {rest : List Symbol}
    (h : spanDigits cs = (ds, rest)) : ds.map some ++ rest = cs := by
  fun_induction spanDigits cs generalizing ds rest with
  | case1 c tail hc ds' rest' hspan ih =>
    cases h
    rw [List.map_cons, List.cons_append, ih hspan]
  | case2 => cases h; rfl
  | case3 => cases h; rfl

/-- Behind a leading zero the whole part ends. -/
theorem wholePart?_zero (cs : List Symbol) : wholePart? (some '0' :: cs) = some (['0'], cs) := by
  cases hspan : spanDigits cs with
  | mk ds rest =>
    rw [wholePart?, spanDigits, if_pos (by decide), hspan]
    exact congrArg (fun tail => some (['0'], tail)) (map_append_of_spanDigits hspan)

theorem localInside_wholePart? : LocalInside wholePart? where
  extend cs w rest h hrest more := by
    rw [wholePart?] at h
    split at h
    next => cases h
    next d ds tail hspan =>
      split_ifs at h with hd
      · obtain ⟨rfl, rfl⟩ : ['0'] = w ∧ ds.map some ++ tail = rest := by simpa using h
        have hcs := map_append_of_spanDigits hspan
        rw [hd, List.map_cons, List.cons_append] at hcs
        rw [← hcs, List.cons_append, wholePart?_zero]
      · cases h
        rw [wholePart?, spanDigits_append_more hspan hrest]
        exact if_neg hd
  nil w rest h := by cases h

theorem localInside_fraction? : LocalInside fraction? where
  extend cs places rest h hrest more := by
    unfold fraction? at h
    split at h
    next tail =>
      split at h
      next => cases h
      next ds after hne hspan =>
        cases h
        rw [List.cons_append, fraction?, spanDigits_append_more hspan hrest]
        split
        next heq => cases heq; exact (hne rfl).elim
        next heq => cases heq; rfl
    next hpoint =>
      cases h
      obtain ⟨s, tail, rfl⟩ := List.exists_cons_of_ne_nil hrest
      rw [List.cons_append, fraction?]
      rintro _ heq
      cases heq
      exact hpoint _ rfl
  nil places rest h := by
    cases h
    rfl

theorem exponentSign_append_more {cs : List Symbol} (hcs : cs ≠ []) (more : List Symbol) :
    exponentSign (cs ++ more) = ((exponentSign cs).1, (exponentSign cs).2 ++ more) := by
  obtain ⟨s, tail, rfl⟩ := List.exists_cons_of_ne_nil hcs
  rw [List.cons_append]
  unfold exponentSign
  split
  next heq => cases heq; rfl
  next heq => cases heq; rfl
  next hminus hplus =>
    split
    next heq => cases heq; exact absurd rfl (hminus _)
    next heq => cases heq; exact absurd rfl (hplus _)
    next => rfl

theorem localInside_exponent? : LocalInside exponent? where
  extend cs e rest h hrest more := by
    unfold exponent? at h
    split at h
    next c tail =>
      split_ifs at h with hc
      · have htail : tail ≠ [] := by
          rintro rfl
          cases h
        dsimp only at h
        split at h
        next => cases h
        next ds after hne hspan =>
          cases h
          rw [List.cons_append, exponent?, if_pos hc, exponentSign_append_more htail]
          dsimp only
          rw [spanDigits_append_more hspan hrest]
          split
          next heq => cases heq; exact (hne rfl).elim
          next heq => cases heq; rfl
      · cases h
        rw [List.cons_append, exponent?, if_neg hc]
    next hchar =>
      cases h
      obtain ⟨s, tail, rfl⟩ := List.exists_cons_of_ne_nil hrest
      rw [List.cons_append, exponent?]
      rintro _ _ heq
      cases heq
      exact hchar _ _ rfl
  nil e rest h := by
    cases h
    rfl

theorem localInside_unsigned? (negative : Bool) : LocalInside (unsigned? negative) :=
  localInside_wholePart?.bind fun _ => localInside_fraction?.bind fun _ =>
    localInside_exponent?.bind fun _ => .pure _

/-- A number starts with a sign or a digit. -/
theorem exists_of_number? {cs : List Symbol} {x : JsonNumber} {rest : List Symbol}
    (h : number? cs = some (x, rest)) : ∃ c tail, cs = some c :: tail ∧ IsSignOrDigit c := by
  rcases cs with _ | ⟨_ | c, tail⟩
  · cases h
  · cases h
  refine ⟨c, tail, rfl, ?_⟩
  by_contra hc
  obtain ⟨hminus, hdigit⟩ := not_or.1 hc
  have hwhole : wholePart? (some c :: tail) = none := by
    rw [wholePart?, spanDigits, if_neg hdigit]
  rw [number?, unsigned?, hwhole] at h
  · cases h
  · rintro _ heq
    cases heq
    exact hminus rfl

theorem localInside_number? : LocalInside number? where
  extend cs x rest h hrest more := by
    obtain ⟨c, tail, rfl, -⟩ := exists_of_number? h
    rw [List.cons_append]
    by_cases hc : c = '-'
    · subst hc
      exact (localInside_unsigned? true).extend h hrest more
    · have hsign (ds : List Symbol) : number? (some c :: ds) = unsigned? false (some c :: ds) := by
        rw [number?]
        rintro _ heq
        cases heq
        exact hc rfl
      rw [hsign] at h ⊢
      exact (localInside_unsigned? false).extend h hrest more
  nil x rest h := by cases h

/-! ## Values -/

theorem skipBlanks_append_more {cs ds : List Symbol} {s : Symbol} (h : skipBlanks cs = s :: ds)
    (more : List Symbol) : skipBlanks (cs ++ more) = s :: (ds ++ more) := by
  rw [skipBlanks, List.dropWhile_append, ← skipBlanks, h]
  rfl

/-- Blanks in front of a value do not matter, with more input behind it either. -/
theorem value?_append_more (n : ℕ) {cs ds : List Symbol} {c : Char}
    (h : skipBlanks cs = some c :: ds) (hc : ¬IsBlank c) (more : List Symbol) :
    value? n (cs ++ more) = value? n (some c :: (ds ++ more)) :=
  value?_congr n ((skipBlanks_append_more h more).trans (skipBlanks_of_not_blank hc _).symm)

/-- The items of a list are one value, and behind it a comma and more items or the end. -/
theorem items?_cases {n : ℕ} {cs rest : List Symbol} {vs : List Json}
    (h : items? (n + 1) cs = some (vs, rest)) : ∃ v after, value? n cs = some (v, after) ∧
      ((∃ body tail, skipBlanks after = some ',' :: body ∧ items? n body = some (tail, rest) ∧
          vs = v :: tail) ∨
        skipBlanks after = some ']' :: rest ∧ vs = [v]) := by
  rw [items?] at h
  split at h
  next => cases h
  next v after hvalue =>
    refine ⟨v, after, hvalue, ?_⟩
    split at h
    next body hafter =>
      obtain ⟨⟨tail, rest'⟩, htail, heq⟩ := Option.map_eq_some_iff.1 h
      cases heq
      exact .inl ⟨body, tail, hafter, htail, rfl⟩
    next hafter =>
      cases h
      exact .inr ⟨hafter, rfl⟩
    next => cases h

/-- The fields of an object are one key with its value, and behind it a comma and more
fields or the end. -/
theorem fields?_cases {n : ℕ} {cs rest : List Symbol} {gs : List (Option String × Json)}
    (h : Reader.fields? (n + 1) cs = some (gs, rest)) :
    ∃ body key afterKey content v after, skipBlanks cs = some '"' :: body ∧
      textBody? body = some (key, afterKey) ∧ skipBlanks afterKey = some ':' :: content ∧
      value? n content = some (v, after) ∧
      ((∃ more tail, skipBlanks after = some ',' :: more ∧
          Reader.fields? n more = some (tail, rest) ∧ gs = (key, v) :: tail) ∨
        skipBlanks after = some '\x7d' :: rest ∧ gs = [(key, v)]) := by
  rw [Reader.fields?] at h
  split at h
  case h_2 => cases h
  next body hcs =>
    split at h
    next => cases h
    next key afterKey hkey =>
      split at h
      case h_2 => cases h
      next content hcolon =>
        split at h
        next => cases h
        next v after hvalue =>
          refine ⟨body, key, afterKey, content, v, after, hcs, hkey, hcolon, hvalue, ?_⟩
          split at h
          next more hafter =>
            obtain ⟨⟨tail, rest'⟩, htail, heq⟩ := Option.map_eq_some_iff.1 h
            cases heq
            exact .inl ⟨more, tail, hafter, htail, rfl⟩
          next hafter =>
            cases h
            exact .inr ⟨hafter, rfl⟩
          next => cases h

/-- There is no value in blanks. -/
theorem value?_blanks (n : ℕ) {cs : List Symbol} (h : skipBlanks cs = []) : value? n cs = none := by
  cases n with
  | zero => rw [value?]
  | succ n =>
    rw [value?, h]
    rfl

theorem skipBlanks_ne_nil_of_items? {n : ℕ} {cs rest : List Symbol} {vs : List Json}
    (h : items? n cs = some (vs, rest)) : skipBlanks cs ≠ [] := by
  intro hnil
  cases n with
  | zero =>
    rw [items?] at h
    cases h
  | succ n =>
    obtain ⟨v, after, hvalue, -⟩ := items?_cases h
    rw [value?_blanks n hnil] at hvalue
    cases hvalue

theorem exists_quote_of_fields? {n : ℕ} {cs rest : List Symbol}
    {gs : List (Option String × Json)} (h : Reader.fields? n cs = some (gs, rest)) :
    ∃ ds, skipBlanks cs = some '"' :: ds := by
  cases n with
  | zero =>
    rw [Reader.fields?] at h
    cases h
  | succ n =>
    obtain ⟨body, -, -, -, -, -, hcs, -⟩ := fields?_cases h
    exact ⟨body, hcs⟩

/-- What is read with a budget of `n` is also read with a larger one and with more input
behind it.  Only a number at the end of the input could go on. -/
structure LocalWithin (n : ℕ) : Prop where
  /-- Values. -/
  value {cs : List Symbol} {v : Json} {rest : List Symbol} (h : value? n cs = some (v, rest))
    (hend : rest = [] → ∀ x, v ≠ .number x) {m : ℕ} (hm : n ≤ m) (more : List Symbol) :
    value? m (cs ++ more) = some (v, rest ++ more)
  /-- The items of a list. -/
  items {cs : List Symbol} {vs : List Json} {rest : List Symbol}
    (h : items? n cs = some (vs, rest)) {m : ℕ} (hm : n ≤ m) (more : List Symbol) :
    items? m (cs ++ more) = some (vs, rest ++ more)
  /-- The fields of an object. -/
  fields {cs : List Symbol} {gs : List (Option String × Json)} {rest : List Symbol}
    (h : Reader.fields? n cs = some (gs, rest)) {m : ℕ} (hm : n ≤ m) (more : List Symbol) :
    Reader.fields? m (cs ++ more) = some (gs, rest ++ more)

namespace LocalWithin

variable {n : ℕ} {cs : List Symbol} {rest : List Symbol}

/-- A value with a comma or a bracket behind it is not a number at the end. -/
theorem value_followed (ih : LocalWithin n) {v : Json} {after : List Symbol}
    (h : value? n cs = some (v, after)) {s : Symbol} {ds : List Symbol}
    (hafter : skipBlanks after = s :: ds) {m : ℕ} (hm : n ≤ m) (more : List Symbol) :
    value? m (cs ++ more) = some (v, after ++ more) := by
  refine ih.value h (fun hnil => ?_) hm more
  rw [hnil] at hafter
  cases hafter

theorem value_succ (ih : LocalWithin n) {v : Json} (h : value? (n + 1) cs = some (v, rest))
    (hend : rest = [] → ∀ x, v ≠ .number x) {m : ℕ} (hm : n ≤ m) (more : List Symbol) :
    value? (m + 1) (cs ++ more) = some (v, rest ++ more) := by
  rw [value?] at h
  split at h
  next hcs =>
    cases h
    rw [value?, skipBlanks_append_more hcs]
    rfl
  next hcs =>
    cases h
    rw [value?, skipBlanks_append_more hcs]
    rfl
  next hcs =>
    cases h
    rw [value?, skipBlanks_append_more hcs]
    rfl
  next body hcs =>
    obtain ⟨⟨s, rest'⟩, htext, heq⟩ := Option.map_eq_some_iff.1 h
    cases heq
    rw [value?, skipBlanks_append_more hcs]
    exact congrArg (Option.map _) (local_textBody? htext more)
  next body hcs =>
    rw [value?_append_more (m + 1) hcs (by decide) more]
    split at h
    next hbody =>
      cases h
      rw [value?, skipBlanks_of_not_blank (by decide)]
      simp only [skipBlanks_append_more hbody]
    next hbody =>
      obtain ⟨⟨vs, rest'⟩, hitems, heq⟩ := Option.map_eq_some_iff.1 h
      cases heq
      rw [items?_congr n (skipBlanks_skipBlanks body)] at hitems
      refine value?_list (fun ds hds => ?_) (ih.items hitems hm more)
      obtain ⟨s, tail, hbody'⟩ := List.exists_cons_of_ne_nil (skipBlanks_ne_nil_of_items? hitems)
      rw [skipBlanks_append_more hbody' more] at hds
      cases hds
      exact hbody tail hbody'
  next body hcs =>
    rw [value?_append_more (m + 1) hcs (by decide) more]
    split at h
    next hbody =>
      cases h
      rw [value?, skipBlanks_of_not_blank (by decide)]
      simp only [skipBlanks_append_more hbody]
    next hbody =>
      obtain ⟨⟨gs, rest'⟩, hfields, heq⟩ := Option.map_eq_some_iff.1 h
      cases heq
      rw [fields?_congr n (skipBlanks_skipBlanks body)] at hfields
      obtain ⟨ds, hds⟩ := exists_quote_of_fields? hfields
      exact value?_object ⟨_, skipBlanks_append_more hds more⟩ (ih.fields hfields hm more)
  next =>
    obtain ⟨⟨x, rest'⟩, hnumber, heq⟩ := Option.map_eq_some_iff.1 h
    cases heq
    have hrest : rest ≠ [] := fun hnil => hend hnil x rfl
    obtain ⟨c, tail, hcs, hc⟩ := exists_of_number? hnumber
    have hmore := localInside_number?.extend hnumber hrest more
    rw [hcs, List.cons_append] at hmore
    rw [value?_append_more (m + 1) hcs (not_isBlank_of_isSignOrDigit hc) more, value?_number hc,
      hmore, Option.map_some]

theorem items_succ (ih : LocalWithin n) {vs : List Json} (h : items? (n + 1) cs = some (vs, rest))
    {m : ℕ} (hm : n ≤ m) (more : List Symbol) :
    items? (m + 1) (cs ++ more) = some (vs, rest ++ more) := by
  obtain ⟨v, after, hvalue, ⟨body, tail, hafter, htail, rfl⟩ | ⟨hafter, rfl⟩⟩ := items?_cases h
  · exact items?_cons (ih.value_followed hvalue hafter hm more)
      (skipBlanks_append_more hafter more) (ih.items htail hm more)
  · exact items?_last (ih.value_followed hvalue hafter hm more)
      (skipBlanks_append_more hafter more)

theorem fields_succ (ih : LocalWithin n) {gs : List (Option String × Json)}
    (h : Reader.fields? (n + 1) cs = some (gs, rest)) {m : ℕ} (hm : n ≤ m) (more : List Symbol) :
    Reader.fields? (m + 1) (cs ++ more) = some (gs, rest ++ more) := by
  obtain ⟨body, key, afterKey, content, v, after, hcs, hkey, hcolon, hvalue, hnext⟩ :=
    fields?_cases h
  have hcs' := skipBlanks_append_more hcs more
  have hkey' := local_textBody? hkey more
  have hcolon' := skipBlanks_append_more hcolon more
  obtain ⟨body', tail, hafter, htail, rfl⟩ | ⟨hafter, rfl⟩ := hnext
  · exact fields?_cons hcs' hkey' hcolon' (ih.value_followed hvalue hafter hm more)
      (skipBlanks_append_more hafter more) (ih.fields htail hm more)
  · exact fields?_last hcs' hkey' hcolon' (ih.value_followed hvalue hafter hm more)
      (skipBlanks_append_more hafter more)

end LocalWithin

theorem localWithin (n : ℕ) : LocalWithin n := by
  induction n with
  | zero =>
    refine ⟨fun h => ?_, fun h => ?_, fun h => ?_⟩
    · rw [value?] at h
      cases h
    · rw [items?] at h
      cases h
    · rw [Reader.fields?] at h
      cases h
  | succ n ih =>
    refine ⟨fun h hend m hm => ?_, fun h m hm => ?_, fun h m hm => ?_⟩
    all_goals obtain ⟨m, rfl⟩ : ∃ k, m = k + 1 := ⟨m - 1, by omega⟩
    · exact ih.value_succ h hend (by omega)
    · exact ih.items_succ h (by omega)
    · exact ih.fields_succ h (by omega)

/-! ## Documents -/

/-- A value that is a number was read as one. -/
theorem number?_of_value? {n : ℕ} {cs rest : List Symbol} {x : JsonNumber}
    (h : value? n cs = some (.number x, rest)) : number? (skipBlanks cs) = some (x, rest) := by
  cases n with
  | zero =>
    rw [value?] at h
    cases h
  | succ n =>
    rw [value?] at h
    split at h
    case h_7 =>
      obtain ⟨p, hnumber, heq⟩ := Option.map_eq_some_iff.1 h
      cases heq
      exact hnumber
    all_goals try split at h
    all_goals first
      | cases h
      | obtain ⟨p, -, heq⟩ := Option.map_eq_some_iff.1 h
        cases heq

theorem exists_brace_of_object (fs : List (String × Outline)) :
    ∃ ds, ((Outline.object fs).render 0).map some = some '\x7b' :: ds := by
  cases fs with
  | nil => exact ⟨_, by rw [Outline.render]; rfl⟩
  | cons => exact ⟨_, by rw [Outline.render]; rfl⟩

/-- No strict prefix of an object is read as a document. -/
theorem ofSymbols?_prefix {fs : List (String × Outline)} {v : Json} (h : Reads (.object fs) v)
    {front : List Symbol} (hcut : front <+: ((Outline.object fs).render 0).map some)
    (hne : front ≠ ((Outline.object fs).render 0).map some) : ofSymbols? front = none := by
  obtain ⟨more, hwhole⟩ := hcut
  have hvalue := (within (2 * (front.length + more.length) + 1)).value h 0
    (by rw [← List.length_map some, ← hwhole, List.length_append]; omega) .nil
  rw [List.append_nil, ← hwhole] at hvalue
  rw [ofSymbols?]
  split
  case h_2 => rfl
  next v' rest hfront =>
    -- the document starts with a brace, so its prefix is not a number that could go on
    have hnumber (x : JsonNumber) : v' ≠ .number x := by
      rintro rfl
      obtain ⟨c, cs, hskip, hc⟩ := exists_of_number? (number?_of_value? hfront)
      have hskip' := skipBlanks_append_more hskip more
      obtain ⟨ds, hbrace⟩ := exists_brace_of_object fs
      rw [hwhole, hbrace, skipBlanks_of_not_blank (by decide)] at hskip'
      cases hskip'
      exact ne_of_isSignOrDigit hc (by decide) rfl
    have hmore := (localWithin _).value hfront (fun _ => hnumber)
      (by omega : _ ≤ 2 * (front.length + more.length) + 1) more
    rw [hvalue, Option.some.injEq, Prod.mk.injEq] at hmore
    have hnil : more = [] := (List.append_eq_nil_iff.1 hmore.2.symm).2
    rw [hnil, List.append_nil] at hwhole
    exact absurd hwhole hne

end GradientForest.Json
