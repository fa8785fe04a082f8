import Mathlib.Data.List.Basic
import GradientForest.Text.FileName

/-!
# Extensions of paths

What has no slash stays in one part of a path (`FileName.exists_parts_append`).  So if a path
ends in a dot and a word, and the character before the dot belongs to the same part, the word
is the extension (`FileName.extension?_eq`).
-/

namespace GradientForest.FileName

theorem parts_eq_singleton {cs : List Char} (h : '/' ∉ cs) : parts cs = [cs] := by
  induction cs with
  | nil => rfl
  | cons c cs ih =>
    obtain ⟨hc, hcs⟩ := List.ne_and_not_mem_of_not_mem_cons h
    rw [parts, ih hcs]
    exact if_neg hc.symm

/-- What has no slash stays together at the end of the last part. -/
theorem exists_parts_append (front : List Char) {back : List Char} (h : '/' ∉ back) :
    ∃ before name, parts (front ++ back) = before ++ [name ++ back] := by
  induction front with
  | nil => exact ⟨[], [], parts_eq_singleton h⟩
  | cons c front ih =>
    obtain ⟨before, name, hparts⟩ := ih
    by_cases hc : c = '/'
    · refine ⟨[] :: before, name, ?_⟩
      rw [List.cons_append, parts, hparts]
      cases before <;> exact if_pos hc
    · cases before with
      | nil =>
        refine ⟨[], c :: name, ?_⟩
        rw [List.cons_append, parts, hparts]
        exact if_neg hc
      | cons p before =>
        refine ⟨(c :: p) :: before, name, ?_⟩
        rw [List.cons_append, parts, hparts]
        exact if_neg hc

/-- A last part with more than two characters is a name. -/
theorem name?_eq {path : List Char} {before : List (List Char)} {name : List Char}
    (hparts : parts path = before ++ [name]) (hlong : 2 < name.length) :
    name? path = some name := by
  have hne {short : List Char} (hshort : short.length ≤ 2) : name ≠ short := by
    rintro rfl
    exact Nat.not_lt.2 hshort hlong
  have hkept : decide (name ≠ [] ∧ name ≠ ['.']) = true :=
    decide_eq_true ⟨hne (by decide), hne (by decide)⟩
  rw [name?, hparts, List.filter_append, List.filter_singleton, hkept, cond_true,
    List.getLast?_concat]
  exact if_neg (hne (by decide))

theorem extensionOfName?_eq {name e : List Char} (hname : name ≠ []) (hdot : '.' ∉ e) :
    extensionOfName? (name ++ '.' :: e) = some e := by
  have hafter : ((name ++ '.' :: e).reverse.takeWhile (· ≠ '.')).reverse = e := by
    have hall : ∀ c ∈ e.reverse, decide (c ≠ '.') = true := by
      intro c hc
      rw [decide_eq_true_eq]
      rintro rfl
      exact hdot (List.mem_reverse.1 hc)
    rw [List.reverse_append, List.reverse_cons, List.append_assoc,
      List.takeWhile_append_of_pos hall, List.singleton_append,
      List.takeWhile_cons_of_neg (by simp), List.append_nil, List.reverse_reverse]
  have hlength : e.length + 1 < (name ++ '.' :: e).length := by
    have hpos := List.length_pos_of_ne_nil hname
    rw [List.length_append, List.length_cons]
    omega
  rw [extensionOfName?, hafter]
  exact if_pos hlength

/-- The extension of a path stands behind its last dot, when some name stands before it. -/
theorem extension?_eq {path : String} {front : List Char} {c : Char} {e : List Char}
    (hpath : path.toList = front ++ c :: '.' :: e) (hc : c ≠ '/') (hne : e ≠ [])
    (hslash : '/' ∉ e) (hdot : '.' ∉ e) : extension? path = some (.ofList e) := by
  have hback : '/' ∉ c :: '.' :: e := by simp [hc.symm, hslash]
  obtain ⟨before, name, hparts⟩ := exists_parts_append front hback
  have hlong : 2 < (name ++ c :: '.' :: e).length := by
    have hpos := List.length_pos_of_ne_nil hne
    simp only [List.length_append, List.length_cons]
    omega
  rw [extension?, hpath, name?_eq hparts hlong, Option.bind_some, List.append_cons,
    extensionOfName?_eq (by simp) hdot, Option.map_some]

end GradientForest.FileName
