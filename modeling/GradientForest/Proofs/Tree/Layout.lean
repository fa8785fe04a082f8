import GradientForest.Proofs.Tree.Nested

/-!
# Laying out a nested tree with a queue

`layout` empties a queue of trees.  The tree in front leaves with its distance
to its children, and its children join the queue at the end.  The queue has as
many trees in front of the children as there will be columns in between, so the
distances are known without looking at the columns ahead.

`levelOrder_eq_layout` says that the trees leave in level order, and
`flatten_eq_layout` that the distances are those of the flat tree.  The lemmas in
between place every subtree: `layout_child` finds the children of a column,
`layout_parent` finds the column that a child comes from, and `layout_ordered`
says that the numbers increase along the columns.
-/

namespace GradientForest

namespace NestedTree

variable {α : Type} {n : ℕ}

theorem sum_size_children_lt (t : NestedTree α n) : (t.children.map size).sum < t.size := by
  cases t <;> simp [children, size]

/-- The order in which a queue of trees empties, each tree with its distance to
its children. -/
def layout : List (NestedTree α n) → List (NestedTree α n × ℕ)
  | [] => []
  | t :: ts => (t, ts.length + 1) :: layout (ts ++ t.children)
termination_by ts => (ts.map size).sum
decreasing_by
  have := sum_size_children_lt t
  simp only [List.map_append, List.sum_append, List.map_cons, List.sum_cons]
  omega

@[simp] theorem layout_nil : layout ([] : List (NestedTree α n)) = [] := by rw [layout]

theorem layout_cons (t : NestedTree α n) (ts : List (NestedTree α n)) :
    layout (t :: ts) = (t, ts.length + 1) :: layout (ts ++ t.children) := by rw [layout]

/-- The front part of a queue leaves first, and its children queue up behind the
rest. -/
theorem layout_append (ts us : List (NestedTree α n)) :
    (layout (ts ++ us)).map Prod.fst =
      ts ++ (layout (us ++ ts.flatMap children)).map Prod.fst := by
  induction ts generalizing us with
  | nil => simp
  | cons t ts ih =>
    rw [List.cons_append, layout_cons, List.append_assoc, List.map_cons, ih, List.flatMap_cons,
      List.append_assoc, List.cons_append]

/-- The whole queue leaves first, and then all its children. -/
theorem layout_children (ts : List (NestedTree α n)) :
    (layout ts).map Prod.fst = ts ++ (layout (ts.flatMap children)).map Prod.fst := by
  have h := layout_append ts []
  rwa [List.append_nil, List.nil_append] at h

/-! ## The trees leave in level order -/

/-- A queue of trees leaves row by row. -/
theorem layout_eq_rows (h : ℕ) (ts : List (NestedTree α n)) (hts : ∀ t ∈ ts, t.height ≤ h) :
    (layout ts).map Prod.fst = (List.range h).flatMap fun k => ts.flatMap (·.row k) := by
  induction h generalizing ts with
  | zero =>
    have hnil : ts = [] := by
      refine List.eq_nil_iff_forall_not_mem.2 fun t ht => ?_
      have hle := hts t ht
      have hpos := t.height_pos
      omega
    simp [hnil]
  | succ h ih =>
    have hchildren : ∀ s ∈ ts.flatMap children, s.height ≤ h := by
      intro s hs
      obtain ⟨t, ht, hst⟩ := List.mem_flatMap.1 hs
      have hle := hts t ht
      have hlt := height_le_of_mem_children hst
      omega
    have hrow : ∀ k, (ts.flatMap children).flatMap (·.row k) = ts.flatMap (·.row (k + 1)) := by
      intro k
      simp only [List.flatMap_assoc, row_succ]
    rw [layout_children, ih _ hchildren, List.range_succ_eq_map, List.flatMap_cons,
      List.flatMap_map]
    simp only [hrow, row_zero, List.flatMap_singleton']

theorem levelOrder_eq_layout (t : NestedTree α n) :
    t.levelOrder = (layout [t]).map Prod.fst := by
  rw [layout_eq_rows t.height [t] (by simp), levelOrder]
  simp

/-! ## Columns -/

/-- The queue takes as many columns as its trees have nodes. -/
theorem length_layout (ts : List (NestedTree α n)) : (layout ts).length = (ts.map size).sum := by
  induction ts using layout.induct with
  | case1 => simp
  | case2 t ts ih =>
    have hsize : (t.children.map size).sum + 1 = t.size := by
      cases t <;> simp [children, size]
    rw [layout_cons, List.length_cons, ih]
    simp only [List.map_append, List.sum_append, List.map_cons, List.sum_cons]
    omega

/-- What holds of the trees of a queue and passes to children holds of every tree
that leaves. -/
theorem forall_mem_layout {P : NestedTree α n → Prop}
    (hchild : ∀ t, P t → ∀ s ∈ t.children, P s) (ts : List (NestedTree α n))
    (hts : ∀ t ∈ ts, P t) : ∀ e ∈ layout ts, P e.1 := by
  induction ts using layout.induct with
  | case1 => simp
  | case2 t ts ih =>
    have ht : P t := hts t List.mem_cons_self
    have hnext : ∀ s ∈ ts ++ t.children, P s := by
      intro s hs
      rcases List.mem_append.1 hs with hs | hs
      · exact hts s (List.mem_cons_of_mem _ hs)
      · exact hchild t ht s hs
    intro e he
    rw [layout_cons] at he
    rcases List.mem_cons.1 he with rfl | he
    · exact ht
    · exact ih hnext e he

/-- Children stand strictly behind their parent. -/
theorem distance_pos {ts : List (NestedTree α n)} {e : NestedTree α n × ℕ} (h : e ∈ layout ts) :
    0 < e.2 := by
  induction ts using layout.induct with
  | case1 => simp at h
  | case2 t ts ih =>
    rw [layout_cons] at h
    rcases List.mem_cons.1 h with rfl | h
    · exact Nat.succ_pos _
    · exact ih h

/-- A tree of the queue leaves at its place in the queue. -/
theorem layout_front {ts : List (NestedTree α n)} {j : ℕ} {t : NestedTree α n}
    (h : ts[j]? = some t) : ∃ o, (layout ts)[j]? = some (t, o) := by
  have hj : j < ts.length := (List.getElem?_eq_some_iff.1 h).1
  have hmap : ((layout ts).map Prod.fst)[j]? = some t := by
    rw [layout_children, List.getElem?_append_left hj, h]
  rw [List.getElem?_map] at hmap
  obtain ⟨⟨s, o⟩, hs, rfl⟩ := Option.map_eq_some_iff.1 hmap
  exact ⟨o, hs⟩

/-- The children of a column stand at its distance, one after another. -/
theorem layout_child {ts : List (NestedTree α n)} {c o : ℕ} {s : NestedTree α n}
    (h : (layout ts)[c]? = some (s, o)) {j : ℕ} {k : NestedTree α n}
    (hk : s.children[j]? = some k) : ∃ o', (layout ts)[c + o + j]? = some (k, o') := by
  induction ts using layout.induct generalizing c with
  | case1 => simp at h
  | case2 t ts ih =>
    rw [layout_cons] at h ⊢
    cases c with
    | zero =>
      rw [List.getElem?_cons_zero, Option.some.injEq, Prod.mk.injEq] at h
      obtain ⟨rfl, rfl⟩ := h
      -- the children are in the queue already, behind the trees that waited
      have hqueue : (ts ++ t.children)[ts.length + j]? = some k := by
        rw [List.getElem?_append_right (Nat.le_add_right _ _), Nat.add_sub_cancel_left, hk]
      obtain ⟨o', ho'⟩ := layout_front hqueue
      refine ⟨o', ?_⟩
      rw [show 0 + (ts.length + 1) + j = ts.length + j + 1 by omega, List.getElem?_cons_succ, ho']
    | succ c =>
      rw [List.getElem?_cons_succ] at h
      obtain ⟨o', ho'⟩ := ih h
      refine ⟨o', ?_⟩
      rw [show c + 1 + o + j = c + o + j + 1 by omega, List.getElem?_cons_succ, ho']

/-- Every column behind the queue holds a child of an earlier column. -/
theorem layout_parent {ts : List (NestedTree α n)} {c o : ℕ} {k : NestedTree α n}
    (h : (layout ts)[c]? = some (k, o)) (hc : ts.length ≤ c) :
    ∃ p s d j, p < c ∧ (layout ts)[p]? = some (s, d) ∧ s.children[j]? = some k ∧
      c = p + d + j := by
  induction ts using layout.induct generalizing c with
  | case1 => simp at h
  | case2 t ts ih =>
    rw [layout_cons] at h ⊢
    cases c with
    | zero => simp at hc
    | succ c =>
      rw [List.getElem?_cons_succ] at h
      rw [List.length_cons] at hc
      by_cases hqueue : c < (ts ++ t.children).length
      · -- the column holds one of the children that have just joined
        obtain ⟨o', ho'⟩ := layout_front (List.getElem?_eq_getElem hqueue)
        rw [h, Option.some.injEq, Prod.mk.injEq] at ho'
        have hbehind : (ts ++ t.children)[c]? = t.children[c - ts.length]? :=
          List.getElem?_append_right (by omega)
        refine ⟨0, t, ts.length + 1, c - ts.length, by omega, rfl, ?_, by omega⟩
        rw [← hbehind, List.getElem?_eq_getElem hqueue, ho'.1]
      · obtain ⟨p, s, d, j, hp, hs, hk, rfl⟩ := ih h (by omega)
        exact ⟨p + 1, s, d, j, by omega, by simpa using hs, hk, by omega⟩

/-- There is one node more than splits lead to, so the columns and the queue
together count twice the leaves. -/
theorem length_layout_add (ts : List (NestedTree α n)) :
    (layout ts).length + ts.length = 2 * (layout ts).countP fun e => e.1.children.isEmpty := by
  induction ts using layout.induct with
  | case1 => simp
  | case2 t ts ih =>
    rw [List.length_append] at ih
    rw [layout_cons, List.length_cons, List.length_cons, List.countP_cons]
    cases t with
    | leaf =>
      simp only [children, List.length_nil, List.isEmpty_nil, if_true] at ih ⊢
      omega
    | split =>
      simp only [children, List.length_cons, List.length_nil, List.isEmpty_cons,
        Bool.false_eq_true, if_false] at ih ⊢
      omega

/-! ## Numbers increase along the columns -/

/-- The numbers of a queue increase, and the last one is below the children of
the first one.  The queues that come up while a tree is laid out are like this. -/
structure Staggered (ts : List (NestedTree α n)) : Prop where
  /-- The numbers increase. -/
  ordered : ts.Pairwise fun s t => (s.id : ℕ) < t.id
  /-- No number reaches the children of another. -/
  close : ∀ s ∈ ts, ∀ t ∈ ts, (t.id : ℕ) < 2 * s.id
  /-- The trees are numbered. -/
  numbered : ∀ t ∈ ts, t.Numbered

theorem staggered_singleton {t : NestedTree α n} (ht : t.Numbered) : Staggered [t] where
  ordered := List.pairwise_singleton _ _
  close := by
    have := t.id.pos
    simp only [List.mem_singleton, forall_eq]
    omega
  numbered := by simpa using ht

/-- A tree that leaves and puts its children at the end leaves a staggered queue. -/
theorem Staggered.next {t : NestedTree α n} {ts : List (NestedTree α n)}
    (h : Staggered (t :: ts)) : Staggered (ts ++ t.children) := by
  obtain ⟨hfirst, hts⟩ := List.pairwise_cons.1 h.ordered
  have ht : t.Numbered := h.numbered t List.mem_cons_self
  have hlast : ∀ s ∈ ts, (s.id : ℕ) < 2 * t.id := fun s hs =>
    h.close t List.mem_cons_self s (List.mem_cons_of_mem _ hs)
  have hchild : ∀ s ∈ t.children, 2 * (t.id : ℕ) ≤ s.id ∧ (s.id : ℕ) ≤ 2 * t.id + 1 :=
    fun s hs => id_of_mem_children ht hs
  have hpos := t.id.pos
  refine ⟨?_, ?_, ?_⟩
  · refine List.pairwise_append.2 ⟨hts, children_ordered ht, fun s hs u hu => ?_⟩
    have hs' := hlast s hs
    have hu' := hchild u hu
    omega
  · intro s hs u hu
    rcases List.mem_append.1 hs with hs | hs <;> rcases List.mem_append.1 hu with hu | hu
    · exact h.close s (List.mem_cons_of_mem _ hs) u (List.mem_cons_of_mem _ hu)
    · have hs' := hfirst s hs
      have hu' := hchild u hu
      omega
    · have hs' := hchild s hs
      have hu' := hlast u hu
      omega
    · have hs' := hchild s hs
      have hu' := hchild u hu
      omega
  · intro s hs
    rcases List.mem_append.1 hs with hs | hs
    · exact h.numbered s (List.mem_cons_of_mem _ hs)
    · exact numbered_of_mem_children ht hs

/-- The numbers increase along the columns of a staggered queue. -/
theorem layout_ordered {ts : List (NestedTree α n)} (h : Staggered ts) :
    (layout ts).Pairwise fun a b => (a.1.id : ℕ) < b.1.id := by
  induction ts using layout.induct with
  | case1 => simp
  | case2 t ts ih =>
    have hbehind : ∀ e ∈ layout (ts ++ t.children), (t.id : ℕ) < e.1.id ∧ e.1.Numbered := by
      refine forall_mem_layout (P := fun s => (t.id : ℕ) < s.id ∧ s.Numbered) ?_ _ ?_
      · intro s ⟨hlt, hs⟩ u hu
        have hu' := id_of_mem_children hs hu
        exact ⟨by omega, numbered_of_mem_children hs hu⟩
      · intro s hs
        refine ⟨?_, h.next.numbered s hs⟩
        rcases List.mem_append.1 hs with hs | hs
        · exact (List.pairwise_cons.1 h.ordered).1 s hs
        · have hs' := id_of_mem_children (h.numbered t List.mem_cons_self) hs
          have hpos := t.id.pos
          omega
    rw [layout_cons, List.pairwise_cons]
    exact ⟨fun e he => (hbehind e he).1, ih h.next⟩

/-! ## The distances are those of the flat tree -/

/-- The number of a column finds the column. -/
theorem columnOf_eq {t : NestedTree α n} (ht : t.Numbered) {c o : ℕ} {s : NestedTree α n}
    (h : (layout [t])[c]? = some (s, o)) : t.columnOf s.id = c := by
  have hids : t.levelOrder.map NestedTree.id = (layout [t]).map fun e => e.1.id := by
    rw [levelOrder_eq_layout, List.map_map]
    rfl
  have hnodup : ((layout [t]).map fun e => e.1.id).Nodup := by
    rw [List.nodup_iff_pairwise_ne, List.pairwise_map]
    refine (layout_ordered (staggered_singleton ht)).imp fun hlt heq => ?_
    rw [heq] at hlt
    exact Nat.lt_irrefl _ hlt
  obtain ⟨hc, hs⟩ := List.getElem?_eq_some_iff.1 h
  have hlength : c < ((layout [t]).map fun e => e.1.id).length := by simpa using hc
  have hid : ((layout [t]).map fun e => e.1.id)[c] = s.id := by
    rw [List.getElem_map, hs]
  rw [columnOf, hids, ← hid, hnodup.idxOf_getElem]

/-- The queue lays a numbered tree out as its flat tree. -/
theorem flatten_eq_layout (treeId : UInt64) {t : NestedTree α n} (ht : t.Numbered) :
    t.flatten treeId = (layout [t]).map fun e => e.1.toNode treeId e.2 := by
  refine List.ext_getElem? fun c => ?_
  rw [flatten, levelOrder_eq_layout, List.getElem?_mapIdx, List.getElem?_map, List.getElem?_map,
    Option.map_map]
  cases h : (layout [t])[c]? with
  | none => rfl
  | some e =>
    obtain ⟨s, o⟩ := e
    cases s with
    | leaf => rfl
    | split id test left right =>
      obtain ⟨o', ho'⟩ := layout_child h (j := 0) (k := left) rfl
      have hcolumn : t.columnOf left.id = c + o := columnOf_eq ht ho'
      simp [distance, hcolumn]

end NestedTree

end GradientForest
