import WordLink.AddressMap

/-!
# What the operations do to a map

The entries of an altered map are the ones below the address, the new one and the ones above
(`toList_alter`). Looked at through `get?`, `alter` touches one address (`get?_alter`), and a map
is determined by what `get?` gives (`ext_get?`).
-/
namespace WordLink.AddressMap

variable {α β : Type}

theorem toList_injective {m n : AddressMap α} (h : m.toList = n.toList) : m = n := by
  cases m
  cases n
  simpa [toList, Array.toList_inj] using h

theorem length_toList (m : AddressMap α) : m.toList.length = m.size := by
  simp [toList, size]

theorem filter_below (m : AddressMap α) (a : Address) :
    m.toList.filter (fun e => e.1 < a) = m.toList.take (m.rank a) := by
  conv => lhs; rw [← List.take_append_drop (m.rank a) m.toList]
  rw [List.filter_append, List.filter_eq_self.mpr, List.filter_eq_nil_iff.mpr, List.append_nil]
  · intro e he
    simpa [UInt16.not_lt] using m.le_of_mem_drop_rank he
  · intro e he
    simpa using m.lt_of_mem_take_rank he

/-- Behind the entries below an address comes its own entry, if there is one, then the others. -/
theorem drop_rank_eq (m : AddressMap α) (a : Address) :
    m.toList.drop (m.rank a) =
      ((m.get? a).map (Prod.mk a)).toList ++ m.toList.filter (fun e => a < e.1) := by
  have hfilter : m.toList.filter (fun e => a < e.1) =
      (m.toList.drop (m.rank a)).filter (fun e => a < e.1) := by
    conv => lhs; rw [← List.take_append_drop (m.rank a) m.toList]
    rw [List.filter_append, List.filter_eq_nil_iff.mpr, List.nil_append]
    intro e he
    simpa [UInt16.not_lt] using UInt16.le_of_lt (m.lt_of_mem_take_rank he)
  have hget : m.entries[m.rank a]? = (m.toList.drop (m.rank a)).head? := by
    rw [List.head?_drop, toList, Array.getElem?_toList]
  have hle := fun e => m.le_of_mem_drop_rank (a := a) (e := e)
  have hasc : Ascending (m.toList.drop (m.rank a)) := m.ascending.sublist (List.drop_sublist _ _)
  rw [hfilter, get?, hget]
  cases hd : m.toList.drop (m.rank a) with
  | nil => rfl
  | cons e rest =>
    rw [hd] at hle hasc
    have hrest : ∀ d ∈ rest, a < d.1 := fun d hdm =>
      UInt16.lt_of_le_of_lt (hle e List.mem_cons_self) (List.rel_of_pairwise_cons hasc hdm)
    have hkeep : rest.filter (fun d => a < d.1) = rest :=
      List.filter_eq_self.mpr fun d hdm => by simpa using hrest d hdm
    obtain ⟨b, x⟩ := e
    by_cases hb : b = a
    · subst hb
      simp [hkeep]
    · have hlt : a < b := UInt16.lt_of_le_of_ne (hle _ List.mem_cons_self) (Ne.symm hb)
      simp [hb, hlt, hkeep]

theorem toList_eq (m : AddressMap α) (a : Address) :
    m.toList = m.toList.filter (fun e => e.1 < a) ++
      (((m.get? a).map (Prod.mk a)).toList ++ m.toList.filter (fun e => a < e.1)) := by
  rw [filter_below, ← drop_rank_eq, List.take_append_drop]

theorem toList_alter (m : AddressMap α) (a : Address) (f : Option α → α) :
    (m.alter a f).toList = m.toList.filter (fun e => e.1 < a) ++
      (a, f (m.get? a)) :: m.toList.filter (fun e => a < e.1) := by
  have hle : m.rank a ≤ m.toList.length := by simpa [toList] using m.rank_le_size a
  have hdrop := m.drop_rank_eq a
  rw [filter_below]
  unfold alter
  split
  · rename_i b x hi
    have hi' : m.toList[m.rank a]? = some (b, x) := by
      rwa [toList, Array.getElem?_toList]
    split
    · rename_i hb
      subst hb
      have hget : m.get? b = some x := by simp [get?, hi]
      have hlt := (List.getElem?_eq_some_iff.mp hi').1
      rw [hget] at hdrop ⊢
      rw [List.drop_eq_getElem_cons hlt] at hdrop
      simp only [Option.map_some, Option.toList_some, List.singleton_append,
        List.cons.injEq] at hdrop
      change (m.entries.setIfInBounds (m.rank b) (b, f (some x))).toList = _
      rw [Array.toList_setIfInBounds, ← toList, List.set_eq_take_append_cons_drop, if_pos hlt,
        ← hdrop.2]
    · rename_i hb
      have hget : m.get? a = none := by simp [get?, hi, hb]
      rw [hget] at hdrop ⊢
      change (m.entries.insertIdx (m.rank a) (a, f none) (m.rank_le_size a)).toList = _
      rw [Array.toList_insertIdx, ← toList, insertIdx_eq _ _ _ hle]
      simpa using hdrop
  · rename_i hi
    have hget : m.get? a = none := by simp [get?, hi]
    rw [hget] at hdrop ⊢
    change (m.entries.insertIdx (m.rank a) (a, f none) (m.rank_le_size a)).toList = _
    rw [Array.toList_insertIdx, ← toList, insertIdx_eq _ _ _ hle]
    simpa using hdrop

theorem mem_toList_iff (m : AddressMap α) (a : Address) (x : α) :
    (a, x) ∈ m.toList ↔ m.get? a = some x := by
  rw [m.toList_eq a]
  simp only [List.mem_append, List.mem_filter, decide_eq_true_eq, UInt16.lt_irrefl, and_false,
    or_false, false_or, Option.mem_toList, Option.map_eq_some_iff, Prod.mk.injEq, true_and,
    exists_eq_right]

theorem get?_alter (m : AddressMap α) (a b : Address) (f : Option α → α) :
    (m.alter a f).get? b = if b = a then some (f (m.get? a)) else m.get? b := by
  apply Option.ext
  intro x
  rw [← mem_toList_iff, toList_alter]
  split
  · rename_i h
    subst h
    simp [UInt16.lt_irrefl, eq_comm]
  · rename_i h
    rw [← mem_toList_iff]
    simp only [List.mem_append, List.mem_cons, List.mem_filter, decide_eq_true_eq, Prod.mk.injEq,
      h, false_and, false_or]
    constructor
    · rintro (⟨hm, -⟩ | ⟨hm, -⟩) <;> exact hm
    · intro hm
      by_cases hlt : b < a
      · exact .inl ⟨hm, hlt⟩
      · exact .inr ⟨hm, UInt16.lt_of_le_of_ne (UInt16.not_lt.mp hlt) (Ne.symm h)⟩

theorem toList_map (f : α → β) (m : AddressMap α) :
    (m.map f).toList = m.toList.map fun e => (e.1, f e.2) := by
  simp [map, toList]

theorem get?_map (f : α → β) (m : AddressMap α) (a : Address) :
    (m.map f).get? a = (m.get? a).map f := by
  apply Option.ext
  intro y
  rw [← mem_toList_iff, toList_map, List.mem_map, Option.map_eq_some_iff]
  simp only [Prod.mk.injEq, Prod.exists]
  constructor
  · rintro ⟨b, x, hm, rfl, rfl⟩
    exact ⟨x, (m.mem_toList_iff b x).mp hm, rfl⟩
  · rintro ⟨x, hm, rfl⟩
    exact ⟨a, x, (m.mem_toList_iff a x).mpr hm, rfl, rfl⟩

theorem toList_modifyAt (m : AddressMap α) (i : Nat) (f : α → α) :
    (m.modifyAt i f).toList = m.toList.modify i fun e => (e.1, f e.2) := by
  simp [modifyAt, toList]

theorem Ascending.eq_of_mem_iff {xs ys : List (Address × α)} (hx : Ascending xs)
    (hy : Ascending ys) (h : ∀ e, e ∈ xs ↔ e ∈ ys) : xs = ys := by
  induction xs generalizing ys with
  | nil =>
    cases ys with
    | nil => rfl
    | cons y ys => exact absurd ((h y).mpr List.mem_cons_self) (by simp)
  | cons x xs ih =>
    cases ys with
    | nil => exact absurd ((h x).mp List.mem_cons_self) (by simp)
    | cons y ys =>
      have below : ∀ e ∈ xs, x.1 < e.1 := fun _ he => List.rel_of_pairwise_cons hx he
      have below' : ∀ e ∈ ys, y.1 < e.1 := fun _ he => List.rel_of_pairwise_cons hy he
      have hxy : x = y := by
        rcases List.mem_cons.mp ((h x).mp List.mem_cons_self) with rfl | hxy
        · rfl
        · rcases List.mem_cons.mp ((h y).mpr List.mem_cons_self) with rfl | hyx
          · rfl
          · exact absurd (UInt16.lt_trans (below y hyx) (below' x hxy)) (UInt16.lt_irrefl _)
      subst hxy
      refine congrArg (x :: ·) (ih hx.tail hy.tail fun e => ?_)
      have he := h e
      simp only [List.mem_cons] at he
      constructor
      · intro hm
        refine (he.mp (.inr hm)).resolve_left ?_
        rintro rfl
        exact UInt16.lt_irrefl _ (below e hm)
      · intro hm
        refine (he.mpr (.inr hm)).resolve_left ?_
        rintro rfl
        exact UInt16.lt_irrefl _ (below' e hm)

theorem ext_get? {m n : AddressMap α} (h : ∀ a, m.get? a = n.get? a) : m = n := by
  refine toList_injective (Ascending.eq_of_mem_iff m.ascending n.ascending ?_)
  rintro ⟨a, x⟩
  exact (m.mem_toList_iff a x).trans (h a ▸ (n.mem_toList_iff a x).symm)

end WordLink.AddressMap
