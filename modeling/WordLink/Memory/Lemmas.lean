import WordLink.AddressMap.Lemmas
import WordLink.Memory

/-!
# What the operations do to a memory

Each operation as seen through `get?` and `word`: storing and marking touch one address, clearing
the flags leaves every word as it is. Two memories with the same cells are the same (`ext_get?`).
-/
namespace WordLink.Memory

theorem ext_get? {m n : Memory} (h : ∀ a, m.get? a = n.get? a) : m = n := by
  cases m
  cases n
  exact congrArg Memory.mk (AddressMap.ext_get? h)

theorem word_eq_getD (m : Memory) (a : Address) :
    m.word a = ((m.get? a).map Cell.data).getD 0 := by
  rw [word]
  cases m.get? a <;> rfl

theorem get?_empty (a : Address) : Memory.empty.get? a = none := rfl

theorem mem_toList_iff (m : Memory) (a : Address) (cell : Cell) :
    (a, cell) ∈ m.toList ↔ m.get? a = some cell :=
  AddressMap.mem_toList_iff ..

theorem get?_store (m : Memory) (a b : Address) (data : Word) :
    (m.store a data).get? b =
      if b = a then some (Cell.stored data (m.get? a)) else m.get? b :=
  AddressMap.get?_alter ..

theorem data_stored (data : Word) (former : Option Cell) :
    (Cell.stored data former).data = data := by
  cases former with
  | none => rfl
  | some cell =>
    simp only [Cell.stored]
    split
    · assumption
    · rfl

theorem word_store (m : Memory) (a b : Address) (data : Word) :
    (m.store a data).word b = if b = a then data else m.word b := by
  rw [word, get?_store]
  split
  · exact data_stored data _
  · rfl

theorem get?_mark (m : Memory) (a b : Address) :
    (m.mark a).get? b = if b = a then some ⟨m.word a, true⟩ else m.get? b := by
  have hm : Cell.marked (m.get? a) = ⟨m.word a, true⟩ := by
    rw [word]
    cases m.get? a <;> rfl
  rw [← hm]
  exact AddressMap.get?_alter ..

theorem word_mark (m : Memory) (a b : Address) : (m.mark a).word b = m.word b := by
  rw [word, get?_mark]
  split
  · rename_i h
    subst h
    rfl
  · rfl

theorem toList_markAt (m : Memory) (i : Nat) :
    (m.markAt i).toList = m.toList.modify i fun e => (e.1, { e.2 with dirty := true }) :=
  AddressMap.toList_modifyAt ..

theorem addresses_markAt (m : Memory) (i : Nat) : (m.markAt i).addresses = m.addresses := by
  apply List.ext_getElem?
  intro j
  simp only [addresses, toList_markAt, List.getElem?_map, List.getElem?_modify]
  cases m.toList[j]? with
  | none => rfl
  | some e => by_cases h : i = j <;> simp [h]

theorem get?_markAt (m : Memory) (i : Nat) (a : Address) :
    (m.markAt i).get? a = if m.addresses[i]? = some a then some ⟨m.word a, true⟩ else m.get? a := by
  split
  · rename_i h
    obtain ⟨⟨b, cell⟩, hi, rfl⟩ : ∃ e, m.toList[i]? = some e ∧ e.1 = a := by
      simpa [addresses] using h
    have hm := (mem_toList_iff m b cell).mp (List.mem_of_getElem? hi)
    rw [word, hm]
    apply (mem_toList_iff ..).mp
    apply List.mem_of_getElem? (i := i)
    simp [toList_markAt, hi]
  · rename_i h
    apply Option.ext
    intro cell
    rw [← mem_toList_iff, ← mem_toList_iff, toList_markAt, List.mem_iff_getElem?,
      List.mem_iff_getElem?]
    refine exists_congr fun j => ?_
    rw [List.getElem?_modify]
    by_cases hij : i = j
    · subst hij
      simp only [addresses, List.getElem?_map] at h
      cases he : m.toList[i]? with
      | none => simp
      | some e =>
        have hne : e.1 ≠ a := by
          rintro rfl
          exact h (by rw [he]; rfl)
        simp [Prod.ext_iff, hne]
    · simp [hij]

theorem word_markAt (m : Memory) (i : Nat) (a : Address) : (m.markAt i).word a = m.word a := by
  rw [word, get?_markAt]
  split <;> rfl

theorem eq_of_ascending {xs ys : List Address} (hx : xs.Pairwise (· < ·))
    (hy : ys.Pairwise (· < ·)) (h : ∀ a, a ∈ xs ↔ a ∈ ys) : xs = ys := by
  have hne {zs : List Address} (hz : zs.Pairwise (· < ·)) : zs.Nodup := hz.imp UInt16.ne_of_lt
  refine ((List.perm_ext_iff_of_nodup (hne hx) (hne hy)).mpr h).eq_of_pairwise ?_ hx hy
  intro a b _ _ hab hba
  exact absurd (UInt16.lt_trans hab hba) (UInt16.lt_irrefl a)

theorem addresses_ascending (m : Memory) : m.addresses.Pairwise (· < ·) := by
  rw [addresses, List.pairwise_map]
  exact m.cells.ascending

theorem size_eq (m : Memory) : m.size = m.addresses.length := by
  rw [addresses, List.length_map]
  exact (AddressMap.length_toList _).symm

theorem mem_addresses_iff (m : Memory) (a : Address) : a ∈ m.addresses ↔ m.get? a ≠ none := by
  rw [Option.ne_none_iff_exists']
  simp [addresses, mem_toList_iff]

/-- What a test over the stored addresses says. -/
theorem forall_of_all_addresses {m : Memory} {p : Address → Bool} (h : m.addresses.all p = true) :
    ∀ a, m.get? a ≠ none → p a = true :=
  fun a ha => List.all_eq_true.mp h a ((mem_addresses_iff ..).mpr ha)

theorem mem_dirtyAddresses_iff (m : Memory) (a : Address) :
    a ∈ m.dirtyAddresses ↔ m.Changed a := by
  simp only [dirtyAddresses, Changed, List.mem_map, List.mem_filter]
  constructor
  · rintro ⟨⟨b, data, dirty⟩, ⟨hm, hd⟩, rfl⟩
    exact ⟨data, by rw [← show dirty = true from hd]; exact (mem_toList_iff ..).mp hm⟩
  · rintro ⟨data, h⟩
    exact ⟨(a, ⟨data, true⟩), ⟨(mem_toList_iff ..).mpr h, rfl⟩, rfl⟩

theorem dirtyAddresses_ascending (m : Memory) : m.dirtyAddresses.Pairwise (· < ·) := by
  rw [dirtyAddresses, List.pairwise_map]
  exact m.cells.ascending.sublist List.filter_sublist

theorem get?_settle (m : Memory) (a : Address) :
    m.settle.get? a = (m.get? a).map fun cell => { cell with dirty := false } :=
  AddressMap.get?_map ..

theorem word_settle (m : Memory) (a : Address) : m.settle.word a = m.word a := by
  rw [word, get?_settle, word]
  cases m.get? a <;> rfl

end WordLink.Memory
