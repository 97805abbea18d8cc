import WordLink.Proofs.Connection

/-!
# What a memory contains

A memory keeps its words in one array, in order of address, and finds them by bisection. Nothing of
this shows: whatever is done to it, a memory reads as a map from addresses to cells to which the
same has been done, and the map determines the memory (`refines_map`).
-/
namespace WordLink

/-! ### All addresses -/

def allAddresses : List Address := (List.range UInt16.size).map UInt16.ofNat

theorem mem_allAddresses (a : Address) : a ∈ allAddresses :=
  List.mem_map.mpr ⟨a.toNat, List.mem_range.mpr a.toNat_lt, UInt16.ofNat_toNat⟩

theorem allAddresses_ascending : allAddresses.Pairwise (· < ·) := by
  refine List.pairwise_map.mpr (List.pairwise_lt_range.imp_of_mem ?_)
  intro i j hi hj hij
  have hi : i < UInt16.size := List.mem_range.mp hi
  have hj : j < UInt16.size := List.mem_range.mp hj
  rw [UInt16.lt_iff_toNat_lt, UInt16.toNat_ofNat_of_lt' hi, UInt16.toNat_ofNat_of_lt' hj]
  exact hij

/-! ### Maps and what is done to them -/

/-- The cell at each address that has one. -/
abbrev Contents := Address → Option Cell

namespace Contents

variable (c : Contents)

def empty : Contents := fun _ => none

def word (a : Address) : Word := (c a).elim 0 Cell.data

/-- The word at the address becomes the data; it counts as changed from now on if there was none or
another one. -/
def store (a : Address) (data : Word) : Contents := fun b =>
  if b = a then some ⟨data, (c a).elim true fun cell => cell.dirty || cell.data != data⟩ else c b

def mark (a : Address) : Contents := fun b => if b = a then some ⟨c.word a, true⟩ else c b

def settle : Contents := fun b => (c b).map fun cell => { cell with dirty := false }

/-- Bytes from an address on, two in a word; where the second one is missing it stays as it is. -/
def storeBytes (first : Address) (bytes : List UInt8) : Contents := fun b =>
  let place := (b - first).toNat
  if place % 2 = 0 ∧ place < bytes.length then
    c.store b (Word.ofBytes (bytes.getD place 0) (bytes.getD (place + 1) (c.word b).high)) b
  else c b

/-- Nothing is flagged after an update, and the word that ends it is there. -/
def update (endAddress : Option Address) : Contents := fun b =>
  if endAddress = some b then some ⟨c.word b, false⟩ else c.settle b

/-- The cells in order of address. -/
def entries : List (Address × Cell) := allAddresses.filterMap fun a => (c a).map (Prod.mk a)

end Contents

/-- The bytes of a text of this length: spaces after the value, and then a cut. -/
def TextField.fill (f : TextField) (value : List UInt8) : List UInt8 :=
  (value ++ List.replicate f.length.toNat 0x20).take f.length.toNat

def Edit.effect (c : Contents) : Edit → Contents
  | store a data => c.store a data
  | mark a => c.mark a
  | setInteger f value =>
    if f.shift < 16 ∧ value ≤ f.greatest then
      c.store f.address (f.insert (c.word f.address) value)
    else c
  | setText f value => c.storeBytes f.address (f.fill value)

/-- Whatever may be done to a memory. -/
inductive Operation where
  | edit (e : Edit)
  | settle
  | reset
  | event (e : Event)
  | update (s : Sender)

namespace Operation

def apply (m : Memory) : Operation → Memory
  | edit e => e.apply m
  | settle => m.settle
  | reset => .empty
  | event e => m.apply e
  | update s => (s.update m).memory

def effect (c : Contents) : Operation → Contents
  | edit e => e.effect c
  | settle => c.settle
  | reset => .empty
  | event (.word a data) => c.store a data
  | event .boundary => c
  | update s => c.update s.settings.endAddress

end Operation

/-! ### Each operation through `get?` -/

namespace Memory

variable (m : Memory)

theorem stored_eq (data : Word) (former : Option Cell) :
    Cell.stored data former =
      ⟨data, former.elim true fun cell => cell.dirty || cell.data != data⟩ := by
  rcases former with _ | ⟨old, dirty⟩
  · rfl
  · by_cases h : old = data
    · simp [Cell.stored, h]
    · simp [Cell.stored, h]

theorem contents_store (a : Address) (data : Word) :
    (m.store a data).get? = Contents.store m.get? a data := by
  funext b
  rw [get?_store, stored_eq, Contents.store]

theorem contents_mark (a : Address) : (m.mark a).get? = Contents.mark m.get? a := by
  funext b
  rw [get?_mark, Contents.mark]
  rfl

theorem contents_settle : m.settle.get? = Contents.settle m.get? := by
  funext b
  rw [get?_settle, Contents.settle]

/-- From the next word on a place is two less; before it, it is beyond any text. -/
theorem place_next (a b : Address) :
    (b - (a + wordStride)).toNat = ((b - a).toNat + 65534) % 65536 := by
  have hstride : wordStride.toNat = 2 := rfl
  have := a.toNat_lt
  have := b.toNat_lt
  simp only [UInt16.toNat_sub, UInt16.toNat_add, hstride]
  omega

theorem place_ne_zero {a b : Address} (h : b ≠ a) : (b - a).toNat ≠ 0 := by
  intro hzero
  have := a.toNat_lt
  have := b.toNat_lt
  rw [UInt16.toNat_sub] at hzero
  exact h (UInt16.toNat_inj.mp (by omega))

/-- The words of the bytes lie at addresses of their own, so that none is written over by a later
one. -/
theorem contents_storeBytes (first : Address) {bytes : List UInt8} (h : bytes.length ≤ 65536) :
    (m.storeBytes first bytes).get? = Contents.storeBytes m.get? first bytes := by
  fun_induction storeBytes m first bytes with
  | case1 m first =>
    funext b
    simp [Contents.storeBytes]
  | case2 m first low =>
    rw [contents_store]
    funext b
    by_cases hb : b = first
    · subst hb
      simp [Contents.storeBytes, Contents.store, Contents.word, Word.withLow, word]
    · have hplace : ¬ (b - first).toNat < 1 := by
        have := place_ne_zero hb
        omega
      simp [Contents.storeBytes, Contents.store, hb, hplace]
  | case3 m first low high rest ih =>
    have hrest : rest.length + 2 ≤ 65536 := h
    rw [ih (by omega), contents_store]
    funext b
    have hnext := place_next first b
    simp only [Contents.storeBytes, hnext, List.length_cons]
    by_cases hb : b = first
    · subst hb
      have hbeyond : ¬ 65534 < rest.length := by omega
      simp [Contents.store, hbeyond]
    · have hother : Contents.store m.get? first (Word.ofBytes low high) b = m.get? b := if_neg hb
      have hne := place_ne_zero hb
      have hlt := (b - first).toNat_lt
      generalize (b - first).toNat = place at *
      by_cases hin : place % 2 = 0 ∧ place < rest.length + 1 + 1
      · obtain ⟨place, rfl⟩ : ∃ p, place = p + 2 := ⟨place - 2, by omega⟩
        have hplace : (place + 2 + 65534) % 65536 = place := by omega
        have hin' : place % 2 = 0 ∧ place < rest.length := by omega
        rw [hplace, if_pos hin, if_pos hin']
        simp [Contents.store, Contents.word, hb]
      · have hout : ¬ ((place + 65534) % 65536 % 2 = 0 ∧
            (place + 65534) % 65536 < rest.length) := by
          omega
        rw [if_neg hin, if_neg hout, hother]

theorem fill_eq (f : TextField) (value : List UInt8) :
    f.fill value = value.take f.length.toNat ++
      List.replicate (f.length.toNat - (value.take f.length.toNat).length) 0x20 := by
  rw [TextField.fill, List.take_append, List.take_replicate, List.length_take]
  congr 2
  omega

theorem contents_setText (f : TextField) (value : List UInt8) :
    (m.setText f value).get? = Contents.storeBytes m.get? f.address (f.fill value) := by
  have hlength : (f.fill value).length ≤ 65536 := by
    have := f.length.toNat_lt
    rw [TextField.fill, List.length_take]
    omega
  rw [← m.contents_storeBytes f.address hlength, fill_eq]
  rfl

theorem setInteger_eq (f : IntegerField) (value : Word) :
    (Edit.setInteger f value).apply m =
      if f.shift < 16 ∧ value ≤ f.greatest then
        m.store f.address (f.insert (m.word f.address) value)
      else m := by
  simp only [Edit.apply, setInteger, IntegerField.check]
  by_cases hshift : f.shift < 16
  · by_cases hvalue : value ≤ f.greatest
    · have hfits : ¬ value > f.greatest := UInt16.not_lt.mpr hvalue
      simp [hshift, hvalue, hfits]
    · have htoo : value > f.greatest := UInt16.not_le.mp hvalue
      simp [hshift, hvalue, htoo]
  · simp [hshift]

theorem contents_edit (e : Edit) : (e.apply m).get? = e.effect m.get? := by
  cases e with
  | store a data => exact m.contents_store a data
  | mark a => exact m.contents_mark a
  | setInteger f value =>
    rw [setInteger_eq, Edit.effect]
    split
    · exact m.contents_store ..
    · rfl
  | setText f value => exact m.contents_setText f value

/-- Which words take their turn in an update shows in its bytes only. -/
theorem contents_update (s : Sender) :
    (s.update m).memory.get? = Contents.update m.get? s.settings.endAddress := by
  funext a
  rw [Sender.update, get?_settle, Sender.prepare, Sender.get?_foldl_markAt, Sender.get?_markEnd,
    Sender.word_markEnd, Contents.update]
  by_cases hend : s.settings.endAddress = some a
  · simp [hend, Contents.word, word]
  · simp only [hend, if_false, Contents.settle]
    split
    · rename_i hturn
      obtain ⟨i, -, hi⟩ := hturn
      have hstored := (mem_addresses_iff ..).mp (List.mem_of_getElem? hi)
      rw [Sender.get?_markEnd, if_neg hend] at hstored
      obtain ⟨cell, hcell⟩ := Option.ne_none_iff_exists'.mp hstored
      simp [word, hcell]
    · rfl

end Memory

theorem Operation.contents_apply (m : Memory) (o : Operation) :
    (o.apply m).get? = o.effect m.get? := by
  cases o with
  | edit e => exact m.contents_edit e
  | settle => exact m.contents_settle
  | reset => rfl
  | event e =>
    cases e with
    | word a data => exact m.contents_store a data
    | boundary => rfl
  | update s => exact m.contents_update s

theorem Operation.contents_foldl (operations : List Operation) (m : Memory) :
    (operations.foldl apply m).get? = operations.foldl effect m.get? := by
  induction operations generalizing m with
  | nil => rfl
  | cons o rest ih => rw [List.foldl_cons, List.foldl_cons, ih, contents_apply]

/-! ### What a memory shows of its contents -/

namespace Contents

variable {c : Contents}

theorem entries_ascending (c : Contents) : Ascending c.entries := by
  refine List.pairwise_filterMap.mpr (allAddresses_ascending.imp ?_)
  rintro a b hab d hd e he
  obtain ⟨-, -, rfl⟩ := Option.map_eq_some_iff.mp hd
  obtain ⟨-, -, rfl⟩ := Option.map_eq_some_iff.mp he
  exact hab

theorem mem_entries_iff {a : Address} {cell : Cell} : (a, cell) ∈ c.entries ↔ c a = some cell := by
  constructor
  · intro h
    obtain ⟨b, -, hb⟩ := List.mem_filterMap.mp h
    obtain ⟨cell', hcell, heq⟩ := Option.map_eq_some_iff.mp hb
    cases heq
    exact hcell
  · intro h
    exact List.mem_filterMap.mpr ⟨a, mem_allAddresses a, by rw [h]; rfl⟩

theorem countP_entries (c : Contents) (p : Cell → Bool) :
    c.entries.countP (p ·.2) = allAddresses.countP fun a => (c a).any p := by
  rw [entries, List.countP_filterMap]
  refine List.countP_congr fun a _ => ?_
  cases c a <;> rfl

end Contents

namespace Memory

variable (m : Memory)

theorem toList_eq_entries : m.toList = Contents.entries m.get? := by
  refine AddressMap.Ascending.eq_of_mem_iff m.cells.ascending (Contents.entries_ascending _) ?_
  rintro ⟨a, cell⟩
  exact (m.mem_toList_iff a cell).trans Contents.mem_entries_iff.symm

theorem size_eq_countP : m.size = allAddresses.countP fun a => (m.get? a).isSome := by
  have hsize : m.size = m.toList.length := (AddressMap.length_toList _).symm
  have hcount := Contents.countP_entries m.get? fun _ => true
  rw [List.countP_true, ← toList_eq_entries, ← hsize] at hcount
  rw [hcount]
  refine List.countP_congr fun a _ => ?_
  cases m.get? a <;> rfl

theorem isEmpty_iff : m.isEmpty = true ↔ m.get? = Contents.empty := by
  rw [isEmpty, beq_iff_eq, size_eq_countP, List.countP_eq_zero]
  constructor
  · intro h
    funext a
    exact Option.not_isSome_iff_eq_none.mp (h a (mem_allAddresses a))
  · intro h a _
    simp [h, Contents.empty]

theorem dirtyCount_eq_countP :
    m.dirtyCount = allAddresses.countP fun a => (m.get? a).any Cell.dirty := by
  rw [dirtyCount, toList_eq_entries]
  exact Contents.countP_entries m.get? Cell.dirty

theorem getElem?_rank {a : Address} {cell : Cell} (h : m.get? a = some cell) :
    m.toList[m.cells.rank a]? = some (a, cell) := by
  rw [get?, AddressMap.get?] at h
  rw [toList, AddressMap.toList, Array.getElem?_toList]
  split at h
  · rename_i b found hfound
    split at h
    · rename_i hb
      rw [hfound, hb, Option.some.inj h]
    · cases h
  · cases h

/-- Bisection finds a word where it is. -/
theorem getElem?_toList_iff (i : Nat) (a : Address) (cell : Cell) :
    m.toList[i]? = some (a, cell) ↔ m.cells.rank a = i ∧ m.get? a = some cell := by
  constructor
  · intro h
    have hget := (m.mem_toList_iff a cell).mp (List.mem_of_getElem? h)
    have hnodup : m.toList.Nodup := by
      refine m.cells.ascending.imp fun hlt heq => ?_
      rw [heq] at hlt
      exact UInt16.lt_irrefl _ hlt
    have hi : i < m.toList.length := (List.getElem?_eq_some_iff.mp h).1
    have heq : m.toList[i]? = m.toList[m.cells.rank a]? := h.trans (m.getElem?_rank hget).symm
    exact ⟨((List.getElem?_inj hi hnodup).mp heq).symm, hget⟩
  · rintro ⟨rfl, h⟩
    exact m.getElem?_rank h

theorem store_comm {a b : Address} (h : a ≠ b) (x y : Word) :
    (m.store a x).store b y = (m.store b y).store a x := by
  refine ext_get? fun d => ?_
  simp only [get?_store]
  by_cases hda : d = a
  · subst hda
    simp [h]
  · by_cases hdb : d = b
    · subst hdb
      simp [h.symm]
    · simp [hda, hdb]

end Memory

/-- Whatever is done to an empty memory, it reads as the map to which the same has been done: word
by word, as a list in order of address, by its size and its number of flagged words. Bisection finds
each word where it is. Two memories are the same exactly when their maps are, whatever led to them,
and words may be stored at different addresses in either order. -/
theorem refines_map (operations : List Operation) :
    let m := operations.foldl Operation.apply Memory.empty
    let c := operations.foldl Operation.effect Contents.empty
    m.addresses.Pairwise (· < ·) ∧
    (∀ i a cell, m.toList[i]? = some (a, cell) ↔ m.cells.rank a = i ∧ c a = some cell) ∧
    m.get? = c ∧ m.word = c.word ∧ m.toList = c.entries ∧
    m.size = allAddresses.countP (fun a => (c a).isSome) ∧
    (m.isEmpty = true ↔ c = Contents.empty) ∧
    m.dirtyCount = allAddresses.countP (fun a => (c a).any Cell.dirty) ∧
    (∀ others : List Operation, others.foldl Operation.apply Memory.empty = m ↔
      others.foldl Operation.effect Contents.empty = c) ∧
    ∀ a b x y, a ≠ b → (m.store a x).store b y = (m.store b y).store a x := by
  intro m c
  have hget : m.get? = c := Operation.contents_foldl operations Memory.empty
  refine ⟨m.addresses_ascending, ?_, hget, ?_, ?_, ?_, ?_, ?_, ?_, ?_⟩
  · exact hget ▸ m.getElem?_toList_iff
  · exact hget ▸ rfl
  · exact hget ▸ m.toList_eq_entries
  · exact hget ▸ m.size_eq_countP
  · exact hget ▸ m.isEmpty_iff
  · exact hget ▸ m.dirtyCount_eq_countP
  · intro others
    have hother := Operation.contents_foldl others Memory.empty
    constructor
    · rintro heq
      rw [← hget, ← heq]
      exact hother.symm
    · intro heq
      have hsame : (others.foldl Operation.apply Memory.empty).get? = m.get? :=
        (hother.trans heq).trans hget.symm
      exact Memory.ext_get? fun a => congrFun hsame a
  · exact fun a b x y h => m.store_comm h x y

/-- A text of three bytes whose last word keeps its high byte, and an update that adds its end
word. -/
def mixedOperations : List Operation :=
  [.edit (.store 0x0030 7), .edit (.store 0x0012 0x7700), .settle,
    .edit (.setText ⟨0x0010, 3⟩ [0x41]), .update { settings := { endAddress := some 0x0040 } },
    .edit (.mark 0x0020), .edit (.setInteger ⟨0x0030, 0x00F0, 4⟩ 5)]

theorem refines_map_mixed :
    (mixedOperations.foldl Operation.apply Memory.empty).get? 0x0012 = some ⟨0x7720, false⟩ ∧
    (mixedOperations.foldl Operation.apply Memory.empty).get? 0x0030 = some ⟨0x0057, true⟩ ∧
    (mixedOperations.foldl Operation.apply Memory.empty).get? 0x0040 = some ⟨0, false⟩ ∧
    (0x0012 : Address) ≠ 0x0010 ∧
    ((mixedOperations.foldl Operation.apply Memory.empty).store 0x0012 1).store 0x0010 2 =
      ((mixedOperations.foldl Operation.apply Memory.empty).store 0x0010 2).store 0x0012 1 := by
  obtain ⟨-, -, hget, -, -, -, -, -, -, hcomm⟩ := refines_map mixedOperations
  have hne : (0x0012 : Address) ≠ 0x0010 := by decide
  refine ⟨?_, ?_, ?_, hne, hcomm 0x0012 0x0010 1 2 hne⟩
  · rw [hget]
    decide
  · rw [hget]
    decide
  · rw [hget]
    decide

end WordLink
