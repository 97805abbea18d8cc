import WordLink.Proofs.Agreement
import WordLink.Proofs.Contents
import WordLink.Proofs.Frames

/-!
# Texts in a memory

Writing a text fills the words of its field and touches no other, wherever the field lies and even
if its words go round the end of the address space; an odd field shares its last word with whatever
is behind it. Reading goes through the words until a zero byte or until the field is used up. So
what is read after writing is what was written, cut or filled up to the length of the field, as far
as the first zero byte in it (`set_text_then_text`).
-/
namespace WordLink

namespace TextField

/-- A word belongs to the field if its place from the start on is that of a first byte. -/
theorem mem_addresses_iff_place {f : TextField} {a : Address} :
    a ∈ f.addresses ↔ (a - f.address).toNat % 2 = 0 ∧ (a - f.address).toNat < f.length.toNat := by
  rw [mem_addresses]
  constructor
  · rintro ⟨i, hi, rfl⟩
    rw [f.toNat_offset hi]
    omega
  · rintro ⟨heven, hlt⟩
    refine ⟨(a - f.address).toNat / 2, by omega, ?_⟩
    have hplace : 2 * ((a - f.address).toNat / 2) = (a - f.address).toNat := by omega
    rw [hplace, UInt16.ofNat_toNat]
    grind

theorem length_fill (f : TextField) (value : List UInt8) :
    (f.fill value).length = f.length.toNat := by
  simp [fill]

/-- The value is cut, or spaces fill it up. -/
theorem fill_eq_append (f : TextField) (value : List UInt8) :
    f.fill value =
      value.take f.length.toNat ++ List.replicate (f.length.toNat - value.length) 0x20 := by
  rw [Memory.fill_eq, List.length_take]
  congr 2
  omega

end TextField

namespace Memory

variable {m : Memory} {f : TextField} {value : List UInt8} {a : Address}

/-! ### Writing -/

theorem get?_setText_of_not_mem (ha : a ∉ f.addresses) :
    (m.setText f value).get? a = m.get? a := by
  rw [contents_setText, Contents.storeBytes, f.length_fill, if_neg]
  rwa [← TextField.mem_addresses_iff_place]

/-- What is put into a word: the next two bytes, or one byte and the high byte there was. -/
def textWord (m : Memory) (f : TextField) (value : List UInt8) (i : Nat) : Word :=
  Word.ofBytes ((f.fill value).getD (2 * i) 0)
    ((f.fill value).getD (2 * i + 1) (m.word (f.address + UInt16.ofNat (2 * i))).high)

/-- Each word of the field is stored as if it were the only one. -/
theorem get?_setText {i : Nat} (hi : 2 * i < f.length.toNat) :
    (m.setText f value).get? (f.address + UInt16.ofNat (2 * i)) =
      (m.store (f.address + UInt16.ofNat (2 * i)) (m.textWord f value i)).get?
        (f.address + UInt16.ofNat (2 * i)) := by
  have hin : 2 * i % 2 = 0 ∧ 2 * i < f.length.toNat := ⟨by omega, hi⟩
  rw [contents_setText, contents_store, Contents.storeBytes, f.length_fill, f.toNat_offset hi,
    if_pos hin]
  rfl

theorem word_setText {i : Nat} (hi : 2 * i < f.length.toNat) :
    (m.setText f value).word (f.address + UInt16.ofNat (2 * i)) = m.textWord f value i := by
  rw [word, get?_setText hi, ← word, word_store, if_pos rfl]

theorem byteAt_setText {j : Nat} (hj : j < f.length.toNat) :
    (m.setText f value).byteAt f j = (f.fill value).getD j 0 := by
  have hlength : j < (f.fill value).length := by rwa [f.length_fill]
  rw [byteAt, word_setText (by omega), textWord]
  rcases Nat.mod_two_eq_zero_or_one j with hmod | hmod
  · have hplace : 2 * (j / 2) = j := by omega
    simp [hmod, hplace]
  · have hplace : 2 * (j / 2) + 1 = j := by omega
    simp [hmod, hplace, hlength]

theorem text_setText (m : Memory) (f : TextField) (value : List UInt8) :
    (m.setText f value).text f = TextField.terminated (f.fill value) := by
  rw [text, bytes_take]
  congr 1
  refine List.ext_getElem (by simp [f.length_fill]) fun j hj hfill => ?_
  rw [List.getElem_map, List.getElem_range, byteAt_setText (f.length_fill value ▸ hfill),
    List.getD_eq_getElem?_getD, List.getElem?_eq_getElem hfill, Option.getD_some]

/-- The half of the last word that does not belong to the text. -/
theorem high_setText {i : Nat} (h : f.length.toNat = 2 * i + 1) :
    ((m.setText f value).word (f.address + UInt16.ofNat (2 * i))).high =
      (m.word (f.address + UInt16.ofNat (2 * i))).high := by
  have hbeyond : (f.fill value)[2 * i + 1]? = none :=
    List.getElem?_eq_none (Nat.le_of_eq ((f.length_fill value).trans h))
  rw [word_setText (by omega), textWord, Word.high_ofBytes, List.getD_eq_getElem?_getD, hbeyond,
    Option.getD_none]

theorem changed_setText_iff : (m.setText f value).Changed a ↔
    m.Changed a ∨ a ∈ f.addresses ∧
      (m.get? a).map Cell.data ≠ some ((m.setText f value).word a) := by
  by_cases ha : a ∈ f.addresses
  · obtain ⟨i, hi, rfl⟩ := TextField.mem_addresses.mp ha
    rw [Changed, get?_setText hi, ← Changed, changed_store_iff, word_setText hi,
      and_iff_right rfl, and_iff_right ha]
  · rw [Changed, get?_setText_of_not_mem ha, ← Changed]
    simp [ha]

/-! ### Reading -/

/-- The bytes from an address on, word after word, until one of them is zero or there are as many as
there are places. -/
def readText (m : Memory) : Address → Nat → List UInt8
  | _, 0 => []
  | a, 1 => if (m.word a).low = 0 then [] else [(m.word a).low]
  | a, n + 2 =>
    if (m.word a).low = 0 then []
    else if (m.word a).high = 0 then [(m.word a).low]
    else (m.word a).low :: (m.word a).high :: m.readText (a + wordStride) n

/-- The bytes of so many words from an address on. -/
def bytesFrom (m : Memory) (a : Address) (words : Nat) : List UInt8 :=
  ((List.range words).map fun i => a + UInt16.ofNat (2 * i)).flatMap fun b => (m.word b).bytes

theorem bytesFrom_succ (m : Memory) (a : Address) (words : Nat) : m.bytesFrom a (words + 1) =
    (m.word a).low :: (m.word a).high :: m.bytesFrom (a + wordStride) words := by
  have hfirst : a + UInt16.ofNat (2 * 0) = a := UInt16.add_zero a
  simp only [bytesFrom, List.range_succ_eq_map, List.map_cons, List.map_map, List.flatMap_cons,
    Function.comp_def, wordStride_add, hfirst]
  rfl

theorem readText_eq (m : Memory) (a : Address) (places : Nat) :
    m.readText a places =
      TextField.terminated ((m.bytesFrom a ((places + 1) / 2)).take places) := by
  fun_induction readText m a places with
  | case1 a => simp [TextField.terminated]
  | case2 a hlow => simp [TextField.terminated, bytesFrom_succ, hlow]
  | case3 a hlow => simp [TextField.terminated, bytesFrom_succ, hlow]
  | case4 a n hlow =>
    have hcount : (n + 2 + 1) / 2 = (n + 1) / 2 + 1 := by omega
    simp [TextField.terminated, hcount, bytesFrom_succ, hlow]
  | case5 a n hlow hhigh =>
    have hcount : (n + 2 + 1) / 2 = (n + 1) / 2 + 1 := by omega
    simp [TextField.terminated, hcount, bytesFrom_succ, hlow, hhigh]
  | case6 a n hlow hhigh ih =>
    have hcount : (n + 2 + 1) / 2 = (n + 1) / 2 + 1 := by omega
    simp [TextField.terminated, hcount, bytesFrom_succ, hlow, hhigh, ih]

theorem text_eq_readText (m : Memory) (f : TextField) :
    m.text f = m.readText f.address f.length.toNat :=
  (m.readText_eq f.address f.length.toNat).symm

theorem length_text_le (m : Memory) (f : TextField) : (m.text f).length ≤ f.length.toNat := by
  rw [text, TextField.terminated, bytes_take]
  exact Nat.le_trans (List.takeWhile_sublist _).length_le (by simp)

theorem zero_not_mem_text (m : Memory) (f : TextField) : 0 ∉ m.text f := by
  intro hzero
  simpa using List.all_eq_true.mp List.all_takeWhile 0 hzero

/-- After a text has been written to a field, what is read there is the text, cut or filled up with
spaces to the length of the field, up to its first zero byte. The words outside of the field are as
they were, an odd field leaves the other half of its last word alone, and what is flagged more than
before are the words that are new or different. Whatever a memory holds, reading goes word after
word and ends: it comes to the bytes of the words in the field up to the first zero byte, no more
than there are places for and none of them zero. -/
theorem set_text_then_text (m : Memory) (f : TextField) (value : List UInt8) :
    (m.setText f value).text f = TextField.terminated
      (value.take f.length.toNat ++ List.replicate (f.length.toNat - value.length) 0x20) ∧
    (∀ a, a ∉ f.addresses → (m.setText f value).get? a = m.get? a) ∧
    (∀ i, f.length.toNat = 2 * i + 1 →
      ((m.setText f value).word (f.address + UInt16.ofNat (2 * i))).high =
        (m.word (f.address + UInt16.ofNat (2 * i))).high) ∧
    (∀ a, (m.setText f value).Changed a ↔ m.Changed a ∨ a ∈ f.addresses ∧
      (m.get? a).map Cell.data ≠ some ((m.setText f value).word a)) ∧
    m.text f = m.readText f.address f.length.toNat ∧
    m.readText f.address f.length.toNat = TextField.terminated
      ((f.addresses.flatMap fun a => (m.word a).bytes).take f.length.toNat) ∧
    (m.text f).length ≤ f.length.toNat ∧ 0 ∉ m.text f := by
  refine ⟨?_, fun a => get?_setText_of_not_mem, fun i => high_setText,
    fun a => changed_setText_iff, m.text_eq_readText f, m.readText_eq _ _, m.length_text_le f,
    m.zero_not_mem_text f⟩
  rw [text_setText, f.fill_eq_append]

/-- Five bytes in three words, two of them behind the end of the address space; the last one keeps
its high byte and the word behind it is left alone. -/
theorem set_text_then_text_wrapped :
    let m : Memory := (Memory.empty.store 0x0002 0x7700).store 0x0004 9
    let f : TextField := ⟨0xFFFE, 5⟩
    let value : List UInt8 := [0x61, 0x62]
    (m.setText f value).text f = [0x61, 0x62, 0x20, 0x20, 0x20] ∧
      0x0004 ∉ f.addresses ∧ (m.setText f value).get? 0x0004 = m.get? 0x0004 ∧
      f.length.toNat = 2 * 2 + 1 ∧ ((m.setText f value).word 0x0002).high = 0x77 := by
  intro m f value
  have hout : 0x0004 ∉ f.addresses := by decide
  have hodd : f.length.toNat = 2 * 2 + 1 := by decide
  have hlast : f.address + UInt16.ofNat (2 * 2) = 0x0002 := by decide
  have hformer : (m.word 0x0002).high = 0x77 := by decide +kernel
  obtain ⟨htext, hothers, hhalf, -⟩ := set_text_then_text m f value
  have hhigh := hhalf 2 hodd
  rw [hlast, hformer] at hhigh
  exact ⟨htext.trans (by decide), hout, hothers _ hout, hodd, hhigh⟩

end Memory

end WordLink
