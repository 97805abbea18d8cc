import WordLink.Proofs.Contents
import WordLink.Proofs.Frames

/-!
# Integers in a memory

Writing an integer goes over the masked bits of one word and leaves the others as they are. A field
whose mask has gaps, or starts above or below its shift, has no room for some of the values up to
its greatest one; such a value is taken in and loses the bits for which there is no room. Nothing is
stored of a value that is refused (`set_integer_checked`).
-/
namespace WordLink

namespace IntegerField

variable {f : IntegerField} {raw value : Word}

/-- The mask moved down to where the values are; nothing is left of it by a shift out of the
word. -/
def reach (f : IntegerField) : Nat := f.mask.toNat >>> f.shift.toNat

structure Admits (f : IntegerField) (value : Word) : Prop where
  shift_lt : f.shift.toNat < 16
  le_reach : value.toNat ≤ f.reach

/-- Why a value is not written; the shift is looked at first. -/
def refusal (f : IntegerField) (value : Word) : FieldError :=
  if f.shift < 16 then .valueTooLarge value f.greatest f.address
  else .shiftOutOfRange f.shift f.address

theorem not_admits_iff : ¬ f.Admits value ↔ 16 ≤ f.shift.toNat ∨ f.reach < value.toNat := by
  constructor
  · intro h
    rcases Nat.lt_or_ge f.shift.toNat 16 with hshift | hshift
    · exact .inr (Nat.not_le.mp fun hreach => h ⟨hshift, hreach⟩)
    · exact .inl hshift
  · rintro hout ⟨hshift, hreach⟩
    omega

theorem toNat_extract (hshift : f.shift.toNat < 16) :
    (f.extract raw).toNat = (raw.toNat &&& f.mask.toNat) >>> f.shift.toNat := by
  rw [extract, if_pos (UInt8.lt_iff_toNat_lt.mpr hshift), UInt16.toNat_shiftRight, UInt16.toNat_and,
    UInt8.toNat_toUInt16, Nat.mod_eq_of_lt hshift]

theorem toNat_greatest (hshift : f.shift.toNat < 16) : f.greatest.toNat = f.reach := by
  have hall : wholeWord.toNat &&& f.mask.toNat = f.mask.toNat := by
    rw [Nat.and_comm]
    exact Nat.and_two_pow_sub_one_of_lt_two_pow f.mask.toNat_lt
  rw [greatest, toNat_extract hshift, hall, reach]

theorem Admits.toNat_shifted (h : f.Admits value) :
    (value <<< f.shift.toUInt16).toNat = value.toNat <<< f.shift.toNat := by
  -- Moving the mask down and up again clears bits of it, so the value moved up is not beyond it.
  have hfits : value.toNat <<< f.shift.toNat < 2 ^ 16 := by
    have hle := h.le_reach
    rw [reach, Nat.shiftRight_eq_div_pow] at hle
    calc value.toNat <<< f.shift.toNat
        = value.toNat * 2 ^ f.shift.toNat := Nat.shiftLeft_eq ..
      _ ≤ f.mask.toNat / 2 ^ f.shift.toNat * 2 ^ f.shift.toNat := Nat.mul_le_mul_right _ hle
      _ ≤ f.mask.toNat := Nat.div_mul_le_self ..
      _ < 2 ^ 16 := f.mask.toNat_lt
  rw [UInt16.toNat_shiftLeft, UInt8.toNat_toUInt16, Nat.mod_eq_of_lt h.shift_lt,
    Nat.mod_eq_of_lt hfits]

theorem testBit_eq_false {w : Word} {i : Nat} (hi : 16 ≤ i) : w.toNat.testBit i = false :=
  Nat.testBit_lt_two_pow (Nat.lt_of_lt_of_le w.toNat_lt (Nat.pow_le_pow_right (by decide) hi))

/-- A bit in the mask is one of the value, any other is one of the word that was there. -/
theorem Admits.testBit_insert (h : f.Admits value) (i : Nat) :
    (f.insert raw value).toNat.testBit i =
      if f.mask.toNat.testBit i then (value.toNat <<< f.shift.toNat).testBit i
      else raw.toNat.testBit i := by
  rcases Nat.lt_or_ge i 16 with hi | hi
  · have hnot : (~~~f.mask).toNat.testBit i = !f.mask.toNat.testBit i := by
      simp only [← UInt16.toNat_toBitVec, BitVec.testBit_toNat, UInt16.toBitVec_not,
        BitVec.getLsbD_not, hi, decide_true, Bool.true_and]
    rw [insert, UInt16.toNat_or, UInt16.toNat_and, UInt16.toNat_and, h.toNat_shifted,
      Nat.testBit_or, Nat.testBit_and, Nat.testBit_and, hnot]
    cases f.mask.toNat.testBit i <;> simp
  · rw [testBit_eq_false hi, testBit_eq_false hi, testBit_eq_false hi]
    rfl

theorem Admits.toNat_extract_insert (h : f.Admits value) :
    (f.extract (f.insert raw value)).toNat = value.toNat &&& f.reach := by
  refine Nat.eq_of_testBit_eq fun i => ?_
  rw [toNat_extract h.shift_lt, reach, Nat.testBit_shiftRight, Nat.testBit_and, Nat.testBit_and,
    Nat.testBit_shiftRight, h.testBit_insert]
  cases f.mask.toNat.testBit (f.shift.toNat + i) with
  | true => simp [Nat.testBit_shiftLeft]
  | false => simp

theorem and_reach_eq_self_iff :
    value.toNat &&& f.reach = value.toNat ↔
      ∀ i, value.toNat.testBit i = true → f.reach.testBit i = true := by
  constructor
  · intro h i hi
    rw [← h, Nat.testBit_and] at hi
    exact (Bool.and_eq_true_iff.mp hi).2
  · intro h
    refine Nat.eq_of_testBit_eq fun i => ?_
    rw [Nat.testBit_and]
    cases hi : value.toNat.testBit i with
    | true => rw [h i hi]; rfl
    | false => rfl

/-- No value up to the greatest one has a bit for which there is no room, if there are no gaps. -/
theorem Admits.and_reach_of_full (h : f.Admits value) {k : Nat}
    (hfull : f.reach = Nat.pow 2 k - 1) :
    value.toNat &&& f.reach = value.toNat := by
  have hle := h.le_reach
  rw [hfull] at hle ⊢
  exact Nat.and_two_pow_sub_one_of_lt_two_pow (Nat.lt_of_le_sub_one (Nat.two_pow_pos k) hle)

end IntegerField

namespace Memory

variable {m n : Memory} {f : IntegerField} {value : Word}

/-- What is left of a memory `m` when a value has been written to a field. -/
structure Written (f : IntegerField) (value : Word) (m n : Memory) : Prop where
  whole : (value <<< f.shift.toUInt16).toNat = value.toNat <<< f.shift.toNat
  bits : ∀ i, f.mask.toNat.testBit i = false →
    (n.word f.address).toNat.testBit i = (m.word f.address).toNat.testBit i
  others : ∀ a, a ≠ f.address → n.get? a = m.get? a
  changed : n.Changed f.address ↔
    m.Changed f.address ∨ m.get? f.address = none ∨ n.word f.address ≠ m.word f.address
  reads : (n.integer f).toNat = value.toNat &&& f.reach
  exact_iff : n.integer f = value ↔
    ∀ i, value.toNat.testBit i = true → f.reach.testBit i = true

theorem setInteger_of_admits (h : f.Admits value) :
    m.setInteger f value = .ok (m.store f.address (f.insert (m.word f.address) value)) := by
  have hcheck : f.check = .ok () := if_pos (UInt8.lt_iff_toNat_lt.mpr h.shift_lt)
  have hvalue : ¬ value > f.greatest := by
    rw [gt_iff_lt, UInt16.lt_iff_toNat_lt, IntegerField.toNat_greatest h.shift_lt]
    exact Nat.not_lt.mpr h.le_reach
  rw [setInteger, hcheck]
  exact if_neg hvalue

theorem setInteger_of_not_admits (h : ¬ f.Admits value) :
    m.setInteger f value = .error (f.refusal value) := by
  by_cases hshift : f.shift < 16
  · have hlt : f.shift.toNat < 16 := UInt8.lt_iff_toNat_lt.mp hshift
    have hvalue : value > f.greatest := by
      rw [gt_iff_lt, UInt16.lt_iff_toNat_lt, IntegerField.toNat_greatest hlt]
      exact Nat.not_le.mp fun hle => h ⟨hlt, hle⟩
    have hcheck : f.check = .ok () := if_pos hshift
    rw [setInteger, hcheck, IntegerField.refusal, if_pos hshift]
    exact if_pos hvalue
  · have hcheck : f.check = .error (.shiftOutOfRange f.shift f.address) := if_neg hshift
    rw [setInteger, hcheck, IntegerField.refusal, if_neg hshift]

theorem map_data_ne_some_iff {a : Address} {data : Word} :
    (m.get? a).map Cell.data ≠ some data ↔ m.get? a = none ∨ data ≠ m.word a := by
  rw [word]
  cases m.get? a with
  | none => simp
  | some cell => simp [eq_comm]

theorem written_store (h : f.Admits value) :
    Written f value m (m.store f.address (f.insert (m.word f.address) value)) := by
  have hword : (m.store f.address (f.insert (m.word f.address) value)).word f.address =
      f.insert (m.word f.address) value := by
    rw [word_store, if_pos rfl]
  have hreads : ((m.store f.address (f.insert (m.word f.address) value)).integer f).toNat =
      value.toNat &&& f.reach := by
    rw [integer, hword, h.toNat_extract_insert]
  refine ⟨h.toNat_shifted, fun i hi => ?_, fun a ha => ?_, ?_, hreads, ?_⟩
  · rw [hword, h.testBit_insert, hi, if_neg Bool.false_ne_true]
  · rw [get?_store, if_neg ha]
  · rw [changed_store_iff, map_data_ne_some_iff, hword, and_iff_right rfl]
  · rw [← UInt16.toNat_inj, hreads, IntegerField.and_reach_eq_self_iff]

/-- A value is refused if the shift of the field leaves the word or if the value is beyond the mask
moved down, and for no other reason; the memory is then as it was, flags and all. Any other value is
written: no bit of it is shifted out, the bits outside the mask and the words at other addresses
stay, and the word is flagged if it was before, is new or has become another one. What is read then
are the bits of the value that lie in the mask moved down, so the value itself if and only if it has
no others; and that is so for every value if the mask moved down has no gaps. -/
theorem set_integer_checked (m : Memory) (f : IntegerField) (value : Word) :
    ((∃ cause, m.setInteger f value = .error cause) ↔
      16 ≤ f.shift.toNat ∨ f.reach < value.toNat) ∧
    (∀ cause, m.setInteger f value = .error cause →
      cause = f.refusal value ∧ (Edit.setInteger f value).apply m = m) ∧
    (∀ n, m.setInteger f value = .ok n →
      (Edit.setInteger f value).apply m = n ∧ Written f value m n ∧
      ∀ k, f.reach = Nat.pow 2 k - 1 → n.integer f = value) := by
  by_cases h : f.Admits value
  · have hok := setInteger_of_admits (m := m) h
    refine ⟨?_, ?_, ?_⟩
    · rw [hok, ← IntegerField.not_admits_iff]
      exact iff_of_false (fun ⟨_, hc⟩ => nomatch hc) (not_not_intro h)
    · intro cause hcause
      rw [hok] at hcause
      cases hcause
    · intro n hn
      obtain rfl : _ = n := Except.ok.inj (hok.symm.trans hn)
      have hwritten := written_store (m := m) h
      refine ⟨by rw [Edit.apply, hok], hwritten, fun k hfull => ?_⟩
      exact UInt16.toNat_inj.mp (hwritten.reads.trans (h.and_reach_of_full hfull))
  · have herror := setInteger_of_not_admits (m := m) h
    refine ⟨?_, ?_, ?_⟩
    · exact iff_of_true ⟨_, herror⟩ (IntegerField.not_admits_iff.mp h)
    · intro cause hcause
      obtain rfl : _ = cause := Except.error.inj (herror.symm.trans hcause)
      exact ⟨rfl, by rw [Edit.apply, herror]⟩
    · intro n hn
      rw [herror] at hn
      cases hn

/-- The mask has gaps: only one bit of 0x22 has room and nothing else of the word changes, 0xA4 is
read back, and 0xA6 is refused. -/
theorem set_integer_checked_gaps :
    let m : Memory := Memory.empty.store 0x0010 0xF401
    let f : IntegerField := ⟨0x0010, 0x0A50, 4⟩
    (∃ n, m.setInteger f 0x22 = .ok n ∧ n.word 0x0010 = 0xF601 ∧ n.integer f = 0x20) ∧
    (∃ n, m.setInteger f 0xA4 = .ok n ∧ n.integer f = 0xA4) ∧
    m.setInteger f 0xA6 = .error (.valueTooLarge 0xA6 0xA5 0x0010) ∧
    (Edit.setInteger f 0xA6).apply m = m := by
  intro m f
  have hformer : m.word 0x0010 = 0xF401 := by decide +kernel
  have hadmits : f.Admits 0x22 ∧ f.Admits 0xA4 := ⟨⟨by decide, by decide⟩, ⟨by decide, by decide⟩⟩
  have hgaps := setInteger_of_admits (m := m) hadmits.1
  have hexact := setInteger_of_admits (m := m) hadmits.2
  obtain ⟨-, hwritten, -⟩ := (set_integer_checked m f 0x22).2.2 _ hgaps
  obtain ⟨-, hwritten', -⟩ := (set_integer_checked m f 0xA4).2.2 _ hexact
  obtain ⟨hfails, hrefused, -⟩ := set_integer_checked m f 0xA6
  obtain ⟨cause, hcause⟩ := hfails.mpr (.inr (by decide))
  obtain ⟨rfl, hsame⟩ := hrefused cause hcause
  have hreason : f.refusal 0xA6 = .valueTooLarge 0xA6 0xA5 0x0010 := by decide
  rw [hreason] at hcause
  refine ⟨⟨_, hgaps, ?_, UInt16.toNat_inj.mp (hwritten.reads.trans (by decide))⟩,
    ⟨_, hexact, UInt16.toNat_inj.mp (hwritten'.reads.trans (by decide))⟩, hcause, hsame⟩
  rw [word_store, if_pos rfl, hformer]
  decide

end Memory

end WordLink
