import WordLink.Memory.Lemmas
import WordLink.Proofs.Hearing
import WordLink.Session

/-!
# Gauges beside an image

A gauge keeps its own copy of what concerns it and never looks at the image of the memory. Both
are told of the same events, and so they agree: an integer with the memory, a text with the latest
frame. What carries the proof is that the bytes a text has collected are those of the memory, and
that while no word has come in since the boundary the memory is still as in the frame (`Tracks`).
-/
namespace WordLink

/-- The events behind the last boundary. -/
def sinceBoundary (events : List Event) : List Event :=
  (events.reverse.takeWhile fun e => !e.isBoundary).reverse

theorem sinceBoundary_boundary (events : List Event) :
    sinceBoundary (events ++ [.boundary]) = [] := by
  rw [sinceBoundary, List.reverse_concat]
  rfl

theorem sinceBoundary_word (events : List Event) (a : Address) (data : Word) :
    sinceBoundary (events ++ [.word a data]) = sinceBoundary events ++ [.word a data] := by
  rw [sinceBoundary, List.reverse_concat, List.takeWhile_cons_of_pos rfl, List.reverse_cons]
  rfl

namespace TextField

theorem mem_addresses {f : TextField} {a : Address} :
    a ∈ f.addresses ↔ ∃ i, 2 * i < f.length.toNat ∧ f.address + UInt16.ofNat (2 * i) = a := by
  simp only [addresses, wordCount, List.mem_map, List.mem_range]
  constructor
  · rintro ⟨i, hi, ha⟩
    exact ⟨i, by omega, ha⟩
  · rintro ⟨i, hi, ha⟩
    exact ⟨i, by omega, ha⟩

theorem toNat_offset (f : TextField) {i : Nat} (hi : 2 * i < f.length.toNat) :
    (f.address + UInt16.ofNat (2 * i) - f.address).toNat = 2 * i := by
  have hlen := f.length.toNat_lt
  have hsub : f.address + UInt16.ofNat (2 * i) - f.address = UInt16.ofNat (2 * i) := by grind
  rw [hsub, UInt16.toNat_ofNat', Nat.mod_eq_of_lt (by omega)]

theorem address_inj (f : TextField) {i j : Nat} (hi : 2 * i < f.length.toNat)
    (hj : 2 * j < f.length.toNat)
    (h : f.address + UInt16.ofNat (2 * i) = f.address + UInt16.ofNat (2 * j)) : i = j := by
  have hoff := congrArg (fun a => (a - f.address).toNat) h
  simp only [f.toNat_offset hi, f.toNat_offset hj] at hoff
  omega

end TextField

namespace Memory

/-- There is a word at one of the addresses at least. -/
def holdsAny (m : Memory) (addresses : List Address) : Bool :=
  addresses.any fun a => (m.get? a).isSome

/-- The byte at a place of a text. -/
def byteAt (m : Memory) (f : TextField) (j : Nat) : UInt8 :=
  let word := m.word (f.address + UInt16.ofNat (2 * (j / 2)))
  if j % 2 = 0 then word.low else word.high

theorem getElem?_bytes (w : Nat → Word) (n j : Nat) :
    ((List.range n).flatMap fun i => (w i).bytes)[j]? =
      if j < 2 * n then some (if j % 2 = 0 then (w (j / 2)).low else (w (j / 2)).high)
      else none := by
  have hlength : ∀ n, ((List.range n).flatMap fun i => (w i).bytes).length = 2 * n := by
    intro n
    induction n with
    | zero => rfl
    | succ n ih =>
      rw [List.range_succ, List.flatMap_append, List.length_append, ih]
      rfl
  induction n with
  | zero => simp
  | succ n ih =>
    rw [List.range_succ, List.flatMap_append, List.getElem?_append, hlength, ih,
      List.flatMap_singleton]
    by_cases hj : j < 2 * n
    · have hlt : j < 2 * (n + 1) := by omega
      rw [if_pos hj, if_pos hj, if_pos hlt]
    · rw [if_neg hj]
      by_cases hin : j < 2 * (n + 1)
      · have hdiv : j / 2 = n := by omega
        rw [if_pos hin, hdiv]
        rcases Nat.mod_two_eq_zero_or_one j with hmod | hmod
        · have hplace : j - 2 * n = 0 := by omega
          rw [hplace, if_pos hmod]
          rfl
        · have hplace : j - 2 * n = 1 := by omega
          rw [hplace, if_neg (by omega : ¬ j % 2 = 0)]
          rfl
      · rw [if_neg hin, List.getElem?_eq_none]
        change 2 ≤ j - 2 * n
        omega

theorem bytes_take (m : Memory) (f : TextField) :
    (f.addresses.flatMap fun a => (m.word a).bytes).take f.length.toNat =
      (List.range f.length.toNat).map (m.byteAt f) := by
  refine List.ext_getElem? fun j => ?_
  rw [List.getElem?_take, TextField.addresses, List.flatMap_map, getElem?_bytes]
  by_cases hj : j < f.length.toNat
  · have hlt : j < 2 * f.wordCount := by
      rw [TextField.wordCount]
      omega
    simp [hj, hlt, byteAt]
  · simp [hj]

theorem byteAt_congr {m n : Memory} {f : TextField} (h : ∀ a ∈ f.addresses, m.word a = n.word a)
    {j : Nat} (hj : j < f.length.toNat) : m.byteAt f j = n.byteAt f j := by
  rw [byteAt, byteAt, h _ (TextField.mem_addresses.mpr ⟨j / 2, by omega, rfl⟩)]

theorem bytes_congr {m n : Memory} {f : TextField} (h : ∀ a ∈ f.addresses, m.word a = n.word a) :
    (List.range f.length.toNat).map (m.byteAt f) = (List.range f.length.toNat).map (n.byteAt f) :=
  List.map_congr_left fun _ hj => byteAt_congr h (List.mem_range.mp hj)

theorem text_congr {m n : Memory} {f : TextField} (h : ∀ a ∈ f.addresses, m.word a = n.word a) :
    m.text f = n.text f := by
  rw [text, text, bytes_take, bytes_take, bytes_congr h]

theorem byteAt_store (m : Memory) {f : TextField} {i : Nat} (hi : 2 * i < f.length.toNat)
    (data : Word) {j : Nat} (hj : j < f.length.toNat) :
    (m.store (f.address + UInt16.ofNat (2 * i)) data).byteAt f j =
      if j = 2 * i then data.low else if j = 2 * i + 1 then data.high else m.byteAt f j := by
  simp only [byteAt, word_store]
  by_cases hij : j / 2 = i
  · subst hij
    rcases Nat.mod_two_eq_zero_or_one j with hmod | hmod
    · have h₀ : j = 2 * (j / 2) := by omega
      simp [hmod, ← h₀]
    · have h₁ : j = 2 * (j / 2) + 1 := by omega
      have h₀ : j ≠ 2 * (j / 2) := by omega
      simp [hmod, ← h₁, h₀]
  · have hne : f.address + UInt16.ofNat (2 * (j / 2)) ≠ f.address + UInt16.ofNat (2 * i) :=
      fun h => hij (f.address_inj (by omega) hi h)
    rw [if_neg hne, if_neg (by omega : j ≠ 2 * i), if_neg (by omega : j ≠ 2 * i + 1)]

theorem isSome_store (m : Memory) (a b : Address) (data : Word) :
    ((m.store a data).get? b).isSome = (decide (b = a) || (m.get? b).isSome) := by
  rw [get?_store]
  by_cases h : b = a <;> simp [h]

theorem isSome_settle (m : Memory) (a : Address) :
    (m.settle.get? a).isSome = (m.get? a).isSome := by
  rw [get?_settle, Option.isSome_map]

theorem holdsAny_congr {m n : Memory} {addresses : List Address}
    (h : ∀ a ∈ addresses, (m.get? a).isSome = (n.get? a).isSome) :
    m.holdsAny addresses = n.holdsAny addresses := by
  rw [Bool.eq_iff_iff, holdsAny, holdsAny, List.any_eq_true, List.any_eq_true]
  exact exists_congr fun a => and_congr_right fun ha => by rw [h a ha]

end Memory

/-! ### Integers -/

namespace IntegerGauge

variable {g : IntegerGauge} {image : Image}

def Agrees (g : IntegerGauge) (image : Image) : Prop :=
  g.value = (image.memory.get? g.field.address).map fun _ => image.memory.integer g.field

def Tracks (g : IntegerGauge) (image : Image) : Prop :=
  g.raw = (image.memory.get? g.field.address).map Cell.data

theorem Tracks.agrees (h : g.Tracks image) : g.Agrees image := by
  rw [Agrees, value, h, Memory.integer, Memory.word]
  cases image.memory.get? g.field.address <;> rfl

theorem Tracks.see (data : Word) :
    (g.see data).Tracks (image.apply (.word g.field.address data)) := by
  rw [Tracks, Image.apply, IntegerGauge.see, Memory.get?_store, if_pos rfl, Option.map_some,
    Memory.data_stored]

theorem Tracks.other (h : g.Tracks image) {a : Address} (ha : a ≠ g.field.address) (data : Word) :
    g.Tracks (image.apply (.word a data)) := by
  rw [Tracks, Image.apply, Memory.get?_store, if_neg ha.symm]
  exact h

theorem Tracks.boundary (h : g.Tracks image) : g.Tracks (image.apply .boundary) := by
  rw [Tracks, Image.apply, Memory.get?_settle, h, Option.map_map]
  rfl

end IntegerGauge

/-! ### Texts -/

namespace TextGauge

variable {g : TextGauge} {image : Image} {events : List Event}

structure Agrees (g : TextGauge) (image : Image) (recent : List Event) : Prop where
  shown : g.shown =
    if image.frame.holdsAny g.field.addresses then some (image.frame.text g.field) else none
  pending : g.pending = true ↔ ∃ a ∈ g.field.addresses, ∃ data, Event.word a data ∈ recent

structure Tracks (g : TextGauge) (image : Image) (recent : List Event) : Prop
    extends g.Agrees image recent where
  slots : g.slots.toList = (List.range g.field.length.toNat).map (image.memory.byteAt g.field)
  arrived : g.pending = true → image.memory.holdsAny g.field.addresses = true
  settled : g.pending = false → ∀ a ∈ g.field.addresses,
    (image.memory.get? a).isSome = (image.frame.get? a).isSome ∧
      image.memory.word a = image.frame.word a

theorem see_own (g : TextGauge) {i : Nat} (hi : 2 * i < g.field.length.toNat) (data : Word) :
    g.see (g.field.address + UInt16.ofNat (2 * i)) data =
      { g with
        slots := (g.slots.setIfInBounds (2 * i) data.low).setIfInBounds (2 * i + 1) data.high
        pending := true } := by
  simp only [see, g.field.toNat_offset hi, hi, if_true]

theorem slots_see (m : Memory) {i : Nat} (hi : 2 * i < g.field.length.toNat) (data : Word)
    (h : g.slots.toList = (List.range g.field.length.toNat).map (m.byteAt g.field)) :
    ((g.slots.setIfInBounds (2 * i) data.low).setIfInBounds (2 * i + 1) data.high).toList =
      (List.range g.field.length.toNat).map
        ((m.store (g.field.address + UInt16.ofNat (2 * i)) data).byteAt g.field) := by
  have hsize : g.slots.toList.length = g.field.length.toNat := by simp [h]
  refine List.ext_getElem? fun j => ?_
  rw [Array.toList_setIfInBounds, Array.toList_setIfInBounds]
  by_cases hj : j < g.field.length.toNat
  · rw [List.getElem?_set, List.getElem?_set, List.length_set, hsize, h, List.getElem?_map,
      List.getElem?_map, List.getElem?_range hj, Option.map_some, Option.map_some,
      m.byteAt_store hi data hj]
    by_cases h₁ : 2 * i + 1 = j
    · have h₀ : j ≠ 2 * i := by omega
      rw [if_pos h₁, if_pos (h₁ ▸ hj), if_neg h₀, if_pos h₁.symm]
    · rw [if_neg h₁, if_neg (Ne.symm h₁)]
      by_cases h₀ : 2 * i = j
      · rw [if_pos h₀, if_pos hi, if_pos h₀.symm]
      · rw [if_neg h₀, if_neg (Ne.symm h₀)]
  · rw [List.getElem?_eq_none, List.getElem?_eq_none]
    · simpa using hj
    · rw [List.length_set, List.length_set, hsize]
      exact Nat.le_of_not_lt hj

theorem Tracks.see (h : g.Tracks image (sinceBoundary events)) {a : Address}
    (ha : a ∈ g.field.addresses) (data : Word) :
    (g.see a data).Tracks (image.apply (.word a data))
      (sinceBoundary (events ++ [.word a data])) := by
  obtain ⟨i, hi, rfl⟩ := TextField.mem_addresses.mp ha
  rw [g.see_own hi, sinceBoundary_word]
  constructor
  · constructor
    · exact h.shown
    · exact ⟨fun _ => ⟨_, ha, data, by simp⟩, fun _ => rfl⟩
  · exact slots_see image.memory hi data h.slots
  · intro _
    refine List.any_eq_true.mpr ⟨_, ha, ?_⟩
    rw [Image.apply, Memory.isSome_store]
    simp
  · exact fun hp => by cases hp

theorem Tracks.other (h : g.Tracks image (sinceBoundary events)) {a : Address}
    (ha : a ∉ g.field.addresses) (data : Word) :
    g.Tracks (image.apply (.word a data)) (sinceBoundary (events ++ [.word a data])) := by
  have hword : ∀ b ∈ g.field.addresses,
        (image.memory.store a data).word b = image.memory.word b := by
    intro b hb
    rw [Memory.word_store, if_neg]
    rintro rfl
    exact ha hb
  have hsome : ∀ b ∈ g.field.addresses,
      ((image.memory.store a data).get? b).isSome = (image.memory.get? b).isSome := by
    intro b hb
    rw [Memory.get?_store, if_neg]
    rintro rfl
    exact ha hb
  rw [sinceBoundary_word]
  constructor
  · constructor
    · exact h.shown
    · rw [h.pending]
      refine exists_congr fun b => and_congr_right fun hb => exists_congr fun d => ?_
      have hne : Event.word b d ≠ .word a data := by
        intro heq
        cases heq
        exact ha hb
      simp [hne]
  · rw [h.slots]
    exact (Memory.bytes_congr hword).symm
  · intro hp
    rw [← h.arrived hp]
    exact Memory.holdsAny_congr hsome
  · intro hp b hb
    obtain ⟨hs, hw⟩ := h.settled hp b hb
    exact ⟨(hsome b hb).trans hs, (hword b hb).trans hw⟩

theorem Tracks.publish (h : g.Tracks image (sinceBoundary events)) :
    g.publish.Tracks (image.apply .boundary) (sinceBoundary (events ++ [.boundary])) := by
  have hslots : g.slots.toList =
      (List.range g.field.length.toNat).map (image.memory.settle.byteAt g.field) :=
    h.slots.trans (Memory.bytes_congr fun a _ => (Memory.word_settle ..).symm)
  have hsettled : ∀ a ∈ g.field.addresses,
      (image.memory.settle.get? a).isSome = (image.memory.get? a).isSome ∧
        image.memory.settle.word a = image.memory.word a :=
    fun a _ => ⟨Memory.isSome_settle .., Memory.word_settle ..⟩
  rw [sinceBoundary_boundary, TextGauge.publish]
  split
  · rename_i hp
    refine ⟨⟨?_, by simp⟩, hslots, fun hf => (by cases hf), fun _ => hsettled⟩
    rw [Image.apply]
    simp only [h.arrived hp, if_true]
    rw [collected, h.slots, ← Memory.bytes_take, Memory.text]
  · rename_i hp
    have hp : g.pending = false := by simpa using hp
    refine ⟨⟨?_, by simp [hp]⟩, hslots, fun hf => ?_, fun _ => hsettled⟩
    · have hany := Memory.holdsAny_congr fun a ha => (h.settled hp a ha).1
      have htext := Memory.text_congr fun a ha => (h.settled hp a ha).2
      rw [Image.apply, h.shown]
      simp only [hany, htext]
    · rw [hp] at hf
      cases hf

theorem tracks_ofField (f : TextField) : (ofField f).Tracks {} [] := by
  have hbyte : ∀ j, Memory.byteAt {} f j = 0 := by
    intro j
    have hword : ∀ a, Memory.word {} a = 0 := fun _ => rfl
    simp only [Memory.byteAt, hword]
    split <;> rfl
  have hnone : Memory.holdsAny {} f.addresses = false :=
      List.any_eq_false.mpr fun a _ => by simp; rfl
  refine ⟨⟨?_, ?_⟩, ?_, fun hf => (by cases hf), fun _ a _ => ⟨rfl, rfl⟩⟩
  · change none = if Memory.holdsAny {} f.addresses = true then _ else _
    rw [hnone]
    rfl
  · constructor
    · intro hf
      cases hf
    · rintro ⟨a, -, data, hd⟩
      cases hd
  · have hrange : (List.range f.length.toNat).map (Memory.byteAt {} f) =
        List.replicate f.length.toNat 0 := by
      rw [List.eq_replicate_iff]
      simp [hbyte]
    exact (Array.toList_replicate ..).trans hrange.symm

end TextGauge

/-! ### Gauges of either kind -/

namespace Gauge

variable {g : Gauge} {image : Image} {events : List Event}

def field : Gauge → Field
  | integer g => .integer g.field
  | text g => .text g.field

def Agrees (image : Image) (recent : List Event) : Gauge → Prop
  | integer g => g.Agrees image
  | text g => g.Agrees image recent

def Tracks (image : Image) (recent : List Event) : Gauge → Prop
  | integer g => g.Tracks image
  | text g => g.Tracks image recent

theorem Tracks.agrees {recent : List Event} (h : g.Tracks image recent) :
    g.Agrees image recent := by
  cases g with
  | integer g => exact IntegerGauge.Tracks.agrees h
  | text g => exact TextGauge.Tracks.toAgrees h

/-- A gauge that attends to an event keeps up with an image that takes it in. -/
theorem Tracks.attend (h : g.Tracks image (sinceBoundary events)) (event : Event) :
    (g.attend event).Tracks (image.apply event) (sinceBoundary (events ++ [event])) := by
  cases g with
  | integer g =>
    cases event with
    | word a data =>
      rw [Gauge.attend]
      split
      · rename_i ha
        obtain rfl : a = g.field.address := List.mem_singleton.mp ha
        exact IntegerGauge.Tracks.see data
      · rename_i ha
        exact IntegerGauge.Tracks.other h (fun heq => ha (List.mem_singleton.mpr heq)) data
    | boundary => exact IntegerGauge.Tracks.boundary h
  | text g =>
    cases event with
    | word a data =>
      rw [Gauge.attend]
      split
      · rename_i ha
        exact TextGauge.Tracks.see h ha data
      · rename_i ha
        exact TextGauge.Tracks.other h ha data
    | boundary => exact TextGauge.Tracks.publish h

theorem Fresh.tracks (h : g.Fresh) : g.Tracks {} [] := by
  cases g with
  | integer g => exact h
  | text g =>
    have hg : g = .ofField g.field := h
    have ht := TextGauge.tracks_ofField g.field
    rwa [← hg] at ht

theorem field_attend (event : Event) (g : Gauge) : (g.attend event).field = g.field := by
  cases g with
  | integer g =>
    cases event with
    | word a data =>
      rw [attend]
      split <;> rfl
    | boundary => rfl
  | text g =>
    cases event with
    | word a data =>
      rw [attend]
      split
      · exact congrArg Field.text (g.field_see a data)
      · rfl
    | boundary => exact congrArg Field.text g.field_publish

end Gauge

end WordLink
