import WordLink.Layout
import WordLink.Proofs.SyncRun

/-!
# Blocks as a receiver takes them

As long as no sync run is completed, a receiver that expects an address takes a block to the
events of its words, and to the boundary at its end if the end word is among them. Blocks as a
sender lays them out are calm one behind the other: where two sync bytes of a word and one of the
next address meet, there are no more than three.
-/
namespace WordLink

/-- The words from an address on, as a receiver reports them. -/
def wordEvents (a : Address) : List Word → List Event
  | [] => []
  | w :: ws => .word a w :: wordEvents (a + wordStride) ws

theorem wordStride_add (a : Address) (i : Nat) :
    a + wordStride + UInt16.ofNat (2 * i) = a + UInt16.ofNat (2 * (i + 1)) := by
  apply UInt16.toNat_inj.mp
  simp only [UInt16.toNat_add, UInt16.toNat_ofNat', wordStride, UInt16.reduceToNat]
  omega

theorem wordEvents_eq_mapIdx (a : Address) (ws : List Word) :
    wordEvents a ws = ws.mapIdx fun i w => .word (a + UInt16.ofNat (2 * i)) w := by
  induction ws generalizing a with
  | nil => rfl
  | cons w ws ih =>
    have hzero : a + UInt16.ofNat (2 * 0) = a := UInt16.add_zero a
    rw [wordEvents, ih, List.mapIdx_cons, hzero]
    simp only [wordStride_add]

def boundaryIf (closed : Bool) : List Event := if closed then [.boundary] else []

namespace Block

def events (b : Block) : List Event := wordEvents b.address b.words

/-- What a receiver with these settings reports of the block. -/
def report (b : Block) (settings : Receiver.Settings) : List Event :=
  b.events ++ boundaryIf (b.events.any fun e => settings.endAddress == e.address?)

/-- What travels behind the address: the count and the words. -/
def body (b : Block) : List UInt8 := Word.bytes b.header.byteCount ++ b.words.flatMap Word.bytes

theorem encode_eq (b : Block) : b.encode = Word.bytes b.address ++ b.body := by
  rw [encode, Header.encode, List.append_assoc]
  rfl

/-- Behind its address the block cannot be taken for a sync run: it has words, its count says how
many, and only the first of them may be the sync word. -/
structure Clear (b : Block) : Prop where
  words : b.words ≠ []
  length : b.words.length ≤ maxBlockWords
  tail : ∀ w ∈ b.words.tail, w ≠ syncWord

/-- The address of the block cannot be taken for a marker either. -/
structure Safe (b : Block) : Prop extends Clear b where
  address : b.address ≠ markerAddress

end Block

theorem toNat_double {n : Nat} (h : n ≤ 32767) : (UInt16.ofNat (2 * n)).toNat = 2 * n := by
  rw [UInt16.toNat_ofNat']
  omega

theorem completes_iff {run : Nat} {byte : UInt8} :
    Completes run byte ↔ byte = syncByte ∧ run = 3 := by
  simp [Completes, syncRunLength]

/-- Up to two sync bytes before a word cannot become four in it unless it is the sync word. -/
theorem calm_word {run : Nat} (hr : run ≤ 2) {w : Word} (hw : w ≠ syncWord) :
    Calm run w.bytes ∧ tally run w.bytes ≤ 1 := by
  have hne : ¬ (w.low = syncByte ∧ w.high = syncByte) := by
    intro h
    apply hw
    rw [← Word.ofBytes_low_high w, h.1, h.2]
    rfl
  by_cases hl : w.low = syncByte
  · have hh : w.high ≠ syncByte := fun hh => hne ⟨hl, hh⟩
    have hc : ¬ Completes run syncByte := by rw [completes_iff]; omega
    simp [Word.bytes, Calm, tally_cons, tally_nil, hl, hc, not_completes_of_ne hh,
      tallyByte_other hh]
  · by_cases hh : w.high = syncByte
    · have hc : ¬ Completes 0 syncByte := by rw [completes_iff]; omega
      simp [Word.bytes, Calm, tally_cons, tally_nil, tallyByte_other hl, not_completes_of_ne hl,
        hh, hc, tallyByte_sync hc]
    · simp [Word.bytes, Calm, tally_cons, tally_nil, tallyByte_other hl, not_completes_of_ne hl,
        tallyByte_other hh, not_completes_of_ne hh]

/-- Behind a byte that is no sync byte there is room for every word. -/
theorem calm_first_word (w : Word) : Calm 0 w.bytes ∧ tally 0 w.bytes ≤ 2 := by
  by_cases hw : w = syncWord
  · subst hw
    decide
  · have h := calm_word (Nat.zero_le 2) hw
    exact ⟨h.1, by omega⟩

theorem calm_words {run : Nat} (hr : run ≤ 2) {ws : List Word} (hw : ∀ w ∈ ws, w ≠ syncWord) :
    Calm run (ws.flatMap Word.bytes) ∧ tally run (ws.flatMap Word.bytes) ≤ 2 := by
  induction ws generalizing run with
  | nil => exact ⟨trivial, hr⟩
  | cons w ws ih =>
    obtain ⟨hc, ht⟩ := calm_word hr (hw w List.mem_cons_self)
    obtain ⟨hcs, hts⟩ := ih (by omega : tally run w.bytes ≤ 2)
      (fun v hv => hw v (List.mem_cons_of_mem w hv))
    rw [List.flatMap_cons, calm_append, tally_append]
    exact ⟨⟨hc, hcs⟩, hts⟩

/-- The count of a block as it is sent holds no sync byte. -/
theorem calm_count (run : Nat) {n : Nat} (hn : n ≤ maxBlockWords) :
    Calm run (Word.bytes (UInt16.ofNat (2 * n))) ∧
      tally run (Word.bytes (UInt16.ofNat (2 * n))) = 0 := by
  have hmax : maxBlockWords = 10879 := rfl
  have htwo : (UInt16.ofNat (2 * n)).toNat = 2 * n := toNat_double (by omega)
  have hl : Word.low (UInt16.ofNat (2 * n)) ≠ syncByte := by
    intro h
    have := congrArg UInt8.toNat h
    rw [Word.toNat_low, htwo] at this
    simp [syncByte] at this
    omega
  have hh : Word.high (UInt16.ofNat (2 * n)) ≠ syncByte := by
    intro h
    have := congrArg UInt8.toNat h
    rw [Word.toNat_high, htwo] at this
    simp [syncByte] at this
    omega
  simp only [Word.bytes, Calm, tally_cons, tally_nil]
  exact ⟨⟨not_completes_of_ne hl _, not_completes_of_ne hh _, trivial⟩, tallyByte_other hh _⟩

namespace Block

/-- The count keeps the bytes before it apart from the words, however many sync bytes those are. -/
theorem Clear.calm_body {b : Block} (h : b.Clear) (run : Nat) :
    Calm run b.body ∧ tally run b.body ≤ 2 := by
  obtain ⟨hcn, htn⟩ := calm_count run h.length
  obtain ⟨w, ws, hws⟩ := List.exists_cons_of_ne_nil h.words
  have hcf := calm_first_word w
  have htail : ∀ v ∈ ws, v ≠ syncWord := by simpa [hws] using h.tail
  have hcs := calm_words hcf.2 htail
  have hsplit : b.body = Word.bytes (UInt16.ofNat (2 * b.words.length)) ++
      (w.bytes ++ ws.flatMap Word.bytes) := by
    simp [body, header, Header.forWords, hws]
  rw [hsplit]
  simp only [calm_append, tally_append, htn]
  exact ⟨⟨hcn, hcf.1, hcs.1⟩, hcs.2⟩

theorem Safe.calm_encode {b : Block} (h : b.Safe) {run : Nat} (hr : run ≤ 2) :
    Calm run b.encode ∧ tally run b.encode ≤ 2 := by
  obtain ⟨hca, -⟩ := calm_word hr (w := b.address) h.address
  obtain ⟨hcb, htb⟩ := h.calm_body (tally run (Word.bytes b.address))
  rw [encode_eq, calm_append, tally_append]
  exact ⟨⟨hca, hcb⟩, htb⟩

theorem encodes_ne_nil {blocks : List Block} (h : blocks ≠ []) : blocks.flatMap encode ≠ [] := by
  obtain ⟨b, blocks, rfl⟩ := List.exists_cons_of_ne_nil h
  intro he
  cases he

theorem calm_encodes {blocks : List Block} (h : ∀ b ∈ blocks, b.Safe) {run : Nat} (hr : run ≤ 2) :
    Calm run (blocks.flatMap encode) ∧ tally run (blocks.flatMap encode) ≤ 2 := by
  induction blocks generalizing run with
  | nil => exact ⟨trivial, hr⟩
  | cons b blocks ih =>
    obtain ⟨hc, ht⟩ := (h b List.mem_cons_self).calm_encode hr
    obtain ⟨hcs, hts⟩ := ih (fun c hm => h c (List.mem_cons_of_mem b hm)) ht
    rw [List.flatMap_cons, calm_append, tally_append]
    exact ⟨⟨hc, hcs⟩, hts⟩

end Block

namespace Receiver

/-- A receiver between two blocks. -/
structure Ready (r : Receiver) : Prop where
  phase : r.phase = .addressLow
  reported : r.reported = false
  pending : r.endPending = false

theorem push_address {r : Receiver} (hp : r.phase = .addressLow) (hr : r.reported = false)
    {a : Address} (ha : a ≠ markerAddress) (hc : Calm r.syncRun (Word.bytes a)) :
    r.push (Word.bytes a) = ({ r with
      phase := .countLow
      address := a
      syncRun := tally r.syncRun (Word.bytes a) }, []) := by
  obtain ⟨h₁, h₂, -⟩ := hc
  have hm : Word.withHigh (Word.withLow r.address (Word.low a)) (Word.high a) = a := by
    simp [Word.withHigh, Word.withLow]
  rw [Word.bytes, push_cons, step_calm h₁]
  simp only [consume, hp]
  rw [push_cons, step_calm (by exact h₂)]
  simp only [consume]
  rw [openBlock_other (by simpa only [hm] using ha)]
  simp [hr, hm, tally]

theorem push_count {r : Receiver} (hp : r.phase = .countLow) (hr : r.reported = false)
    {c : Word} (hc : Calm r.syncRun c.bytes) :
    r.push c.bytes = ({ r with
      phase := .dataLow
      remaining := c
      syncRun := tally r.syncRun c.bytes }, []) := by
  obtain ⟨h₁, h₂, -⟩ := hc
  rw [Word.bytes, push_cons, step_calm h₁]
  simp only [consume, hp]
  rw [push_cons, step_calm (by exact h₂)]
  simp [consume, hr, tally, Word.withHigh, Word.withLow]

theorem push_header {r : Receiver} (head : Header) (h : r.Ready)
    (ha : head.address ≠ markerAddress) (hc : Calm r.syncRun head.encode) :
    r.push head.encode = ({ r with
      phase := .dataLow
      address := head.address
      remaining := head.byteCount
      syncRun := tally r.syncRun head.encode }, []) := by
  obtain ⟨hca, hcc⟩ := calm_append.mp hc
  have hcount := push_count (r := { r with
    phase := .countLow
    address := head.address
    syncRun := tally r.syncRun (Word.bytes head.address) }) rfl h.reported hcc
  rw [Header.encode, push_append, push_address h.phase h.reported ha hca, hcount, tally_append]
  rfl

theorem push_word {r : Receiver} (hp : r.phase = .dataLow) (hr : r.reported = false)
    {w : Word} (hc : Calm r.syncRun w.bytes) :
    r.push w.bytes = ({ r with
      phase := if r.remaining - 1 - 1 = 0 then .addressLow else .dataLow
      address := r.address + wordStride
      remaining := r.remaining - 1 - 1
      lowByte := w.low
      syncRun := tally r.syncRun w.bytes
      endPending := (r.endPending || r.settings.endAddress == some r.address) &&
        !(r.remaining - 1 - 1 == 0) },
      .word r.address w :: boundaryIf ((r.remaining - 1 - 1 == 0) &&
        (r.endPending || r.settings.endAddress == some r.address))) := by
  obtain ⟨h₁, h₂, -⟩ := hc
  rw [Word.bytes, push_cons, step_calm h₁]
  simp only [consume, hp]
  rw [push_cons, step_calm (by exact h₂)]
  by_cases hz : r.remaining - 1 - 1 = 0
  · cases he : r.endPending || r.settings.endAddress == some r.address <;>
      simp [consume, finishWord, boundaryIf, hr, hz, he, tally]
  · simp [consume, finishWord, boundaryIf, hr, hz, tally]

/-- The words of a block up to its end. The induction carries the end word along: it may have
been among the words before. -/
theorem push_words {r : Receiver} (hp : r.phase = .dataLow) (hr : r.reported = false)
    {ws : List Word} (hne : ws ≠ []) (hrem : r.remaining.toNat = 2 * ws.length)
    (hc : Calm r.syncRun (ws.flatMap Word.bytes)) :
    (r.push (ws.flatMap Word.bytes)).1.Ready ∧
      (r.push (ws.flatMap Word.bytes)).2 = wordEvents r.address ws ++
        boundaryIf (r.endPending ||
          (wordEvents r.address ws).any fun e => r.settings.endAddress == e.address?) := by
  induction ws generalizing r with
  | nil => exact absurd rfl hne
  | cons w ws ih =>
    rw [List.flatMap_cons] at hc ⊢
    obtain ⟨hcw, hcs⟩ := calm_append.mp hc
    have hsub := Word.toNat_sub_one_sub_one r.remaining
    rw [hrem, List.length_cons] at hsub
    have hz : r.remaining - 1 - 1 = 0 ↔ (r.remaining - 1 - 1).toNat = 0 := by
      rw [← UInt16.toNat_inj]
      rfl
    rw [push_append, push_word hp hr hcw]
    by_cases hws : ws = []
    · subst hws
      have hend : r.remaining - 1 - 1 = 0 := by
        rw [hz, hsub]
        rfl
      simp only [hend, List.flatMap_nil, push_nil, wordEvents, List.any_cons, List.any_nil,
        Event.address?_word, Bool.or_false, Bool.not_true, Bool.and_false, if_true,
        beq_self_eq_true, Bool.true_and, List.append_nil, List.cons_append, List.nil_append,
        and_true]
      exact ⟨rfl, hr, rfl⟩
    · have hlen : 0 < ws.length := List.length_pos_iff.mpr hws
      have hlt := r.remaining.toNat_lt
      rw [hrem, List.length_cons] at hlt
      have hend : r.remaining - 1 - 1 ≠ 0 := by
        rw [Ne, hz]
        omega
      have hbeq : (r.remaining - 1 - 1 == 0) = false := beq_eq_false_iff_ne.mpr hend
      simp only [if_neg hend, hbeq, Bool.not_false, Bool.and_true, Bool.false_and]
      obtain ⟨hready, hevents⟩ := ih (r := { r with
        phase := .dataLow
        address := r.address + wordStride
        remaining := r.remaining - 1 - 1
        lowByte := w.low
        syncRun := tally r.syncRun w.bytes
        endPending := r.endPending || r.settings.endAddress == some r.address })
        rfl hr hws (by rw [hsub]; omega) hcs
      refine ⟨hready, ?_⟩
      rw [hevents]
      simp only [wordEvents, List.any_cons, Event.address?_word, Bool.or_assoc, List.cons_append]
      rfl

theorem push_block {r : Receiver} (h : r.Ready) {b : Block} (ha : b.address ≠ markerAddress)
    (hne : b.words ≠ []) (hlen : b.words.length ≤ 32767) (hc : Calm r.syncRun b.encode) :
    (r.push b.encode).1.Ready ∧ (r.push b.encode).2 = b.report r.settings := by
  rw [Block.encode] at hc ⊢
  obtain ⟨hch, hcw⟩ := calm_append.mp hc
  have hcount : UInt16.toNat b.header.byteCount = 2 * b.words.length := toNat_double hlen
  obtain ⟨hready, hevents⟩ := push_words (r := { r with
    phase := .dataLow
    address := b.header.address
    remaining := b.header.byteCount
    syncRun := tally r.syncRun b.header.encode }) rfl h.reported hne hcount hcw
  rw [push_append, push_header b.header h ha hch]
  refine ⟨hready, hevents.trans ?_⟩
  rw [h.pending]
  rfl

/-- Blocks one behind the other are taken one behind the other. -/
theorem push_blocks {r : Receiver} (h : r.Ready) {blocks : List Block}
    (hb : ∀ b ∈ blocks, b.address ≠ markerAddress ∧ b.words ≠ [] ∧ b.words.length ≤ 32767)
    (hc : Calm r.syncRun (blocks.flatMap Block.encode)) :
    (r.push (blocks.flatMap Block.encode)).1.Ready ∧
      (r.push (blocks.flatMap Block.encode)).2 = blocks.flatMap (Block.report · r.settings) := by
  induction blocks generalizing r with
  | nil => exact ⟨h, rfl⟩
  | cons b blocks ih =>
    rw [List.flatMap_cons] at hc ⊢
    obtain ⟨hcb, hcs⟩ := calm_append.mp hc
    obtain ⟨ha, hne, hlen⟩ := hb b List.mem_cons_self
    obtain ⟨hready, hevents⟩ := push_block h ha hne hlen hcb
    obtain ⟨hready', hevents'⟩ := ih hready (fun c hm => hb c (List.mem_cons_of_mem b hm))
      (by rwa [push_syncRun])
    rw [push_append, hevents, hevents', push_settings, List.flatMap_cons]
    exact ⟨hready', rfl⟩

end Receiver

end WordLink
