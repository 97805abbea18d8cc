import WordLink.Proofs.SyncRun

/-!
# The grammar of a stream

A stream is cut behind every sync run. What lies before the first cut is not read; every later
piece is a boundary and then blocks, as far as they go. `reading` says so about a stream as a
whole, and a receiver with the default settings reports the same, byte by byte.
-/
namespace WordLink

/-- The bytes up to the first run that is completed, and the pieces behind it. -/
def splitRuns (run : Nat) : List UInt8 → List UInt8 × List (List UInt8)
  | [] => ([], [])
  | byte :: rest =>
    if Completes run byte then
      let later := splitRuns 0 rest
      ([byte], later.1 :: later.2)
    else
      let later := splitRuns (tallyByte run byte) rest
      (byte :: later.1, later.2)

/-- The words that lie one behind the other from an address on; half a word is none. -/
def wordsAt (a : Address) : List UInt8 → List Event
  | low :: high :: rest => .word a (Word.ofBytes low high) :: wordsAt (a + wordStride) rest
  | _ => []

/-- How many words a count of bytes announces; an odd one is never used up. -/
def announced (count : Word) : Option Nat :=
  if count.toNat % 2 = 1 then none
  else if count = 0 then some 32768
  else some (count.toNat / 2)

/-- The words of the blocks in a piece; the marker in place of an address ends it. -/
def blockWords : List UInt8 → List Event
  | a :: b :: c :: d :: rest =>
    if Word.ofBytes a b = markerAddress then []
    else
      match announced (Word.ofBytes c d) with
      | none => wordsAt (Word.ofBytes a b) rest
      | some n =>
        wordsAt (Word.ofBytes a b) (rest.take (2 * n)) ++ blockWords (rest.drop (2 * n))
  | _ => []
termination_by bytes => bytes.length

def reading (bytes : List UInt8) : List Event :=
  (splitRuns 0 bytes).2.flatMap fun piece => .boundary :: blockWords piece

def dataWords (a : Address) (count : Word) (rest : List UInt8) : List Event :=
  match announced count with
  | none => wordsAt a rest
  | some n => wordsAt a (rest.take (2 * n)) ++ blockWords (rest.drop (2 * n))

def bodyWords (a : Address) : List UInt8 → List Event
  | c :: d :: rest => dataWords a (Word.ofBytes c d) rest
  | _ => []

theorem blockWords_marker {a b : UInt8} (h : Word.ofBytes a b = markerAddress)
    (rest : List UInt8) : blockWords (a :: b :: rest) = [] := by
  match rest with
  | [] | [_] => simp [blockWords]
  | _ :: _ :: _ => simp [blockWords, h]

theorem blockWords_other {a b : UInt8} (h : Word.ofBytes a b ≠ markerAddress)
    (rest : List UInt8) : blockWords (a :: b :: rest) = bodyWords (Word.ofBytes a b) rest := by
  match rest with
  | [] | [_] => simp [blockWords, bodyWords]
  | c :: d :: rest => rw [blockWords, if_neg h, bodyWords, dataWords]

theorem announced_eq_none_iff {count : Word} : announced count = none ↔ count.toNat % 2 = 1 := by
  unfold announced
  split
  · simp_all
  · split <;> simp_all

theorem announced_of_even {count : Word} (h : count.toNat % 2 = 0) :
    announced count = some (if count.toNat = 0 then 32768 else count.toNat / 2) := by
  have hz : count = 0 ↔ count.toNat = 0 := by rw [← UInt16.toNat_inj]; rfl
  simp [announced, h, hz]
  split <;> rfl

/-- A word uses up two of the bytes that were announced, and the block is over with the last. -/
theorem dataWords_cons_cons (a : Address) (count : Word) (low high : UInt8) (rest : List UInt8) :
    dataWords a count (low :: high :: rest) = .word a (Word.ofBytes low high) ::
      if count - 1 - 1 = 0 then blockWords rest
      else dataWords (a + wordStride) (count - 1 - 1) rest := by
  have hlt := count.toNat_lt
  have hsub := Word.toNat_sub_one_sub_one count
  have hz : count - 1 - 1 = 0 ↔ (count - 1 - 1).toNat = 0 := by rw [← UInt16.toNat_inj]; rfl
  by_cases hodd : count.toNat % 2 = 1
  · have hne : count - 1 - 1 ≠ 0 := by rw [Ne, hz]; omega
    have hodd' : (count - 1 - 1).toNat % 2 = 1 := by omega
    rw [if_neg hne, dataWords, dataWords, announced_eq_none_iff.mpr hodd,
      announced_eq_none_iff.mpr hodd']
    rfl
  · have heven : count.toNat % 2 = 0 := by omega
    rw [dataWords, announced_of_even heven]
    by_cases hend : count - 1 - 1 = 0
    · have htwo : count.toNat = 2 := by rw [hz] at hend; omega
      rw [if_pos hend]
      simp [htwo, wordsAt]
    · have hne := mt hz.mpr hend
      have heven' : (count - 1 - 1).toNat % 2 = 0 := by omega
      rw [if_neg hend, dataWords, announced_of_even heven', if_neg hne]
      have hn : (if count.toNat = 0 then 32768 else count.toNat / 2) =
          (count - 1 - 1).toNat / 2 + 1 := by
        split <;> omega
      simp only [hn, Nat.mul_add, Nat.mul_one, List.take_succ_cons, List.drop_succ_cons, wordsAt,
        List.cons_append]

theorem dataWords_short (a : Address) (count : Word) {rest : List UInt8} (h : rest.length < 2) :
    dataWords a count rest = [] := by
  have hw : ∀ bytes : List UInt8, bytes.length < 2 → wordsAt a bytes = [] := by
    intro bytes hb
    match bytes with
    | [] | [_] => rfl
    | _ :: _ :: _ =>
      simp only [List.length_cons] at hb
      omega
  have hb : ∀ bytes : List UInt8, bytes.length < 2 → blockWords bytes = [] := by
    intro bytes hb
    match bytes with
    | [] | [_] => simp [blockWords]
    | _ :: _ :: _ =>
      simp only [List.length_cons] at hb
      omega
  rw [dataWords]
  split
  · exact hw rest h
  · rw [hw _ (by simp; omega), hb _ (by simp; omega), List.append_nil]

namespace Receiver

/-- The words that the rest of a piece still brings to a receiver in the middle of it. -/
def expected (r : Receiver) (rest : List UInt8) : List Event :=
  match r.phase with
  | .awaitSync => []
  | .addressLow => blockWords rest
  | .addressHigh => blockWords (Word.low r.address :: rest)
  | .countLow => bodyWords r.address rest
  | .countHigh => bodyWords r.address (r.remaining.low :: rest)
  | .dataLow => dataWords r.address r.remaining rest
  | .dataHigh => dataWords r.address (r.remaining + 1) (r.lowByte :: rest)

theorem expected_nil (r : Receiver) : r.expected [] = [] := by
  cases hp : r.phase with
  | awaitSync => simp [expected, hp]
  | addressLow | addressHigh => simp [expected, hp, blockWords]
  | countLow | countHigh => simp [expected, hp, bodyWords]
  | dataLow | dataHigh => simp [expected, hp, dataWords_short]

theorem expected_of_addressLow {r : Receiver} (h : r.phase = .addressLow) (rest : List UInt8) :
    r.expected rest = blockWords rest := by
  simp [expected, h]

/-- One byte taken from what a piece still brings is what the receiver reports at that byte. -/
theorem expected_cons {r : Receiver} (hs : r.settings = {}) (he : r.endPending = false)
    (byte : UInt8) (rest : List UInt8) :
    r.expected (byte :: rest) = (r.consume byte).2 ++ (r.consume byte).1.expected rest := by
  cases hp : r.phase with
  | awaitSync => simp [expected, consume, hp]
  | addressLow => simp [expected, consume, hp, Word.withLow]
  | addressHigh =>
    by_cases hm : Word.withHigh r.address byte = markerAddress
    · simp [expected, consume, hp, openBlock_marker hm, hs, blockWords_marker hm]
    · simp only [expected, consume, hp, openBlock_other hm, List.nil_append]
      exact blockWords_other hm rest
  | countLow => simp [expected, consume, hp, Word.withLow]
  | countHigh => simp [expected, consume, hp, Word.withHigh, bodyWords]
  | dataLow => simp [expected, consume, hp]
  | dataHigh =>
    have hrem : r.remaining + 1 - 1 - 1 = r.remaining - 1 := by
      rw [UInt16.add_sub_cancel]
    simp only [expected, consume, hp, finishWord, dataWords_cons_cons, hrem, he, hs]
    by_cases hz : r.remaining - 1 = 0
    · simp [hz]
    · simp [hz]

/-- A receiver in the middle of a piece reports the rest of that piece, then the later ones. -/
theorem push_eq_expected {r : Receiver} (h : r.WellFormed) (hs : r.settings = {})
    (bytes : List UInt8) :
    (r.push bytes).2 = r.expected (splitRuns r.syncRun bytes).1 ++
      (splitRuns r.syncRun bytes).2.flatMap fun piece => .boundary :: blockWords piece := by
  induction bytes generalizing r with
  | nil => simp [splitRuns, expected_nil]
  | cons byte rest ih =>
    have hnext := ih (step_wellFormed h byte) ((step_settings r byte).trans hs)
    have he : r.endPending = false := by
      apply Bool.eq_false_iff.mpr
      intro he
      exact (h.pending he).1 (by rw [hs])
    have hr : r.reported = false := by
      apply Bool.eq_false_iff.mpr
      intro hr
      simpa [hs] using (h.reported hr).1
    rw [push_cons, hnext, step_syncRun, splitRuns]
    by_cases hc : Completes r.syncRun byte
    · have hz : tallyByte r.syncRun byte = 0 := by
        rw [tallyByte, if_neg (not_not_intro hc.1), if_pos hc.2]
      have hcr : (r.consume byte).1.reported = false := by
        rw [consume_reported_eq (by rw [hs]), hr]
      rw [if_pos hc, step_completes hc, hz, hcr, expected_cons hs he, expected_nil,
        expected_of_addressLow rfl]
      simp
    · rw [if_neg hc, step_calm hc, expected_cons hs he, List.append_assoc]
      rfl

/-- A receiver with the default settings reports of a stream exactly what the grammar reads. -/
theorem push_default_eq_reading (bytes : List UInt8) :
    ((ofSettings {}).push bytes).2 = reading bytes := by
  rw [push_eq_expected (wellFormed_new {}) rfl]
  rfl

end Receiver

end WordLink
