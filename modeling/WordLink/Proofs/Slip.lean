import WordLink.Proofs.Grammar
import WordLink.Proofs.RoundTrip

/-!
# A sync sequence behind sync bytes

Sync bytes at the end of one update and those at the start of the next make one run, which is
complete too early. What is left of the sync sequence then stands where an address should: with two
bytes left it is the marker, and the update is dropped; with one byte left everything behind it is
read one byte off.
-/
namespace WordLink

theorem splitRuns_calm {run : Nat} {bytes : List UInt8} (h : Calm run bytes) :
    splitRuns run bytes = (bytes, []) := by
  induction bytes generalizing run with
  | nil => rfl
  | cons byte rest ih =>
    obtain ⟨hc, hrest⟩ := h
    rw [splitRuns, if_neg hc, ih hrest]

/-- A block that is read without its address's low byte has its words elsewhere. -/
theorem head?_blockWords {a b : UInt8} {rest : List UInt8} {e : Event}
    (h : (blockWords (a :: b :: rest)).head? = some e) : e.address? = some (Word.ofBytes a b) := by
  by_cases hm : Word.ofBytes a b = markerAddress
  · rw [blockWords_marker hm] at h
    cases h
  · rw [blockWords_other hm] at h
    match rest with
    | [] | [_] => cases h
    | [c, d] | [c, d, _] =>
      rw [bodyWords.eq_1, dataWords_short _ _ (by simp)] at h
      cases h
    | c :: d :: low :: high :: rest =>
      rw [bodyWords, dataWords_cons_cons] at h
      cases h
      rfl

theorem splitRuns_sync_one {bytes : List UInt8} (h : Calm 1 bytes) :
    splitRuns 1 (syncSequence ++ bytes) =
      ([syncByte, syncByte, syncByte], [syncByte :: bytes]) := by
  simp [syncSequence, syncRunLength, splitRuns, completes_iff, tallyByte, splitRuns_calm h]

theorem splitRuns_sync_two {bytes : List UInt8} (h : Calm 2 bytes) :
    splitRuns 2 (syncSequence ++ bytes) =
      ([syncByte, syncByte], [syncByte :: syncByte :: bytes]) := by
  simp [syncSequence, syncRunLength, splitRuns, completes_iff, tallyByte, splitRuns_calm h]

namespace Receiver

variable {r : Receiver} {bytes : List UInt8}

theorem expected_sync (hp : r.phase = .awaitSync ∨ r.phase = .addressLow) (rest : List UInt8) :
    r.expected (syncByte :: syncByte :: rest) = [] := by
  rcases hp with hp | hp
  · simp [expected, hp]
  · rw [expected_of_addressLow hp, blockWords_marker ofBytes_sync]

/-- Behind one sync byte the last one of a sync sequence is taken for half an address. -/
theorem push_sync_one (h : r.WellFormed) (hs : r.settings = {})
    (hp : r.phase = .awaitSync ∨ r.phase = .addressLow) (hrun : r.syncRun = 1)
    (hc : Calm 1 bytes) :
    (r.push (syncSequence ++ bytes)).2 = .boundary :: blockWords (syncByte :: bytes) := by
  rw [push_eq_expected h hs, hrun, splitRuns_sync_one hc, expected_sync hp]
  simp

/-- Behind two sync bytes the last two of a sync sequence are taken for the marker. -/
theorem push_sync_two (h : r.WellFormed) (hs : r.settings = {})
    (hp : r.phase = .awaitSync ∨ r.phase = .addressLow) (hrun : r.syncRun = 2)
    (hc : Calm 2 bytes) : (r.push (syncSequence ++ bytes)).2 = [.boundary] := by
  rw [push_eq_expected h hs, hrun, splitRuns_sync_two hc, expected_sync hp]
  simp [blockWords_marker ofBytes_sync]

end Receiver

namespace Block

theorem Safe.head?_events {b : Block} (h : b.Safe) :
    ∃ w, b.events.head? = some (.word b.address w) := by
  obtain ⟨w, ws, hws⟩ := List.exists_cons_of_ne_nil h.words
  exact ⟨w, by rw [events, hws, wordEvents, List.head?_cons]⟩

end Block

namespace Sender

variable {s : Sender} {m : Memory}

/-- An update behind a sync byte is not read as it was sent. -/
theorem push_update_slipped {r : Receiver} (hw : r.WellFormed) (hset : r.settings = {})
    (hp : r.phase = .awaitSync ∨ r.phase = .addressLow) (hrun : r.syncRun = 1 ∨ r.syncRun = 2)
    (hm : s.Unmarked m) (hne : s.blocks m ≠ []) :
    (r.push (s.update m).bytes).2 ≠ .boundary :: (s.sent m).map fun a => .word a (m.word a) := by
  have hsafe := blocks_safe hm
  rw [update_bytes hne, ← blocks_events]
  obtain ⟨b, blocks, hb⟩ := List.exists_cons_of_ne_nil hne
  rw [hb] at hsafe ⊢
  have hfirst := hsafe b List.mem_cons_self
  obtain ⟨w, hw'⟩ := hfirst.head?_events
  intro he
  have hhead : ((b :: blocks).flatMap Block.events).head? = some (.word b.address w) := by
    rw [List.flatMap_cons, List.head?_append, hw']
    rfl
  rcases hrun with hrun | hrun
  · have hc := (Block.calm_encodes hsafe (by omega : 1 ≤ 2)).1
    rw [Receiver.push_sync_one hw hset hp hrun hc] at he
    rw [← (List.cons.inj he).2] at hhead
    -- the block would start at an address that begins with two equal bytes, both sync bytes
    have haddress := Option.some.inj (head?_blockWords hhead)
    have hlow := congrArg Word.low haddress
    have hhigh := congrArg Word.high haddress
    rw [Word.low_ofBytes] at hlow
    rw [Word.high_ofBytes] at hhigh
    apply hfirst.address
    rw [← Word.ofBytes_low_high b.address]
    exact ofBytes_eq_marker_iff.mpr ⟨hlow, hhigh.trans hlow⟩
  · have hc := (Block.calm_encodes hsafe (by omega : 2 ≤ 2)).1
    rw [Receiver.push_sync_two hw hset hp hrun hc] at he
    rw [← (List.cons.inj he).2] at hhead
    cases hhead

end Sender

end WordLink
