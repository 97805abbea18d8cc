import WordLink.Proofs.FirstWord
import WordLink.Proofs.Slip

/-!
# A mirror left behind

Behind a sync byte a mirror need not miss anything: the update may be read one byte off and yet say
nothing wrong. But some word at address 0 is bound to be missed. With the last sync byte taken for
half an address, the bytes of that word go to odd addresses, and what else there is to be read does
not depend on them.
-/
namespace WordLink

theorem Memory.word_foldl_apply_congr {m n : Memory} {a : Address} (h : m.word a = n.word a)
    (events : List Event) :
    (events.foldl apply m).word a = (events.foldl apply n).word a := by
  induction events generalizing m n with
  | nil => exact h
  | cons e events ih =>
    refine ih ?_
    cases e with
    | boundary => exact h
    | word b data => rw [apply, apply, word_store, word_store, h]

/-- A word that is read away from an address leaves it alone. -/
theorem Memory.word_foldl_apply_cons {m : Memory} {a b : Address} (h : a ≠ b) (data : Word)
    (events : List Event) :
    ((Event.word b data :: events).foldl apply m).word a = (events.foldl apply m).word a := by
  refine word_foldl_apply_congr ?_ events
  rw [apply, word_store, if_neg h]

/-- One byte off, what is read for address 0 does not depend on the word that was sent for it. -/
theorem word_slipped (mirror : Memory) (count : Word) (rest : List UInt8) : ∃ x : Word, ∀ v : Word,
    ((blockWords (syncByte :: (Word.bytes 0 ++ (count.bytes ++ (v.bytes ++ rest))))).foldl
      Memory.apply mirror).word 0 = x := by
  have hcount := Word.toNat_ofBytes 0 count.low
  have hlow := count.low.toNat_lt
  have h2 := Word.toNat_sub_one_sub_one (Word.ofBytes 0 count.low)
  have h4 := Word.toNat_sub_one_sub_one (Word.ofBytes 0 count.low - 1 - 1)
  rw [UInt8.toNat_zero, Nat.zero_add] at hcount
  have hopen : Word.ofBytes 0 count.low - 1 - 1 ≠ 0 := by
    intro h
    rw [h] at h2
    simp at h2
    omega
  have hopen' : Word.ofBytes 0 count.low - 1 - 1 - 1 - 1 ≠ 0 := by
    intro h
    rw [h] at h4
    simp at h4
    omega
  have hread (v : Word) :
      blockWords (syncByte :: (Word.bytes 0 ++ (count.bytes ++ (v.bytes ++ rest)))) =
        .word 0x0055 (Word.ofBytes count.high v.low) ::
          dataWords 0x0057 (Word.ofBytes 0 count.low - 1 - 1) (v.high :: rest) := by
    have hodd : Word.ofBytes syncByte 0 ≠ markerAddress := by decide
    have hbody := blockWords_other hodd (0 :: count.low :: count.high :: v.low :: v.high :: rest)
    rw [bodyWords, dataWords_cons_cons, if_neg hopen] at hbody
    exact hbody
  cases rest with
  | nil =>
    refine ⟨mirror.word 0, ?_⟩
    intro v
    rw [hread, dataWords_short _ _ (by simp), Memory.word_foldl_apply_cons (by decide)]
    rfl
  | cons byte rest =>
    refine ⟨((dataWords 0x0059 (Word.ofBytes 0 count.low - 1 - 1 - 1 - 1) rest).foldl
      Memory.apply mirror).word 0, ?_⟩
    intro v
    rw [hread, dataWords_cons_cons, if_neg hopen', Memory.word_foldl_apply_cons (by decide),
      Memory.word_foldl_apply_cons (by decide)]
    rfl

namespace Sender

variable {s : Sender} {m : Memory} {r : Receiver}

theorem unmarked_store (h : s.Unmarked m) {a : Address} (ha : a ≠ markerAddress) (v : Word) :
    s.Unmarked (m.store a v) := by
  refine ⟨?_, h.2⟩
  rw [Memory.get?_store, if_neg ha.symm]
  exact h.1

theorem blocks_ne_nil_of_due {a : Address} (h : s.Due m a) : s.blocks m ≠ [] :=
  fun hb => not_due_of_nil hb a h

/-- Behind a sync byte there is a word that an update carries and the mirror misses. -/
theorem exists_store_missed (hw : r.WellFormed) (hset : r.settings = {})
    (hp : r.phase = .awaitSync ∨ r.phase = .addressLow) (hrun : r.syncRun = 1 ∨ r.syncRun = 2)
    (hm : s.Unmarked m) (mirror : Memory) : ∃ v,
      ((r.push (s.update (m.store 0 v)).bytes).2.foldl Memory.apply mirror).word 0 ≠ v := by
  obtain ⟨count, rest, hbytes⟩ := encode_blocks_store s m
  obtain ⟨x, hx⟩ := word_slipped mirror count rest
  -- what the mirror is left with: `x` one byte off, its former word where the update is dropped
  obtain ⟨v, hv, hne⟩ := exists_word_ne (m.word 0) (if r.syncRun = 1 then x else mirror.word 0)
  refine ⟨v, ?_⟩
  have hblocks : s.blocks (m.store 0 v) ≠ [] :=
    blocks_ne_nil_of_due (Or.inl (Memory.changed_store hv))
  have hsafe := blocks_safe (unmarked_store hm (by decide : (0 : Address) ≠ markerAddress) v)
  rw [update_bytes hblocks]
  rcases hrun with hrun | hrun
  · have hc := (Block.calm_encodes hsafe (by omega : 1 ≤ 2)).1
    rw [Receiver.push_sync_one hw hset hp hrun hc, hbytes v hv, List.foldl_cons, Memory.apply, hx]
    rw [if_pos hrun] at hne
    exact hne.symm
  · have hc := (Block.calm_encodes hsafe (by omega : 2 ≤ 2)).1
    rw [Receiver.push_sync_two hw hset hp hrun hc]
    rw [if_neg (by omega)] at hne
    exact hne.symm

end Sender

end WordLink
