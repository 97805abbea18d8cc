import WordLink.Proofs.RoundTrip

/-!
# Blocks of anyone's making

What a sender lays out keeps clear of sync runs. Other blocks need not, and yet a receiver between
blocks takes every sequence of them back to its words as long as no four sync bytes stand in a row
anywhere in it, be it in an address, a count or the words, or across two blocks
(`blocks_decoded`).
-/
namespace WordLink

/-- Bytes are calm if there is no sync sequence in them. The induction puts the sync bytes that have
been counted back in front. -/
theorem calm_of_not_infix {run : Nat} (hrun : run < syncRunLength) {bytes : List UInt8}
    (h : ¬ syncSequence <:+: List.replicate run syncByte ++ bytes) : Calm run bytes := by
  induction bytes generalizing run with
  | nil => trivial
  | cons byte rest ih =>
    have hcalm : ¬ Completes run byte := by
      intro hc
      obtain ⟨rfl, rfl⟩ := completes_iff.mp hc
      exact h (List.prefix_append syncSequence rest).isInfix
    refine ⟨hcalm, ih (tallyByte_lt hrun byte) ?_⟩
    by_cases hb : byte = syncByte
    · subst hb
      rwa [tallyByte_sync hcalm, List.replicate_succ', List.append_assoc]
    · rw [tallyByte_other hb]
      intro hrest
      exact h (hrest.trans ((List.suffix_cons byte rest).trans (List.suffix_append _ _)).isInfix)

namespace Block

/-- The address just past the last word. -/
def past (b : Block) : Address := b.address + UInt16.ofNat (2 * b.words.length)

theorem events_eq (b : Block) :
    b.events = b.words.mapIdx fun i w => .word (b.address + UInt16.ofNat (2 * i)) w :=
  wordEvents_eq_mapIdx ..

/-- The block starts at an address, and its count says how many words there are. -/
def Proper (b : Block) : Prop :=
  b.address ≠ markerAddress ∧ 1 ≤ b.words.length ∧ b.words.length ≤ 32767

end Block

namespace Receiver

variable {r : Receiver}

/-- The words of a block count it down to nothing. The receiver need not be reading words any more
once there are none left. -/
theorem push_words_registers {ws : List Word} (hp : ws ≠ [] → r.phase = .dataLow)
    (hr : r.reported = false) (hrem : r.remaining.toNat = 2 * ws.length)
    (hc : Calm r.syncRun (ws.flatMap Word.bytes)) :
    (r.push (ws.flatMap Word.bytes)).1.address = r.address + UInt16.ofNat (2 * ws.length) ∧
      (r.push (ws.flatMap Word.bytes)).1.remaining = 0 := by
  induction ws generalizing r with
  | nil => exact ⟨(UInt16.add_zero r.address).symm, UInt16.toNat_inj.mp hrem⟩
  | cons w ws ih =>
    obtain ⟨hcw, hcs⟩ := calm_append.mp hc
    have hnext : (r.remaining - 1 - 1).toNat = 2 * ws.length := by
      have hlt := r.remaining.toNat_lt
      rw [Word.toNat_sub_one_sub_one, hrem]
      rw [hrem] at hlt
      simp only [List.length_cons] at hlt ⊢
      omega
    rw [List.flatMap_cons, push_append, push_word (hp (List.cons_ne_nil w ws)) hr hcw,
      List.length_cons, ← wordStride_add]
    refine ih ?_ hr hnext hcs
    intro hws
    have hpos := List.length_pos_iff.mpr hws
    refine if_neg fun hzero => ?_
    rw [hzero, UInt16.toNat_zero] at hnext
    omega

theorem push_block_registers (h : r.Ready) {b : Block} (hb : b.Proper)
    (hc : Calm r.syncRun b.encode) :
    (r.push b.encode).1.address = b.past ∧ (r.push b.encode).1.remaining = 0 := by
  rw [Block.encode] at hc ⊢
  obtain ⟨hch, hcw⟩ := calm_append.mp hc
  rw [push_append, push_header b.header h hb.1 hch]
  exact push_words_registers (fun _ => rfl) h.reported (toNat_double hb.2.2) hcw

theorem push_proper_blocks (h : r.Ready) (hend : r.settings.endAddress = none)
    {blocks : List Block} (hb : ∀ b ∈ blocks, b.Proper)
    (hc : Calm r.syncRun (blocks.flatMap Block.encode)) :
    (r.push (blocks.flatMap Block.encode)).1.Ready ∧
      (r.push (blocks.flatMap Block.encode)).2 = blocks.flatMap Block.events := by
  rw [← Block.report_of_none hend]
  refine push_blocks h (fun b hm => ?_) hc
  obtain ⟨ha, hpos, hlen⟩ := hb b hm
  exact ⟨ha, List.length_pos_iff.mp hpos, hlen⟩

theorem push_blocks_registers (h : r.Ready) (hend : r.settings.endAddress = none)
    {before : List Block} {last : Block} (hb : ∀ b ∈ before ++ [last], b.Proper)
    (hc : Calm r.syncRun ((before ++ [last]).flatMap Block.encode)) :
    (r.push ((before ++ [last]).flatMap Block.encode)).1.address = last.past ∧
      (r.push ((before ++ [last]).flatMap Block.encode)).1.remaining = 0 := by
  rw [List.flatMap_append, List.flatMap_singleton] at hc ⊢
  obtain ⟨hcb, hcl⟩ := calm_append.mp hc
  obtain ⟨hready, -⟩ := push_proper_blocks h hend
    (fun b hm => hb b (List.mem_append_left _ hm)) hcb
  rw [push_append]
  exact push_block_registers hready (hb last (by simp)) (by rwa [push_syncRun])

/-- What the receiver has read of a block once its header is through. -/
theorem push_header_after (h : r.Ready) (hend : r.settings.endAddress = none)
    {before after : List Block} {b : Block} (hb : ∀ c ∈ before ++ b :: after, c.Proper)
    (hc : Calm r.syncRun ((before ++ b :: after).flatMap Block.encode)) :
    (r.push (before.flatMap Block.encode ++ b.header.encode)).1.address = b.address ∧
      (r.push (before.flatMap Block.encode ++ b.header.encode)).1.remaining =
        b.header.byteCount := by
  rw [List.flatMap_append, List.flatMap_cons, Block.encode, List.append_assoc] at hc
  obtain ⟨hcb, hcs⟩ := calm_append.mp hc
  obtain ⟨hch, -⟩ := calm_append.mp hcs
  obtain ⟨hready, -⟩ := push_proper_blocks h hend
    (fun c hm => hb c (List.mem_append_left _ hm)) hcb
  have ha := (hb b (List.mem_append_right _ List.mem_cons_self)).1
  rw [push_append, push_header b.header hready ha (by rwa [push_syncRun])]
  exact ⟨rfl, rfl⟩

/-- A receiver between blocks takes a sequence of blocks without a sync run in it to the words of
the blocks, each at its address, and to nothing else, and is between blocks again, at the address
past the last word and with no data left to come. Behind the header of each block its registers hold
what there is to read in the header. -/
theorem blocks_decoded (blocks : List Block) (r : Receiver) (hne : blocks ≠ [])
    (hb : ∀ b ∈ blocks, b.address ≠ markerAddress ∧ 1 ≤ b.words.length ∧ b.words.length ≤ 32767)
    (hsync : ¬ syncSequence <:+: blocks.flatMap Block.encode) (hr : r.Reachable)
    (hend : r.settings.endAddress = none) (hp : r.phase = .addressLow) (hrun : r.syncRun = 0) :
    (r.push (blocks.flatMap Block.encode)).2 = blocks.flatMap (fun b =>
      b.words.mapIdx fun i w => .word (b.address + UInt16.ofNat (2 * i)) w) ∧
    (r.push (blocks.flatMap Block.encode)).1.phase = .addressLow ∧
    (r.push (blocks.flatMap Block.encode)).1.remaining = 0 ∧
    (r.push (blocks.flatMap Block.encode)).1.address = (blocks.getLast hne).past ∧
    ∀ before b after, blocks = before ++ b :: after →
      let header := b.encode.take Header.size
      let opened := (r.push (before.flatMap Block.encode ++ header)).1
      Header.decode? header = some ⟨opened.address, opened.remaining⟩ ∧
        opened.address = b.address ∧ opened.remaining.toNat = 2 * b.words.length := by
  have hready : r.Ready := ⟨hp, hr.wellFormed.reported_of_run_zero hrun,
    hr.wellFormed.pending_eq_false (by simp [hp]) (by simp [hp])⟩
  have hcalm : Calm r.syncRun (blocks.flatMap Block.encode) := by
    rw [hrun]
    exact calm_of_not_infix (by decide) hsync
  obtain ⟨hlast, hevents⟩ := push_proper_blocks hready hend hb hcalm
  have hsplit := List.dropLast_concat_getLast hne
  have hregisters := push_blocks_registers hready hend (hsplit.symm ▸ hb) (hsplit.symm ▸ hcalm)
  rw [hsplit] at hregisters
  refine ⟨?_, hlast.phase, hregisters.2, hregisters.1, ?_⟩
  · rw [hevents, funext Block.events_eq]
  · rintro before b after rfl
    have hheader : b.encode.take Header.size = b.header.encode := rfl
    obtain ⟨haddress, hcount⟩ := push_header_after hready hend hb hcalm
    have hdecode := Header.decode?_encode_append b.header []
    rw [List.append_nil] at hdecode
    simp only [hheader, haddress, hcount, hdecode, true_and]
    exact ⟨rfl, toNat_double (hb b (by simp)).2.2⟩

/-- Two words that go round the end of the address space, the second a sync word and behind it
another sync byte, the first half of the next address. -/
theorem blocks_decoded_wrapped :
    let r := ((Receiver.ofSettings { markerBoundary := true }).push syncSequence).1
    let blocks : List Block := [⟨0xFFFE, [1, syncWord]⟩, ⟨0x0055, [9]⟩]
    r.Reachable ∧ (∀ b ∈ blocks,
      b.address ≠ markerAddress ∧ 1 ≤ b.words.length ∧ b.words.length ≤ 32767) ∧
      ¬ syncSequence <:+: blocks.flatMap Block.encode ∧ r.phase = .addressLow ∧ r.syncRun = 0 ∧
      (r.push (blocks.flatMap Block.encode)).2 =
        [.word 0xFFFE 1, .word 0x0000 syncWord, .word 0x0055 9] ∧
      (r.push (blocks.flatMap Block.encode)).1.address = 0x0057 := by
  intro r blocks
  have hb : ∀ b ∈ blocks,
      b.address ≠ markerAddress ∧ 1 ≤ b.words.length ∧ b.words.length ≤ 32767 := by decide
  have hsync : ¬ syncSequence <:+: blocks.flatMap Block.encode := by decide +kernel
  have hr : r.Reachable := (Reachable.new _).push syncSequence
  have hp : r.phase = .addressLow := by decide +kernel
  have hrun : r.syncRun = 0 := by decide +kernel
  obtain ⟨hevents, -, -, haddress, -⟩ :=
    blocks_decoded blocks r (List.cons_ne_nil _ _) hb hsync hr (by decide +kernel) hp hrun
  exact ⟨hr, hb, hsync, hp, hrun, hevents.trans (by decide +kernel),
    haddress.trans (by decide +kernel)⟩

end Receiver

end WordLink
