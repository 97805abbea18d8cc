import WordLink.Proofs.RoundTrip

/-!
# A word at the marker address

Nothing keeps a word from being stored at the marker address. Inside a block it travels like any
other. But if it is due and no span before it takes it in, it heads a block of its own, and a
receiver takes the address of that block for the inside of a sync run. An update arrives whole
exactly if it has no such block (`update_arrives_iff`).
-/
namespace WordLink

/-! ### Where blocks start -/

namespace Memory

variable {m : Memory} {gap : Word} {below above : List Address} {a : Address}

theorem filter_lt_of_ascending (h : (below ++ a :: above).Pairwise (· < ·)) :
    (below ++ a :: above).filter (· < a) = below := by
  obtain ⟨-, habove, hlt⟩ := List.pairwise_append.mp h
  have hkeep : below.filter (· < a) = below :=
    List.filter_eq_self.mpr fun b hb => decide_eq_true (hlt b hb a List.mem_cons_self)
  have hdrop : (a :: above).filter (· < a) = [] := by
    refine List.filter_eq_nil_iff.mpr fun b hb => ?_
    rw [decide_eq_true_iff, UInt16.not_lt]
    rcases List.mem_cons.mp hb with rfl | hb
    · exact UInt16.le_refl b
    · exact UInt16.le_of_lt (List.rel_of_pairwise_cons habove hb)
  rw [List.filter_append, hkeep, hdrop, List.append_nil]

/-- A span starts at a changed word unless the span before it joins it. -/
theorem exists_start_iff (h : (below ++ a :: above).Pairwise (· < ·)) :
    (∃ t ∈ m.spans gap (below ++ a :: above), t.address = a) ↔
      ((m.spans gap below).getLast?.any fun t => t.joins m gap a) = false := by
  cases below with
  | nil =>
    obtain ⟨first, others, hlay, hfirst, -⟩ :=
      Span.exists_lay_eq_cons m gap (Span.single a) above
    rw [List.nil_append, spans_cons, hlay]
    simp only [spans, List.getLast?_nil, Option.any_none, iff_true]
    exact ⟨first, List.mem_cons_self, hfirst⟩
  | cons b below =>
    obtain ⟨done, under, hlay, hstart⟩ := Span.exists_lay_append m gap (Span.single b) below
    have hbelow : m.spans gap (b :: below) = done ++ [under] := by
      rw [spans_cons, ← List.append_nil below, hlay, Span.lay]
    have hne : ∀ c, c ∈ b :: below ∨ c ∈ above → c ≠ a := by
      obtain ⟨-, habove, hlt⟩ := List.pairwise_append.mp h
      rintro c (hc | hc) rfl
      · exact UInt16.lt_irrefl c (hlt c hc c List.mem_cons_self)
      · exact UInt16.lt_irrefl c (List.rel_of_pairwise_cons habove hc)
    rw [List.cons_append, spans_cons, hlay, hbelow, List.getLast?_concat, Option.any_some, Span.lay]
    by_cases hj : under.joins m gap a = true
    · rw [if_pos hj, hj]
      simp only [Bool.true_eq_false, iff_false, not_exists, not_and]
      intro t ht
      rcases List.mem_append.mp ht with ht | ht
      · exact hne _ (Or.inl (hstart t (List.mem_append_left _ ht)))
      · -- the span that takes the word in starts where it did before
        rcases List.mem_cons.mp (Span.lay_address t ht) with heq | hmem
        · have hunder := hstart under (by simp)
          rw [heq]
          exact hne _ (Or.inl hunder)
        · exact hne _ (Or.inr hmem)
    · obtain ⟨first, others, hfirst, haddress, -⟩ :=
        Span.exists_lay_eq_cons m gap (Span.single a) above
      rw [if_neg hj, hfirst]
      simp only [Bool.not_eq_true] at hj
      simp only [hj, iff_true]
      exact ⟨first, by simp, haddress⟩

theorem Covers.starts_ascending {spans : List Span} {changed : List Address}
    (h : m.Covers spans changed) : spans.Pairwise fun t u => t.address < u.address := by
  have hfirst : ∀ t ∈ spans, t.address ∈ t.addresses := fun t ht => (h.sound t ht).address_mem
  refine (List.pairwise_flatMap.mp h.ascending).2.imp_of_mem fun ht hu hlt => ?_
  exact hlt _ (hfirst _ ht) _ (hfirst _ hu)

end Memory

namespace Sender

variable {s : Sender} {m : Memory} {a : Address}

/-- The span laid out right before the word stretches up to it. -/
def takenIn (s : Sender) (m : Memory) (a : Address) : Bool :=
  ((s.prepare m).spans s.settings.mergeGap
      ((s.prepare m).dirtyAddresses.filter (· < a))).getLast?.any fun t =>
    t.joins (s.prepare m) s.settings.mergeGap a

theorem exists_block_at_iff : (∃ b ∈ s.blocks m, b.address = a) ↔
    s.Due m a ∧ s.takenIn m a = false := by
  have hblocks : (∃ b ∈ s.blocks m, b.address = a) ↔ ∃ t ∈ s.spans m, t.address = a := by
    constructor
    · rintro ⟨b, hb, rfl⟩
      obtain ⟨t, ht, rfl⟩ := List.mem_map.mp hb
      exact ⟨t, ht, rfl⟩
    · rintro ⟨t, ht, rfl⟩
      exact ⟨_, List.mem_map.mpr ⟨t, ht, rfl⟩, rfl⟩
  rw [hblocks, ← mem_dirtyAddresses_prepare]
  by_cases ha : a ∈ (s.prepare m).dirtyAddresses
  · obtain ⟨below, above, hdirty⟩ := List.append_of_mem ha
    have hasc := Memory.dirtyAddresses_ascending (s.prepare m)
    rw [hdirty] at hasc
    rw [takenIn, spans, hdirty, Memory.filter_lt_of_ascending hasc, Memory.exists_start_iff hasc]
    simp
  · simp only [ha, false_and, iff_false, not_exists, not_and]
    rintro t ht rfl
    exact ha ((covers_sent s m).starts t ht)

theorem blocks_clear (s : Sender) (m : Memory) : ∀ b ∈ s.blocks m, b.Clear := by
  intro b hb
  obtain ⟨t, ht, rfl⟩ := List.mem_map.mp hb
  exact Span.block_clear ((covers_sent s m).sound t ht)

theorem blocks_ascending (s : Sender) (m : Memory) :
    (s.blocks m).Pairwise fun b c => b.address < c.address :=
  List.pairwise_map.mpr (covers_sent s m).starts_ascending

theorem safe_of_mem_blocks {b : Block} (hb : b ∈ s.blocks m) (h : b.header.isMarker = false) :
    b.Safe :=
  ⟨blocks_clear s m b hb, beq_eq_false_iff_ne.mp h⟩

end Sender

/-! ### What a receiver makes of them -/

namespace Receiver

variable {r : Receiver}

/-- Nothing but a sync run ends the wait for one. -/
theorem push_await_calm {bytes : List UInt8} (hp : r.phase = .awaitSync)
    (hc : Calm r.syncRun bytes) : (r.push bytes).1.phase = .awaitSync ∧ (r.push bytes).2 = [] := by
  induction bytes generalizing r with
  | nil => exact ⟨hp, rfl⟩
  | cons byte rest ih =>
    obtain ⟨hbyte, hrest⟩ := hc
    have hstep := step_calm hbyte
    rw [consume_await hp] at hstep
    have hnext := ih (r := (r.step byte).1) (by rw [hstep]; exact hp) (by rwa [step_syncRun])
    rw [push_cons]
    refine ⟨hnext.1, ?_⟩
    rw [hnext.2, hstep]
    rfl

/-- Whoever is not waiting for a sync run behind calm bytes has not waited within them. -/
theorem push_ne_await {xs ys : List UInt8} (hc : Calm r.syncRun (xs ++ ys))
    (h : (r.push (xs ++ ys)).1.phase ≠ .awaitSync) : (r.push xs).1.phase ≠ .awaitSync := by
  intro hp
  rw [push_append] at h
  exact h (push_await_calm hp (by rw [push_syncRun]; exact (calm_append.mp hc).2)).1

/-- The marker at the head of a block: the receiver starts to wait, unless two sync bytes before it
make it the end of a sync run. -/
theorem push_marker (h : r.Ready) (hs : r.settings.markerBoundary = false) (hrun : r.syncRun ≤ 2) :
    ∃ next : Receiver, r.push (Word.bytes markerAddress) =
        (next, if r.syncRun = 2 then [.boundary] else []) ∧
      (r.syncRun ≠ 2 → next.phase = .awaitSync ∧ next.syncRun = r.syncRun + 2) := by
  have hbytes : Word.bytes markerAddress = [syncByte, syncByte] := rfl
  obtain ⟨low, hlow, hp, ha, hset, hcount, hr⟩ : ∃ low, r.step syncByte = (low, []) ∧
      low.phase = .addressHigh ∧ Word.low low.address = syncByte ∧
      low.settings.markerBoundary = false ∧ low.syncRun = r.syncRun + 1 ∧ low.reported = false :=
    ⟨_, step_low h.phase (by unfold syncRunLength; omega), rfl, Word.low_withLow .., hs, rfl,
      h.reported⟩
  rw [hbytes, push_step hlow]
  by_cases htwo : r.syncRun = 2
  · have hcomplete : Completes low.syncRun syncByte := ⟨rfl, by rw [hcount, htwo]; rfl⟩
    have hstep := step_completes hcomplete
    simp only [consume_marker hp ha, hset, hr, Bool.or_false, Bool.false_and, Bool.false_eq_true,
      if_false] at hstep
    rw [push_step hstep, if_pos htwo]
    exact ⟨_, rfl, fun hne => absurd htwo hne⟩
  · have hstep := step_marker hp ha (by unfold syncRunLength; omega)
    simp only [hset, Bool.or_false, Bool.false_and, Bool.false_eq_true, if_false] at hstep
    rw [push_step hstep, if_neg htwo]
    exact ⟨_, rfl, fun _ => ⟨rfl, congrArg (· + 1) hcount⟩⟩

end Receiver

namespace Sender

variable {s : Sender} {m : Memory} {r : Receiver} {before after : List Block} {b : Block}

theorem safe_beside_marker (hblocks : s.blocks m = before ++ b :: after)
    (hb : b.header.isMarker = true) : (∀ c ∈ before, c.Safe) ∧ ∀ c ∈ after, c.Safe := by
  have hasc := s.blocks_ascending m
  have hclear := s.blocks_clear m
  rw [hblocks] at hasc hclear
  have haddress : b.address = markerAddress := eq_of_beq hb
  obtain ⟨-, hafter, hbefore⟩ := List.pairwise_append.mp hasc
  constructor
  · intro c hc
    have hlt := hbefore c hc b List.mem_cons_self
    rw [haddress] at hlt
    exact ⟨hclear c (List.mem_append_left _ hc), UInt16.ne_of_lt hlt⟩
  · intro c hc
    have hlt := List.rel_of_pairwise_cons hafter hc
    rw [haddress] at hlt
    exact ⟨hclear c (List.mem_append_right _ (List.mem_cons_of_mem _ hc)),
      (UInt16.ne_of_lt hlt).symm⟩

/-- An update without a marker block is one boundary and then its words, and the receiver does not
wait again once it has seen the sync sequence. -/
theorem push_update_unmarked (hw : r.WellFormed) (hs : r.settings = {})
    (hp : r.phase = .awaitSync ∨ r.phase = .addressLow) (hrun : r.syncRun = 0)
    (hne : s.blocks m ≠ []) (hblocks : ∀ b ∈ s.blocks m, b.header.isMarker = false) :
    (r.push (s.update m).bytes).2 = .boundary :: (s.sent m).map (fun a => .word a (m.word a)) ∧
      ∀ k, syncRunLength ≤ k → (r.push ((s.update m).bytes.take k)).1.phase ≠ .awaitSync := by
  have hsafe : ∀ b ∈ s.blocks m, b.Safe := fun b hb => safe_of_mem_blocks hb (hblocks b hb)
  obtain ⟨hready, hevents⟩ := Receiver.push_frame hw hp hrun hsafe
  rw [← update_bytes hne] at hready hevents
  constructor
  · rw [hevents, Block.report_of_none (by rw [hs]), blocks_events]
  · intro k hk
    obtain ⟨next, hsync, -, hzero, -⟩ := Receiver.push_sync_settled hw hp hrun
    have hlen : syncSequence.length = syncRunLength := rfl
    have htake : (s.update m).bytes.take k = syncSequence ++
        ((s.blocks m).flatMap Block.encode).take (k - syncRunLength) := by
      rw [update_bytes hne, List.take_append, List.take_of_length_le (by omega), hlen]
    have hcalm : Calm next.syncRun ((s.blocks m).flatMap Block.encode) :=
      (Block.calm_encodes hsafe (by rw [hzero]; omega)).1
    rw [update_bytes hne, Receiver.push_append, hsync] at hready
    have hphase : (next.push ((s.blocks m).flatMap Block.encode)).1.phase ≠ .awaitSync := by
      rw [hready.phase]
      simp
    rw [htake, Receiver.push_append, hsync]
    rw [← List.take_append_drop (k - syncRunLength) ((s.blocks m).flatMap Block.encode)]
      at hcalm hphase
    exact Receiver.push_ne_await hcalm hphase

/-- With a marker block only the blocks before it arrive. What follows is not read at all, unless
the marker ends a sync run: then it is read out of place. -/
theorem push_update_marked (hw : r.WellFormed) (hs : r.settings = {})
    (hp : r.phase = .awaitSync ∨ r.phase = .addressLow) (hrun : r.syncRun = 0)
    (hblocks : s.blocks m = before ++ b :: after) (hb : b.header.isMarker = true) :
    (tally 0 (before.flatMap Block.encode) ≠ 2 →
      (r.push (s.update m).bytes).2 = .boundary :: before.flatMap Block.events ∧
      (r.push (s.update m).bytes).1.phase = .awaitSync) ∧
    (tally 0 (before.flatMap Block.encode) = 2 → ∃ misread,
      (r.push (s.update m).bytes).2 =
        .boundary :: before.flatMap Block.events ++ .boundary :: misread) := by
  obtain ⟨hbefore, hafter⟩ := safe_beside_marker hblocks hb
  have hclear : b.Clear := s.blocks_clear m b (by simp [hblocks])
  have hbytes : (s.update m).bytes = (syncSequence ++ before.flatMap Block.encode) ++
      (Word.bytes markerAddress ++ (b.body ++ after.flatMap Block.encode)) := by
    have haddress : b.address = markerAddress := eq_of_beq hb
    rw [update_bytes (by simp [hblocks]), hblocks]
    simp [Block.encode_eq b, haddress]
  have hframe := Receiver.push_frame hw hp hrun hbefore
  have hcount := Receiver.push_syncRun r (syncSequence ++ before.flatMap Block.encode)
  have hset := Receiver.push_settings r (syncSequence ++ before.flatMap Block.encode)
  rw [hbytes, Receiver.push_append]
  generalize hnext : r.push (syncSequence ++ before.flatMap Block.encode) = next at *
  obtain ⟨hready, hevents⟩ := hframe
  rw [Block.report_of_none (by rw [hs])] at hevents
  have htally : next.1.syncRun = tally 0 (before.flatMap Block.encode) := by
    rw [hcount, hrun, tally_append]
    rfl
  have hle := (Block.calm_encodes hbefore (Nat.zero_le 2)).2
  obtain ⟨last, hmarker, hwait⟩ :=
    Receiver.push_marker hready (by rw [hset, hs]) (by rw [htally]; exact hle)
  rw [Receiver.push_append, hmarker, htally, hevents]
  rw [htally] at hwait
  constructor
  · intro hne
    obtain ⟨hphase, hlast⟩ := hwait hne
    have hbody := hclear.calm_body last.syncRun
    obtain ⟨hawait, hnone⟩ := Receiver.push_await_calm hphase
      (calm_append.mpr ⟨hbody.1, (Block.calm_encodes hafter hbody.2).1⟩)
    refine ⟨?_, hawait⟩
    rw [hnone, if_neg hne]
    exact List.append_nil _
  · intro htwo
    rw [if_pos htwo]
    exact ⟨_, rfl⟩

theorem push_update_ne_whole (hw : r.WellFormed) (hs : r.settings = {})
    (hp : r.phase = .awaitSync ∨ r.phase = .addressLow) (hrun : r.syncRun = 0)
    (hblocks : s.blocks m = before ++ b :: after) (hb : b.header.isMarker = true) :
    (r.push (s.update m).bytes).2 ≠ .boundary :: (s.sent m).map fun a => .word a (m.word a) := by
  obtain ⟨hlost, hmisread⟩ := push_update_marked hw hs hp hrun hblocks hb
  intro hwhole
  by_cases htwo : tally 0 (before.flatMap Block.encode) = 2
  · obtain ⟨misread, hevents⟩ := hmisread htwo
    rw [hwhole] at hevents
    have hmem : Event.boundary ∈ (s.sent m).map fun a => Event.word a (m.word a) := by
      rw [List.cons_append] at hevents
      rw [(List.cons.inj hevents).2]
      simp
    simp at hmem
  · rw [(hlost htwo).1, ← blocks_events, hblocks, List.flatMap_append, List.flatMap_cons] at hwhole
    have hnil : b.events ++ after.flatMap Block.events = [] :=
      List.append_right_eq_self.mp (List.cons.inj hwhole).2.symm
    have hclear : b.Clear := s.blocks_clear m b (by simp [hblocks])
    obtain ⟨w, ws, hws⟩ := List.exists_cons_of_ne_nil hclear.words
    rw [Block.events, hws] at hnil
    cases hnil

theorem unmarked_blocks_iff : (∀ b ∈ s.blocks m, b.header.isMarker = false) ↔
    (s.Due m markerAddress → s.takenIn m markerAddress = true) := by
  have hopen := exists_block_at_iff (s := s) (m := m) (a := markerAddress)
  constructor
  · intro h hdue
    by_cases ht : s.takenIn m markerAddress = true
    · exact ht
    · obtain ⟨b, hb, ha⟩ := hopen.mpr ⟨hdue, Bool.eq_false_iff.mpr ht⟩
      exact absurd ha (beq_eq_false_iff_ne.mp (h b hb))
  · intro h b hb
    apply beq_eq_false_iff_ne.mpr
    intro ha
    obtain ⟨hdue, ht⟩ := hopen.mp ⟨b, hb, ha⟩
    rw [h hdue] at ht
    cases ht

/-- What a receiver with the default settings makes of an update. It is whole, one boundary and all
the words, exactly if no block of it is headed by the marker; and a block is, exactly if the word at
the marker address is due and the span before does not take it in. Where there is such a block, its
words and all words behind it are lost: either the receiver waits until the next sync run, or the
marker ends a sync run and the rest is read out of place behind a second boundary. -/
theorem update_arrives_iff (s : Sender) (m : Memory) (r : Receiver) (hr : r.Reachable)
    (hs : r.settings = {}) (hp : r.phase = .awaitSync ∨ r.phase = .addressLow)
    (hrun : r.syncRun = 0) (hne : (s.update m).bytes ≠ []) :
    ((r.push (s.update m).bytes).2 = .boundary :: (s.sent m).map (fun a => .word a (m.word a)) ↔
      ∀ b ∈ s.blocks m, b.header.isMarker = false) ∧
    ((∀ b ∈ s.blocks m, b.header.isMarker = false) ↔
      (s.Due m markerAddress → s.takenIn m markerAddress = true)) ∧
    (∀ a, s.Due m a → a ∈ s.sent m) ∧
    ((∀ b ∈ s.blocks m, b.header.isMarker = false) →
      ∀ k, syncRunLength ≤ k → (r.push ((s.update m).bytes.take k)).1.phase ≠ .awaitSync) ∧
    ∀ before b after, s.blocks m = before ++ b :: after → b.header.isMarker = true →
      (tally 0 (before.flatMap Block.encode) ≠ 2 →
        (r.push (s.update m).bytes).2 = .boundary :: before.flatMap Block.events ∧
        (r.push (s.update m).bytes).1.phase = .awaitSync) ∧
      (tally 0 (before.flatMap Block.encode) = 2 → ∃ misread,
        (r.push (s.update m).bytes).2 =
          .boundary :: before.flatMap Block.events ++ .boundary :: misread) := by
  have hw := hr.wellFormed
  have hblocks : s.blocks m ≠ [] := fun hnil => hne (update_bytes_of_nil hnil)
  refine ⟨⟨fun hwhole => ?_, fun h => (push_update_unmarked hw hs hp hrun hblocks h).1⟩,
    unmarked_blocks_iff, fun a => mem_sent_of_due,
    fun h => (push_update_unmarked hw hs hp hrun hblocks h).2,
    fun before b after h hb => push_update_marked hw hs hp hrun h hb⟩
  intro b hb
  apply Bool.eq_false_iff.mpr
  intro hmarker
  obtain ⟨before, after, hsplit⟩ := List.append_of_mem hb
  exact push_update_ne_whole hw hs hp hrun hsplit hmarker hwhole

/-- The word before takes the one at the marker address in, and so the update arrives whole. -/
theorem update_arrives_inside_block :
    ((Receiver.ofSettings {}).push (Sender.update { settings := .minimal }
      ((Memory.empty.store 0x5553 1).store markerAddress 0x1234)).bytes).2 =
        .boundary :: (Sender.sent { settings := .minimal }
          ((Memory.empty.store 0x5553 1).store markerAddress 0x1234)).map fun a =>
            .word a (((Memory.empty.store 0x5553 1).store markerAddress 0x1234).word a) := by
  obtain ⟨hwhole, hunmarked, -⟩ := update_arrives_iff { settings := .minimal }
    ((Memory.empty.store 0x5553 1).store markerAddress 0x1234) _ (.new {}) rfl (Or.inl rfl) rfl
    (by decide +kernel)
  exact hwhole.mpr (hunmarked.mpr fun _ => by decide +kernel)

/-- A word at the marker address and one behind it: the first block is headed by the marker, and
neither word arrives. -/
theorem marker_block_lost :
    (∃ b ∈ Sender.blocks { settings := .minimal }
        ((Memory.empty.store markerAddress 0x1234).store 0x6000 7), b.header.isMarker = true) ∧
      (Receiver.ofSettings {}).push (Sender.update { settings := .minimal }
        ((Memory.empty.store markerAddress 0x1234).store 0x6000 7)).bytes =
          ({ address := markerAddress, remaining := 0 }, [.boundary]) ∧
      ((Memory.empty.store markerAddress 0x1234).store 0x6000 7).dirtyAddresses =
        [markerAddress, 0x6000] := by
  decide +kernel

end Sender

end WordLink
