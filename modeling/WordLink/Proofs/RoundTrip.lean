import WordLink.Proofs.UpdateContent

/-!
# From one memory to another

A receiver that is between blocks, or has not seen a sync run yet, takes an update to one boundary
and then the words of the update. A memory that follows them agrees with the one they came from.
-/
namespace WordLink

namespace Receiver

variable {r : Receiver}

theorem consume_await (hp : r.phase = .awaitSync) (byte : UInt8) : r.consume byte = (r, []) := by
  simp only [consume, hp]

theorem consume_marker (hp : r.phase = .addressHigh) (hl : Word.low r.address = syncByte) :
    r.consume syncByte = ({ r with
      address := markerAddress
      phase := if r.settings.markerBoundary then .addressLow else .awaitSync
      reported := r.reported || r.settings.markerBoundary },
      if r.settings.markerBoundary && !r.reported then [.boundary] else []) := by
  have hm : Word.withHigh r.address syncByte = markerAddress := by
    rw [Word.withHigh, hl, ofBytes_sync]
  simp only [consume, hp]
  exact openBlock_marker hm

theorem step_low (hp : r.phase = .addressLow) (h : r.syncRun + 1 ≠ syncRunLength) :
    r.step syncByte = ({ r with
      address := Word.withLow r.address syncByte
      phase := .addressHigh
      syncRun := r.syncRun + 1 }, []) := by
  rw [step_sync h]
  simp only [consume, hp]

theorem step_marker (hp : r.phase = .addressHigh) (hl : Word.low r.address = syncByte)
    (h : r.syncRun + 1 ≠ syncRunLength) : r.step syncByte = ({ r with
      address := markerAddress
      phase := if r.settings.markerBoundary then .addressLow else .awaitSync
      syncRun := r.syncRun + 1
      reported := r.reported || r.settings.markerBoundary },
      if r.settings.markerBoundary && !r.reported then [.boundary] else []) := by
  rw [step_sync h, consume_marker hp hl]

theorem push_step {next : Receiver} {byte : UInt8} {events : List Event}
    (h : r.step byte = (next, events)) (rest : List UInt8) :
    r.push (byte :: rest) = ((next.push rest).1, events ++ (next.push rest).2) := by
  rw [push_cons, h]

/-- The sync bytes that are left of a run, where nothing is being read. -/
theorem push_await (hp : r.phase = .awaitSync) {n : Nat}
    (hn : r.syncRun + (n + 1) = syncRunLength) :
    ∃ next : Receiver, r.push (List.replicate (n + 1) syncByte) =
      (next, if r.reported then [] else [.boundary]) ∧ next.Ready := by
  induction n generalizing r with
  | zero =>
    rw [List.replicate_one, push_cons, push_nil, step_completes ⟨rfl, hn⟩, consume_await hp]
    exact ⟨_, by rw [List.nil_append, List.append_nil], rfl, rfl, rfl⟩
  | succ n ih =>
    have hne : r.syncRun + 1 ≠ syncRunLength := by omega
    obtain ⟨next, hpush, hready⟩ := ih (r := { r with syncRun := r.syncRun + 1 }) hp
      (by simp only; omega)
    rw [List.replicate_succ, push_cons, step_sync hne, consume_await hp, hpush]
    exact ⟨next, rfl, hready⟩

/-- The last two sync bytes of a run whose boundary the marker has reported. -/
theorem push_noted (hp : r.phase = .addressLow) (hrun : r.syncRun = 2) (hr : r.reported = true) :
    ∃ next : Receiver, r.push [syncByte, syncByte] = (next, []) ∧ next.Ready := by
  have h₁ := step_low hp (by rw [hrun]; decide)
  have hc := consume_marker (r := { r with
    address := Word.withLow r.address syncByte, phase := .addressHigh, syncRun := 3
    reported := true }) rfl (Word.low_withLow ..)
  have h₂ := @step_completes { r with
    address := Word.withLow r.address syncByte, phase := .addressHigh, syncRun := 3
    reported := true } syncByte ⟨rfl, rfl⟩
  rw [hrun, hr] at h₁
  simp only [hc, Bool.true_or, Bool.not_true, Bool.and_false, if_true] at h₂
  rw [push_step h₁, push_step h₂]
  exact ⟨_, rfl, rfl, rfl, rfl⟩

/-- A sync sequence with no sync byte counted ahead of it is one boundary, also where its first
two bytes stand in place of an address. -/
theorem push_sync (h : r.WellFormed) (hp : r.phase = .awaitSync ∨ r.phase = .addressLow)
    (hrun : r.syncRun = 0) :
    ∃ next : Receiver, r.push syncSequence = (next, [.boundary]) ∧ next.Ready := by
  have hr := h.reported_of_run_zero hrun
  rcases hp with hp | hp
  · obtain ⟨next, hpush, hready⟩ := push_await (n := 3) hp (by rw [hrun]; rfl)
    rw [hr] at hpush
    exact ⟨next, hpush, hready⟩
  · have hsplit : syncSequence = [syncByte, syncByte, syncByte, syncByte] := rfl
    have h₁ := step_low hp (by rw [hrun]; decide)
    have h₂ := step_marker (r := { r with
      address := Word.withLow r.address syncByte, phase := .addressHigh, syncRun := 1 })
      rfl (Word.low_withLow ..) (Nat.ne_of_beq_eq_false rfl)
    simp only [hrun, hr, Nat.reduceAdd, Bool.false_or, Bool.not_false, Bool.and_true] at h₁ h₂
    rw [hsplit, push_step h₁, push_step h₂]
    cases hs : r.settings.markerBoundary with
    | false =>
      obtain ⟨next, hpush, hready⟩ := push_await (n := 1) (r := { r with
        address := markerAddress, phase := .awaitSync, syncRun := 2, reported := false }) rfl rfl
      rw [List.replicate_succ, List.replicate_one] at hpush
      simp only [Bool.false_eq_true, if_false]
      rw [hpush]
      exact ⟨next, rfl, hready⟩
    | true =>
      obtain ⟨next, hpush, hready⟩ := push_noted (r := { r with
        address := markerAddress, phase := .addressLow, syncRun := 2, reported := true })
          rfl rfl rfl
      simp only [if_true]
      rw [hpush]
      exact ⟨next, rfl, hready⟩

theorem push_sync_settled (h : r.WellFormed) (hp : r.phase = .awaitSync ∨ r.phase = .addressLow)
    (hrun : r.syncRun = 0) :
    ∃ next : Receiver, r.push syncSequence = (next, [.boundary]) ∧ next.Ready ∧
      next.syncRun = 0 ∧ next.settings = r.settings := by
  obtain ⟨next, hsync, hready⟩ := push_sync h hp hrun
  have hcount := push_syncRun r syncSequence
  have hset := push_settings r syncSequence
  rw [hsync] at hcount hset
  rw [hrun] at hcount
  exact ⟨next, hsync, hready, hcount, hset⟩

/-- A sync sequence with blocks behind it is one boundary and then what is reported of each
block. -/
theorem push_frame (h : r.WellFormed) (hp : r.phase = .awaitSync ∨ r.phase = .addressLow)
    (hrun : r.syncRun = 0) {blocks : List Block} (hsafe : ∀ b ∈ blocks, b.Safe) :
    (r.push (syncSequence ++ blocks.flatMap Block.encode)).1.Ready ∧
      (r.push (syncSequence ++ blocks.flatMap Block.encode)).2 =
        .boundary :: blocks.flatMap (Block.report · r.settings) := by
  obtain ⟨next, hsync, hready, hzero, hsettings⟩ := push_sync_settled h hp hrun
  have hcalm : Calm next.syncRun (blocks.flatMap Block.encode) :=
    (Block.calm_encodes hsafe (by rw [hzero]; omega)).1
  have hfit : ∀ b ∈ blocks,
      b.address ≠ markerAddress ∧ b.words ≠ [] ∧ b.words.length ≤ 32767 := by
    intro b hb
    have hlen := (hsafe b hb).length
    have hmax : maxBlockWords ≤ 32767 := by decide
    exact ⟨(hsafe b hb).address, (hsafe b hb).words, by omega⟩
  obtain ⟨hlast, hevents⟩ := push_blocks hready hfit hcalm
  rw [hsettings] at hevents
  rw [push_append, hsync, hevents]
  simp only [List.singleton_append, and_true]
  exact hlast

end Receiver

namespace Block

theorem report_of_none {settings : Receiver.Settings} (h : settings.endAddress = none) :
    (report · settings) = events := by
  funext b
  have hany : (b.events.any fun e => settings.endAddress == e.address?) = false := by
    rw [events, wordEvents_eq_mapIdx, List.any_eq_false]
    intro e he
    obtain ⟨i, hi, rfl⟩ := List.mem_mapIdx.mp he
    simp [h]
  rw [report, hany]
  exact List.append_nil _

end Block

namespace Memory

/-- A memory that follows the words of another agrees with it on their addresses. -/
theorem word_foldl_apply (m mirror : Memory) (sent : List Address) (a : Address) :
    ((sent.map fun b => Event.word b (m.word b)).foldl apply mirror).word a =
      if a ∈ sent then m.word a else mirror.word a := by
  induction sent generalizing mirror with
  | nil => simp
  | cons b sent ih =>
    rw [List.map_cons, List.foldl_cons, ih, apply, word_store]
    by_cases ha : a ∈ sent
    · simp [ha]
    · by_cases hb : a = b
      · simp [hb]
      · simp [ha, hb]

end Memory

namespace Sender

variable {s : Sender} {m : Memory} {r : Receiver}

/-- An update is one boundary and then what the receiver reports of each of its blocks. -/
theorem push_update_report (hw : r.WellFormed)
    (hp : r.phase = .awaitSync ∨ r.phase = .addressLow) (hrun : r.syncRun = 0)
    (hm : s.Unmarked m) (hne : s.blocks m ≠ []) :
    (r.push (s.update m).bytes).1.Ready ∧ (r.push (s.update m).bytes).2 =
      .boundary :: (s.blocks m).flatMap (Block.report · r.settings) := by
  rw [update_bytes hne]
  exact Receiver.push_frame hw hp hrun (blocks_safe hm)

theorem push_update (hw : r.WellFormed) (hend : r.settings.endAddress = none)
    (hp : r.phase = .awaitSync ∨ r.phase = .addressLow) (hrun : r.syncRun = 0)
    (hm : s.Unmarked m) (hne : s.blocks m ≠ []) :
    (r.push (s.update m).bytes).1.Ready ∧ (r.push (s.update m).bytes).2 =
      .boundary :: (s.sent m).map fun a => .word a (m.word a) := by
  obtain ⟨hready, hevents⟩ := push_update_report hw hp hrun hm hne
  rw [Block.report_of_none hend, blocks_events] at hevents
  exact ⟨hready, hevents⟩

/-- A mirror that may miss changed words misses none behind the words of an update. -/
theorem word_foldl_sent {mirror : Memory} (h : ∀ a, ¬ m.Changed a → mirror.word a = m.word a)
    (a : Address) : ((Event.boundary :: (s.sent m).map fun b => .word b (m.word b)).foldl
      Memory.apply mirror).word a = m.word a := by
  rw [List.foldl_cons, Memory.apply, Memory.word_foldl_apply]
  split
  · rfl
  · rename_i ha
    exact h a fun hc => ha (mem_sent_of_due (Or.inl hc))

theorem not_due_of_nil (h : s.blocks m = []) (a : Address) : ¬ s.Due m a := by
  intro hd
  have hs : s.spans m = [] := by simpa [blocks] using h
  simpa [sent, hs] using mem_sent_of_due hd

/-- An update is one boundary and then words in order, each as the memory has it, all that are due
among them; and a memory that agreed on all but the changed words agrees on every word after it. -/
theorem update_round_trip (s : Sender) (m : Memory) (r : Receiver) (hr : r.Reachable)
    (hend : r.settings.endAddress = none) (hp : r.phase = .awaitSync ∨ r.phase = .addressLow)
    (hrun : r.syncRun = 0) (hm : m.get? markerAddress = none)
    (hs : s.settings.endAddress ≠ some markerAddress) :
    ((s.update m).bytes ≠ [] → ∃ sent : List Address,
      (r.push (s.update m).bytes).2 = .boundary :: sent.map (fun a => .word a (m.word a)) ∧
      sent.Pairwise (· < ·) ∧ (∀ a, s.Due m a → a ∈ sent) ∧
      (r.push (s.update m).bytes).1.phase = .addressLow) ∧
    ∀ mirror : Memory,
      (∀ a, ¬ m.Changed a → mirror.word a = m.word a) →
      ∀ a, ((r.push (s.update m).bytes).2.foldl Memory.apply mirror).word a =
        (s.update m).memory.word a := by
  have hunmarked : s.Unmarked m := ⟨hm, hs⟩
  by_cases hb : s.blocks m = []
  · have hbytes := update_bytes_of_nil hb
    constructor
    · intro hne
      exact absurd hbytes hne
    · intro mirror hmirror a
      rw [hbytes, word_update]
      exact hmirror a fun hd => not_due_of_nil hb a (Or.inl hd)
  · obtain ⟨hready, hevents⟩ := push_update hr.wellFormed hend hp hrun hunmarked hb
    constructor
    · intro _
      exact ⟨s.sent m, hevents, sent_ascending s m, fun a => mem_sent_of_due, hready.phase⟩
    · intro mirror hmirror a
      rw [hevents, word_update]
      exact word_foldl_sent hmirror a

/-- A sync word, a word near it and the end word. -/
theorem update_round_trip_sync_word : ∃ sent : List Address,
    ((Receiver.ofSettings { markerBoundary := true }).push
      (Sender.update {} ((Memory.empty.store 0x0014 7).store 0x0010 syncWord)).bytes).2 =
        .boundary :: sent.map (fun a =>
          .word a (((Memory.empty.store 0x0014 7).store 0x0010 syncWord).word a)) ∧
      sent.Pairwise (· < ·) ∧
      (∀ a, Sender.Due {} ((Memory.empty.store 0x0014 7).store 0x0010 syncWord) a → a ∈ sent) ∧
      ((Receiver.ofSettings { markerBoundary := true }).push
        (Sender.update {} ((Memory.empty.store 0x0014 7).store 0x0010 syncWord)).bytes).1.phase =
          .addressLow :=
  (update_round_trip {} _ _ (.new _) rfl (Or.inl rfl) rfl (by decide +kernel) (by decide)).1
    (by decide +kernel)

end Sender

end WordLink
