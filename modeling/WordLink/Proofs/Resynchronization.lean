import WordLink.Proofs.SyncRun

/-!
# Recovery at a sync run

`live` keeps of a receiver what can still show: the flags, the tally and the parts of the
registers that its phase will read. A byte and four sync bytes behind it bring any two receivers
with the same settings to the same live part, so whatever came before is forgotten.
-/
namespace WordLink.Receiver

/-- The registers as far as the phase still reads them, all else put to 0. -/
def live (r : Receiver) : Receiver :=
  match r.phase with
  | .awaitSync | .addressLow => { r with address := 0, remaining := 0, lowByte := 0 }
  | .addressHigh =>
    { r with address := Word.ofBytes (Word.low r.address) 0, remaining := 0, lowByte := 0 }
  | .countLow => { r with remaining := 0, lowByte := 0 }
  | .countHigh => { r with remaining := Word.ofBytes r.remaining.low 0, lowByte := 0 }
  | .dataLow => { r with lowByte := 0 }
  | .dataHigh => r

def phases (r : Receiver) : List UInt8 → List Phase
  | [] => []
  | byte :: rest => (r.step byte).1.phase :: (r.step byte).1.phases rest

theorem live_phase (r : Receiver) : r.live.phase = r.phase := by
  cases hp : r.phase <;> simp [live, hp]

theorem live_syncRun (r : Receiver) : r.live.syncRun = r.syncRun := by
  cases hp : r.phase <;> simp [live, hp]

theorem live_of_addressLow {r : Receiver} (h : r.phase = .addressLow) :
    r.live = { r with address := 0, remaining := 0, lowByte := 0 } := by
  simp [live, h]

theorem consume_live (r : Receiver) (byte : UInt8) :
    (r.live.consume byte).1.live = (r.consume byte).1.live ∧
      (r.live.consume byte).2 = (r.consume byte).2 := by
  cases hp : r.phase with
  | awaitSync => simp [consume, live, hp]
  | addressLow => simp [consume, live, hp, Word.withLow]
  | addressHigh =>
    have ha : Word.withHigh (Word.ofBytes (Word.low r.address) 0) byte =
        Word.withHigh r.address byte := by
      simp [Word.withHigh]
    by_cases hm : Word.withHigh r.address byte = markerAddress
    · have hl : r.live.openBlock byte = _ := openBlock_marker (by simpa [live, hp, ha] using hm)
      simp only [consume, live_phase, hp, hl, openBlock_marker hm]
      cases hs : r.settings.markerBoundary <;> simp [live, hp, hs]
    · have hl : r.live.openBlock byte = _ := openBlock_other (by simpa [live, hp, ha] using hm)
      simp only [consume, live_phase, hp, hl, openBlock_other hm]
      simp [live, hp, ha]
  | countLow => simp [consume, live, hp, Word.withLow]
  | countHigh => simp [consume, live, hp, Word.withHigh]
  | dataLow => simp [consume, live, hp]
  | dataHigh => simp [consume, live, hp]

theorem live_reported (r : Receiver) : r.live.reported = r.reported := by
  cases hp : r.phase <;> simp [live, hp]

theorem live_settings (r : Receiver) : r.live.settings = r.settings := by
  cases hp : r.phase <;> simp [live, hp]

theorem live_noted (r : Receiver) (run : Nat) (reported : Bool) :
    { r with syncRun := run, reported }.live = { r.live with syncRun := run, reported } := by
  cases hp : r.phase <;> simp [live, hp]

theorem step_live (r : Receiver) (byte : UInt8) :
    (r.live.step byte).1.live = (r.step byte).1.live ∧
      (r.live.step byte).2 = (r.step byte).2 := by
  obtain ⟨hs, he⟩ := consume_live r byte
  have hreported : (r.live.consume byte).1.reported = (r.consume byte).1.reported := by
    rw [← live_reported, hs, live_reported]
  by_cases hc : Completes r.syncRun byte
  · have hcl : Completes r.live.syncRun byte := by rwa [live_syncRun]
    rw [step_completes hc, step_completes hcl, hreported, he]
    refine ⟨?_, rfl⟩
    simp [live_of_addressLow, live_settings]
  · have hcl : ¬ Completes r.live.syncRun byte := by rwa [live_syncRun]
    rw [step_calm hc, step_calm hcl, hreported, live_syncRun]
    simp only [live_noted, hs, he, and_self]

theorem push_live (r : Receiver) (bytes : List UInt8) :
    (r.live.push bytes).2 = (r.push bytes).2 ∧ r.live.phases bytes = r.phases bytes := by
  induction bytes generalizing r with
  | nil => exact ⟨rfl, rfl⟩
  | cons byte rest ih =>
    obtain ⟨hs, he⟩ := step_live r byte
    have hp : (r.live.step byte).1.phase = (r.step byte).1.phase := by
      rw [← live_phase, hs, live_phase]
    obtain ⟨hel, hpl⟩ := ih (r.live.step byte).1
    obtain ⟨her, hpr⟩ := ih (r.step byte).1
    rw [hs] at hel hpl
    constructor
    · rw [push_cons, push_cons, he, ← hel, her]
    · rw [phases, phases, hp, ← hpl, hpr]

/-- Receivers with the same live part cannot be told apart any more. -/
theorem same_of_live_eq {r s : Receiver} (h : r.live = s.live) (bytes : List UInt8) :
    (r.push bytes).2 = (s.push bytes).2 ∧ r.phases bytes = s.phases bytes := by
  rw [← (push_live r bytes).1, ← (push_live s bytes).1, ← (push_live r bytes).2,
    ← (push_live s bytes).2, h]
  exact ⟨rfl, rfl⟩

/-- The marker raises the flag in the same step in which it reports the boundary. -/
theorem consume_reported {r : Receiver} (h : r.WellFormed) {byte : UInt8}
    (hr : (r.consume byte).1.reported = true) :
    r.reported = true ∧ (r.consume byte).2 = [] ∨ (r.consume byte).2 = [.boundary] := by
  cases hp : r.phase with
  | awaitSync | addressLow | countLow | countHigh | dataLow =>
    simp only [consume, hp, and_true] at hr ⊢
    exact Or.inl hr
  | addressHigh =>
    simp only [consume, hp] at hr ⊢
    by_cases hm : Word.withHigh r.address byte = markerAddress
    · rw [openBlock_marker hm] at hr ⊢
      cases hs : r.reported <;> simp_all
    · rw [openBlock_other hm] at hr ⊢
      exact Or.inl ⟨hr, rfl⟩
  | dataHigh =>
    have hf := h.reported_eq_false (by simp [hp]) (by simp [hp])
    simp [consume, hp, finishWord, hf] at hr

theorem step_reported {r : Receiver} (h : r.WellFormed) {byte : UInt8}
    (hr : (r.step byte).1.reported = true) :
    r.reported = true ∧ (r.step byte).2 = [] ∨ (r.step byte).2 = [.boundary] := by
  by_cases hc : Completes r.syncRun byte
  · rw [step_completes hc] at hr
    cases hr
  · rw [step_calm hc] at hr ⊢
    exact consume_reported h (Bool.and_eq_true_iff.mp hr).1

/-- While the flag is up, the boundary that raised it is the latest event. -/
theorem push_reported {r : Receiver} (seen : List Event) (h : r.WellFormed)
    (hr : r.reported = true → seen.getLast? = some .boundary) (bytes : List UInt8)
    (hb : (r.push bytes).1.reported = true) :
    (seen ++ (r.push bytes).2).getLast? = some .boundary := by
  induction bytes generalizing r seen with
  | nil => simpa using hr hb
  | cons byte rest ih =>
    rw [push_cons] at hb ⊢
    rw [← List.append_assoc]
    refine ih _ (step_wellFormed h byte) ?_ hb
    intro hs
    rcases step_reported h hs with ⟨hu, he⟩ | he
    · rw [he, List.append_nil]
      exact hr hu
    · simp [he]

/-- The fourth sync byte reports the boundary of its run, unless the marker just has. -/
theorem push_completes {r : Receiver} (h : r.WellFormed) {seen : List Event}
    (hr : r.reported = true → seen.getLast? = some .boundary)
    (hc : Completes r.syncRun syncByte) :
    (seen ++ (r.step syncByte).2).getLast? = some .boundary := by
  rw [step_completes hc]
  cases hn : (r.consume syncByte).1.reported with
  | false => simp
  | true =>
    rcases consume_reported h hn with ⟨hu, he⟩ | he
    · simpa [he] using hr hu
    · simp [he]

/-- A fresh receiver that has just seen a sync run. -/
def synced (settings : Settings) : Receiver := { ofSettings settings with phase := .addressLow }

/-- Behind any byte, four sync bytes leave nothing of a receiver but its settings. -/
theorem push_sync_live {r : Receiver} {byte : UInt8} (hb : byte ≠ syncByte) :
    (r.push (byte :: syncSequence)).1.phase = .addressLow ∧
      (r.push (byte :: syncSequence)).1.live = synced r.settings := by
  have hsplit : byte :: syncSequence = (byte :: List.replicate 3 syncByte) ++ [syncByte] := rfl
  have hrun : (r.push (byte :: List.replicate 3 syncByte)).1.syncRun = 3 := by
    rw [push_syncRun, tally_cons, tallyByte_other hb]
    rfl
  have hc : Completes (r.push (byte :: List.replicate 3 syncByte)).1.syncRun syncByte :=
    ⟨rfl, by rw [hrun]; rfl⟩
  rw [hsplit, push_append, push_cons, push_nil, step_completes hc]
  refine ⟨rfl, ?_⟩
  simp [live, synced, ofSettings, push_settings]

theorem push_sync_boundary {r : Receiver} (h : r.WellFormed) {byte : UInt8}
    (hb : byte ≠ syncByte) :
    (r.push (byte :: syncSequence)).2.getLast? = some .boundary := by
  have hsplit : syncSequence = List.replicate 3 syncByte ++ [syncByte] := rfl
  have hc : ¬ Completes r.syncRun byte := not_completes_of_ne hb _
  have hfirst : (r.step byte).1.reported = false := by
    rw [step_calm hc]
    simp [hb]
  have hw := step_wellFormed h byte
  have hrun : ((r.step byte).1.push (List.replicate 3 syncByte)).1.syncRun = 3 := by
    rw [push_syncRun, step_syncRun, tallyByte_other hb]
    rfl
  have hfourth : Completes ((r.step byte).1.push (List.replicate 3 syncByte)).1.syncRun syncByte :=
    ⟨rfl, by rw [hrun]; rfl⟩
  have hlast := push_reported (r.step byte).2 hw (fun hu => absurd hu (by simp [hfirst]))
    (List.replicate 3 syncByte)
  have hend := push_completes (push_wellFormed hw _) hlast hfourth
  simpa only [push_cons, hsplit, push_append, push_nil, List.append_nil,
    List.append_assoc] using hend

theorem push_sync_new (settings : Settings) :
    ((ofSettings settings).push syncSequence).1 = synced settings := by
  simp [syncSequence, syncRunLength, push_cons, step, consume, watch, ofSettings, synced]

/-- A fresh receiver that takes some bytes, and what it reports at a byte and a sync run then. -/
def resynced (settings : Settings) (bytes : List UInt8) (byte : UInt8) : Receiver × List Event :=
  ((ofSettings settings).push bytes).1.push (byte :: syncSequence)

theorem resynced_live (settings : Settings) (bytes : List UInt8) {byte : UInt8}
    (hb : byte ≠ syncByte) :
    (resynced settings bytes byte).1.live = ((ofSettings settings).push syncSequence).1.live := by
  rw [resynced, (push_sync_live hb).2, push_settings, push_sync_new]
  rfl

theorem resynced_boundary (settings : Settings) (bytes : List UInt8) {byte : UInt8}
    (hb : byte ≠ syncByte) : (resynced settings bytes byte).2.getLast? = some .boundary :=
  push_sync_boundary (push_wellFormed (wellFormed_new settings) bytes) hb

/-- Whatever two receivers have taken, behind a sync run both expect an address, have just
reported a boundary and go on alike, and so does a fresh one behind its first run. -/
theorem resynchronization_forgets_history (settings : Settings) (p q : List UInt8) (byte : UInt8)
    (hb : byte ≠ syncByte) :
    (resynced settings p byte).1.phase = .addressLow ∧
    (resynced settings q byte).1.phase = .addressLow ∧
    (resynced settings p byte).2.getLast? = some .boundary ∧
    (resynced settings q byte).2.getLast? = some .boundary ∧
    ∀ t, ((resynced settings p byte).1.push t).2 = ((resynced settings q byte).1.push t).2 ∧
      (resynced settings p byte).1.phases t = (resynced settings q byte).1.phases t ∧
      ((resynced settings p byte).1.push t).2 =
        (((ofSettings settings).push syncSequence).1.push t).2 := by
  refine ⟨(push_sync_live hb).1, (push_sync_live hb).1, resynced_boundary settings p hb,
    resynced_boundary settings q hb, ?_⟩
  intro t
  have hp := resynced_live settings p hb
  have hq := resynced_live settings q hb
  obtain ⟨he, hph⟩ := same_of_live_eq (hp.trans hq.symm) t
  exact ⟨he, hph, (same_of_live_eq hp t).1⟩

/-- One history stops inside a word, the other inside an address. -/
theorem resynchronization_forgets_word_and_address :
    (0x01 : UInt8) ≠ syncByte ∧
      ((resynced { markerBoundary := true } [0x55, 0x55, 0x55, 0x55, 0x10, 0x20, 0x04, 0x00, 0x07]
          0x01).1.push [0x40, 0x00, 0x02, 0x00, 0x34, 0x12]).2 =
        ((resynced { markerBoundary := true } [0x55, 0x55, 0x55, 0x55, 0x30]
          0x01).1.push [0x40, 0x00, 0x02, 0x00, 0x34, 0x12]).2 :=
  ⟨by decide, ((resynchronization_forgets_history _ _ _ _ (by decide)).2.2.2.2 _).1⟩

end WordLink.Receiver
