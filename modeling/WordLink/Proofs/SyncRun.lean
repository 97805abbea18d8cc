import WordLink.Receiver

/-!
# Sync runs

`Completes` and `tally` describe the monitor by the bytes alone. A stretch of bytes that
completes no run is calm; in it a receiver only parses. `WellFormed` is what holds of every
receiver that has come about by taking bytes and starting over.
-/
namespace WordLink

/-- After `run` sync bytes in a row the next byte makes a sync run of them. -/
def Completes (run : Nat) (byte : UInt8) : Prop := byte = syncByte ∧ run + 1 = syncRunLength

instance (run : Nat) (byte : UInt8) : Decidable (Completes run byte) :=
  inferInstanceAs (Decidable (_ ∧ _))

/-- The sync bytes in a row after one more byte; a completed run does not count any more. -/
def tallyByte (run : Nat) (byte : UInt8) : Nat :=
  if byte ≠ syncByte then 0 else if run + 1 = syncRunLength then 0 else run + 1

def tally (run : Nat) (bytes : List UInt8) : Nat := bytes.foldl tallyByte run

/-- No sync run is completed within the bytes. -/
def Calm (run : Nat) : List UInt8 → Prop
  | [] => True
  | byte :: rest => ¬ Completes run byte ∧ Calm (tallyByte run byte) rest

instance decidableCalm (run : Nat) : (bytes : List UInt8) → Decidable (Calm run bytes)
  | [] => isTrue trivial
  | byte :: rest =>
    have := decidableCalm (tallyByte run byte) rest
    inferInstanceAs (Decidable (_ ∧ _))

theorem tally_nil (run : Nat) : tally run [] = run := rfl

theorem tally_cons (run : Nat) (byte : UInt8) (rest : List UInt8) :
    tally run (byte :: rest) = tally (tallyByte run byte) rest := rfl

theorem tally_append (run : Nat) (xs ys : List UInt8) :
    tally run (xs ++ ys) = tally (tally run xs) ys := List.foldl_append

theorem calm_append {run : Nat} {xs ys : List UInt8} :
    Calm run (xs ++ ys) ↔ Calm run xs ∧ Calm (tally run xs) ys := by
  induction xs generalizing run with
  | nil => simp [Calm, tally_nil]
  | cons x xs ih => simp only [List.cons_append, Calm, ih, tally_cons, and_assoc]

theorem tallyByte_sync {run : Nat} (h : ¬ Completes run syncByte) :
    tallyByte run syncByte = run + 1 := by
  have hne : run + 1 ≠ syncRunLength := fun he => h ⟨rfl, he⟩
  simp [tallyByte, hne]

theorem tallyByte_other {byte : UInt8} (h : byte ≠ syncByte) (run : Nat) :
    tallyByte run byte = 0 := by
  simp [tallyByte, h]

theorem not_completes_of_ne {byte : UInt8} (h : byte ≠ syncByte) (run : Nat) :
    ¬ Completes run byte := fun hc => h hc.1

theorem tallyByte_lt {run : Nat} (h : run < syncRunLength) (byte : UInt8) :
    tallyByte run byte < syncRunLength := by
  unfold tallyByte
  split
  · decide
  · split
    · decide
    · unfold syncRunLength at *
      omega

/-- The tally is 0 exactly behind a byte that is no sync byte, in a calm stretch. -/
theorem tally_eq_zero_iff {run : Nat} {bytes : List UInt8} (hc : Calm run bytes)
    (hne : bytes ≠ []) : tally run bytes = 0 ↔ bytes.getLast? ≠ some syncByte := by
  induction bytes generalizing run with
  | nil => exact absurd rfl hne
  | cons byte rest ih =>
    by_cases hr : rest = []
    · subst hr
      by_cases hb : byte = syncByte
      · subst hb
        simp [tally_cons, tally_nil, tallyByte_sync hc.1]
      · simp [tally_cons, tally_nil, tallyByte_other hb, hb]
    · rw [tally_cons, ih hc.2 hr, List.getLast?_cons_of_ne_nil hr]

theorem ofBytes_sync : Word.ofBytes syncByte syncByte = markerAddress := rfl

theorem ofBytes_eq_marker_iff {low high : UInt8} :
    Word.ofBytes low high = markerAddress ↔ low = syncByte ∧ high = syncByte := by
  constructor
  · intro h
    have hl := congrArg Word.low h
    have hh := congrArg Word.high h
    rw [Word.low_ofBytes] at hl
    rw [Word.high_ofBytes] at hh
    exact ⟨hl, hh⟩
  · rintro ⟨rfl, rfl⟩
    rfl

namespace Receiver

theorem watch_calm {r : Receiver} {byte : UInt8} (h : ¬ Completes r.syncRun byte) :
    r.watch byte = ({ r with
      syncRun := tallyByte r.syncRun byte
      reported := r.reported && byte == syncByte }, []) := by
  by_cases hb : byte = syncByte
  · subst hb
    have hne : r.syncRun + 1 ≠ syncRunLength := fun he => h ⟨rfl, he⟩
    simp [watch, tallyByte, hne]
  · simp [watch, tallyByte, hb]

theorem watch_completes {r : Receiver} {byte : UInt8} (h : Completes r.syncRun byte) :
    r.watch byte = ({ r with
      phase := .addressLow, syncRun := 0, endPending := false, reported := false },
      if r.reported then [] else [.boundary]) := by
  simp [watch, h.1, h.2]

theorem openBlock_other {r : Receiver} {byte : UInt8}
    (h : Word.withHigh r.address byte ≠ markerAddress) : r.openBlock byte =
      ({ r with address := Word.withHigh r.address byte, phase := .countLow }, []) := by
  simp [openBlock, h]

/-- The marker is noted once for the sync bytes under way, if it is to be noted at all. -/
theorem openBlock_marker {r : Receiver} {byte : UInt8}
    (h : Word.withHigh r.address byte = markerAddress) : r.openBlock byte =
      ({ r with
        address := markerAddress
        phase := if r.settings.markerBoundary then .addressLow else .awaitSync
        reported := r.reported || r.settings.markerBoundary },
        if r.settings.markerBoundary && !r.reported then [.boundary] else []) := by
  cases hm : r.settings.markerBoundary <;> cases hr : r.reported <;> simp [openBlock, h, hm, hr]

@[simp] theorem consume_syncRun (r : Receiver) (byte : UInt8) :
    (r.consume byte).1.syncRun = r.syncRun := by
  cases hp : r.phase <;> simp only [consume, hp, finishWord]
  by_cases hm : Word.withHigh r.address byte = markerAddress
  · rw [openBlock_marker hm]
  · rw [openBlock_other hm]

@[simp] theorem consume_settings (r : Receiver) (byte : UInt8) :
    (r.consume byte).1.settings = r.settings := by
  cases hp : r.phase <;> simp only [consume, hp, finishWord]
  by_cases hm : Word.withHigh r.address byte = markerAddress
  · rw [openBlock_marker hm]
  · rw [openBlock_other hm]

theorem consume_reported_eq {r : Receiver} (h : r.settings.markerBoundary = false) (byte : UInt8) :
    (r.consume byte).1.reported = r.reported := by
  cases hp : r.phase <;> simp only [consume, hp, finishWord]
  by_cases hm : Word.withHigh r.address byte = markerAddress
  · rw [openBlock_marker hm, h, Bool.or_false]
  · rw [openBlock_other hm]

theorem step_calm {r : Receiver} {byte : UInt8} (h : ¬ Completes r.syncRun byte) :
    r.step byte = ({ (r.consume byte).1 with
      syncRun := tallyByte r.syncRun byte
      reported := (r.consume byte).1.reported && byte == syncByte }, (r.consume byte).2) := by
  have hw := @watch_calm (r.consume byte).1 byte (by simpa using h)
  simp [step, hw]

theorem step_completes {r : Receiver} {byte : UInt8} (h : Completes r.syncRun byte) :
    r.step byte = ({ (r.consume byte).1 with
      phase := .addressLow, syncRun := 0, endPending := false, reported := false },
      (r.consume byte).2 ++ if (r.consume byte).1.reported then [] else [.boundary]) := by
  have hw := @watch_completes (r.consume byte).1 byte (by simpa using h)
  simp [step, hw]

theorem step_sync {r : Receiver} (h : r.syncRun + 1 ≠ syncRunLength) :
    r.step syncByte = ({ (r.consume syncByte).1 with syncRun := r.syncRun + 1 },
      (r.consume syncByte).2) := by
  have hc : ¬ Completes r.syncRun syncByte := fun hc => h hc.2
  rw [step_calm hc, tallyByte_sync hc]
  simp

theorem step_syncRun (r : Receiver) (byte : UInt8) :
    (r.step byte).1.syncRun = tallyByte r.syncRun byte := by
  by_cases h : Completes r.syncRun byte
  · rw [step_completes h, tallyByte, if_neg (not_not_intro h.1), if_pos h.2]
  · rw [step_calm h]

theorem step_settings (r : Receiver) (byte : UInt8) : (r.step byte).1.settings = r.settings := by
  by_cases h : Completes r.syncRun byte
  · simp [step_completes h]
  · simp [step_calm h]

theorem push_syncRun (r : Receiver) (bytes : List UInt8) :
    (r.push bytes).1.syncRun = tally r.syncRun bytes := by
  induction bytes generalizing r with
  | nil => rfl
  | cons byte rest ih => rw [push_cons, ih, step_syncRun, tally_cons]

theorem push_settings (r : Receiver) (bytes : List UInt8) :
    (r.push bytes).1.settings = r.settings := by
  induction bytes generalizing r with
  | nil => rfl
  | cons byte rest ih => rw [push_cons, ih, step_settings]

/-- What a receiver can have come to by taking bytes and starting over. -/
inductive Reachable : Receiver → Prop where
  | new (settings : Settings) : Reachable (ofSettings settings)
  | step {r : Receiver} (byte : UInt8) : Reachable r → Reachable (r.step byte).1
  | reset {r : Receiver} : Reachable r → Reachable r.reset

theorem Reachable.push {r : Receiver} (h : Reachable r) (bytes : List UInt8) :
    Reachable (r.push bytes).1 := by
  induction bytes generalizing r with
  | nil => exact h
  | cons byte rest ih =>
    rw [push_cons]
    exact ih (h.step byte)

/-- The flags are up only where they can still make a difference. -/
structure WellFormed (r : Receiver) : Prop where
  run_lt : r.syncRun < syncRunLength
  reported : r.reported = true → r.settings.markerBoundary = true ∧
    (r.phase = .addressLow ∧ 2 ≤ r.syncRun ∨ r.phase = .addressHigh ∧ r.syncRun = 3)
  pending : r.endPending = true → r.settings.endAddress ≠ none ∧
    (r.phase = .dataLow ∨ r.phase = .dataHigh)
  low_sync : r.phase = .addressHigh → Word.low r.address = syncByte → 1 ≤ r.syncRun

theorem wellFormed_new (settings : Settings) : (ofSettings settings).WellFormed := by
  constructor <;> simp [ofSettings, syncRunLength]

theorem WellFormed.reported_eq_false {r : Receiver} (h : r.WellFormed)
    (hl : r.phase ≠ .addressLow) (hh : r.phase ≠ .addressHigh) : r.reported = false := by
  apply Bool.eq_false_iff.mpr
  intro hr
  rcases (h.reported hr).2 with ⟨hp, _⟩ | ⟨hp, _⟩
  · exact hl hp
  · exact hh hp

theorem WellFormed.reported_of_run_zero {r : Receiver} (h : r.WellFormed) (hz : r.syncRun = 0) :
    r.reported = false := by
  apply Bool.eq_false_iff.mpr
  intro hr
  have := (h.reported hr).2
  omega

theorem WellFormed.pending_eq_false {r : Receiver} (h : r.WellFormed)
    (hl : r.phase ≠ .dataLow) (hh : r.phase ≠ .dataHigh) : r.endPending = false := by
  apply Bool.eq_false_iff.mpr
  intro he
  exact (h.pending he).2.elim hl hh

/-- Only here can a flag go up: a completed run takes both down. -/
theorem step_calm_wellFormed {r : Receiver} (h : r.WellFormed) {byte : UInt8}
    (hc : ¬ Completes r.syncRun byte) : (r.step byte).1.WellFormed := by
  have hlt := tallyByte_lt h.run_lt byte
  have hrun : byte = syncByte → tallyByte r.syncRun byte = r.syncRun + 1 := by
    rintro rfl
    exact tallyByte_sync hc
  have hthree : byte = syncByte → r.syncRun ≠ 3 := fun hb h3 => hc ⟨hb, by rw [h3]; rfl⟩
  rw [step_calm hc]
  cases hp : r.phase with
  | awaitSync =>
    have hr := h.reported_eq_false (by simp [hp]) (by simp [hp])
    have he := h.pending_eq_false (by simp [hp]) (by simp [hp])
    constructor <;> simp [consume, hp, hr, he, hlt]
  | addressLow =>
    have he := h.pending_eq_false (by simp [hp]) (by simp [hp])
    constructor <;> simp only [consume, hp, he]
    · exact hlt
    · intro hr
      simp only [Bool.and_eq_true, beq_iff_eq] at hr
      obtain ⟨hm, hs⟩ := h.reported hr.1
      have := hrun hr.2
      have := hthree hr.2
      have := h.run_lt
      simp only [hp, syncRunLength, reduceCtorEq, true_and, false_and, or_false, false_or] at *
      exact ⟨hm, by omega⟩
    · simp
    · intro _ hl
      rw [Word.withLow, Word.low_ofBytes] at hl
      have := hrun hl
      omega
  | addressHigh =>
    have he := h.pending_eq_false (by simp [hp]) (by simp [hp])
    have hr : byte = syncByte → r.reported = false := by
      intro hb
      apply Bool.eq_false_iff.mpr
      intro hr
      have hs := (h.reported hr).2
      simp only [hp, reduceCtorEq, false_and, false_or, true_and] at hs
      exact hthree hb hs
    by_cases hm : Word.withHigh r.address byte = markerAddress
    · obtain ⟨hl, hb⟩ := ofBytes_eq_marker_iff.mp hm
      have hone := h.low_sync hp hl
      have hnext := hrun hb
      simp only [consume, hp, openBlock_marker hm, hr hb, he]
      constructor
      · exact hlt
      · intro hs
        simp only [Bool.false_or, Bool.and_eq_true] at hs
        exact ⟨hs.1, Or.inl ⟨if_pos hs.1, by simp only [hnext]; omega⟩⟩
      · simp
      · intro hph
        simp only at hph
        split at hph <;> cases hph
    · simp only [consume, hp, openBlock_other hm, he]
      constructor
      · exact hlt
      · intro hs
        simp only [Bool.and_eq_true, beq_iff_eq] at hs
        rw [hr hs.2] at hs
        exact absurd hs.1 (by simp)
      · simp
      · simp
  | countLow | countHigh =>
    have hr := h.reported_eq_false (by simp [hp]) (by simp [hp])
    have he := h.pending_eq_false (by simp [hp]) (by simp [hp])
    constructor <;> simp [consume, hp, hr, he, hlt]
  | dataLow =>
    have hr := h.reported_eq_false (by simp [hp]) (by simp [hp])
    constructor <;> simp only [consume, hp, hr, Bool.false_and]
    · exact hlt
    · simp
    · exact fun he => ⟨(h.pending he).1, Or.inr trivial⟩
    · simp
  | dataHigh =>
    have hr := h.reported_eq_false (by simp [hp]) (by simp [hp])
    constructor <;> simp only [consume, hp, finishWord, hr, Bool.false_and]
    · exact hlt
    · simp
    · intro he
      simp only [Bool.and_eq_true, Bool.or_eq_true, beq_iff_eq, Bool.not_eq_true'] at he
      refine ⟨?_, Or.inl (by simp [he.2])⟩
      rcases he.1 with he | he
      · exact (h.pending he).1
      · simp [he]
    · intro hph
      split at hph <;> cases hph

theorem step_wellFormed {r : Receiver} (h : r.WellFormed) (byte : UInt8) :
    (r.step byte).1.WellFormed := by
  by_cases hc : Completes r.syncRun byte
  · rw [step_completes hc]
    constructor <;> simp [syncRunLength]
  · exact step_calm_wellFormed h hc

theorem push_wellFormed {r : Receiver} (h : r.WellFormed) (bytes : List UInt8) :
    (r.push bytes).1.WellFormed := by
  induction bytes generalizing r with
  | nil => exact h
  | cons byte rest ih =>
    rw [push_cons]
    exact ih (step_wellFormed h byte)

theorem Reachable.wellFormed {r : Receiver} (h : Reachable r) : r.WellFormed := by
  induction h with
  | new settings => exact wellFormed_new settings
  | step byte _ ih => exact step_wellFormed ih byte
  | reset _ _ => exact wellFormed_new _

end Receiver

end WordLink
