import WordLink.Proofs.SyncRun

/-!
# What a receiver keeps count of

A receiver may start over at any time. Whatever it has been given, its tally is that of the sync
bytes at the end of its input, and its flags are up only where they belong (`wellFormed_after`).
-/
namespace WordLink.Receiver

/-- What a receiver is given: a byte, or the order to start over. -/
inductive Input where
  | byte (b : UInt8)
  | reset
  deriving DecidableEq, Repr

def take (r : Receiver) : Input → Receiver
  | .byte b => (r.step b).1
  | .reset => r.reset

/-- A new receiver after everything it has been given. -/
def after (settings : Settings) (inputs : List Input) : Receiver :=
  inputs.foldl take (ofSettings settings)

/-- The sync bytes in a row at the end of the input. Starting over ends a row, as any other byte
does. -/
def trailingSync (inputs : List Input) : Nat :=
  (inputs.reverse.takeWhile fun i => decide (i = .byte syncByte)).length

theorem trailingSync_snoc (inputs : List Input) (i : Input) :
    trailingSync (inputs ++ [i]) = if i = .byte syncByte then trailingSync inputs + 1 else 0 := by
  rw [trailingSync, List.reverse_append, List.reverse_singleton, List.singleton_append,
    List.takeWhile_cons]
  by_cases hi : i = .byte syncByte
  · simp [hi, trailingSync]
  · simp [hi]

/-- The tally of a row is its length, taken from 0 again at every fourth byte. -/
theorem tallyByte_mod (n : Nat) (byte : UInt8) :
    tallyByte (n % syncRunLength) byte =
      (if byte = syncByte then n + 1 else 0) % syncRunLength := by
  by_cases hb : byte = syncByte
  · by_cases hfourth : n % syncRunLength + 1 = syncRunLength
    · simp only [tallyByte, hb, hfourth, ne_eq, not_true_eq_false, if_false, if_true]
      unfold syncRunLength at *
      omega
    · simp only [tallyByte, hb, hfourth, ne_eq, not_true_eq_false, if_false, if_true]
      unfold syncRunLength at *
      omega
  · simp [tallyByte, hb]

theorem syncRun_take {r : Receiver} {before : List Input}
    (h : r.syncRun = trailingSync before % syncRunLength) (i : Input) :
    (r.take i).syncRun = trailingSync (before ++ [i]) % syncRunLength := by
  rw [trailingSync_snoc]
  cases i with
  | byte b =>
    rw [take, step_syncRun, h, tallyByte_mod]
    simp only [Input.byte.injEq]
  | reset => rfl

theorem syncRun_foldl (before inputs : List Input) {r : Receiver}
    (h : r.syncRun = trailingSync before % syncRunLength) :
    (inputs.foldl take r).syncRun = trailingSync (before ++ inputs) % syncRunLength := by
  induction inputs generalizing r before with
  | nil => rwa [List.append_nil]
  | cons i rest ih =>
    have hrest := ih _ (syncRun_take h i)
    rwa [List.append_assoc, List.singleton_append] at hrest

theorem settings_foldl (r : Receiver) (inputs : List Input) :
    (inputs.foldl take r).settings = r.settings := by
  induction inputs generalizing r with
  | nil => rfl
  | cons i rest ih =>
    rw [List.foldl_cons, ih]
    cases i with
    | byte b => exact step_settings r b
    | reset => rfl

theorem Reachable.foldl {r : Receiver} (h : Reachable r) (inputs : List Input) :
    Reachable (inputs.foldl take r) := by
  induction inputs generalizing r with
  | nil => exact h
  | cons i rest ih =>
    cases i with
    | byte b => exact ih (h.step b)
    | reset => exact ih h.reset

/-- After any bytes, with resets anywhere between them, the tally is the length of the row of sync
bytes at the end, modulo four, so that a byte holds it and its successor. A reported boundary is
remembered only by a receiver that reports markers, inside a row and where an address is expected;
the end word only by a receiver that has one, and where data is expected. A low address byte that is
a sync byte has been counted. -/
theorem wellFormed_after (settings : Settings) (inputs : List Input) :
    let r := after settings inputs
    r.syncRun = trailingSync inputs % 4 ∧ r.syncRun < 4 ∧
    (UInt8.ofNat r.syncRun + 1).toNat = r.syncRun + 1 ∧
    (r.reported = true → settings.markerBoundary = true ∧ (r.syncRun = 2 ∨ r.syncRun = 3) ∧
      (r.phase = .addressLow ∨ r.phase = .addressHigh)) ∧
    (r.endPending = true → settings.endAddress ≠ none ∧
      (r.phase = .dataLow ∨ r.phase = .dataHigh)) ∧
    (r.phase = .addressHigh → Word.low r.address = syncByte → 1 ≤ r.syncRun) := by
  intro r
  have hwell : r.WellFormed := ((Reachable.new settings).foldl inputs).wellFormed
  have hsettings : r.settings = settings := settings_foldl _ inputs
  have hrun : r.syncRun = trailingSync inputs % 4 :=
    syncRun_foldl [] inputs rfl
  have hlt : r.syncRun < 4 := hwell.run_lt
  refine ⟨hrun, hlt, ?_, ?_, ?_, hwell.low_sync⟩
  · have hone : (1 : UInt8).toNat = 1 := rfl
    rw [UInt8.toNat_add, UInt8.toNat_ofNat', hone]
    omega
  · intro hr
    obtain ⟨hmarker, hwhere⟩ := hwell.reported hr
    rw [hsettings] at hmarker
    rcases hwhere with ⟨hphase, htwo⟩ | ⟨hphase, hthree⟩
    · exact ⟨hmarker, by omega, Or.inl hphase⟩
    · exact ⟨hmarker, Or.inr hthree, Or.inr hphase⟩
  · rw [← hsettings]
    exact hwell.pending

/-- The marker inside a row of sync bytes has reported its boundary. -/
example :
    (after { markerBoundary := true } (List.replicate 6 (.byte syncByte))).reported = true := by
  decide

end WordLink.Receiver
