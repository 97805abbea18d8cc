import WordLink.Proofs.SyncRun

/-!
# Reports byte by byte

The trace of a receiver is what it reports at each byte; strung together the reports are what
`push` gives. At one byte there is at most a word, and behind it at most two boundaries: the end
of an update and the sync run may fall on the same byte.
-/
namespace WordLink

def report (word? : Option (Address × Word)) (boundaries : Nat) : List Event :=
  (word?.map fun w => Event.word w.1 w.2).toList ++ List.replicate boundaries .boundary

def countBoundaries (events : List Event) : Nat := events.countP Event.isBoundary

@[simp] theorem countBoundaries_nil : countBoundaries [] = 0 := rfl

theorem countBoundaries_append (xs ys : List Event) :
    countBoundaries (xs ++ ys) = countBoundaries xs + countBoundaries ys := List.countP_append

namespace Receiver

def trace (r : Receiver) : List UInt8 → List (List Event)
  | [] => []
  | byte :: rest => (r.step byte).2 :: (r.step byte).1.trace rest

theorem flatten_trace (r : Receiver) (bytes : List UInt8) :
    (r.trace bytes).flatten = (r.push bytes).2 := by
  induction bytes generalizing r with
  | nil => rfl
  | cons byte rest ih => rw [trace, List.flatten_cons, ih, push_cons]

/-- The byte completes an address field that reads as the marker. -/
def ReadsMarker (r : Receiver) (byte : UInt8) : Prop :=
  r.phase = .addressHigh ∧ Word.withHigh r.address byte = markerAddress

instance (r : Receiver) (byte : UInt8) : Decidable (r.ReadsMarker byte) :=
  inferInstanceAs (Decidable (_ ∧ _))

theorem ReadsMarker.sync {r : Receiver} {byte : UInt8} (h : r.ReadsMarker byte) :
    byte = syncByte := (ofBytes_eq_marker_iff.mp h.2).2

theorem WellFormed.endPending_eq_false {r : Receiver} (h : r.WellFormed)
    (hs : r.settings.endAddress = none) : r.endPending = false := by
  apply Bool.eq_false_iff.mpr
  intro hp
  exact (h.pending hp).1 hs

theorem consume_report (r : Receiver) (byte : UInt8) :
    ∃ word?, ∃ n ≤ 1, (r.consume byte).2 = report word? n := by
  cases hp : r.phase with
  | awaitSync | addressLow | countLow | countHigh | dataLow =>
    exact ⟨none, 0, by omega, by simp [consume, hp, report]⟩
  | addressHigh =>
    simp only [consume, hp]
    by_cases hm : Word.withHigh r.address byte = markerAddress
    · rw [openBlock_marker hm]
      cases r.settings.markerBoundary && !r.reported with
      | false => exact ⟨none, 0, by omega, rfl⟩
      | true => exact ⟨none, 1, by omega, rfl⟩
    · rw [openBlock_other hm]
      exact ⟨none, 0, by omega, rfl⟩
  | dataHigh =>
    simp only [consume, hp, finishWord]
    split
    · exact ⟨some (r.address, Word.ofBytes r.lowByte byte), 1, by omega, rfl⟩
    · exact ⟨some (r.address, Word.ofBytes r.lowByte byte), 0, by omega, rfl⟩

/-- At a byte there is at most a word, and then at most two boundaries. -/
theorem step_report (r : Receiver) (byte : UInt8) :
    ∃ word?, ∃ n ≤ 2, (r.step byte).2 = report word? n := by
  obtain ⟨word?, n, hn, he⟩ := consume_report r byte
  by_cases hc : Completes r.syncRun byte
  · rw [step_completes hc, he]
    cases (r.consume byte).1.reported with
    | true => exact ⟨word?, n, by omega, by simp⟩
    | false => exact ⟨word?, n + 1, by omega, by simp [report, List.replicate_succ']⟩
  · rw [step_calm hc, he]
    exact ⟨word?, n, by omega, rfl⟩

end Receiver

end WordLink
