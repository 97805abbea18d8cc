import WordLink.Proofs.Trace

/-!
# One boundary for each group of sync bytes

Sync bytes in a row are counted off in groups of four. A full group brings one boundary: at the
first marker that is read inside it, if markers count, and else at its fourth byte. A group that
breaks off brings one only for such a marker, and no other byte ever brings one.
-/
namespace WordLink

inductive Segment where
  | other (byte : UInt8)
  | group (length : Nat)
  deriving DecidableEq, Repr

namespace Segment

def bytes : Segment → List UInt8
  | other byte => [byte]
  | group n => List.replicate n syncByte

/-- The group that has come to an end, if there is one under way. -/
def closing (run : Nat) : List Segment := if run = 0 then [] else [group run]

/-- Divides the bytes behind `run` sync bytes of a group under way, and those with them. -/
def divideFrom (run : Nat) : List UInt8 → List Segment
  | [] => closing run
  | byte :: rest =>
    if byte ≠ syncByte then closing run ++ other byte :: divideFrom 0 rest
    else if run + 1 = syncRunLength then group syncRunLength :: divideFrom 0 rest
    else divideFrom (run + 1) rest

def divide (bytes : List UInt8) : List Segment := divideFrom 0 bytes

/-- Groups are of sync bytes, at most four, and only a full one is followed by another. -/
def Proper : List Segment → Prop
  | [] => True
  | other byte :: rest => byte ≠ syncByte ∧ Proper rest
  | group n :: rest =>
    0 < n ∧ n ≤ syncRunLength ∧ (n < syncRunLength → ∀ k, rest.head? ≠ some (group k)) ∧ Proper rest

/-- Where a segment brings a boundary, given the place of the first marker that is read in it. -/
def boundaryPlace? (markerBoundary : Bool) (marker? : Option Nat) : Segment → Option Nat
  | other _ => none
  | group n =>
    (if markerBoundary then marker? else none).or
      (if n = syncRunLength then some (n - 1) else none)

theorem flatMap_closing (run : Nat) :
    (closing run).flatMap bytes = List.replicate run syncByte := by
  unfold closing
  split
  · simp_all
  · simp [bytes]

theorem flatMap_divideFrom (run : Nat) (input : List UInt8) :
    (divideFrom run input).flatMap bytes = List.replicate run syncByte ++ input := by
  induction input generalizing run with
  | nil => rw [divideFrom, flatMap_closing, List.append_nil]
  | cons byte rest ih =>
    rw [divideFrom]
    split
    · rw [List.flatMap_append, flatMap_closing, List.flatMap_cons, ih]
      simp [bytes]
    · rename_i hb
      obtain rfl : byte = syncByte := Decidable.not_not.mp hb
      have hsplit : List.replicate (run + 1) syncByte ++ rest =
          List.replicate run syncByte ++ syncByte :: rest := by
        simp [List.replicate_succ']
      split
      · rename_i hr
        rw [List.flatMap_cons, ih, ← hsplit, hr]
        simp [bytes]
      · rw [ih, hsplit]

theorem proper_divideFrom {run : Nat} (hrun : run < syncRunLength) (input : List UInt8) :
    Proper (divideFrom run input) := by
  induction input generalizing run with
  | nil =>
    rw [divideFrom, closing]
    split
    · trivial
    · exact ⟨by omega, by omega, by simp, trivial⟩
  | cons byte rest ih =>
    rw [divideFrom]
    split
    · rename_i hb
      have hrest : Proper (other byte :: divideFrom 0 rest) := ⟨hb, ih (by decide)⟩
      rw [closing]
      split
      · exact hrest
      · exact ⟨by omega, by omega, by simp, hrest⟩
    · split
      · exact ⟨by decide, by omega, by simp, ih (by decide)⟩
      · exact ih (by omega)

theorem divide_bytes (input : List UInt8) : (divide input).flatMap bytes = input :=
  flatMap_divideFrom 0 input

theorem proper_divide (input : List UInt8) : Proper (divide input) :=
  proper_divideFrom (by decide) input

theorem Proper.segment {before after : List Segment} {s : Segment}
    (h : Proper (before ++ s :: after)) : Proper (s :: after) := by
  induction before with
  | nil => exact h
  | cons t before ih =>
    cases t with
    | other byte => exact ih h.2
    | group k => exact ih h.2.2.2

/-- No sync byte counts ahead of a group. -/
theorem Proper.tally_eq_zero {before after : List Segment} {n : Nat}
    (h : Proper (before ++ group n :: after)) : tally 0 (before.flatMap bytes) = 0 := by
  induction before with
  | nil => rfl
  | cons t before ih =>
    cases t with
    | other byte =>
      rw [List.flatMap_cons, tally_append]
      simpa [bytes, tally_cons, tally_nil, tallyByte_other h.1] using ih h.2
    | group k =>
      obtain ⟨-, hk, hnext, hrest⟩ := h
      rw [List.flatMap_cons, tally_append, bytes]
      by_cases hfull : k = syncRunLength
      · subst hfull
        exact ih hrest
      · -- a group that breaks off is followed by a byte that is no sync byte
        have hnext := hnext (by omega)
        cases before with
        | nil => exact absurd rfl (hnext n)
        | cons u before =>
          cases u with
          | group j => exact absurd rfl (hnext j)
          | other byte =>
            have hb := hrest.1
            have hzero := ih hrest
            simpa [bytes, tally_cons, tally_append, tallyByte_other hb] using hzero

end Segment

/-- A list of `n` counts: one at the place, if there is one, and none elsewhere. -/
def onlyAt (n : Nat) (place? : Option Nat) : List Nat :=
  (List.range n).map fun i => if place? = some i then 1 else 0

theorem onlyAt_none (n : Nat) : onlyAt (n + 1) none = 0 :: onlyAt n none := by
  rw [onlyAt, List.range_succ_eq_map, List.map_cons, List.map_map]
  exact congrArg (0 :: ·) (List.map_congr_left fun i _ => rfl)

theorem onlyAt_zero (n : Nat) : onlyAt (n + 1) (some 0) = 1 :: onlyAt n none := by
  rw [onlyAt, List.range_succ_eq_map, List.map_cons, List.map_map]
  refine congrArg (1 :: ·) (List.map_congr_left fun i _ => ?_)
  simp

theorem onlyAt_succ (n : Nat) (place? : Option Nat) :
    onlyAt (n + 1) (place?.map (· + 1)) = 0 :: onlyAt n place? := by
  cases place? with
  | none => exact onlyAt_none n
  | some k =>
    rw [onlyAt, List.range_succ_eq_map, List.map_cons, List.map_map]
    refine congrArg (0 :: ·) (List.map_congr_left fun i _ => ?_)
    simp

namespace Receiver

/-- The number of boundaries at each of the bytes. -/
def boundaryCounts (r : Receiver) (bytes : List UInt8) : List Nat :=
  (r.trace bytes).map countBoundaries

/-- The place of the first byte that completes an address field that reads as the marker. -/
def firstMarker? (r : Receiver) : List UInt8 → Option Nat
  | [] => none
  | byte :: rest =>
    if r.ReadsMarker byte then some 0 else ((r.step byte).1.firstMarker? rest).map (· + 1)

theorem boundaryCounts_cons (r : Receiver) (byte : UInt8) (rest : List UInt8) :
    r.boundaryCounts (byte :: rest) =
      countBoundaries (r.step byte).2 :: (r.step byte).1.boundaryCounts rest := rfl

/-- The marker is read, and it is to count. -/
def Notes (r : Receiver) (byte : UInt8) : Prop :=
  r.settings.markerBoundary = true ∧ r.ReadsMarker byte

instance (r : Receiver) (byte : UInt8) : Decidable (r.Notes byte) :=
  inferInstanceAs (Decidable (_ ∧ _))

variable {r : Receiver}

/-- Without an end word only the marker makes a boundary of a byte that is parsed. -/
theorem consume_boundaries (h : r.WellFormed) (hs : r.settings.endAddress = none) (byte : UInt8) :
    (r.consume byte).1.reported = (r.reported || decide (r.Notes byte)) ∧
      countBoundaries (r.consume byte).2 =
        if r.Notes byte ∧ r.reported = false then 1 else 0 := by
  cases hp : r.phase with
  | awaitSync | addressLow | countLow | countHigh | dataLow =>
    simp [consume, hp, Notes, ReadsMarker]
  | addressHigh =>
    by_cases hm : Word.withHigh r.address byte = markerAddress
    · simp only [consume, hp, openBlock_marker hm, Notes, ReadsMarker, hm]
      cases r.settings.markerBoundary <;> cases r.reported <;>
        simp [countBoundaries, Event.isBoundary]
    · simp [consume, hp, openBlock_other hm, Notes, ReadsMarker, hm]
  | dataHigh =>
    have he := h.endPending_eq_false hs
    simp [consume, hp, finishWord, Notes, ReadsMarker, he, hs, countBoundaries, Event.isBoundary]

theorem step_other_boundaries (h : r.WellFormed) (hs : r.settings.endAddress = none)
    {byte : UInt8} (hb : byte ≠ syncByte) : countBoundaries (r.step byte).2 = 0 := by
  have hn : ¬ r.Notes byte := fun hn => hb hn.2.sync
  rw [step_calm (not_completes_of_ne hb _), (consume_boundaries h hs byte).2, if_neg]
  exact fun hc => hn hc.1

theorem step_calm_boundaries (h : r.WellFormed) (hs : r.settings.endAddress = none)
    (hc : ¬ Completes r.syncRun syncByte) :
    (r.step syncByte).1.reported = (r.reported || decide (r.Notes syncByte)) ∧
      countBoundaries (r.step syncByte).2 =
        if r.Notes syncByte ∧ r.reported = false then 1 else 0 := by
  obtain ⟨hr, hn⟩ := consume_boundaries h hs syncByte
  rw [step_calm hc]
  exact ⟨by simp [hr], hn⟩

/-- The fourth sync byte of a group makes up for the marker, if none was noted before it. -/
theorem step_completes_boundaries (h : r.WellFormed) (hs : r.settings.endAddress = none)
    (hc : Completes r.syncRun syncByte) :
    countBoundaries (r.step syncByte).2 = if r.reported then 0 else 1 := by
  obtain ⟨hr, hn⟩ := consume_boundaries h hs syncByte
  rw [step_completes hc, countBoundaries_append, hr, hn]
  by_cases hnote : r.Notes syncByte <;> cases r.reported <;>
    simp [hnote, countBoundaries, Event.isBoundary]

/-- The place of the first marker that is noted. -/
def markerPlace? (r : Receiver) (bytes : List UInt8) : Option Nat :=
  if r.settings.markerBoundary then r.firstMarker? bytes else none

@[simp] theorem markerPlace?_nil (r : Receiver) : r.markerPlace? [] = none := by
  simp [markerPlace?, firstMarker?]

theorem markerPlace?_of_notes {byte : UInt8} (h : r.Notes byte) (rest : List UInt8) :
    r.markerPlace? (byte :: rest) = some 0 := by
  simp [markerPlace?, firstMarker?, h.1, h.2]

theorem markerPlace?_of_not_notes {byte : UInt8} (h : ¬ r.Notes byte) (rest : List UInt8) :
    r.markerPlace? (byte :: rest) = ((r.step byte).1.markerPlace? rest).map (· + 1) := by
  cases hm : r.settings.markerBoundary with
  | false => simp [markerPlace?, step_settings, hm]
  | true =>
    have hk : ¬ r.ReadsMarker byte := fun hk => h ⟨hm, hk⟩
    simp [markerPlace?, firstMarker?, step_settings, hm, hk]

/-- The place of the fourth sync byte, if it is among the `n` that are left behind `run` others. -/
def fourthPlace? (run n : Nat) : Option Nat :=
  if run + n = syncRunLength then some (n - 1) else none

theorem fourthPlace?_succ {run : Nat} (h : run + 1 ≠ syncRunLength) (n : Nat) :
    fourthPlace? run (n + 1) = (fourthPlace? (run + 1) n).map (· + 1) := by
  rw [fourthPlace?, fourthPlace?, ← Nat.add_assoc, Nat.add_right_comm]
  split
  · simp only [Option.map_some, Option.some.injEq]
    omega
  · rfl

/-- What is left of a group, from any place in it on; the flag says whether a marker has been
noted before. -/
theorem boundaryCounts_sync (h : r.WellFormed) (hs : r.settings.endAddress = none) {n : Nat}
    (hn : r.syncRun + n ≤ syncRunLength) :
    r.boundaryCounts (List.replicate n syncByte) = onlyAt n
      (if r.reported then none
        else (r.markerPlace? (List.replicate n syncByte)).or (fourthPlace? r.syncRun n)) := by
  induction n generalizing r with
  | zero => rfl
  | succ n ih =>
    rw [List.replicate_succ, boundaryCounts_cons]
    by_cases hc : Completes r.syncRun syncByte
    · obtain rfl : n = 0 := by
        have := hc.2
        omega
      rw [step_completes_boundaries h hs hc, fourthPlace?, if_pos hc.2]
      by_cases hnote : r.Notes syncByte
      · cases hr : r.reported <;>
          simp [markerPlace?_of_notes hnote, boundaryCounts, trace, onlyAt]
      · cases hr : r.reported <;>
          simp [markerPlace?_of_not_notes hnote, boundaryCounts, trace, onlyAt]
    · have hrun : (r.step syncByte).1.syncRun = r.syncRun + 1 := by
        rw [step_syncRun, tallyByte_sync hc]
      have hset := step_settings r syncByte
      obtain ⟨hr, hcount⟩ := step_calm_boundaries h hs hc
      have hrest := ih (step_wellFormed h syncByte) (by rw [hset, hs]) (by rw [hrun]; omega)
      rw [hcount, hrest, hr, hrun]
      cases hreported : r.reported with
      | true => simp [onlyAt_none]
      | false =>
        by_cases hnote : r.Notes syncByte
        · simp [hnote, markerPlace?_of_notes hnote, onlyAt_zero]
        · have hne : r.syncRun + 1 ≠ syncRunLength := fun he => hc ⟨rfl, he⟩
          simp [hnote, markerPlace?_of_not_notes hnote, fourthPlace?_succ hne, ← Option.map_or,
            onlyAt_succ]

/-- One boundary for each full group, at the first marker read in it if markers count and else at
its fourth byte; for a group that breaks off only the boundary of such a marker, if there is one;
and none at any other byte. -/
theorem one_boundary_per_group (markerBoundary : Bool) (input : List UInt8) :
    (Segment.divide input).flatMap Segment.bytes = input ∧
    Segment.Proper (Segment.divide input) ∧
    ∀ before segment after, Segment.divide input = before ++ segment :: after →
      let r := ((ofSettings { markerBoundary }).push (before.flatMap Segment.bytes)).1
      r.boundaryCounts segment.bytes = onlyAt segment.bytes.length
        (segment.boundaryPlace? markerBoundary (r.firstMarker? segment.bytes)) := by
  refine ⟨Segment.divide_bytes input, Segment.proper_divide input, ?_⟩
  intro before segment after hsplit r
  have hproper := hsplit ▸ Segment.proper_divide input
  have hw : r.WellFormed := push_wellFormed (wellFormed_new _) _
  have hset : r.settings = { markerBoundary } := push_settings _ _
  have hs : r.settings.endAddress = none := by rw [hset]
  cases segment with
  | other byte =>
    have hb : byte ≠ syncByte := hproper.segment.1
    simp [Segment.bytes, boundaryCounts, trace, step_other_boundaries hw hs hb,
      Segment.boundaryPlace?, onlyAt]
  | group n =>
    have hrun : r.syncRun = 0 := (push_syncRun _ _).trans hproper.tally_eq_zero
    have hn : n ≤ syncRunLength := hproper.segment.2.1
    have hcounts := boundaryCounts_sync hw hs (n := n) (by omega)
    rw [hw.reported_of_run_zero hrun, hrun, markerPlace?, fourthPlace?, Nat.zero_add,
      hset] at hcounts
    simpa [Segment.bytes, Segment.boundaryPlace?] using hcounts

/-- The last byte of a block opens a group, and the next two are read as the marker. -/
theorem one_boundary_per_group_marker_inside :
    Segment.divide
        [0x55, 0x55, 0x55, 0x55, 0x10, 0x00, 0x02, 0x00, 0x34, 0x55, 0x55, 0x55, 0x55, 0x01] =
        [.group 4, .other 0x10, .other 0x00, .other 0x02, .other 0x00, .other 0x34] ++
          .group 4 :: [.other 0x01] ∧
      ((ofSettings { markerBoundary := true }).push
          [0x55, 0x55, 0x55, 0x55, 0x10, 0x00, 0x02, 0x00, 0x34]).1.boundaryCounts
        [0x55, 0x55, 0x55, 0x55] = [0, 0, 1, 0] := by
  have hsplit : Segment.divide
      [0x55, 0x55, 0x55, 0x55, 0x10, 0x00, 0x02, 0x00, 0x34, 0x55, 0x55, 0x55, 0x55, 0x01] =
        [.group 4, .other 0x10, .other 0x00, .other 0x02, .other 0x00, .other 0x34] ++
          .group 4 :: [.other 0x01] := by decide
  exact ⟨hsplit, ((one_boundary_per_group true _).2.2 _ _ _ hsplit).trans (by decide)⟩

end Receiver

end WordLink
