import WordLink.Proofs.Trace

/-!
# The boundary at the end of an update

Two receivers take the same bytes; one of them knows an end word, the other does not. They keep
the same registers, and what the first reports besides is one boundary behind the last word of each
block that ran to the end of its countdown and had the end word in it.
-/
namespace WordLink

/-- A boundary more, right behind the word. -/
def withBoundary : List Event → List Event
  | [] => []
  | word :: rest => word :: .boundary :: rest

theorem withBoundary_append {xs : List Event} (h : xs ≠ []) (ys : List Event) :
    withBoundary (xs ++ ys) = withBoundary xs ++ ys := by
  cases xs with
  | nil => exact absurd rfl h
  | cons x xs => rfl

namespace Receiver

/-- A fresh receiver that has taken the bytes. -/
def arrived (settings : Settings) (bytes : List UInt8) : Receiver :=
  ((ofSettings settings).push bytes).1

def InData (r : Receiver) : Prop := r.phase = .dataLow ∨ r.phase = .dataHigh

instance (r : Receiver) : Decidable r.InData := inferInstanceAs (Decidable (_ ∨ _))

/-- The next byte is the last of the countdown. -/
def UsesUp (r : Receiver) : Prop := r.phase = .dataHigh ∧ r.remaining = 1

instance (r : Receiver) : Decidable r.UsesUp := inferInstanceAs (Decidable (_ ∧ _))

/-- `before` ends with the count of a block, and all of `data` is read as data of that block. -/
structure IsData (settings : Settings) (before data : List UInt8) : Prop where
  opened : ∃ head byte, before = head ++ [byte] ∧ (arrived settings head).phase = .countHigh
  inside : ∀ xs ys, data = xs ++ ys → ys ≠ [] → (arrived settings (before ++ xs)).InData

/-- The data of a block up to the end of its countdown. -/
def RunsOut (settings : Settings) (before data : List UInt8) : Prop :=
  IsData settings before data ∧
    ∃ init last, data = init ++ [last] ∧ (arrived settings (before ++ init)).UsesUp

/-- The data of a block as far as a sync run that comes before the end of its countdown. -/
def CutShort (settings : Settings) (before data : List UInt8) : Prop :=
  IsData settings before data ∧
    ∃ init last, data = init ++ [last] ∧
      Completes (arrived settings (before ++ init)).syncRun last ∧
      ¬ (arrived settings (before ++ init)).UsesUp

/-- The words in the data of a block. -/
def dataEvents (settings : Settings) (before data : List UInt8) : List Event :=
  ((arrived settings before).push data).2

/-- The bytes end where a block with a word at the address has run to its end. -/
def Closes (settings : Settings) (e : Address) (bytes : List UInt8) : Prop :=
  ∃ before data, bytes = before ++ data ∧ RunsOut settings before data ∧
    ∃ w, .word e w ∈ dataEvents settings before data

/-- The bytes end in data of a block that has had a word at the address. -/
def Holds (settings : Settings) (e : Address) (bytes : List UInt8) : Prop :=
  ∃ before data, bytes = before ++ data ∧ IsData settings before data ∧
    ∃ w, .word e w ∈ dataEvents settings before data

open Classical in
/-- What is reported at the last of the bytes, and a boundary if they close a block in this way. -/
noncomputable def closing (settings : Settings) (e : Address) (bytes : List UInt8)
    (events : List Event) : List Event :=
  if Closes settings e bytes then withBoundary events else events

variable {settings : Settings} {bytes before data : List UInt8} {e : Address}

theorem arrived_append (settings : Settings) (xs ys : List UInt8) :
    arrived settings (xs ++ ys) = ((arrived settings xs).push ys).1 := by
  rw [arrived, push_append]
  rfl

theorem arrived_snoc (settings : Settings) (bytes : List UInt8) (byte : UInt8) :
    arrived settings (bytes ++ [byte]) = ((arrived settings bytes).step byte).1 := by
  rw [arrived_append, push_cons, push_nil]

theorem arrived_wellFormed (settings : Settings) (bytes : List UInt8) :
    (arrived settings bytes).WellFormed :=
  push_wellFormed (wellFormed_new settings) bytes

theorem arrived_settings (settings : Settings) (bytes : List UInt8) :
    (arrived settings bytes).settings = settings := push_settings ..

theorem arrived_syncRun (settings : Settings) (bytes : List UInt8) :
    (arrived settings bytes).syncRun = tally 0 bytes := push_syncRun ..

theorem dataEvents_snoc (settings : Settings) (before data : List UInt8) (byte : UInt8) :
    dataEvents settings before (data ++ [byte]) =
      dataEvents settings before data ++ ((arrived settings (before ++ data)).step byte).2 := by
  rw [dataEvents, push_append, arrived_append, push_cons, push_nil, List.append_nil]
  rfl

/-- A word is reported only at its second byte. -/
theorem mem_step_word {r : Receiver} {byte : UInt8} {a : Address} :
    (∃ w, .word a w ∈ (r.step byte).2) ↔ r.phase = .dataHigh ∧ r.address = a := by
  have hwatch (s : Receiver) (w : Word) : .word a w ∉ (s.watch byte).2 := by
    unfold watch
    split
    · simp
    · split
      · simp
      · split <;> simp
  have hconsume : (∃ w, .word a w ∈ (r.consume byte).2) ↔ r.phase = .dataHigh ∧ r.address = a := by
    cases hp : r.phase with
    | awaitSync | addressLow | countLow | countHigh | dataLow => simp [consume, hp]
    | addressHigh =>
      by_cases hm : Word.withHigh r.address byte = markerAddress
      · simp only [consume, hp, openBlock_marker hm]
        split <;> simp
      · simp [consume, hp, openBlock_other hm]
    | dataHigh =>
      simp only [consume, hp, finishWord]
      split <;> simp [eq_comm]
  rw [← hconsume]
  simp [step, hwatch]

theorem ne_nil_of_word {w : Word} (h : .word e w ∈ dataEvents settings before data) :
    data ≠ [] := by
  rintro rfl
  cases h

theorem UsesUp.inData {r : Receiver} (h : r.UsesUp) : r.InData := Or.inr h.1

theorem remaining_sub_one_iff (r : Receiver) : r.remaining - 1 = 0 ↔ r.remaining = 1 := by
  grind

/-- Data comes behind a count or behind other data, up to the end of the countdown. -/
theorem step_inData_iff {r : Receiver} {byte : UInt8} : (r.step byte).1.InData ↔
    ¬ Completes r.syncRun byte ∧ (r.phase = .countHigh ∨ r.InData ∧ ¬ r.UsesUp) := by
  by_cases hc : Completes r.syncRun byte
  · simp [step_completes hc, InData, hc]
  · rw [step_calm hc]
    cases hp : r.phase with
    | awaitSync | addressLow | countLow | countHigh | dataLow =>
      simp [consume, hp, InData, UsesUp, hc]
    | addressHigh =>
      by_cases hm : Word.withHigh r.address byte = markerAddress
      · simp only [consume, hp, openBlock_marker hm, InData]
        cases r.settings.markerBoundary <;> simp
      · simp [consume, hp, openBlock_other hm, InData]
    | dataHigh =>
      have hz := remaining_sub_one_iff r
      by_cases hup : r.remaining = 1 <;> simp [consume, hp, finishWord, InData, UsesUp, hc, hup, hz]

theorem exists_snoc {xs : List UInt8} (h : xs ≠ []) : ∃ init last, xs = init ++ [last] :=
  ⟨_, _, (List.dropLast_concat_getLast h).symm⟩

theorem isData_snoc {byte : UInt8} : IsData settings before (data ++ [byte]) ↔
    IsData settings before data ∧ (arrived settings (before ++ data)).InData := by
  constructor
  · intro h
    refine ⟨⟨h.opened, ?_⟩, h.inside data [byte] rfl (by simp)⟩
    intro xs ys hd hne
    exact h.inside xs (ys ++ [byte]) (by rw [hd, List.append_assoc]) (by simp)
  · rintro ⟨h, hin⟩
    refine ⟨h.opened, ?_⟩
    intro xs ys hd hne
    obtain ⟨zs, z, rfl⟩ := exists_snoc hne
    rw [← List.append_assoc] at hd
    obtain ⟨hinit, -⟩ := List.append_inj' hd rfl
    by_cases hz : zs = []
    · subst hz
      rw [List.append_nil] at hinit
      rwa [← hinit]
    · exact h.inside xs zs hinit hz

theorem isData_of_take (head : List UInt8) {byte : UInt8}
    (hp : (arrived settings head).phase = .countHigh)
    (h : ∀ i < data.length, (arrived settings (head ++ [byte] ++ data.take i)).InData) :
    IsData settings (head ++ [byte]) data := by
  refine ⟨⟨head, byte, rfl, hp⟩, ?_⟩
  intro xs ys hd hne
  have hlen : xs.length < data.length := by
    rw [hd, List.length_append]
    have := List.length_pos_iff.mpr hne
    omega
  have hxs : data.take xs.length = xs := by rw [hd, List.take_left]
  exact hxs ▸ h xs.length hlen

/-- Between the count of a block and its end there is a block under way. -/
theorem exists_isData (h : (arrived settings bytes).InData) :
    ∃ before data, bytes = before ++ data ∧ IsData settings before data := by
  induction hn : bytes.length generalizing bytes with
  | zero =>
    obtain rfl := List.eq_nil_of_length_eq_zero hn
    rcases h with h | h <;> cases h
  | succ n ih =>
    have hne : bytes ≠ [] := by
      rintro rfl
      cases hn
    obtain ⟨init, byte, rfl⟩ := exists_snoc hne
    have hlen : init.length = n := by simpa using hn
    rw [arrived_snoc] at h
    rcases (step_inData_iff.mp h).2 with hp | ⟨hin, -⟩
    · refine ⟨init ++ [byte], [], by simp, ⟨init, byte, rfl, hp⟩, ?_⟩
      intro xs ys hnil hne
      exact absurd (List.append_eq_nil_iff.mp hnil.symm).2 hne
    · obtain ⟨before, data, rfl, hd⟩ := ih hin hlen
      exact ⟨before, data ++ [byte], by simp, isData_snoc.mpr ⟨hd, hin⟩⟩

theorem holds_snoc {byte : UInt8} : Holds settings e (bytes ++ [byte]) ↔
    (arrived settings bytes).InData ∧ (Holds settings e bytes ∨
      (arrived settings bytes).phase = .dataHigh ∧ (arrived settings bytes).address = e) := by
  constructor
  · rintro ⟨before, data, hb, hd, w, hw⟩
    -- the last byte is data, since a block has no word before its first byte
    obtain ⟨init, last, rfl⟩ := exists_snoc (ne_nil_of_word hw)
    rw [← List.append_assoc] at hb
    obtain ⟨rfl, hlast⟩ := List.append_inj' hb rfl
    obtain ⟨hinit, hin⟩ := isData_snoc.mp hd
    rw [dataEvents_snoc, List.mem_append] at hw
    refine ⟨hin, ?_⟩
    rcases hw with hw | hw
    · exact Or.inl ⟨before, init, rfl, hinit, w, hw⟩
    · exact Or.inr (mem_step_word.mp ⟨w, hw⟩)
  · rintro ⟨hin, ⟨before, data, rfl, hd, w, hw⟩ | hword⟩
    · refine ⟨before, data ++ [byte], by simp, isData_snoc.mpr ⟨hd, hin⟩, w, ?_⟩
      rw [dataEvents_snoc]
      exact List.mem_append_left _ hw
    · obtain ⟨before, data, rfl, hd⟩ := exists_isData hin
      obtain ⟨w, hw⟩ : ∃ w, .word e w ∈ ((arrived settings (before ++ data)).step byte).2 :=
        mem_step_word.mpr hword
      refine ⟨before, data ++ [byte], by simp, isData_snoc.mpr ⟨hd, hin⟩, w, ?_⟩
      rw [dataEvents_snoc]
      exact List.mem_append_right _ hw

theorem closes_snoc {byte : UInt8} : Closes settings e (bytes ++ [byte]) ↔
    (arrived settings bytes).UsesUp ∧ Holds settings e (bytes ++ [byte]) := by
  constructor
  · rintro ⟨before, data, hb, ⟨hd, init, last, rfl, hup⟩, hw⟩
    refine ⟨?_, before, _, hb, hd, hw⟩
    rw [← List.append_assoc] at hb
    obtain ⟨rfl, -⟩ := List.append_inj' hb rfl
    exact hup
  · rintro ⟨hup, before, data, hb, hd, w, hw⟩
    obtain ⟨init, last, rfl⟩ := exists_snoc (ne_nil_of_word hw)
    refine ⟨before, _, hb, ⟨hd, init, last, rfl, ?_⟩, w, hw⟩
    rw [← List.append_assoc] at hb
    obtain ⟨rfl, -⟩ := List.append_inj' hb rfl
    exact hup

/-- The same receiver, but with an end word and perhaps one that is pending. -/
def withEnd (r : Receiver) (e : Address) (pending : Bool) : Receiver :=
  { r with settings := { r.settings with endAddress := some e }, endPending := pending }

theorem consume_withEnd {r : Receiver} (hs : r.settings.endAddress = none)
    (hp : r.endPending = false) (e : Address) (pending : Bool) (byte : UInt8) :
    (r.withEnd e pending).consume byte =
      ((r.consume byte).1.withEnd e
          ((pending || decide (r.phase = .dataHigh ∧ r.address = e)) && !decide r.UsesUp),
        if r.UsesUp ∧ (pending = true ∨ r.address = e) then withBoundary (r.consume byte).2
        else (r.consume byte).2) := by
  cases hphase : r.phase with
  | awaitSync | addressLow | countLow | countHigh | dataLow =>
    simp [consume, withEnd, hphase, UsesUp]
  | addressHigh =>
    by_cases hm : Word.withHigh r.address byte = markerAddress
    · have hl : (r.withEnd e pending).openBlock byte = _ := openBlock_marker hm
      simp only [consume, withEnd, hphase, UsesUp] at hl ⊢
      simp [hl, openBlock_marker hm]
    · have hl : (r.withEnd e pending).openBlock byte = _ := openBlock_other hm
      simp only [consume, withEnd, hphase, UsesUp] at hl ⊢
      simp [hl, openBlock_other hm]
  | dataHigh =>
    have hz := remaining_sub_one_iff r
    have he : (e == r.address) = decide (r.address = e) := by
      rw [Bool.eq_iff_iff, beq_iff_eq, decide_eq_true_iff, eq_comm]
    by_cases hup : r.remaining = 1
    · cases pending <;> by_cases ha : r.address = e <;>
        simp [consume, withEnd, hphase, UsesUp, finishWord, hup, he, ha, hs, hp, withBoundary]
    · cases pending <;> by_cases ha : r.address = e <;>
        simp [consume, withEnd, hphase, UsesUp, finishWord, hup, hz, he, ha, hs, hp]

theorem UsesUp.consume_ne_nil {r : Receiver} (h : r.UsesUp) (byte : UInt8) :
    (r.consume byte).2 ≠ [] := by
  simp only [consume, h.1, finishWord]
  split <;> simp

theorem step_withEnd {r : Receiver} (hs : r.settings.endAddress = none)
    (hp : r.endPending = false) (e : Address) (pending : Bool) (byte : UInt8) :
    (r.withEnd e pending).step byte =
      ((r.step byte).1.withEnd e
          ((pending || decide (r.phase = .dataHigh ∧ r.address = e)) &&
            !decide r.UsesUp && !decide (Completes r.syncRun byte)),
        if r.UsesUp ∧ (pending = true ∨ r.address = e) then withBoundary (r.step byte).2
        else (r.step byte).2) := by
  have hconsume := consume_withEnd hs hp e pending byte
  by_cases hc : Completes r.syncRun byte
  · have hc' : Completes (r.withEnd e pending).syncRun byte := hc
    rw [step_completes hc, step_completes hc', hconsume]
    refine Prod.ext ?_ ?_
    · simp [withEnd, hc]
    · by_cases h : r.UsesUp ∧ (pending = true ∨ r.address = e)
      · simp only [if_pos h, withBoundary_append (h.1.consume_ne_nil byte)]
        rfl
      · simp only [if_neg h]
        rfl
  · have hc' : ¬ Completes (r.withEnd e pending).syncRun byte := hc
    rw [step_calm hc, step_calm hc', hconsume]
    refine Prod.ext ?_ rfl
    simp [withEnd, hc]

/-- The settings with an end word and without. -/
abbrev plain (markerBoundary : Bool) : Settings := { markerBoundary }

abbrev ending (markerBoundary : Bool) (e : Address) : Settings :=
  { markerBoundary, endAddress := some e }

/-- What a receiver that knows the end word has to remember of the bytes: whether the block under
way has had it. -/
theorem arrived_ending (markerBoundary : Bool) (e : Address) (bytes : List UInt8) :
    ∃ pending, arrived (ending markerBoundary e) bytes =
        (arrived (plain markerBoundary) bytes).withEnd e pending ∧
      (pending = true ↔ (arrived (plain markerBoundary) bytes).InData ∧
        Holds (plain markerBoundary) e bytes) := by
  induction hn : bytes.length generalizing bytes with
  | zero =>
    obtain rfl := List.eq_nil_of_length_eq_zero hn
    refine ⟨false, rfl, by simp [arrived, ofSettings, InData]⟩
  | succ n ih =>
    have hne : bytes ≠ [] := by
      rintro rfl
      cases hn
    obtain ⟨init, byte, rfl⟩ := exists_snoc hne
    obtain ⟨pending, harrived, hpending⟩ := ih init (by simpa using hn)
    have hset := arrived_settings (plain markerBoundary) init
    have hnone : (arrived (plain markerBoundary) init).settings.endAddress = none := by rw [hset]
    have hp := (arrived_wellFormed (plain markerBoundary) init).endPending_eq_false hnone
    have hstep := step_withEnd hnone hp e pending byte
    rw [arrived_snoc, arrived_snoc, harrived, hstep]
    refine ⟨_, rfl, ?_⟩
    rw [holds_snoc, step_inData_iff]
    simp only [Bool.and_eq_true, Bool.or_eq_true, Bool.not_eq_true', decide_eq_false_iff_not,
      decide_eq_true_eq, hpending]
    have hdata : (arrived (plain markerBoundary) init).phase = .dataHigh →
        (arrived (plain markerBoundary) init).InData := Or.inr
    have hcount : (arrived (plain markerBoundary) init).InData →
        (arrived (plain markerBoundary) init).phase ≠ .countHigh := by
      rintro (h | h) <;> simp [h]
    grind

variable (markerBoundary : Bool) (e : Address)

theorem step_ending (bytes : List UInt8) (byte : UInt8) :
    ((arrived (ending markerBoundary e) bytes).step byte).2 =
      closing (plain markerBoundary) e (bytes ++ [byte])
        ((arrived (plain markerBoundary) bytes).step byte).2 := by
  obtain ⟨pending, harrived, hpending⟩ := arrived_ending markerBoundary e bytes
  have hset := arrived_settings (plain markerBoundary) bytes
  have hnone : (arrived (plain markerBoundary) bytes).settings.endAddress = none := by rw [hset]
  have hiff : Closes (plain markerBoundary) e (bytes ++ [byte]) ↔
      (arrived (plain markerBoundary) bytes).UsesUp ∧
        (pending = true ∨ (arrived (plain markerBoundary) bytes).address = e) := by
    rw [closes_snoc, holds_snoc, hpending]
    refine and_congr_right fun hup => ?_
    simp [hup.inData, hup.1]
  have hp := (arrived_wellFormed (plain markerBoundary) bytes).endPending_eq_false hnone
  rw [harrived, step_withEnd hnone hp e pending byte, closing]
  simp only [hiff]

/-- From any place in the stream on, the reports are the same but for the boundaries at the ends of
the blocks that had the end word. -/
theorem trace_ending (before bytes : List UInt8) :
    (arrived (ending markerBoundary e) before).trace bytes =
      ((arrived (plain markerBoundary) before).trace bytes).mapIdx fun i events =>
        closing (plain markerBoundary) e (before ++ bytes.take (i + 1)) events := by
  induction bytes generalizing before with
  | nil => rfl
  | cons byte rest ih =>
    have hrest := ih (before ++ [byte])
    rw [arrived_snoc, arrived_snoc] at hrest
    rw [trace, trace, List.mapIdx_cons, hrest, step_ending]
    simp

/-- Data in which no block of this kind ends is reported alike. -/
theorem dataEvents_ending {before data : List UInt8}
    (h : ∀ xs ys, data = xs ++ ys → ¬ Closes (plain markerBoundary) e (before ++ xs)) :
    dataEvents (ending markerBoundary e) before data =
      dataEvents (plain markerBoundary) before data := by
  have hsame : ∀ i events,
      closing (plain markerBoundary) e (before ++ data.take (i + 1)) events = events := by
    intro i events
    rw [closing, if_neg (h _ (data.drop (i + 1)) (List.take_append_drop ..).symm)]
  rw [dataEvents, dataEvents, ← flatten_trace, ← flatten_trace, trace_ending]
  refine congrArg List.flatten (List.ext_getElem? fun i => ?_)
  rw [List.getElem?_mapIdx]
  simp only [hsame, Option.map_id']

/-- In the data of a block that is cut short no block ends. -/
theorem CutShort.not_closes {settings : Settings} {before data : List UInt8}
    (h : CutShort settings before data) {xs ys : List UInt8} (hd : data = xs ++ ys) :
    ¬ Closes settings e (before ++ xs) := by
  obtain ⟨hdata, init, last, hlast, hcomplete, hup⟩ := h
  intro hcloses
  by_cases hxs : xs = []
  · subst hxs
    obtain ⟨head, byte, rfl, hp⟩ := hdata.opened
    rw [List.append_nil, closes_snoc] at hcloses
    have := hcloses.1.1
    rw [hp] at this
    cases this
  · obtain ⟨zs, z, rfl⟩ := exists_snoc hxs
    rw [← List.append_assoc, closes_snoc] at hcloses
    by_cases hys : ys = []
    · subst hys
      rw [List.append_nil, hlast] at hd
      obtain ⟨rfl, -⟩ := List.append_inj' hd rfl
      exact hup hcloses.1
    · have hin := hdata.inside (zs ++ [z]) ys hd hys
      rw [← List.append_assoc, arrived_snoc, step_inData_iff] at hin
      rcases hin.2 with hp | ⟨-, hne⟩
      · have := hcloses.1.1
        rw [hp] at this
        cases this
      · exact hne hcloses.1

/-- With an end word a receiver keeps the registers it would have without one, and reports the same
with one boundary more, behind the last word, at the end of each block that had the end word and
ran to the end of its countdown. A block that a sync run cuts short is reported alike and leaves
nothing behind. At each byte there is at most a word and then at most two boundaries. -/
theorem end_boundaries_exact (bytes : List UInt8) :
    (arrived (ending markerBoundary e) bytes).phase = (arrived (plain markerBoundary) bytes).phase ∧
    (arrived (ending markerBoundary e) bytes).address =
      (arrived (plain markerBoundary) bytes).address ∧
    (arrived (ending markerBoundary e) bytes).remaining =
      (arrived (plain markerBoundary) bytes).remaining ∧
    (ofSettings (ending markerBoundary e)).trace bytes =
      ((ofSettings (plain markerBoundary)).trace bytes).mapIdx (fun i events =>
        closing (plain markerBoundary) e (bytes.take (i + 1)) events) ∧
    (∀ before data, bytes = before ++ data → CutShort (plain markerBoundary) before data →
      dataEvents (ending markerBoundary e) before data =
        dataEvents (plain markerBoundary) before data ∧
      (arrived (ending markerBoundary e) bytes).endPending = false) ∧
    ∀ byte, ∃ word?, ∃ n ≤ 2,
      ((arrived (ending markerBoundary e) bytes).step byte).2 = report word? n := by
  obtain ⟨pending, harrived, hpending⟩ := arrived_ending markerBoundary e bytes
  refine ⟨by rw [harrived]; rfl, by rw [harrived]; rfl, by rw [harrived]; rfl, ?_, ?_, ?_⟩
  · exact trace_ending markerBoundary e [] bytes
  · intro before data hbytes hcut
    refine ⟨dataEvents_ending markerBoundary e fun xs ys hd => hcut.not_closes e hd, ?_⟩
    obtain ⟨-, init, last, rfl, hcomplete, -⟩ := hcut
    rw [hbytes, ← List.append_assoc, arrived_snoc, step_completes]
    rwa [arrived_syncRun, ← arrived_syncRun (plain markerBoundary)]
  · exact fun byte => step_report _ byte

/-- The end word comes first in its block, and a sync run in the next two words breaks it off. -/
theorem end_boundaries_exact_cut_short :
    CutShort (plain true) [0x55, 0x55, 0x55, 0x55, 0x10, 0x00, 0x08, 0x00]
        [0x34, 0x12, 0x55, 0x55, 0x55, 0x55] ∧
      dataEvents (ending true 0x0010) [0x55, 0x55, 0x55, 0x55, 0x10, 0x00, 0x08, 0x00]
          [0x34, 0x12, 0x55, 0x55, 0x55, 0x55] =
        dataEvents (plain true) [0x55, 0x55, 0x55, 0x55, 0x10, 0x00, 0x08, 0x00]
          [0x34, 0x12, 0x55, 0x55, 0x55, 0x55] := by
  have hcut : CutShort (plain true) [0x55, 0x55, 0x55, 0x55, 0x10, 0x00, 0x08, 0x00]
      [0x34, 0x12, 0x55, 0x55, 0x55, 0x55] :=
    ⟨isData_of_take [0x55, 0x55, 0x55, 0x55, 0x10, 0x00, 0x08] (by decide) (by decide),
      [0x34, 0x12, 0x55, 0x55, 0x55], 0x55, rfl, by decide, by decide⟩
  exact ⟨hcut, ((end_boundaries_exact true 0x0010 _).2.2.2.2.1 _ _ rfl hcut).1⟩

end Receiver

end WordLink
