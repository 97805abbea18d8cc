import WordLink.Proofs.Connection
import WordLink.Proofs.Divergence

/-!
# Connections over many updates

The sync bytes at the end of an update are all that a receiver carries over into the next one. As
long as no update that another one follows ends in a sync byte, every update is read as it was sent
and the mirror keeps up; once one does, the next is not read as it was sent.
-/
namespace WordLink.Connection

def Unmarked (c : Connection) : Prop := c.sender.Unmarked c.source

/-- The update is read as it was sent: one boundary, then its words. -/
def Arrives (c : Connection) : Prop :=
  c.update.bytes ≠ [] → c.events =
    .boundary :: (c.sender.sent c.source).map fun a => .word a (c.source.word a)

/-- After the update the memories agree, and the update has brought one boundary, in front. -/
structure KeepsUp (c : Connection) : Prop where
  agrees : ∀ a, (c.act .update).mirror.word a = (c.act .update).source.word a
  boundary : c.update.bytes ≠ [] →
    ∃ words, c.events = .boundary :: words ∧ ∀ e ∈ words, e.isBoundary = false

/-- Whichever edit comes next, the update behind it keeps up. -/
def Poised (c : Connection) : Prop :=
  ∀ e : Edit, (c.act (.edit e)).Unmarked → (c.act (.edit e)).KeepsUp

def AtUpdates (P : Connection → Prop) (c : Connection) (history : List Action) : Prop :=
  ∀ done rest, history = done ++ .update :: rest → P (c.run done)

/-- No stream that another one follows ends in a sync byte. -/
def Parted (streams : List (List UInt8)) : Prop :=
  ∀ bytes ∈ streams.dropLast, bytes.getLast? ≠ some syncByte

theorem parted_cons_cons {bytes next : List UInt8} {rest : List (List UInt8)} :
    Parted (bytes :: next :: rest) ↔
      bytes.getLast? ≠ some syncByte ∧ Parted (next :: rest) := by
  simp [Parted]

theorem parted_nil_cons (streams : List (List UInt8)) :
    Parted ([] :: streams) ↔ Parted streams := by
  cases streams with
  | nil => simp [Parted]
  | cons next rest => simp [parted_cons_cons]

variable {P : Connection → Prop} {c : Connection} {history : List Action}

theorem atUpdates_nil : AtUpdates P c [] := by
  intro done rest h
  simp at h

theorem atUpdates_edit (e : Edit) :
    AtUpdates P c (.edit e :: history) ↔ AtUpdates P (c.act (.edit e)) history := by
  constructor
  · intro h done rest hd
    exact h (.edit e :: done) rest (by rw [hd]; rfl)
  · intro h done rest hd
    cases done with
    | nil => simp at hd
    | cons x done =>
      obtain ⟨rfl, hrest⟩ := List.cons.inj hd
      exact h done rest hrest

theorem atUpdates_update :
    AtUpdates P c (.update :: history) ↔ P c ∧ AtUpdates P (c.act .update) history := by
  constructor
  · intro h
    refine ⟨h [] history rfl, ?_⟩
    intro done rest hd
    exact h (.update :: done) rest (by rw [hd]; rfl)
  · rintro ⟨hc, h⟩ done rest hd
    cases done with
    | nil => exact hc
    | cons x done =>
      obtain ⟨rfl, hrest⟩ := List.cons.inj hd
      exact h done rest hrest

theorem unmarked_of_act {x : Action} (h : (c.act x).Unmarked) : c.Unmarked := by
  cases x with
  | edit e => exact ⟨(e.onward c.source).stored _ h.1, h.2⟩
  | update =>
    constructor
    · exact Sender.get?_of_update h.1
    · rw [← Sender.settings_update c.sender c.source]
      exact h.2

theorem unmarked_of_run (h : (c.run history).Unmarked) : c.Unmarked := by
  induction history generalizing c with
  | nil => exact h
  | cons x history ih => exact unmarked_of_act (ih h)

/-- What holds between two updates, of which the latest ended as `prior` does. -/
structure InStep (c : Connection) (prior : List UInt8) : Prop where
  receiver : c.receiver.WellFormed
  settings : c.receiver.settings = {}
  phase : c.receiver.phase = .awaitSync ∨ c.receiver.phase = .addressLow
  run_le : c.receiver.syncRun ≤ 2
  run_eq_zero : c.receiver.syncRun = 0 ↔ prior.getLast? ≠ some syncByte
  agrees : ∀ a, ¬ c.source.Changed a → c.mirror.word a = c.source.word a

theorem inStep_start (s : Sender) : (start s).InStep [] := by
  constructor
  · exact Receiver.wellFormed_new {}
  · rfl
  · exact Or.inl rfl
  · exact Nat.zero_le 2
  · simp [start]
  · intro a _
    rfl

variable {prior : List UInt8}

theorem InStep.edit (h : c.InStep prior) (e : Edit) : (c.act (.edit e)).InStep prior := by
  constructor
  · exact h.receiver
  · exact h.settings
  · exact h.phase
  · exact h.run_le
  · exact h.run_eq_zero
  · intro a ha
    obtain ⟨hc, hw⟩ := (e.onward c.source).clean a ha
    exact (h.agrees a hc).trans hw.symm

theorem blocks_eq_nil_iff : c.sender.blocks c.source = [] ↔ c.update.bytes = [] := by
  constructor
  · exact Sender.update_bytes_of_nil
  · intro h
    apply Decidable.byContradiction
    intro hne
    rw [update, Sender.update_bytes hne] at h
    cases h

theorem agrees_of_arrives (h : c.InStep prior) (ha : c.Arrives) :
    ∀ a, (c.act .update).mirror.word a = (c.act .update).source.word a := by
  intro a
  rw [word_update, mirror_update]
  by_cases hb : c.update.bytes = []
  · have hevents : c.events = [] := by rw [events, hb]; rfl
    have hdue := Sender.not_due_of_nil (blocks_eq_nil_iff.mpr hb) a
    rw [hevents]
    exact h.agrees a fun hc => hdue (Or.inl hc)
  · rw [ha hb]
    exact Sender.word_foldl_sent h.agrees a

theorem keepsUp_of_arrives (h : c.InStep prior) (ha : c.Arrives) : c.KeepsUp := by
  constructor
  · exact agrees_of_arrives h ha
  · intro hb
    refine ⟨_, ha hb, ?_⟩
    intro e he
    obtain ⟨a, -, rfl⟩ := List.mem_map.mp he
    rfl

/-- An update that is read as it was sent keeps the ends in step. -/
theorem InStep.update_nil (h : c.InStep prior) (hb : c.update.bytes = []) :
    (c.act .update).InStep prior := by
  have harrives : c.Arrives := fun hne => absurd hb hne
  have hreceiver : (c.act .update).receiver = c.receiver := by
    rw [receiver_update, hb, Receiver.push_nil]
  constructor <;> (try rw [hreceiver])
  · exact h.receiver
  · exact h.settings
  · exact h.phase
  · exact h.run_le
  · exact h.run_eq_zero
  · intro a _
    exact agrees_of_arrives h harrives a

theorem InStep.arrives_iff (h : c.InStep prior) (hm : c.Unmarked) (hb : c.update.bytes ≠ []) :
    c.Arrives ↔ prior.getLast? ≠ some syncByte := by
  have hne := mt blocks_eq_nil_iff.mp hb
  rw [← h.run_eq_zero]
  constructor
  · intro ha
    apply Decidable.byContradiction
    intro hz
    have hle := h.run_le
    exact Sender.push_update_slipped h.receiver h.settings h.phase (by omega) hm hne (ha hb)
  · intro hz _
    exact (Sender.push_update h.receiver (by rw [h.settings]) h.phase hz hm hne).2

theorem InStep.update (h : c.InStep prior) (hm : c.Unmarked) (hb : c.update.bytes ≠ [])
    (hl : prior.getLast? ≠ some syncByte) : (c.act .update).InStep c.update.bytes := by
  have hne := mt blocks_eq_nil_iff.mp hb
  have hz := h.run_eq_zero.mpr hl
  have hready := (Sender.push_update h.receiver (by rw [h.settings]) h.phase hz hm hne).1
  have hcalm := Block.calm_encodes (Sender.blocks_safe hm) (Nat.zero_le 2)
  have hbytes : c.update.bytes = _ := Sender.update_bytes hne
  have hrest := Block.encodes_ne_nil hne
  have hrun : (c.act .update).receiver.syncRun =
      tally 0 ((c.sender.blocks c.source).flatMap Block.encode) := by
    rw [receiver_update, Receiver.push_syncRun, hz, hbytes, tally_append]
    rfl
  constructor
  · rw [receiver_update]
    exact Receiver.push_wellFormed h.receiver _
  · rw [receiver_update, Receiver.push_settings]
    exact h.settings
  · rw [receiver_update]
    exact Or.inr hready.phase
  · rw [hrun]
    exact hcalm.2
  · rw [hrun, tally_eq_zero_iff hcalm.1 hrest, hbytes, List.getLast?_append,
      Option.or_of_isSome (by simpa using hrest)]
  · intro a _
    exact agrees_of_arrives h ((h.arrives_iff hm hb).mpr hl) a

theorem arrives_iff_parted (h : c.InStep prior) (hm : (c.run history).Unmarked) :
    AtUpdates Arrives c history ↔ Parted (prior :: c.streams history) := by
  -- the latest stream goes along: how it ends matters once another one follows
  induction history generalizing c prior with
  | nil => simp [atUpdates_nil, streams, Parted]
  | cons x history ih =>
    cases x with
    | edit e =>
      rw [atUpdates_edit, streams]
      exact ih (h.edit e) hm
    | update =>
      rw [atUpdates_update, streams]
      by_cases hb : c.update.bytes = []
      · have harrives : c.Arrives := fun hne => absurd hb hne
        rw [if_pos hb, ← ih (h.update_nil hb) hm]
        exact and_iff_right harrives
      · rw [if_neg hb, parted_cons_cons, h.arrives_iff (unmarked_of_run hm) hb]
        refine and_congr_right fun hl => ?_
        exact ih (h.update (unmarked_of_run hm) hb hl) hm

theorem InStep.poised_iff (h : c.InStep prior) (hm : c.Unmarked) :
    c.Poised ↔ prior.getLast? ≠ some syncByte := by
  constructor
  · intro hpoised
    rw [← h.run_eq_zero]
    apply Decidable.byContradiction
    intro hz
    have hle := h.run_le
    obtain ⟨v, hv⟩ :=
      Sender.exists_store_missed h.receiver h.settings h.phase (by omega) hm c.mirror
    have hstore := Sender.unmarked_store hm (by decide : (0 : Address) ≠ markerAddress) v
    have hagrees := (hpoised (.store 0 v) hstore).agrees 0
    apply hv
    rw [word_update, act, Edit.apply, Memory.word_store, if_pos rfl] at hagrees
    exact hagrees
  · intro hl e he
    refine keepsUp_of_arrives (h.edit e) ?_
    intro hb
    exact ((h.edit e).arrives_iff he hb).mpr hl hb

/-- As long as the streams are parted, the ends are in step after each. -/
theorem InStep.run (h : c.InStep prior) (hm : (c.run history).Unmarked)
    (hp : Parted (prior :: c.streams history)) :
    AtUpdates KeepsUp c history ∧
      (c.run history).InStep ((c.streams history).getLast?.getD prior) := by
  induction history generalizing c prior with
  | nil => exact ⟨atUpdates_nil, h⟩
  | cons x history ih =>
    cases x with
    | edit e =>
      rw [atUpdates_edit]
      exact ih (h.edit e) hm hp
    | update =>
      rw [atUpdates_update]
      rw [streams] at hp ⊢
      by_cases hb : c.update.bytes = []
      · rw [if_pos hb] at hp ⊢
        obtain ⟨hlater, hlast⟩ := ih (h.update_nil hb) hm hp
        exact ⟨⟨keepsUp_of_arrives h fun hne => absurd hb hne, hlater⟩, hlast⟩
      · rw [if_neg hb, parted_cons_cons] at hp
        rw [if_neg hb, List.getLast?_cons]
        have hunmarked := unmarked_of_run hm
        obtain ⟨hlater, hlast⟩ := ih (h.update hunmarked hb hp.1) hm hp.2
        exact ⟨⟨keepsUp_of_arrives h ((h.arrives_iff hunmarked hb).mpr hp.1), hlater⟩, hlast⟩

theorem settings_run (c : Connection) (history : List Action) :
    (c.run history).sender.settings = c.sender.settings := by
  induction history generalizing c with
  | nil => rfl
  | cons x history ih =>
    rw [run_cons, ih]
    cases x with
    | edit e => rfl
    | update => exact Sender.settings_update ..

/-- Every update is read as it was sent exactly if no stream that another one follows ends in a sync
byte. Then the mirror keeps up throughout, and it is bound to do so at the next update exactly if
the last stream does not end in a sync byte either. -/
theorem in_step_iff_parted (s : Sender) (history : List Action)
    (hm : ((start s).run history).source.get? markerAddress = none)
    (hs : s.settings.endAddress ≠ some markerAddress) :
    (AtUpdates Arrives (start s) history ↔ Parted ((start s).streams history)) ∧
    (Parted ((start s).streams history) →
      AtUpdates KeepsUp (start s) history ∧
      (((start s).run history).Poised ↔ ∀ bytes, ((start s).streams history).getLast? = some bytes →
        bytes.getLast? ≠ some syncByte)) := by
  have hunmarked : ((start s).run history).Unmarked := by
    refine ⟨hm, ?_⟩
    rw [settings_run]
    exact hs
  have hstart := inStep_start s
  rw [← parted_nil_cons]
  refine ⟨arrives_iff_parted hstart hunmarked, ?_⟩
  intro hp
  obtain ⟨hkeeps, hlast⟩ := hstart.run hunmarked hp
  refine ⟨hkeeps, ?_⟩
  rw [hlast.poised_iff hunmarked]
  cases (start s).streams history |>.getLast? with
  | none => simp
  | some bytes => simp

/-- One word with a sync byte for its high byte, sent alone. -/
theorem in_step_until_sync_byte :
    AtUpdates KeepsUp (start { settings := .minimal }) [.edit (.store 0x0010 0x5500), .update] ∧
      ¬ ((start { settings := .minimal }).run
        [.edit (.store 0x0010 0x5500), .update]).Poised := by
  have hstreams : (start { settings := .minimal }).streams
      [.edit (.store 0x0010 0x5500), .update] =
        [[0x55, 0x55, 0x55, 0x55, 0x10, 0x00, 0x02, 0x00, 0x00, 0x55]] := by decide +kernel
  obtain ⟨-, hkeeps⟩ := in_step_iff_parted { settings := .minimal }
    [.edit (.store 0x0010 0x5500), .update] (by decide +kernel) (by decide)
  rw [hstreams] at hkeeps
  obtain ⟨hup, hpoised⟩ := hkeeps (by simp [Parted])
  refine ⟨hup, ?_⟩
  rw [hpoised]
  intro h
  exact absurd (h _ rfl) (by decide)

/-- The mirror has kept the former word; half of the new one went to another address. -/
theorem mirror_misses_word :
    ((start { settings := .minimal }).run [.edit (.store 0x0010 0x5500), .update,
        .edit (.store 0x0010 0x1234), .update]).source.get? markerAddress = none ∧
      Sender.Settings.minimal.endAddress ≠ some markerAddress ∧
      ¬ AtUpdates KeepsUp (start { settings := .minimal }) [.edit (.store 0x0010 0x5500), .update,
        .edit (.store 0x0010 0x1234), .update] := by
  refine ⟨by decide +kernel, by decide, ?_⟩
  intro h
  have hlast := (h [.edit (.store 0x0010 0x5500), .update, .edit (.store 0x0010 0x1234)] []
    rfl).agrees 0x0010
  exact absurd hlast (by decide +kernel)

end WordLink.Connection
