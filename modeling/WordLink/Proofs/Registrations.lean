import WordLink.Event
import WordLink.Roster

/-!
# Registrations over time

A roster changes by registrations made and taken out, nothing else. New ones get new numbers and
come behind all others; so a registration that has been taken out never comes back
(`Becomes.old_or_new`), and the order of the list is the order in which they were made (`Numbered`).
-/
namespace WordLink.Roster

variable {κ : Type} {r q : Roster κ}

theorem mem_registrations {first : RegistrationId} {addresses : List Address} {k : κ}
    {e : WordRegistration κ} (h : e ∈ registrations first addresses k) :
    first ≤ e.id ∧ e.id < first + addresses.length ∧ e.listener = k := by
  obtain ⟨⟨a, id⟩, hm, rfl⟩ := List.mem_map.mp h
  obtain ⟨hle, hlt, -⟩ := List.mem_zipIdx hm
  exact ⟨hle, hlt, rfl⟩

theorem registrations_ascending (first : RegistrationId) (addresses : List Address) (k : κ) :
    (registrations first addresses k).Pairwise (·.id < ·.id) := by
  rw [registrations, List.pairwise_map]
  refine List.pairwise_iff_getElem.mpr fun i j hi hj hij => ?_
  rw [List.getElem_zipIdx, List.getElem_zipIdx]
  exact Nat.add_lt_add_left hij first

/-- What has none of the keys is left when they are taken out one after the other. -/
theorem filter_ne_filter_not_mem {ε : Type} {key : ε → Nat} {k : Nat} {ks ls : List Nat}
    (hls : ∀ j, j ∈ ls ↔ j = k ∨ j ∈ ks) (entries : List ε) :
    (entries.filter (key · != k)).filter (key · ∉ ks) = entries.filter (key · ∉ ls) := by
  rw [List.filter_filter]
  refine List.filter_congr fun e _ => ?_
  rw [Bool.eq_iff_iff]
  simp [hls, and_comm]

/-- The registrations that an event concerns, with their numbers. -/
def entriesFor (r : Roster κ) : Event → List (RegistrationId × κ)
  | .word address _ => (r.words.filter (·.address == address)).map fun e => (e.id, e.listener)
  | .boundary => r.boundaries.map fun e => (e.id, e.listener)

/-- Registrations have been taken out, and nothing else has happened. -/
structure Thinned (r q : Roster κ) : Prop where
  words : q.words.Sublist r.words
  boundaries : q.boundaries.Sublist r.boundaries
  nextId : q.nextId = r.nextId

theorem thinned_unsubscribe (r : Roster κ) (id : RegistrationId) : r.Thinned (r.unsubscribe id) :=
  ⟨List.filter_sublist, List.Sublist.refl _, rfl⟩

theorem thinned_unsubscribeBoundary (r : Roster κ) (id : RegistrationId) :
    r.Thinned (r.unsubscribeBoundary id) :=
  ⟨List.Sublist.refl _, List.filter_sublist, rfl⟩

theorem thinned_unsubscribeRun (r : Roster κ) (first count : Nat) :
    r.Thinned (r.unsubscribeRun first count) :=
  ⟨List.filter_sublist, List.Sublist.refl _, rfl⟩

/-- The one roster has come of the other by registrations made and taken out. -/
inductive Becomes (r : Roster κ) : Roster κ → Prop where
  | same : Becomes r r
  | subscribeAll {q : Roster κ} (h : Becomes r q) (addresses : List Address) (listener : κ) :
      Becomes r (q.subscribeAll addresses listener)
  | subscribeBoundary {q : Roster κ} (h : Becomes r q) (listener : κ) :
      Becomes r (q.subscribeBoundary listener)
  | thinned {q q' : Roster κ} (h : Becomes r q) (ht : q.Thinned q') : Becomes r q'

theorem Becomes.trans {p : Roster κ} (h : r.Becomes q) (h' : q.Becomes p) : r.Becomes p := by
  induction h' with
  | same => exact h
  | subscribeAll _ addresses listener ih => exact ih.subscribeAll addresses listener
  | subscribeBoundary _ listener ih => exact ih.subscribeBoundary listener
  | thinned _ ht ih => exact ih.thinned ht

theorem Becomes.nextId_le (h : r.Becomes q) : r.nextId ≤ q.nextId := by
  induction h with
  | same => exact Nat.le_refl _
  | subscribeAll _ _ _ ih => exact Nat.le_trans ih (Nat.le_add_right _ _)
  | subscribeBoundary _ _ ih => exact Nat.le_trans ih (Nat.le_succ _)
  | thinned _ ht ih => exact Nat.le_trans ih (Nat.le_of_eq ht.nextId.symm)

theorem mem_entriesFor_subscribeAll {addresses : List Address} {k : κ} {event : Event}
    {e : RegistrationId × κ} (h : e ∈ (r.subscribeAll addresses k).entriesFor event) :
    e ∈ r.entriesFor event ∨ r.nextId ≤ e.1 := by
  cases event with
  | word a data =>
    obtain ⟨entry, hentry, rfl⟩ := List.mem_map.mp h
    obtain ⟨hmem, ha⟩ := List.mem_filter.mp hentry
    rcases List.mem_append.mp hmem with hold | hnew
    · exact Or.inl (List.mem_map.mpr ⟨entry, List.mem_filter.mpr ⟨hold, ha⟩, rfl⟩)
    · exact Or.inr (mem_registrations hnew).1
  | boundary => exact Or.inl h

theorem mem_entriesFor_subscribeBoundary {k : κ} {event : Event} {e : RegistrationId × κ}
    (h : e ∈ (r.subscribeBoundary k).entriesFor event) :
    e ∈ r.entriesFor event ∨ r.nextId ≤ e.1 := by
  cases event with
  | word a data => exact Or.inl h
  | boundary =>
    obtain ⟨entry, hentry, rfl⟩ := List.mem_map.mp h
    rcases List.mem_append.mp hentry with hold | hnew
    · exact Or.inl (List.mem_map.mpr ⟨entry, hold, rfl⟩)
    · rw [List.mem_singleton.mp hnew]
      exact Or.inr (Nat.le_refl _)

theorem Thinned.entriesFor (h : r.Thinned q) (event : Event) :
    (q.entriesFor event).Sublist (r.entriesFor event) := by
  cases event with
  | word a data => exact (h.words.filter _).map _
  | boundary => exact h.boundaries.map _

/-- A registration has been there before or has a number that had not been given out yet. -/
theorem Becomes.old_or_new (h : r.Becomes q) {event : Event} {e : RegistrationId × κ}
    (he : e ∈ q.entriesFor event) : e ∈ r.entriesFor event ∨ r.nextId ≤ e.1 := by
  induction h with
  | same => exact Or.inl he
  | subscribeAll h _ _ ih =>
    exact (mem_entriesFor_subscribeAll he).elim ih fun hn => Or.inr (Nat.le_trans h.nextId_le hn)
  | subscribeBoundary h _ ih =>
    exact (mem_entriesFor_subscribeBoundary he).elim ih
      fun hn => Or.inr (Nat.le_trans h.nextId_le hn)
  | thinned _ ht ih => exact ih ((ht.entriesFor event).subset he)

/-- Numbers in use have been given out, and in the order of the lists. -/
structure Numbered (r : Roster κ) : Prop where
  words_given : ∀ e ∈ r.words, e.id < r.nextId
  boundaries_given : ∀ e ∈ r.boundaries, e.id < r.nextId
  words_ascending : r.words.Pairwise (·.id < ·.id)
  boundaries_ascending : r.boundaries.Pairwise (·.id < ·.id)

theorem numbered_new : ({} : Roster κ).Numbered := by
  constructor <;> simp

theorem Numbered.thinned (h : r.Numbered) (ht : r.Thinned q) : q.Numbered := by
  constructor
  · exact fun e he => ht.nextId ▸ h.words_given e (ht.words.subset he)
  · exact fun e he => ht.nextId ▸ h.boundaries_given e (ht.boundaries.subset he)
  · exact h.words_ascending.sublist ht.words
  · exact h.boundaries_ascending.sublist ht.boundaries

theorem Numbered.subscribeAll (h : r.Numbered) (addresses : List Address) (k : κ) :
    (r.subscribeAll addresses k).Numbered := by
  constructor
  · intro e he
    rcases List.mem_append.mp he with hold | hnew
    · exact Nat.lt_of_lt_of_le (h.words_given e hold) (Nat.le_add_right _ _)
    · exact (mem_registrations hnew).2.1
  · exact fun e he => Nat.lt_of_lt_of_le (h.boundaries_given e he) (Nat.le_add_right _ _)
  · refine List.pairwise_append.mpr ⟨h.words_ascending, registrations_ascending .., ?_⟩
    exact fun e he f hf => Nat.lt_of_lt_of_le (h.words_given e he) (mem_registrations hf).1
  · exact h.boundaries_ascending

theorem Numbered.subscribeBoundary (h : r.Numbered) (k : κ) : (r.subscribeBoundary k).Numbered := by
  constructor
  · exact fun e he => Nat.lt_succ_of_lt (h.words_given e he)
  · intro e he
    rcases List.mem_append.mp he with hold | hnew
    · exact Nat.lt_succ_of_lt (h.boundaries_given e hold)
    · rw [List.mem_singleton.mp hnew]
      exact Nat.lt_succ_self _
  · exact h.words_ascending
  · refine List.pairwise_append.mpr ⟨h.boundaries_ascending, List.pairwise_singleton .., ?_⟩
    intro e he f hf
    rw [List.mem_singleton.mp hf]
    exact h.boundaries_given e he

theorem Becomes.numbered (h : r.Becomes q) (hr : r.Numbered) : q.Numbered := by
  induction h with
  | same => exact hr
  | subscribeAll _ addresses listener ih => exact ih.subscribeAll addresses listener
  | subscribeBoundary _ listener ih => exact ih.subscribeBoundary listener
  | thinned _ ht ih => exact ih.thinned ht

theorem Numbered.entriesFor_given (h : r.Numbered) {event : Event} {e : RegistrationId × κ}
    (he : e ∈ r.entriesFor event) : e.1 < r.nextId := by
  cases event with
  | word a data =>
    obtain ⟨entry, hentry, rfl⟩ := List.mem_map.mp he
    exact h.words_given entry (List.mem_filter.mp hentry).1
  | boundary =>
    obtain ⟨entry, hentry, rfl⟩ := List.mem_map.mp he
    exact h.boundaries_given entry hentry

theorem Numbered.entriesFor_ascending (h : r.Numbered) (event : Event) :
    (r.entriesFor event).Pairwise (·.1 < ·.1) := by
  cases event with
  | word a data => exact List.pairwise_map.mpr (h.words_ascending.filter _)
  | boundary => exact List.pairwise_map.mpr h.boundaries_ascending

/-- What has been taken out stays out. -/
theorem Becomes.not_mem_of_not_mem {p : Roster κ} (hr : r.Numbered) (h : r.Becomes q)
    (h' : q.Becomes p) {event : Event} {e : RegistrationId × κ} (hin : e ∈ r.entriesFor event)
    (hout : e ∉ q.entriesFor event) : e ∉ p.entriesFor event := by
  intro hp
  rcases h'.old_or_new hp with hq | hnew
  · exact hout hq
  · have hlt := hr.entriesFor_given hin
    exact absurd (Nat.le_trans h.nextId_le hnew) (Nat.not_le_of_lt hlt)

end WordLink.Roster
