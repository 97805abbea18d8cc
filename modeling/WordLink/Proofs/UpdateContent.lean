import WordLink.Memory.Lemmas
import WordLink.Proofs.SpanLayout
import WordLink.Sender

/-!
# What an update carries

An update is due to carry the changed words, the end word and the words whose turn it is. Its
spans cover these and perhaps words in between, in order; no word changes its value by being sent.
-/
namespace WordLink

namespace Sender

variable {s : Sender} {m : Memory}

/-- The word has changed, ends the update or takes its turn in it. -/
def Due (s : Sender) (m : Memory) (a : Address) : Prop :=
  m.Changed a ∨ s.settings.endAddress = some a ∨
    ∃ i ∈ s.positions (s.markEnd m).size, (s.markEnd m).addresses[i]? = some a

def spans (s : Sender) (m : Memory) : List Span :=
  (s.prepare m).spans s.settings.mergeGap (s.prepare m).dirtyAddresses

def sent (s : Sender) (m : Memory) : List Address := (s.spans m).flatMap Span.addresses

def blocks (s : Sender) (m : Memory) : List Block :=
  (s.spans m).map fun t => t.block (s.prepare m)

theorem word_markEnd (s : Sender) (m : Memory) (a : Address) : (s.markEnd m).word a = m.word a := by
  unfold markEnd
  split
  · exact Memory.word_mark ..
  · rfl

theorem get?_markEnd (s : Sender) (m : Memory) (a : Address) :
    (s.markEnd m).get? a =
      if s.settings.endAddress = some a then some ⟨m.word a, true⟩ else m.get? a := by
  unfold markEnd
  split
  · rename_i e he
    rw [Memory.get?_mark, he]
    by_cases h : a = e
    · simp [h]
    · simp [h, Ne.symm h]
  · rename_i he
    simp [he]

theorem get?_foldl_markAt (m : Memory) (positions : List Nat) (a : Address) :
    (positions.foldl Memory.markAt m).get? a =
      if ∃ i ∈ positions, m.addresses[i]? = some a then some ⟨m.word a, true⟩ else m.get? a := by
  induction positions generalizing m with
  | nil => simp
  | cons i positions ih =>
    rw [List.foldl_cons, ih, Memory.addresses_markAt, Memory.word_markAt, Memory.get?_markAt]
    by_cases hi : m.addresses[i]? = some a
    · simp [hi]
    · simp [hi]

theorem word_foldl_markAt (m : Memory) (positions : List Nat) (a : Address) :
    (positions.foldl Memory.markAt m).word a = m.word a := by
  induction positions generalizing m with
  | nil => rfl
  | cons i positions ih => rw [List.foldl_cons, ih, Memory.word_markAt]

theorem word_prepare (s : Sender) (m : Memory) (a : Address) : (s.prepare m).word a = m.word a := by
  rw [prepare, word_foldl_markAt, word_markEnd]

theorem mem_dirtyAddresses_prepare (s : Sender) (m : Memory) (a : Address) :
    a ∈ (s.prepare m).dirtyAddresses ↔ s.Due m a := by
  rw [Memory.mem_dirtyAddresses_iff, Memory.Changed, prepare, get?_foldl_markAt, get?_markEnd,
    word_markEnd, Due, Memory.Changed]
  by_cases hturn : ∃ i ∈ s.positions (s.markEnd m).size, (s.markEnd m).addresses[i]? = some a
  · simp [hturn]
  · by_cases hend : s.settings.endAddress = some a
    · simp [hend]
    · simp [hturn, hend]

theorem word_update (s : Sender) (m : Memory) (a : Address) :
    (s.update m).memory.word a = m.word a := by
  rw [update, Memory.word_settle, word_prepare]

theorem settings_update (s : Sender) (m : Memory) :
    (s.update m).sender.settings = s.settings := by
  rw [update, takeTurns]
  split <;> rfl

theorem get?_of_update {a : Address} (h : (s.update m).memory.get? a = none) :
    m.get? a = none := by
  rw [update, Memory.get?_settle, Option.map_eq_none_iff, prepare, get?_foldl_markAt] at h
  split at h
  · cases h
  · rw [get?_markEnd] at h
    split at h
    · cases h
    · exact h

theorem covers_sent (s : Sender) (m : Memory) :
    (s.prepare m).Covers (s.spans m) (s.prepare m).dirtyAddresses :=
  Memory.covers_spans _ _ (Memory.dirtyAddresses_ascending _)

theorem due_of_mem_spans {t : Span} (ht : t ∈ s.spans m) : s.Due m t.address :=
  (mem_dirtyAddresses_prepare s m _).mp ((covers_sent s m).starts t ht)

theorem mem_sent_of_due {a : Address} (h : s.Due m a) : a ∈ s.sent m :=
  (covers_sent s m).covers a ((mem_dirtyAddresses_prepare s m a).mpr h)

theorem sent_ascending (s : Sender) (m : Memory) : (s.sent m).Pairwise (· < ·) :=
  (covers_sent s m).ascending

/-- A word that is due is there or is about to be. -/
theorem Due.stored {a : Address} (h : s.Due m a) :
    m.get? a ≠ none ∨ s.settings.endAddress = some a := by
  rcases h with ⟨data, h⟩ | h | ⟨i, -, h⟩
  · exact Or.inl (by simp [h])
  · exact Or.inr h
  · have hm := (Memory.mem_addresses_iff ..).mp (List.mem_of_getElem? h)
    rw [get?_markEnd] at hm
    by_cases he : s.settings.endAddress = some a
    · exact Or.inr he
    · rw [if_neg he] at hm
      exact Or.inl hm

/-- No word at the marker address, and none to be made there. -/
def Unmarked (s : Sender) (m : Memory) : Prop :=
  m.get? markerAddress = none ∧ s.settings.endAddress ≠ some markerAddress

theorem blocks_safe (h : s.Unmarked m) : ∀ b ∈ s.blocks m, b.Safe := by
  intro b hb
  obtain ⟨t, ht, rfl⟩ := List.mem_map.mp hb
  refine Span.block_safe ((covers_sent s m).sound t ht) ?_
  intro he
  have hd := due_of_mem_spans ht
  rw [he] at hd
  exact hd.stored.elim (fun hs => hs h.1) h.2

theorem blocks_events (s : Sender) (m : Memory) :
    (s.blocks m).flatMap Block.events = (s.sent m).map fun a => .word a (m.word a) := by
  simp only [blocks, sent, List.flatMap_map, List.map_flatMap, Span.block_events, word_prepare]

theorem update_bytes_of_nil (h : s.blocks m = []) : (s.update m).bytes = [] := by
  have hd : (s.prepare m).dirtyBlocks s.settings.mergeGap = [] := h
  simp [update, stream, hd]

theorem update_bytes (h : s.blocks m ≠ []) :
    (s.update m).bytes = syncSequence ++ (s.blocks m).flatMap Block.encode := by
  have hd : (s.prepare m).dirtyBlocks s.settings.mergeGap = s.blocks m := rfl
  rw [update, stream, hd]
  split
  · contradiction
  · rfl

end Sender

end WordLink
