import WordLink.Proofs.Contents
import WordLink.Proofs.Frames
import WordLink.Proofs.Refresh
import WordLink.Proofs.RoundTrip

/-!
# What an update leaves behind

An update takes nothing from the memory it is made from. The word that ends it comes into being if
it was not there, and nothing is flagged any more; where nothing was due the memory is as it was
(`update_effect`).
-/
namespace WordLink

namespace Memory

variable {m : Memory}

theorem settle_eq_self (h : ∀ a, ¬ m.Changed a) : m.settle = m := by
  refine ext_get? fun a => ?_
  have hclean := h a
  rw [changed_iff] at hclean
  rw [get?_settle]
  rcases hget : m.get? a with _ | ⟨data, dirty⟩
  · rfl
  · simpa [hget] using hclean

theorem isEmpty_iff_size : m.isEmpty = true ↔ m.size = 0 := by
  rw [isEmpty, beq_iff_eq]

theorem dirtyCount_eq_zero_iff : m.dirtyCount = 0 ↔ ∀ a, ¬ m.Changed a := by
  rw [dirtyCount_eq_countP, List.countP_eq_zero]
  constructor
  · intro h a
    rw [changed_iff]
    exact h a (mem_allAddresses a)
  · intro h a _
    rw [← changed_iff]
    exact h a

theorem store_eq_self {a : Address} {data : Word} (h : (m.get? a).map Cell.data = some data) :
    m.store a data = m := by
  obtain ⟨cell, hcell, rfl⟩ := Option.map_eq_some_iff.mp h
  refine ext_get? fun b => ?_
  rw [get?_store]
  split
  · rename_i hb
    simp [hb, hcell, Cell.stored]
  · rfl

/-- Words that are stored as they are held already. -/
def Restores (m : Memory) (words : List (Address × Word)) : Prop :=
  ∀ e ∈ words, (m.get? e.1).map Cell.data = some e.2

instance (m : Memory) (words : List (Address × Word)) : Decidable (m.Restores words) :=
  List.decidableBAll (fun e : Address × Word => (m.get? e.1).map Cell.data = some e.2) words

theorem foldl_store_eq_self {words : List (Address × Word)} (h : m.Restores words) :
    words.foldl (fun n e => n.store e.1 e.2) m = m := by
  induction words with
  | nil => rfl
  | cons e words ih =>
    obtain ⟨hfirst, hrest⟩ := List.forall_mem_cons.mp h
    rw [List.foldl_cons, store_eq_self hfirst]
    exact ih hrest

end Memory

namespace Sender

variable {s : Sender} {m : Memory}

/-! ### When nothing is due -/

theorem markEnd_of_none (h : s.settings.endAddress = none) : s.markEnd m = m := by
  rw [markEnd, h]

theorem positions_eq_nil_iff {size : Nat} :
    s.positions size = [] ↔ size = 0 ∨ s.settings.refreshCount = 0 := by
  rw [← List.length_eq_zero_iff, length_positions, turns]
  omega

/-- A turn is some word's turn. -/
theorem exists_due_of_turn (h : s.positions (s.markEnd m).size ≠ []) : ∃ a, s.Due m a := by
  obtain ⟨i, hi⟩ := List.exists_mem_of_ne_nil _ h
  have hlt := lt_of_mem_positions hi
  rw [Memory.size_eq] at hlt
  exact ⟨(s.markEnd m).addresses[i], Or.inr (Or.inr ⟨i, hi, List.getElem?_eq_getElem hlt⟩)⟩

theorem forall_not_due_iff : (∀ a, ¬ s.Due m a) ↔
    s.settings.endAddress = none ∧ (∀ a, ¬ m.Changed a) ∧
      (m.isEmpty = true ∨ s.settings.refreshCount = 0) := by
  rw [Memory.isEmpty_iff_size]
  constructor
  · intro h
    have hend : s.settings.endAddress = none :=
      Option.eq_none_iff_forall_ne_some.mpr fun a ha => h a (Or.inr (Or.inl ha))
    refine ⟨hend, fun a ha => h a (Or.inl ha), ?_⟩
    have hturn : s.positions (s.markEnd m).size = [] := by
      apply Decidable.byContradiction
      intro hne
      obtain ⟨a, ha⟩ := exists_due_of_turn hne
      exact h a ha
    rwa [markEnd_of_none hend, positions_eq_nil_iff] at hturn
  · rintro ⟨hend, hclean, hturn⟩ a (ha | ha | ⟨i, hi, -⟩)
    · exact hclean a ha
    · simp [hend] at ha
    · rw [markEnd_of_none hend, positions_eq_nil_iff.mpr hturn] at hi
      cases hi

theorem update_bytes_eq_nil_iff : (s.update m).bytes = [] ↔ ∀ a, ¬ s.Due m a := by
  constructor
  · intro h
    refine not_due_of_nil (Decidable.byContradiction fun hne => ?_)
    rw [update_bytes hne] at h
    cases h
  · intro h
    apply update_bytes_of_nil
    rw [blocks, List.map_eq_nil_iff, List.eq_nil_iff_forall_not_mem]
    exact fun t ht => h _ (due_of_mem_spans ht)

theorem update_memory_of_not_due (h : ∀ a, ¬ s.Due m a) : (s.update m).memory = m := by
  obtain ⟨hend, hclean, -⟩ := forall_not_due_iff.mp h
  refine Memory.ext_get? fun a => ?_
  rw [Memory.contents_update, Contents.update, hend, ← Memory.contents_settle,
    Memory.settle_eq_self hclean]
  simp

/-! ### The memory after an update -/

theorem get?_update (s : Sender) (m : Memory) (a : Address) : (s.update m).memory.get? a =
    if m.get? a ≠ none ∨ s.settings.endAddress = some a then some ⟨m.word a, false⟩ else none := by
  rw [Memory.contents_update, Contents.update]
  by_cases hend : s.settings.endAddress = some a
  · simp [hend, Contents.word, Memory.word]
  · cases hget : m.get? a <;> simp [hend, hget, Contents.settle, Memory.word]

theorem not_changed_update (s : Sender) (m : Memory) (a : Address) :
    ¬ (s.update m).memory.Changed a :=
  Memory.not_changed_settle a

/-- With nothing to add and no turns to take only a change is due. -/
theorem not_due_of_minimal (h : s.settings = .minimal) (hclean : ∀ a, ¬ m.Changed a) :
    ∀ a, ¬ s.Due m a :=
  forall_not_due_iff.mpr ⟨by rw [h]; rfl, hclean, Or.inr (by rw [h]; rfl)⟩

/-- After an update the memory holds the words it held, and the end word, 0 if it was not there,
and no other; none of them is flagged. The update is empty just where there is no end word, nothing
was flagged and no word had a turn, and then the memory is as it was. So a sender that adds nothing
has nothing to say, and nothing to do, when all that has happened since its last update is that
words have been stored again as they were. -/
theorem update_effect (s : Sender) (m : Memory) :
    (∀ a, (s.update m).memory.get? a =
      if m.get? a ≠ none ∨ s.settings.endAddress = some a then some ⟨m.word a, false⟩
      else none) ∧
    (s.update m).memory.dirtyCount = 0 ∧
    ((s.update m).bytes = [] ↔ s.settings.endAddress = none ∧ m.dirtyCount = 0 ∧
      (m.isEmpty = true ∨ s.settings.refreshCount = 0)) ∧
    ((s.update m).bytes = [] → (s.update m).memory = m) ∧
    (s.settings = .minimal →
      ∀ words : List (Address × Word), (s.update m).memory.Restores words →
        let restored := words.foldl (fun n e => n.store e.1 e.2) (s.update m).memory
        restored = (s.update m).memory ∧ ((s.update m).sender.update restored).bytes = [] ∧
          ((s.update m).sender.update restored).memory = restored) := by
  refine ⟨get?_update s m, ?_, ?_, ?_, ?_⟩
  · exact Memory.dirtyCount_eq_zero_iff.mpr (not_changed_update s m)
  · rw [update_bytes_eq_nil_iff, forall_not_due_iff, Memory.dirtyCount_eq_zero_iff]
  · intro h
    exact update_memory_of_not_due (update_bytes_eq_nil_iff.mp h)
  · intro hminimal words hwords
    have hsame := Memory.foldl_store_eq_self hwords
    have hquiet := not_due_of_minimal (s := (s.update m).sender)
      ((settings_update s m).trans hminimal) (not_changed_update s m)
    refine ⟨hsame, ?_, ?_⟩
    · rw [hsame]
      exact update_bytes_eq_nil_iff.mpr hquiet
    · rw [hsame]
      exact update_memory_of_not_due hquiet

/-- Two changed words are sent; stored again, one of them twice, they are not. -/
theorem update_effect_restored :
    let s : Sender := { settings := .minimal, cursor := 3 }
    let m : Memory := (Memory.empty.store 0x0010 7).store 0x0020 0
    let words : List (Address × Word) := [(0x0020, 0), (0x0010, 7), (0x0020, 0)]
    let restored := words.foldl (fun n e => n.store e.1 e.2) (s.update m).memory
    s.settings = .minimal ∧ (s.update m).memory.Restores words ∧
      ((s.update m).sender.update restored).bytes = [] ∧
      ((s.update m).sender.update restored).memory = restored := by
  intro s m words restored
  have hwords : (s.update m).memory.Restores words := by decide +kernel
  have hquiet := ((update_effect s m).2.2.2.2 rfl words hwords).2.1
  exact ⟨rfl, hwords, hquiet, (update_effect (s.update m).sender restored).2.2.2.1 hquiet⟩

end Sender

end WordLink
