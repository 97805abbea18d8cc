import WordLink.Proofs.UpdateContent

/-!
# An update and its first word

The word at address 0 comes first in every update that it is due in. Nothing else in the update
depends on its value: the spans are laid out by the words behind it.
-/
namespace WordLink

theorem exists_word_ne (x y : Word) : ∃ v : Word, v ≠ x ∧ v ≠ y := by
  by_cases h0 : 0 ≠ x ∧ 0 ≠ y
  · exact ⟨0, h0⟩
  · by_cases h1 : 1 ≠ x ∧ 1 ≠ y
    · exact ⟨1, h1⟩
    · have h01 : (0 : Word) ≠ 1 := by decide
      have h02 : (0 : Word) ≠ 2 := by decide
      have h12 : (1 : Word) ≠ 2 := by decide
      refine ⟨2, ?_⟩
      grind

namespace Memory

variable {a : Address} {m n : Memory}

/-- Memories that differ at most in the value of one changed word. -/
structure Twins (a : Address) (m n : Memory) : Prop where
  left : m.Changed a
  right : n.Changed a
  other : ∀ b, b ≠ a → m.get? b = n.get? b

theorem Twins.word_eq (h : m.Twins a n) {b : Address} (hb : b ≠ a) : m.word b = n.word b := by
  rw [word, word, h.other b hb]

theorem changed_store {data : Word} (h : data ≠ m.word a) : (m.store a data).Changed a := by
  refine ⟨data, ?_⟩
  rw [get?_store, if_pos rfl]
  cases hc : m.get? a with
  | none => rfl
  | some cell =>
    have hd : cell.data ≠ data := by
      rintro rfl
      exact h (by rw [word, hc]; rfl)
    simp [Cell.stored, hd]

theorem twins_store {v w : Word} (hv : v ≠ m.word a) (hw : w ≠ m.word a) :
    (m.store a v).Twins a (m.store a w) := by
  constructor
  · exact changed_store hv
  · exact changed_store hw
  · intro b hb
    rw [get?_store, get?_store, if_neg hb, if_neg hb]

end Memory

namespace Sender

variable {s : Sender} {m n : Memory} {a : Address}

theorem addresses_markEnd_congr (h : m.Twins a n) :
    (s.markEnd m).addresses = (s.markEnd n).addresses := by
  refine Memory.eq_of_ascending (Memory.addresses_ascending _) (Memory.addresses_ascending _) ?_
  intro b
  rw [Memory.mem_addresses_iff, Memory.mem_addresses_iff, get?_markEnd, get?_markEnd]
  by_cases hb : b = a
  · obtain ⟨v, hv⟩ := h.left
    obtain ⟨w, hw⟩ := h.right
    subst hb
    split <;> simp [hv, hw]
  · rw [h.other b hb, h.word_eq hb]

theorem due_congr (h : m.Twins a n) (b : Address) : s.Due m b ↔ s.Due n b := by
  have hchanged : m.Changed b ↔ n.Changed b := by
    by_cases hb : b = a
    · subst hb
      exact iff_of_true h.left h.right
    · rw [Memory.Changed, Memory.Changed, h.other b hb]
  rw [Due, Due, hchanged, Memory.size_eq, Memory.size_eq, addresses_markEnd_congr h]

theorem spans_congr (h : m.Twins 0 n) : s.spans m = s.spans n := by
  have hd : (s.prepare m).dirtyAddresses = (s.prepare n).dirtyAddresses := by
    refine Memory.eq_of_ascending (Memory.dirtyAddresses_ascending _)
      (Memory.dirtyAddresses_ascending _) ?_
    intro b
    rw [mem_dirtyAddresses_prepare, mem_dirtyAddresses_prepare, due_congr h]
  have hasc := (s.prepare n).dirtyAddresses_ascending
  rw [spans, spans, hd]
  cases hl : (s.prepare n).dirtyAddresses with
  | nil => rfl
  | cons b rest =>
    rw [hl] at hasc
    rw [Memory.spans_cons, Memory.spans_cons]
    refine Span.lay_congr (Span.single_sound _ b) (by rwa [Span.single_last]) ?_
    intro c hc
    rw [word_prepare, word_prepare]
    apply h.word_eq
    rintro rfl
    exact absurd hc UInt16.not_lt_zero

/-- The word at address 0 is the first one of the first span. -/
theorem spans_of_due (h : s.Due m 0) : ∃ t spans addresses, s.spans m = t :: spans ∧
    t.address = 0 ∧ t.addresses = 0 :: addresses ∧
    ∀ a ∈ addresses ++ spans.flatMap Span.addresses, a ≠ 0 := by
  have hmem := mem_sent_of_due h
  have hasc := sent_ascending s m
  have hsound := (covers_sent s m).sound
  rw [sent] at hmem hasc
  cases hs : s.spans m with
  | nil => simp [hs] at hmem
  | cons t spans =>
    rw [hs] at hmem hasc hsound
    obtain ⟨addresses, ha⟩ := Span.addresses_eq_cons (hsound t List.mem_cons_self)
    rw [List.flatMap_cons, ha, List.cons_append] at hmem hasc
    have hlt : ∀ b ∈ addresses ++ spans.flatMap Span.addresses, t.address < b :=
      fun b hb => List.rel_of_pairwise_cons hasc hb
    have hzero : t.address = 0 := by
      rcases List.mem_cons.mp hmem with h0 | h0
      · exact h0.symm
      · exact absurd (hlt 0 h0) UInt16.not_lt_zero
    rw [hzero] at ha hlt
    refine ⟨t, spans, addresses, rfl, hzero, ha, ?_⟩
    intro b hb
    exact (UInt16.ne_of_lt (hlt b hb)).symm

/-- Only the two bytes of the first word depend on its value. -/
theorem encode_blocks_store (s : Sender) (m : Memory) : ∃ (count : Word) (rest : List UInt8),
    ∀ v, v ≠ m.word 0 → (s.blocks (m.store 0 v)).flatMap Block.encode =
      Word.bytes 0 ++ (count.bytes ++ (Word.bytes v ++ rest)) := by
  obtain ⟨w, hw, -⟩ := exists_word_ne (m.word 0) 0
  have hdue : s.Due (m.store 0 w) 0 := Or.inl (Memory.changed_store hw)
  obtain ⟨t, spans, addresses, hs, ht, ha, hne⟩ := spans_of_due hdue
  refine ⟨UInt16.ofNat (2 * (addresses.length + 1)),
    addresses.flatMap (fun a => (m.word a).bytes) ++
      (spans.map fun u => u.block m).flatMap Block.encode, ?_⟩
  intro v hv
  have hword (b : Address) : (s.prepare (m.store 0 v)).word b = if b = 0 then v else m.word b := by
    rw [word_prepare, Memory.word_store]
  have hlater : ∀ u ∈ spans, u.block (s.prepare (m.store 0 v)) = u.block m := by
    intro u hu
    refine congrArg (Block.mk u.address) (List.map_congr_left ?_)
    intro b hb
    rw [hword, if_neg (hne b (List.mem_append_right _ (List.mem_flatMap.mpr ⟨u, hu, hb⟩)))]
  have hfirst : t.block (s.prepare (m.store 0 v)) = ⟨0, v :: addresses.map m.word⟩ := by
    rw [Span.block, ht, ha, List.map_cons, hword, if_pos rfl]
    refine congrArg (fun ws => Block.mk 0 (v :: ws)) (List.map_congr_left ?_)
    intro b hb
    rw [hword, if_neg (hne b (List.mem_append_left _ hb))]
  rw [blocks, spans_congr (Memory.twins_store hv hw), hs, List.map_cons, hfirst,
    List.map_congr_left hlater, List.flatMap_cons]
  simp [Block.encode, Header.encode, Block.header, Header.forWords, List.flatMap_map]

end Sender

end WordLink
