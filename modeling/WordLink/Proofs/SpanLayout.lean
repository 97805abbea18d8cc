import WordLink.Proofs.BlockDecoding

/-!
# The layout of an update

`Span.lay` is the layout by recursion on the changed addresses. The spans it yields are sound:
they stay inside the address space and carry the sync word in front at most. One behind the other
they ascend, and every changed address is among them. Wherever in the changed addresses the layout
has come to, the span under way ends there (`exists_spans_append`).
-/
namespace WordLink

namespace Span

variable {m : Memory} {gap : Word} {s : Span}

/-- The spans from one under way on, with the changed addresses that are still to be placed. -/
def lay (m : Memory) (gap : Word) : Span → List Address → List Span
  | s, [] => [s]
  | s, a :: rest =>
    if s.joins m gap a then lay m gap (s.upTo a) rest else s :: lay m gap (single a) rest

/-- What a span must be for its block to be told from its surroundings. -/
structure Sound (m : Memory) (s : Span) : Prop where
  pos : 0 < s.count
  short : s.count ≤ maxBlockWords
  inside : s.address.toNat + 2 * (s.count - 1) < 65536
  clear : ∀ i, 0 < i → i < s.count → m.word (s.wordAddress i) ≠ syncWord

theorem toNat_wordAddress {i : Nat} (h : s.address.toNat + 2 * i < 65536) :
    (s.wordAddress i).toNat = s.address.toNat + 2 * i := by
  rw [wordAddress, UInt16.toNat_add, UInt16.toNat_ofNat']
  omega

theorem Sound.toNat_wordAddress (h : s.Sound m) {i : Nat} (hi : i < s.count) :
    (s.wordAddress i).toNat = s.address.toNat + 2 * i := by
  have := h.inside
  exact Span.toNat_wordAddress (by omega)

theorem Sound.toNat_last (h : s.Sound m) : s.last.toNat = s.address.toNat + 2 * (s.count - 1) :=
  Span.toNat_wordAddress h.inside

theorem mem_addresses {a : Address} : a ∈ s.addresses ↔ ∃ i < s.count, s.wordAddress i = a := by
  simp [addresses]

theorem joins_iff {a : Address} : s.joins m gap a = true ↔
    s.gapTo a % 2 = 0 ∧ s.gapTo a ≤ gap.toNat ∧ s.count + s.gapTo a / 2 ≤ maxBlockWords ∧
      ∀ i < s.gapTo a / 2, m.word (s.wordAddress (s.count + i)) ≠ syncWord := by
  simp [joins, fill, and_assoc]

theorem single_sound (m : Memory) (a : Address) : (single a).Sound m := by
  have := a.toNat_lt
  constructor
  · exact Nat.one_pos
  · exact (by decide : 1 ≤ maxBlockWords)
  · simpa [single] using this
  · intro i hi hlt
    simp only [single] at hlt
    omega

theorem single_last (a : Address) : (single a).last = a := by
  simp [single, last, wordAddress]

/-- Stretching a span keeps it sound and makes the changed address its last. -/
theorem upTo_sound (h : s.Sound m) {a : Address} (hlt : s.last < a)
    (hj : s.joins m gap a = true) : (s.upTo a).Sound m ∧ (s.upTo a).last = a := by
  obtain ⟨heven, -, hshort, hclear⟩ := joins_iff.mp hj
  have hpos := h.pos
  have hlast := h.toNat_last
  have hgap : s.gapTo a = a.toNat - s.last.toNat := rfl
  have hlt := UInt16.lt_iff_toNat_lt.mp hlt
  have ha := a.toNat_lt
  have hend : s.address.toNat + 2 * (s.count + s.gapTo a / 2 - 1) = a.toNat := by omega
  constructor
  · constructor
    · exact Nat.lt_of_lt_of_le hpos (Nat.le_add_right _ _)
    · exact hshort
    · simp only [upTo, hend]
      exact ha
    · intro i hi hlt
      simp only [upTo] at hlt
      by_cases hold : i < s.count
      · exact h.clear i hi hold
      · have hnew := hclear (i - s.count) (by omega)
        rwa [Nat.add_sub_cancel' (by omega)] at hnew
  · apply UInt16.toNat_inj.mp
    have : ((s.upTo a).wordAddress (s.count + s.gapTo a / 2 - 1)).toNat = a.toNat := by
      rw [Span.toNat_wordAddress] <;> simp only [upTo, hend]
      exact ha
    exact this

theorem last_mem (h : s.Sound m) : s.last ∈ s.addresses := by
  have := h.pos
  exact mem_addresses.mpr ⟨s.count - 1, by omega, rfl⟩

theorem addresses_eq_cons (h : s.Sound m) : ∃ rest, s.addresses = s.address :: rest := by
  obtain ⟨k, hk⟩ := Nat.exists_eq_succ_of_ne_zero (Nat.ne_of_gt h.pos)
  rw [addresses, hk, List.range_succ_eq_map, List.map_cons]
  exact ⟨_, congrArg (· :: _) (UInt16.add_zero s.address)⟩

theorem Sound.address_mem (h : s.Sound m) : s.address ∈ s.addresses := by
  obtain ⟨rest, hrest⟩ := addresses_eq_cons h
  rw [hrest]
  exact List.mem_cons_self

theorem getLast?_addresses (h : s.Sound m) : s.addresses.getLast? = some s.last := by
  obtain ⟨k, hk⟩ := Nat.exists_eq_succ_of_ne_zero (Nat.ne_of_gt h.pos)
  rw [addresses, List.getLast?_map, last, hk, List.range_succ, List.getLast?_concat]
  rfl

theorem mem_upTo {a b : Address} (h : b ∈ s.addresses) : b ∈ (s.upTo a).addresses := by
  obtain ⟨i, hi, rfl⟩ := mem_addresses.mp h
  exact mem_addresses.mpr ⟨i, Nat.lt_of_lt_of_le hi (Nat.le_add_right _ _), rfl⟩

theorem addresses_ascending (h : s.Sound m) : s.addresses.Pairwise (· < ·) := by
  rw [addresses, List.pairwise_map]
  refine List.pairwise_lt_range.imp_of_mem ?_
  intro i j hi hj hij
  rw [UInt16.lt_iff_toNat_lt, h.toNat_wordAddress (List.mem_range.mp hi),
    h.toNat_wordAddress (List.mem_range.mp hj)]
  omega

theorem between_of_mem (h : s.Sound m) {a : Address} (ha : a ∈ s.addresses) :
    s.address ≤ a ∧ a ≤ s.last := by
  obtain ⟨i, hi, rfl⟩ := mem_addresses.mp ha
  rw [UInt16.le_iff_toNat_le, UInt16.le_iff_toNat_le, h.toNat_last, h.toNat_wordAddress hi]
  omega

theorem upTo_placed (h : s.Sound m) {a : Address} {rest : List Address}
    (ha : (s.last :: a :: rest).Pairwise (· < ·)) (hj : s.joins m gap a = true) :
    (s.upTo a).Sound m ∧ a ∈ (s.upTo a).addresses ∧ ((s.upTo a).last :: rest).Pairwise (· < ·) := by
  obtain ⟨hs, hl⟩ := upTo_sound h (List.rel_of_pairwise_cons ha List.mem_cons_self) hj
  have hmem := last_mem hs
  rw [hl] at hmem ⊢
  exact ⟨hs, hmem, ha.tail⟩

theorem single_mem (a : Address) : a ∈ (single a).addresses := by
  have hmem := last_mem (single_sound {} a)
  rwa [single_last] at hmem

theorem single_placed {a : Address} {rest : List Address}
    (ha : (s.last :: a :: rest).Pairwise (· < ·)) :
    ((single a).last :: rest).Pairwise (· < ·) := by
  rw [single_last]
  exact ha.tail

theorem lay_sound {rest : List Address} (h : s.Sound m)
    (ha : (s.last :: rest).Pairwise (· < ·)) : ∀ t ∈ lay m gap s rest, t.Sound m := by
  induction rest generalizing s with
  | nil =>
    intro t ht
    rw [lay, List.mem_singleton] at ht
    exact ht ▸ h
  | cons a rest ih =>
    intro t ht
    rw [lay] at ht
    split at ht
    · rename_i hj
      obtain ⟨hs, -, hrest⟩ := upTo_placed h ha hj
      exact ih hs hrest t ht
    · rcases List.mem_cons.mp ht with rfl | ht
      · exact h
      · exact ih (single_sound m a) (single_placed ha) t ht

theorem lay_address {rest : List Address} :
    ∀ t ∈ lay m gap s rest, t.address ∈ s.address :: rest := by
  induction rest generalizing s with
  | nil => simp [lay]
  | cons a rest ih =>
    intro t ht
    rw [lay] at ht
    split at ht
    · have := ih t ht
      simp only [upTo, List.mem_cons] at this ⊢
      exact this.imp_right Or.inr
    · rcases List.mem_cons.mp ht with rfl | ht
      · exact List.mem_cons_self
      · exact List.mem_cons_of_mem _ (ih t ht)

theorem lay_covers {rest : List Address} (h : s.Sound m)
    (ha : (s.last :: rest).Pairwise (· < ·)) {b : Address} (hb : b ∈ s.addresses ∨ b ∈ rest) :
    b ∈ (lay m gap s rest).flatMap addresses := by
  induction rest generalizing s with
  | nil => simpa [lay] using hb
  | cons a rest ih =>
    rw [lay]
    split
    · rename_i hj
      obtain ⟨hs, hmem, hrest⟩ := upTo_placed h ha hj
      refine ih hs hrest ?_
      rcases hb with hb | hb
      · exact Or.inl (mem_upTo hb)
      · rcases List.mem_cons.mp hb with rfl | hb
        · exact Or.inl hmem
        · exact Or.inr hb
    · rw [List.flatMap_cons, List.mem_append]
      rcases hb with hb | hb
      · exact Or.inl hb
      · refine Or.inr (ih (single_sound m a) (single_placed ha) ?_)
        rcases List.mem_cons.mp hb with rfl | hb
        · exact Or.inl (single_mem b)
        · exact Or.inr hb

theorem lay_lower_bound {rest : List Address} (h : s.Sound m)
    (ha : (s.last :: rest).Pairwise (· < ·)) :
    ∀ b ∈ (lay m gap s rest).flatMap addresses, s.address ≤ b := by
  induction rest generalizing s with
  | nil =>
    intro b hb
    exact (between_of_mem h (by simpa [lay] using hb)).1
  | cons a rest ih =>
    intro b hb
    rw [lay] at hb
    split at hb
    · rename_i hj
      obtain ⟨hs, -, hrest⟩ := upTo_placed h ha hj
      exact ih hs hrest b hb
    · rw [List.flatMap_cons, List.mem_append] at hb
      rcases hb with hb | hb
      · exact (between_of_mem h hb).1
      · have hlast := (between_of_mem h (last_mem h)).1
        have hlt := List.rel_of_pairwise_cons ha List.mem_cons_self
        have := ih (single_sound m a) (single_placed ha) b hb
        exact UInt16.le_trans hlast (UInt16.le_trans (UInt16.le_of_lt hlt) this)

/-- The spans ascend: no address is sent twice, and none out of turn. -/
theorem lay_ascending {rest : List Address} (h : s.Sound m)
    (ha : (s.last :: rest).Pairwise (· < ·)) :
    ((lay m gap s rest).flatMap addresses).Pairwise (· < ·) := by
  induction rest generalizing s with
  | nil => simpa [lay] using addresses_ascending h
  | cons a rest ih =>
    rw [lay]
    split
    · rename_i hj
      obtain ⟨hs, -, hrest⟩ := upTo_placed h ha hj
      exact ih hs hrest
    · have hrest := single_placed ha
      rw [List.flatMap_cons, List.pairwise_append]
      refine ⟨addresses_ascending h, ih (single_sound m a) hrest, ?_⟩
      intro b hb c hc
      have hlt := List.rel_of_pairwise_cons ha List.mem_cons_self
      exact UInt16.lt_of_le_of_lt (between_of_mem h hb).2
        (UInt16.lt_of_lt_of_le hlt (lay_lower_bound (single_sound m a) hrest c hc))

/-- The span under way becomes the first one, and perhaps longer. -/
theorem exists_lay_eq_cons (m : Memory) (gap : Word) (s : Span) (rest : List Address) :
    ∃ first others, lay m gap s rest = first :: others ∧ first.address = s.address ∧
      s.count ≤ first.count := by
  induction rest generalizing s with
  | nil => exact ⟨s, [], rfl, rfl, Nat.le_refl _⟩
  | cons a rest ih =>
    rw [lay]
    split
    · obtain ⟨first, others, hlay, haddress, hcount⟩ := ih (s.upTo a)
      exact ⟨first, others, hlay, haddress, Nat.le_trans (Nat.le_add_right _ _) hcount⟩
    · exact ⟨s, _, rfl, rfl, Nat.le_refl _⟩

/-- Laying out goes on from the span under way; the ones before it are settled. -/
theorem exists_lay_append (m : Memory) (gap : Word) (s : Span) (below : List Address) :
    ∃ done under, (∀ above, lay m gap s (below ++ above) = done ++ lay m gap under above) ∧
      ∀ t ∈ done ++ [under], t.address ∈ s.address :: below := by
  induction below generalizing s with
  | nil => exact ⟨[], s, fun _ => rfl, by simp⟩
  | cons a below ih =>
    by_cases hj : s.joins m gap a = true
    · obtain ⟨done, under, hlay, hstart⟩ := ih (s.upTo a)
      refine ⟨done, under, fun above => ?_, fun t ht => ?_⟩
      · rw [List.cons_append, lay, if_pos hj, hlay]
      · rcases List.mem_cons.mp (hstart t ht) with heq | hmem
        · exact heq ▸ List.mem_cons_self
        · exact List.mem_cons_of_mem _ (List.mem_cons_of_mem _ hmem)
    · obtain ⟨done, under, hlay, hstart⟩ := ih (single a)
      refine ⟨s :: done, under, fun above => ?_, fun t ht => ?_⟩
      · rw [List.cons_append, lay, if_neg hj, hlay, List.cons_append]
      · rcases List.mem_cons.mp ht with rfl | ht
        · exact List.mem_cons_self
        · exact List.mem_cons_of_mem _ (hstart t ht)

/-- Laying out ends with a span that ends with the last of the changed words. -/
theorem getLast?_lay (gap : Word) {rest : List Address} (h : s.Sound m)
    (ha : (s.last :: rest).Pairwise (· < ·)) :
    (lay m gap s rest).getLast?.map last = (s.last :: rest).getLast? := by
  induction rest generalizing s with
  | nil => rfl
  | cons a rest ih =>
    rw [lay, List.getLast?_cons_cons]
    split
    · rename_i hj
      obtain ⟨hs, hl⟩ := upTo_sound h (List.rel_of_pairwise_cons ha List.mem_cons_self) hj
      rw [ih hs (upTo_placed h ha hj).2.2, hl]
    · have hsingle := ih (single_sound m a) (single_placed ha)
      obtain ⟨first, others, hlay, -⟩ := exists_lay_eq_cons m gap (single a) rest
      rw [hlay] at hsingle ⊢
      rw [List.getLast?_cons_cons, hsingle, single_last]

theorem joins_congr {n : Memory} (h : s.Sound m) {a : Address} (hlt : s.last < a)
    (hw : ∀ b, s.last < b → m.word b = n.word b) : s.joins m gap a = s.joins n gap a := by
  have hfill : s.fill m a = s.fill n a := by
    refine List.map_congr_left ?_
    intro i hi
    have hi := List.mem_range.mp hi
    have hgap : s.gapTo a = a.toNat - s.last.toNat := rfl
    have hlt := UInt16.lt_iff_toNat_lt.mp hlt
    have hpos := h.pos
    have hlast := h.toNat_last
    have ha := a.toNat_lt
    apply hw
    rw [UInt16.lt_iff_toNat_lt, toNat_wordAddress (by omega)]
    omega
  rw [joins, joins, hfill]

/-- The layout depends on no word at or before the first changed address. -/
theorem lay_congr {n : Memory} {rest : List Address} (h : s.Sound m)
    (ha : (s.last :: rest).Pairwise (· < ·)) (hw : ∀ b, s.last < b → m.word b = n.word b) :
    lay m gap s rest = lay n gap s rest := by
  induction rest generalizing s with
  | nil => rfl
  | cons a rest ih =>
    have hlt := List.rel_of_pairwise_cons ha List.mem_cons_self
    have hw' : ∀ b, a < b → m.word b = n.word b := fun b hb => hw b (UInt16.lt_trans hlt hb)
    rw [lay, lay, ← joins_congr h hlt hw]
    split
    · rename_i hj
      obtain ⟨hs, hl⟩ := upTo_sound h hlt hj
      exact ih hs (upTo_placed h ha hj).2.2 (by rwa [hl])
    · rw [ih (single_sound m a) (single_placed ha) (by rwa [single_last])]

theorem foldl_place (m : Memory) (gap : Word) (rest : List Address) (done : Array Span) (s : Span) :
    ((rest.foldl (place m gap) (done, s)).1.push (rest.foldl (place m gap) (done, s)).2).toList =
      done.toList ++ lay m gap s rest := by
  induction rest generalizing done s with
  | nil => simp [lay]
  | cons a rest ih =>
    rw [List.foldl_cons, lay, place]
    split
    · exact ih done (s.upTo a)
    · rw [ih (done.push s) (single a)]
      simp

theorem block_clear (h : s.Sound m) : (s.block m).Clear := by
  have hlen : (s.block m).words.length = s.count := by simp [block, addresses]
  constructor
  · rw [← List.length_pos_iff, hlen]
    exact h.pos
  · rw [hlen]
    exact h.short
  · intro w hw
    obtain ⟨i, hi, rfl⟩ := List.mem_iff_getElem.mp hw
    have hi' : i + 1 < s.count := by
      rw [List.length_tail, hlen] at hi
      omega
    simpa [block, addresses, List.getElem_tail] using h.clear (i + 1) (by omega) hi'

theorem block_safe (h : s.Sound m) (ha : s.address ≠ markerAddress) : (s.block m).Safe :=
  ⟨block_clear h, ha⟩

end Span

theorem Span.block_events (m : Memory) (s : Span) :
    (s.block m).events = s.addresses.map fun a => .word a (m.word a) := by
  rw [Block.events, wordEvents_eq_mapIdx]
  apply List.ext_getElem?
  intro i
  simp only [Span.block, Span.addresses, List.getElem?_mapIdx, List.getElem?_map]
  by_cases hi : i < s.count
  · rw [List.getElem?_range hi]
    rfl
  · rw [List.getElem?_eq_none (by simpa using hi)]
    rfl

namespace Memory

theorem spans_cons (m : Memory) (gap : Word) (a : Address) (rest : List Address) :
    m.spans gap (a :: rest) = Span.lay m gap (Span.single a) rest := by
  have := Span.foldl_place m gap rest #[] (Span.single a)
  simpa [spans] using this

/-- What the spans of the changed words are, whichever memory they are read from. -/
structure Covers (m : Memory) (spans : List Span) (changed : List Address) : Prop where
  sound : ∀ s ∈ spans, s.Sound m
  starts : ∀ s ∈ spans, s.address ∈ changed
  covers : ∀ a ∈ changed, a ∈ spans.flatMap Span.addresses
  ascending : (spans.flatMap Span.addresses).Pairwise (· < ·)

theorem covers_spans (m : Memory) (gap : Word) {changed : List Address}
    (h : changed.Pairwise (· < ·)) : m.Covers (m.spans gap changed) changed := by
  cases changed with
  | nil => constructor <;> simp [spans]
  | cons a rest =>
    have hs := Span.single_sound m a
    have ha : ((Span.single a).last :: rest).Pairwise (· < ·) := by rwa [Span.single_last]
    rw [spans_cons]
    constructor
    · exact Span.lay_sound hs ha
    · exact Span.lay_address
    · intro b hb
      apply Span.lay_covers hs ha
      rcases List.mem_cons.mp hb with rfl | hb
      · exact Or.inl (Span.single_mem b)
      · exact Or.inr hb
    · exact Span.lay_ascending hs ha

/-- When the loop comes to the word behind a changed one, the span under way ends at that one. -/
theorem exists_spans_append (m : Memory) (gap : Word) {below above : List Address} {a : Address}
    (h : (below ++ a :: above).Pairwise (· < ·)) :
    ∃ done under, m.spans gap (below ++ a :: above) = done ++ Span.lay m gap under above ∧
      under.Sound m ∧ under.last = a := by
  cases below with
  | nil => exact ⟨[], Span.single a, spans_cons .., Span.single_sound m a, Span.single_last a⟩
  | cons c below =>
    obtain ⟨done, under, hlay, -⟩ := Span.exists_lay_append m gap (Span.single c) (below ++ [a])
    have hsplit : c :: below ++ a :: above = (c :: (below ++ [a])) ++ above := by simp
    have hstart : ((Span.single c).last :: (below ++ [a])).Pairwise (· < ·) := by
      rw [hsplit] at h
      rw [Span.single_last]
      exact (List.pairwise_append.mp h).1
    have hend : Span.lay m gap (Span.single c) (below ++ [a]) = done ++ [under] := by
      simpa [Span.lay] using hlay []
    refine ⟨done, under, ?_, ?_, ?_⟩
    · rw [hsplit, List.cons_append, spans_cons, hlay]
    · exact Span.lay_sound (Span.single_sound m c) hstart under (by rw [hend]; simp)
    · have hlast := Span.getLast?_lay gap (Span.single_sound m c) hstart
      rw [hend, List.getLast?_concat, ← List.cons_append, List.getLast?_concat] at hlast
      exact Option.some.inj hlast

end Memory

end WordLink
