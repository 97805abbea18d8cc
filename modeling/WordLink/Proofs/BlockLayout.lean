import WordLink.Proofs.MarkerBlock

/-!
# The blocks of an update

What a reader of an update finds in it, said without the loop that lays it out: how long the blocks
are, what words they carry and where, and which of the words that are due share one
(`update_layout`). Two neighbours among these meet in the loop with the span under way ending at the
lower one, and whether they share a block is decided there and then.
-/
namespace WordLink

/-- Two addresses of some, with none of them in between. -/
structure Neighbours (due : Address → Prop) (a b : Address) : Prop where
  left : due a
  right : due b
  lt : a < b
  apart : ∀ c, due c → c ≤ a ∨ b ≤ c

namespace Neighbours

variable {due : Address → Prop} {xs : List Address} {a b c : Address}

/-- The way from one to the other is measured and walked in 16 bits as it is in numbers. -/
theorem toNat_step (h : Neighbours due a b) :
    (b - a).toNat = b.toNat - a.toNat ∧ a.toNat ≤ b.toNat ∧
      ∀ i ≤ (b - a).toNat / 2, (a + UInt16.ofNat i * wordStride).toNat = a.toNat + 2 * i := by
  have hstride : wordStride.toNat = 2 := rfl
  have hlt := UInt16.lt_iff_toNat_lt.mp h.lt
  have hb := b.toNat_lt
  have hsub : (b - a).toNat = b.toNat - a.toNat := by
    rw [UInt16.toNat_sub]
    omega
  refine ⟨hsub, Nat.le_of_lt hlt, fun i hi => ?_⟩
  rw [UInt16.toNat_add, UInt16.toNat_mul, UInt16.toNat_ofNat', hstride]
  omega

theorem head (h : (a :: b :: xs).Pairwise (· < ·)) : Neighbours (· ∈ a :: b :: xs) a b := by
  have hab := List.rel_of_pairwise_cons h List.mem_cons_self
  constructor
  · exact List.mem_cons_self
  · exact List.mem_cons_of_mem _ List.mem_cons_self
  · exact hab
  · intro d hd
    rcases List.mem_cons.mp hd with rfl | hd
    · exact Or.inl (UInt16.le_refl d)
    · rcases List.mem_cons.mp hd with rfl | hd
      · exact Or.inr (UInt16.le_refl d)
      · exact Or.inr (UInt16.le_of_lt (List.rel_of_pairwise_cons h.tail hd))

theorem cons (h : Neighbours (· ∈ xs) a b) (hc : c ≤ a) : Neighbours (· ∈ c :: xs) a b := by
  refine ⟨List.mem_cons_of_mem _ h.left, List.mem_cons_of_mem _ h.right, h.lt, fun d hd => ?_⟩
  rcases List.mem_cons.mp hd with rfl | hd
  · exact Or.inl hc
  · exact h.apart d hd

/-- In an ascending list neighbours stand one behind the other. -/
theorem split (h : Neighbours (· ∈ xs) a b) (hxs : xs.Pairwise (· < ·)) :
    ∃ below above, xs = below ++ a :: b :: above := by
  obtain ⟨below, after, rfl⟩ := List.append_of_mem h.left
  obtain ⟨-, hafter, hbelow⟩ := List.pairwise_append.mp hxs
  have hb : b ∈ after := by
    rcases List.mem_append.mp h.right with hb | hb
    · exact absurd (UInt16.lt_trans h.lt (hbelow b hb a List.mem_cons_self)) (UInt16.lt_irrefl a)
    · rcases List.mem_cons.mp hb with rfl | hb
      · exact absurd h.lt (UInt16.lt_irrefl b)
      · exact hb
  cases after with
  | nil => cases hb
  | cons c above =>
    have hac := List.rel_of_pairwise_cons hafter List.mem_cons_self
    have hbc : b ≤ c := (h.apart c (by simp)).resolve_left (UInt16.not_le.mpr hac)
    rcases List.mem_cons.mp hb with rfl | hb
    · exact ⟨below, above, rfl⟩
    · have hcb := List.rel_of_pairwise_cons hafter.tail hb
      exact absurd (UInt16.lt_of_lt_of_le hcb hbc) (UInt16.lt_irrefl c)

end Neighbours

/-- A block that starts at the first address and has come to one word that is due goes on to the
next: the way is even, no longer than the gap allows, free of sync words, and the block stays
short. -/
structure GoesOn (m : Memory) (gap : Word) (first a b : Address) : Prop where
  even : (b.toNat - a.toNat) % 2 = 0
  near : b.toNat - a.toNat ≤ gap.toNat
  clear : ∀ i, 1 ≤ i → i ≤ (b.toNat - a.toNat) / 2 → m.word (a + UInt16.ofNat (2 * i)) ≠ syncWord
  short : (a.toNat - first.toNat) / 2 + 1 + (b.toNat - a.toNat) / 2 ≤ 10879

theorem GoesOn.congr {m n : Memory} {gap : Word} {first a b : Address}
    (hw : ∀ c, m.word c = n.word c) (h : GoesOn m gap first a b) : GoesOn n gap first a b := by
  refine ⟨h.even, h.near, fun i hi hle => ?_, h.short⟩
  rw [← hw]
  exact h.clear i hi hle

/-! ### Spans -/

namespace Span

variable {m : Memory} {gap : Word} {s : Span}

theorem wordAddress_count_add (h : s.Sound m) (i : Nat) :
    s.wordAddress (s.count + i) = s.last + UInt16.ofNat (2 * (i + 1)) := by
  have hpos := h.pos
  have hsum : s.count - 1 + (i + 1) = s.count + i := by omega
  rw [wordAddress, last, wordAddress, UInt16.add_assoc, ← UInt16.ofNat_add, ← Nat.mul_add, hsum]

theorem joins_iff_goesOn (h : s.Sound m) (b : Address) :
    s.joins m gap b = true ↔ GoesOn m gap s.address s.last b := by
  have hpos := h.pos
  have hlast := h.toNat_last
  have hgap : s.gapTo b = b.toNat - s.last.toNat := rfl
  have hcount : (s.last.toNat - s.address.toNat) / 2 + 1 = s.count := by omega
  have hmax : maxBlockWords = 10879 := rfl
  rw [joins_iff, hgap, hmax]
  constructor
  · rintro ⟨heven, hnear, hshort, hclear⟩
    refine ⟨heven, hnear, fun i hi hle => ?_, by rwa [hcount]⟩
    obtain ⟨i, rfl⟩ : ∃ j, i = j + 1 := ⟨i - 1, by omega⟩
    rw [← wordAddress_count_add h]
    exact hclear i (by omega)
  · rintro ⟨heven, hnear, hclear, hshort⟩
    refine ⟨heven, hnear, by rwa [hcount] at hshort, fun i hi => ?_⟩
    rw [wordAddress_count_add h]
    exact hclear (i + 1) (by omega) (by omega)

theorem eq_of_mem_single {a c : Address} (h : c ∈ (single a).addresses) : c = a := by
  simpa [single, addresses, wordAddress] using h

theorem addresses_subset_of_le {t : Span} (ha : t.address = s.address) (hc : s.count ≤ t.count)
    {a : Address} (h : a ∈ s.addresses) : a ∈ t.addresses := by
  obtain ⟨i, hi, rfl⟩ := mem_addresses.mp h
  refine mem_addresses.mpr ⟨i, Nat.lt_of_lt_of_le hi hc, ?_⟩
  rw [wordAddress, wordAddress, ha]

/-- A span that is stretched takes in the new word and what lies between. -/
theorem mem_or_between_of_mem_upTo (h : s.Sound m) {a c : Address} (hlt : s.last < a)
    (hj : s.joins m gap a = true) (hc : c ∈ (s.upTo a).addresses) :
    c ∈ s.addresses ∨ c = a ∨ s.last < c ∧ c < a := by
  obtain ⟨hs, hl⟩ := upTo_sound h hlt hj
  obtain ⟨i, hi, rfl⟩ := mem_addresses.mp hc
  by_cases hold : i < s.count
  · exact Or.inl (mem_addresses.mpr ⟨i, hold, rfl⟩)
  · have hle := (between_of_mem hs hc).2
    rw [hl] at hle
    by_cases hend : (s.upTo a).wordAddress i = a
    · exact Or.inr (Or.inl hend)
    · have hpos := h.pos
      have hlast := h.toNat_last
      have hplace : ((s.upTo a).wordAddress i).toNat = s.address.toNat + 2 * i :=
        hs.toNat_wordAddress hi
      refine Or.inr (Or.inr ⟨?_, UInt16.lt_of_le_of_ne hle hend⟩)
      rw [UInt16.lt_iff_toNat_lt, hplace, hlast]
      omega

/-- Nothing is covered but changed words and what lies between two of them that are near. -/
theorem lay_between {rest : List Address} (h : s.Sound m) (ha : (s.last :: rest).Pairwise (· < ·)) :
    ∀ c ∈ (lay m gap s rest).flatMap addresses, c ∈ s.addresses ∨ c ∈ rest ∨
      ∃ a b, Neighbours (· ∈ s.last :: rest) a b ∧ a < c ∧ c < b ∧
        (b.toNat - a.toNat) % 2 = 0 ∧ b.toNat - a.toNat ≤ gap.toNat := by
  induction rest generalizing s with
  | nil =>
    intro c hc
    exact Or.inl (by simpa [lay] using hc)
  | cons a rest ih =>
    intro c hc
    have hlt := List.rel_of_pairwise_cons ha List.mem_cons_self
    -- neighbours further on are neighbours here
    have hlift : ∀ {x y : Address}, Neighbours (· ∈ a :: rest) x y →
        Neighbours (· ∈ s.last :: a :: rest) x y := by
      intro x y hn
      exact hn.cons (UInt16.le_of_lt (List.rel_of_pairwise_cons ha hn.left))
    rw [lay] at hc
    split at hc
    · rename_i hj
      obtain ⟨hs, hl⟩ := upTo_sound h hlt hj
      have hrest := ih hs (upTo_placed h ha hj).2.2 c hc
      rw [hl] at hrest
      rcases hrest with hmem | hmem | ⟨x, y, hn, hxy⟩
      · rcases mem_or_between_of_mem_upTo h hlt hj hmem with hold | rfl | hinside
        · exact Or.inl hold
        · exact Or.inr (Or.inl List.mem_cons_self)
        · obtain ⟨heven, hnear, -⟩ := joins_iff.mp hj
          exact Or.inr (Or.inr ⟨s.last, a, .head ha, hinside.1, hinside.2, heven, hnear⟩)
      · exact Or.inr (Or.inl (List.mem_cons_of_mem _ hmem))
      · exact Or.inr (Or.inr ⟨x, y, hlift hn, hxy⟩)
    · rw [List.flatMap_cons, List.mem_append] at hc
      rcases hc with hc | hc
      · exact Or.inl hc
      · have hrest := ih (single_sound m a) (single_placed ha) c hc
        rw [single_last] at hrest
        rcases hrest with hmem | hmem | ⟨x, y, hn, hxy⟩
        · exact Or.inr (Or.inl (eq_of_mem_single hmem ▸ List.mem_cons_self))
        · exact Or.inr (Or.inl (List.mem_cons_of_mem _ hmem))
        · exact Or.inr (Or.inr ⟨x, y, hlift hn, hxy⟩)

end Span

namespace Memory

variable {m : Memory} {gap : Word} {a b : Address}

theorem Covers.eq_of_mem {spans : List Span} {changed : List Address}
    (h : m.Covers spans changed) {t u : Span} (ht : t ∈ spans) (hu : u ∈ spans)
    (hat : a ∈ t.addresses) (hau : a ∈ u.addresses) : t = u := by
  have hasc := (List.pairwise_flatMap.mp h.ascending).2
  obtain ⟨i, hi, rfl⟩ := List.mem_iff_getElem.mp ht
  obtain ⟨j, hj, rfl⟩ := List.mem_iff_getElem.mp hu
  rcases Nat.lt_trichotomy i j with hij | rfl | hij
  · exact absurd (List.pairwise_iff_getElem.mp hasc i j hi hj hij a hat a hau) (UInt16.lt_irrefl a)
  · rfl
  · exact absurd (List.pairwise_iff_getElem.mp hasc j i hj hi hij a hau a hat) (UInt16.lt_irrefl a)

/-- The span with the lower of two neighbours has the upper one exactly if it can go on to it. -/
theorem mem_addresses_iff_goesOn {changed : List Address} (hasc : changed.Pairwise (· < ·))
    (hn : Neighbours (· ∈ changed) a b) {t : Span} (ht : t ∈ m.spans gap changed)
    (ha : a ∈ t.addresses) : b ∈ t.addresses ↔ GoesOn m gap t.address a b := by
  have hcovers := m.covers_spans gap hasc
  obtain ⟨below, above, rfl⟩ := hn.split hasc
  obtain ⟨done, under, hspans, hunder, rfl⟩ := m.exists_spans_append gap hasc
  by_cases hj : under.joins m gap b = true
  · obtain ⟨first, others, hlay, haddress, hcount⟩ :=
      Span.exists_lay_eq_cons m gap (under.upTo b) above
    have hfirst : first ∈ m.spans gap (below ++ under.last :: b :: above) := by
      rw [hspans, Span.lay, if_pos hj, hlay]
      simp
    obtain ⟨hs, hl⟩ := Span.upTo_sound hunder hn.lt hj
    have hmem : ∀ c ∈ (under.upTo b).addresses, c ∈ first.addresses := fun c hc =>
      Span.addresses_subset_of_le haddress hcount hc
    obtain rfl := hcovers.eq_of_mem ht hfirst ha (hmem _ (Span.mem_upTo (Span.last_mem hunder)))
    have hb := Span.last_mem hs
    rw [hl] at hb
    exact iff_of_true (hmem b hb) (haddress ▸ (Span.joins_iff_goesOn hunder b).mp hj)
  · have hmem : under ∈ m.spans gap (below ++ under.last :: b :: above) := by
      rw [hspans, Span.lay, if_neg hj]
      simp
    obtain rfl := hcovers.eq_of_mem ht hmem ha (Span.last_mem hunder)
    refine iff_of_false (fun hb => ?_) (fun hg => hj ((Span.joins_iff_goesOn hunder b).mpr hg))
    exact absurd hn.lt (UInt16.not_lt.mpr (Span.between_of_mem hunder hb).2)

theorem mem_spans_between {changed : List Address} (hasc : changed.Pairwise (· < ·)) {c : Address}
    (hc : c ∈ (m.spans gap changed).flatMap Span.addresses) : c ∈ changed ∨
      ∃ a b, Neighbours (· ∈ changed) a b ∧ a < c ∧ c < b ∧
        (b.toNat - a.toNat) % 2 = 0 ∧ b.toNat - a.toNat ≤ gap.toNat := by
  cases changed with
  | nil => simp [spans] at hc
  | cons a rest =>
    rw [spans_cons] at hc
    have ha : ((Span.single a).last :: rest).Pairwise (· < ·) := by rwa [Span.single_last]
    have hrest := Span.lay_between (Span.single_sound m a) ha c hc
    rw [Span.single_last] at hrest
    rcases hrest with hmem | hmem | hbetween
    · exact Or.inl (Span.eq_of_mem_single hmem ▸ List.mem_cons_self)
    · exact Or.inl (List.mem_cons_of_mem _ hmem)
    · exact Or.inr hbetween

end Memory

/-! ### Blocks -/

namespace Block

def wordAddress (b : Block) (i : Nat) : Address := b.address + UInt16.ofNat (2 * i)

/-- Where the words of the block go. -/
def addresses (b : Block) : List Address := (List.range b.words.length).map b.wordAddress

theorem Clear.byteCount {b : Block} (h : b.Clear) :
    UInt16.toNat b.header.byteCount = 2 * b.words.length ∧
      Word.high b.header.byteCount < syncByte := by
  have hmax : maxBlockWords = 10879 := rfl
  have hsync : syncByte.toNat = 85 := rfl
  have hlength := h.length
  have hcount : UInt16.toNat b.header.byteCount = 2 * b.words.length := toNat_double (by omega)
  refine ⟨hcount, ?_⟩
  rw [UInt8.lt_iff_toNat_lt, Word.toNat_high, hcount, hsync]
  omega

end Block

namespace Span

variable {m : Memory} {s : Span}

theorem length_block (m : Memory) (s : Span) : (s.block m).words.length = s.count := by
  simp [block, addresses]

theorem addresses_block (m : Memory) (s : Span) : (s.block m).addresses = s.addresses := by
  rw [Block.addresses, length_block]
  rfl

end Span

namespace Sender

/-- How blocks carry what is due in an update. -/
structure Layout (s : Sender) (m : Memory) (blocks : List Block) : Prop where
  length : ∀ b ∈ blocks, 1 ≤ b.words.length ∧ b.words.length ≤ 10879
  count : ∀ b ∈ blocks, UInt16.toNat b.header.byteCount = 2 * b.words.length ∧
    Word.high b.header.byteCount < syncByte
  inside : ∀ b ∈ blocks, ∀ i < b.words.length,
    (b.wordAddress i).toNat = b.address.toNat + 2 * i
  ascending : (blocks.flatMap Block.addresses).Pairwise (· < ·)
  words : ∀ b ∈ blocks, b.words = b.addresses.map m.word
  clear : ∀ b ∈ blocks, ∀ w ∈ b.words.tail, w ≠ syncWord
  due : ∀ a, s.Due m a → a ∈ blocks.flatMap Block.addresses
  between : ∀ c ∈ blocks.flatMap Block.addresses, s.Due m c ∨
    ∃ a b, Neighbours (s.Due m) a b ∧ a < c ∧ c < b ∧
      (b.toNat - a.toNat) % 2 = 0 ∧ b.toNat - a.toNat ≤ s.settings.mergeGap.toNat
  shared : ∀ a b, Neighbours (s.Due m) a b → ∀ t ∈ blocks, a ∈ t.addresses →
    (b ∈ t.addresses ↔ GoesOn m s.settings.mergeGap t.address a b)
  range : ∀ a b, Neighbours (s.Due m) a b →
    (b - a).toNat = b.toNat - a.toNat ∧ a.toNat ≤ b.toNat ∧
    ∀ i ≤ (b - a).toNat / 2, (a + UInt16.ofNat i * wordStride).toNat = a.toNat + 2 * i

variable {s : Sender} {m : Memory}

theorem neighbours_due_iff {a b : Address} :
    Neighbours (s.Due m) a b ↔ Neighbours (· ∈ (s.prepare m).dirtyAddresses) a b := by
  have hdue : s.Due m = (· ∈ (s.prepare m).dirtyAddresses) := by
    funext c
    exact propext (mem_dirtyAddresses_prepare s m c).symm
  rw [hdue]

theorem goesOn_prepare_iff {gap : Word} {first a b : Address} :
    GoesOn (s.prepare m) gap first a b ↔ GoesOn m gap first a b :=
  ⟨.congr (word_prepare s m), .congr fun c => (word_prepare s m c).symm⟩

theorem addresses_blocks (s : Sender) (m : Memory) :
    (s.blocks m).flatMap Block.addresses = s.sent m := by
  simp only [blocks, sent, List.flatMap_map, Span.addresses_block]

theorem layout_blocks (s : Sender) (m : Memory) : s.Layout m (s.blocks m) := by
  have hasc := Memory.dirtyAddresses_ascending (s.prepare m)
  have hcovers := covers_sent s m
  have hclear := blocks_clear s m
  constructor
  · intro b hb
    exact ⟨List.length_pos_iff.mpr (hclear b hb).words, (hclear b hb).length⟩
  · intro b hb
    exact (hclear b hb).byteCount
  · intro b hb i hi
    obtain ⟨t, ht, rfl⟩ := List.mem_map.mp hb
    rw [Span.length_block] at hi
    exact (hcovers.sound t ht).toNat_wordAddress hi
  · rw [addresses_blocks]
    exact sent_ascending s m
  · intro b hb
    obtain ⟨t, ht, rfl⟩ := List.mem_map.mp hb
    rw [Span.addresses_block]
    exact List.map_congr_left fun a _ => word_prepare s m a
  · intro b hb
    exact (hclear b hb).tail
  · intro a ha
    rw [addresses_blocks]
    exact mem_sent_of_due ha
  · intro c hc
    rw [addresses_blocks] at hc
    rw [← mem_dirtyAddresses_prepare]
    rcases Memory.mem_spans_between hasc hc with hmem | ⟨a, b, hn, hbetween⟩
    · exact Or.inl hmem
    · exact Or.inr ⟨a, b, neighbours_due_iff.mpr hn, hbetween⟩
  · intro a b hn t ht ha
    obtain ⟨u, hu, rfl⟩ := List.mem_map.mp ht
    rw [Span.addresses_block] at ha ⊢
    rw [← goesOn_prepare_iff (s := s)]
    exact Memory.mem_addresses_iff_goesOn hasc (neighbours_due_iff.mp hn) hu ha
  · intro a b hn
    exact hn.toNat_step

/-- An update that is not empty is a sync sequence and blocks. Each has up to 10879 words, which its
count says in bytes without a sync byte in front; their addresses ascend through the whole update
and never wrap; every word is as the memory has it, and only the first of a block may be the sync
word. What is due is there, and nothing else but words between two neighbours among it that are near
enough. Of two such neighbours the upper one is in the block of the lower exactly if that block can
go on. -/
theorem update_layout (s : Sender) (m : Memory) (hne : (s.update m).bytes ≠ []) :
    ∃ blocks : List Block, blocks ≠ [] ∧
      (s.update m).bytes = syncSequence ++ blocks.flatMap Block.encode ∧ s.Layout m blocks := by
  have hblocks : s.blocks m ≠ [] := fun hnil => hne (update_bytes_of_nil hnil)
  exact ⟨s.blocks m, hblocks, update_bytes hblocks, layout_blocks s m⟩

/-- Two words with an absent one between them, and a sync word right behind. -/
theorem update_layout_filled_and_split :
    (Sender.update { settings := .minimal } (((Memory.empty.store 0x0010 1).store 0x0014 3).store
      0x0016 syncWord)).bytes ≠ [] ∧
    ∃ blocks : List Block, blocks ≠ [] ∧
      (Sender.update { settings := .minimal } (((Memory.empty.store 0x0010 1).store 0x0014 3).store
        0x0016 syncWord)).bytes = syncSequence ++ blocks.flatMap Block.encode ∧
      Sender.Layout { settings := .minimal } (((Memory.empty.store 0x0010 1).store 0x0014 3).store
        0x0016 syncWord) blocks :=
  ⟨by decide +kernel, update_layout _ _ (by decide +kernel)⟩

example : Sender.blocks { settings := .minimal }
    (((Memory.empty.store 0x0010 1).store 0x0014 3).store 0x0016 syncWord) =
      [⟨0x0010, [1, 0, 3]⟩, ⟨0x0016, [syncWord]⟩] := by
  decide +kernel

end Sender

end WordLink
