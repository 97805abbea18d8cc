import WordLink.Proofs.BlockLayout

/-!
# Words taking turns

In each update some words are sent again, changed or not, the next ones in the order of addresses
behind those of the update before. As long as no word comes or goes, the turns go round: after
enough updates every word has been sent (`refresh_reaches_every_word`).
-/
namespace WordLink

namespace Memory

theorem addresses_settle (m : Memory) : m.settle.addresses = m.addresses := by
  simp only [addresses, toList, settle, AddressMap.toList_map, List.map_map, Function.comp_def]

theorem addresses_foldl_markAt (m : Memory) (positions : List Nat) :
    (positions.foldl markAt m).addresses = m.addresses := by
  induction positions generalizing m with
  | nil => rfl
  | cons i positions ih => rw [List.foldl_cons, ih, addresses_markAt]

theorem addresses_nodup (m : Memory) : m.addresses.Nodup :=
  m.addresses_ascending.imp UInt16.ne_of_lt

end Memory

namespace Sender

variable {s : Sender} {m : Memory} {size : Nat}

/-! ### Positions -/

theorem mem_positions {p : Nat} :
    p ∈ s.positions size ↔ ∃ i < s.turns size, (s.start size + i) % size = p := by
  simp [positions]

theorem length_positions (s : Sender) (size : Nat) : (s.positions size).length = s.turns size := by
  simp [positions]

theorem start_lt (h : 0 < size) : s.start size < size := by
  unfold start
  split
  · assumption
  · exact h

theorem lt_of_mem_positions {p : Nat} (h : p ∈ s.positions size) : p < size := by
  obtain ⟨i, hi, rfl⟩ := mem_positions.mp h
  have hle : s.turns size ≤ size := Nat.min_le_right _ _
  exact Nat.mod_lt _ (by omega)

/-- The turns of one update do not go round, and so no position comes twice. -/
theorem positions_nodup (s : Sender) (size : Nat) : (s.positions size).Nodup := by
  refine List.pairwise_map.mpr (List.pairwise_lt_range.imp_of_mem ?_)
  intro i j _ hj hij heq
  have hle : s.turns size ≤ size := Nat.min_le_right _ _
  have hj := List.mem_range.mp hj
  have hzero := Nat.sub_mod_eq_zero_of_mod_eq heq.symm
  rw [Nat.add_sub_add_left, Nat.mod_eq_of_lt (by omega)] at hzero
  omega

theorem start_takeTurns (h : 0 < size) :
    (s.takeTurns size).start size = (s.start size + s.turns size) % size := by
  have hlt := Nat.mod_lt (s.start size + s.turns size) h
  rw [takeTurns, if_neg (Nat.ne_of_gt h), start, if_pos hlt]

theorem le_turns_mul {rounds : Nat} (hcount : 1 ≤ s.settings.refreshCount)
    (h : (size + s.settings.refreshCount - 1) / s.settings.refreshCount ≤ rounds + 1) :
    size ≤ s.turns size * (rounds + 1) := by
  have hle := (Nat.div_le_iff_le_mul_add_pred hcount).mp h
  by_cases hshort : s.settings.refreshCount ≤ size
  · rw [turns, Nat.min_eq_left hshort]
    omega
  · rw [turns, Nat.min_eq_right (by omega)]
    exact Nat.le_mul_of_pos_right size (Nat.succ_pos rounds)

/-! ### Rounds -/

/-- A sender that is about to make an update, and the memory as it is then. -/
structure Round where
  sender : Sender
  memory : Memory

namespace Round

variable {c d : Round} {rest : List Round} {a : Address}

def update (c : Round) : Update := c.sender.update c.memory

def blocks (c : Round) : List Block := c.sender.blocks c.memory

/-- The words in order, with the one that ends the update. -/
def addresses (c : Round) : List Address := (c.sender.markEnd c.memory).addresses

def positions (c : Round) : List Nat := c.sender.positions c.addresses.length

/-- The words that take their turn. -/
def refreshed (c : Round) : List Address := c.positions.filterMap fun i => c.addresses[i]?

/-- Updates of one sender after another. In between the words may get any values and flags, but none
of them comes or goes. -/
inductive Series : Round → List Round → Prop where
  | single (c : Round) : Series c []
  | next {c d : Round} {rest : List Round} (hsender : d.sender = c.update.sender)
      (haddresses : d.memory.addresses = c.update.memory.addresses) (h : Series d rest) :
      Series c (d :: rest)

theorem addresses_prepare (c : Round) : (c.sender.prepare c.memory).addresses = c.addresses :=
  Memory.addresses_foldl_markAt ..

theorem addresses_update (c : Round) : c.update.memory.addresses = c.addresses := by
  rw [update, Sender.update, Memory.addresses_settle, addresses_prepare]

theorem sender_update (c : Round) : c.update.sender = c.sender.takeTurns c.addresses.length := by
  rw [update, Sender.update, Memory.size_eq, addresses_prepare]

theorem mem_addresses_iff (c : Round) (a : Address) :
    a ∈ c.addresses ↔ c.sender.settings.endAddress = some a ∨ a ∈ c.memory.addresses := by
  rw [addresses, Memory.mem_addresses_iff, Memory.mem_addresses_iff, get?_markEnd]
  split
  · rename_i he
    simp [he]
  · rename_i he
    simp [he]

theorem settings_next (hsender : d.sender = c.update.sender) :
    d.sender.settings = c.sender.settings := by
  rw [hsender]
  exact settings_update ..

/-- The end word is there from the first update on. -/
theorem addresses_next (hsender : d.sender = c.update.sender)
    (haddresses : d.memory.addresses = c.update.memory.addresses) : d.addresses = c.addresses := by
  refine Memory.eq_of_ascending (Memory.addresses_ascending _) (Memory.addresses_ascending _) ?_
  intro a
  rw [mem_addresses_iff, settings_next hsender, haddresses, addresses_update]
  constructor
  · rintro (he | hmem)
    · exact (c.mem_addresses_iff a).mpr (Or.inl he)
    · exact hmem
  · exact Or.inr

/-- What stays from one round to the next. -/
theorem Series.same (h : Series c rest) : ∀ d ∈ c :: rest,
    d.addresses = c.addresses ∧ d.sender.settings = c.sender.settings := by
  induction h with
  | single c => simp
  | @next c d rest hsender haddresses _ ih =>
    intro e he
    rcases List.mem_cons.mp he with rfl | he
    · exact ⟨rfl, rfl⟩
    · obtain ⟨hwords, hset⟩ := ih e he
      exact ⟨hwords.trans (addresses_next hsender haddresses), hset.trans (settings_next hsender)⟩

/-- Each round starts where the one before it has stopped. -/
theorem Series.exists_start (h : Series c rest) (hpos : 0 < c.addresses.length) {i : Nat}
    (hi : i < rest.length + 1) : ∃ d ∈ c :: rest,
      d.sender.start c.addresses.length =
        (c.sender.start c.addresses.length + i * c.sender.turns c.addresses.length) %
          c.addresses.length := by
  induction h generalizing i with
  | single c =>
    obtain rfl : i = 0 := by simpa using hi
    refine ⟨c, List.mem_cons_self, ?_⟩
    rw [Nat.zero_mul, Nat.add_zero, Nat.mod_eq_of_lt (start_lt hpos)]
  | @next c d rest hsender haddresses _ ih =>
    cases i with
    | zero =>
      refine ⟨c, List.mem_cons_self, ?_⟩
      rw [Nat.zero_mul, Nat.add_zero, Nat.mod_eq_of_lt (start_lt hpos)]
    | succ i =>
      have hwords := addresses_next hsender haddresses
      have hturns : d.sender.turns c.addresses.length = c.sender.turns c.addresses.length := by
        rw [turns, turns, settings_next hsender]
      have hstart : d.sender.start c.addresses.length =
          (c.sender.start c.addresses.length + c.sender.turns c.addresses.length) %
            c.addresses.length := by
        rw [hsender, sender_update, start_takeTurns hpos]
      obtain ⟨e, he, hlast⟩ := ih (by rwa [hwords]) (Nat.lt_of_succ_lt_succ hi)
      refine ⟨e, List.mem_cons_of_mem c he, ?_⟩
      rw [hwords, hstart, hturns] at hlast
      rw [hlast, Nat.mod_add_mod, Nat.add_assoc, Nat.succ_mul, Nat.add_comm (i * _)]

theorem exists_offset {start n p : Nat} (hstart : start < n) (hp : p < n) :
    ∃ o < n, (start + o) % n = p := by
  by_cases hle : start ≤ p
  · refine ⟨p - start, by omega, ?_⟩
    rw [Nat.add_sub_cancel' hle, Nat.mod_eq_of_lt hp]
  · refine ⟨p + n - start, by omega, ?_⟩
    rw [Nat.add_sub_cancel' (by omega), Nat.add_mod_right, Nat.mod_eq_of_lt hp]

/-- Rounds that have a turn for every word come by every position. -/
theorem Series.exists_position (h : Series c rest)
    (hn : c.addresses.length ≤ c.sender.turns c.addresses.length * (rest.length + 1)) {p : Nat}
    (hp : p < c.addresses.length) : ∃ d ∈ c :: rest, p ∈ d.positions := by
  have hpos : 0 < c.addresses.length := Nat.lt_of_le_of_lt (Nat.zero_le p) hp
  obtain ⟨o, ho, hoffset⟩ := exists_offset (c.sender.start_lt hpos) hp
  have hturns : 0 < c.sender.turns c.addresses.length := Nat.pos_of_ne_zero fun hzero => by
    rw [hzero, Nat.zero_mul] at hn
    omega
  -- the round is the quotient, the turn in it the remainder
  have hround : o / c.sender.turns c.addresses.length < rest.length + 1 :=
    Nat.div_lt_of_lt_mul (Nat.lt_of_lt_of_le ho hn)
  obtain ⟨d, hd, hstart⟩ := h.exists_start hpos hround
  obtain ⟨hwords, hsettings⟩ := h.same d hd
  have hsame : d.sender.turns c.addresses.length = c.sender.turns c.addresses.length := by
    rw [turns, turns, hsettings]
  refine ⟨d, hd, mem_positions.mpr ⟨o % c.sender.turns c.addresses.length, ?_, ?_⟩⟩
  · rw [hwords, hsame]
    exact Nat.mod_lt o hturns
  · rw [hwords, hstart, Nat.mod_add_mod, Nat.add_assoc, Nat.mul_comm, Nat.div_add_mod, hoffset]

theorem mem_refreshed_iff : a ∈ c.refreshed ↔ ∃ i ∈ c.positions, c.addresses[i]? = some a := by
  rw [refreshed, List.mem_filterMap]

theorem refreshed_nodup (c : Round) : c.refreshed.Nodup := by
  refine List.pairwise_filterMap.mpr ((positions_nodup c.sender c.addresses.length).imp_of_mem ?_)
  rintro i j hi - hij a ha b hb rfl
  exact hij ((List.getElem?_inj (lt_of_mem_positions hi) (Memory.addresses_nodup _)).mp
    (ha.trans hb.symm))

theorem length_refreshed (c : Round) :
    c.refreshed.length = c.sender.turns c.addresses.length := by
  rw [refreshed, List.length_filterMap_eq_countP, ← length_positions, positions,
    List.countP_eq_length]
  intro i hi
  rw [List.getElem?_eq_getElem (lt_of_mem_positions hi)]
  rfl

/-- What is flagged when the blocks are laid out. -/
theorem changed_prepare_iff (c : Round) (a : Address) : (c.sender.prepare c.memory).Changed a ↔
    c.memory.Changed a ∨ c.sender.settings.endAddress = some a ∨ a ∈ c.refreshed := by
  rw [← Memory.mem_dirtyAddresses_iff, mem_dirtyAddresses_prepare, Due, mem_refreshed_iff,
    Memory.size_eq]
  rfl

theorem exists_block_of_refreshed (h : a ∈ c.refreshed) :
    c.update.bytes = syncSequence ++ c.blocks.flatMap Block.encode ∧
      ∃ b ∈ c.blocks, a ∈ b.addresses := by
  have hdue : c.sender.Due c.memory a := by
    rw [← mem_dirtyAddresses_prepare, Memory.mem_dirtyAddresses_iff, changed_prepare_iff]
    exact Or.inr (Or.inr h)
  have hsent := mem_sent_of_due hdue
  rw [← addresses_blocks] at hsent
  obtain ⟨b, hb, ha⟩ := List.mem_flatMap.mp hsent
  exact ⟨update_bytes (List.ne_nil_of_mem hb), b, hb, ha⟩

/-- So many updates of one sender that their turns are as many as there are words: each word is in a
block of one of them, wherever the sender's turn is at first and whatever is flagged. In each of
them as many different words take their turn as one update refreshes, or all if there are not so
many, and with the changed words and the end word these make up what is flagged. And whatever has
been done to a memory before, and wherever its sender's turn has come to, that many turns are taken
in it and none beyond its last word. -/
theorem refresh_reaches_every_word (c : Round) (rest : List Round) (hseries : Series c rest)
    (hcount : 1 ≤ c.sender.settings.refreshCount)
    (hrounds : (c.update.memory.size + c.sender.settings.refreshCount - 1) /
      c.sender.settings.refreshCount ≤ rest.length + 1) :
    (∀ a, c.update.memory.get? a ≠ none → ∃ d ∈ c :: rest,
      d.update.bytes = syncSequence ++ d.blocks.flatMap Block.encode ∧
        ∃ b ∈ d.blocks, a ∈ b.addresses) ∧
    (∀ d ∈ c :: rest, d.refreshed.Nodup ∧
      d.refreshed.length = min c.sender.settings.refreshCount c.update.memory.size ∧
      ∀ a, (d.sender.prepare d.memory).Changed a ↔
        d.memory.Changed a ∨ d.sender.settings.endAddress = some a ∨ a ∈ d.refreshed) ∧
    ∀ d : Round, d.positions.Nodup ∧
      d.positions.length = min d.sender.settings.refreshCount d.addresses.length ∧
      ∀ i ∈ d.positions, i < d.addresses.length := by
  have hsize : c.update.memory.size = c.addresses.length := by
    rw [Memory.size_eq, addresses_update]
  rw [hsize] at hrounds ⊢
  refine ⟨fun a ha => ?_, fun d hd => ?_, fun d => ⟨positions_nodup d.sender d.addresses.length,
    length_positions d.sender d.addresses.length, fun i hi => lt_of_mem_positions hi⟩⟩
  · have hmem : a ∈ c.addresses := by
      rw [← addresses_update]
      exact (Memory.mem_addresses_iff ..).mpr ha
    obtain ⟨p, hp, hget⟩ := List.mem_iff_getElem.mp hmem
    obtain ⟨d, hd, hposition⟩ := hseries.exists_position (le_turns_mul hcount hrounds) hp
    have hwords := (hseries.same d hd).1
    refine ⟨d, hd, exists_block_of_refreshed (mem_refreshed_iff.mpr ⟨p, hposition, ?_⟩)⟩
    rw [hwords, List.getElem?_eq_getElem hp, hget]
  · obtain ⟨hwords, hsettings⟩ := hseries.same d hd
    refine ⟨d.refreshed_nodup, ?_, d.changed_prepare_iff⟩
    rw [length_refreshed, turns, hwords, hsettings]

/-- Three words and the end word, two at a time, from a turn beyond the last of them; between the
two updates one of the words is changed. -/
theorem refresh_reaches_every_word_stale_cursor :
    let before : Round := ⟨{ settings := { refreshCount := 2 }, cursor := 7 },
      (((Memory.empty.store 0x0010 1).store 0x0020 2).store 0x0030 3).settle⟩
    let later : Round := ⟨before.update.sender, before.update.memory.store 0x0010 9⟩
    Series before [later] ∧ 1 ≤ before.sender.settings.refreshCount ∧
      (before.update.memory.size + before.sender.settings.refreshCount - 1) /
        before.sender.settings.refreshCount ≤ [later].length + 1 ∧
      ∃ d ∈ [before, later], d.update.bytes = syncSequence ++ d.blocks.flatMap Block.encode ∧
        ∃ b ∈ d.blocks, (0x0030 : Address) ∈ b.addresses := by
  intro before later
  have hseries : Series before [later] := .next (by decide +kernel) (by decide +kernel)
    (.single later)
  have hcount : 1 ≤ before.sender.settings.refreshCount := by decide
  have hrounds : (before.update.memory.size + before.sender.settings.refreshCount - 1) /
      before.sender.settings.refreshCount ≤ [later].length + 1 := by decide +kernel
  exact ⟨hseries, hcount, hrounds,
    (refresh_reaches_every_word before [later] hseries hcount hrounds).1 0x0030 (by decide +kernel)⟩

end Round

end Sender

end WordLink
