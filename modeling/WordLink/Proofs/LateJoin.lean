import WordLink.Proofs.MarkerBlock

/-!
# Joining in the middle of an update

Sync bytes may meet anywhere in an update: at the end of the sync sequence, in addresses, in counts
and in words. If all addresses are even there are never four of them but at the start, and so a
receiver that misses the start reports nothing until the next update (`late_join_silent`).
-/
namespace WordLink

/-! ### Calm stretches -/

/-- Fewer sync bytes ahead of a calm stretch leave it calm. -/
theorem Calm.mono {run fewer : Nat} {bytes : List UInt8} (h : Calm run bytes)
    (hlt : run < syncRunLength) (hle : fewer ≤ run) : Calm fewer bytes := by
  induction bytes generalizing run fewer with
  | nil => trivial
  | cons byte rest ih =>
    obtain ⟨hbyte, hrest⟩ := h
    by_cases hb : byte = syncByte
    · subst hb
      have hne : run + 1 ≠ syncRunLength := fun he => hbyte ⟨rfl, he⟩
      have hfewer : ¬ Completes fewer syncByte := fun hc => by
        have := hc.2
        omega
      rw [tallyByte_sync hbyte] at hrest
      refine ⟨hfewer, ?_⟩
      rw [tallyByte_sync hfewer]
      exact ih hrest (by omega) (by omega)
    · rw [tallyByte_other hb] at hrest
      refine ⟨not_completes_of_ne hb _, ?_⟩
      rw [tallyByte_other hb]
      exact ih hrest (by decide) (Nat.le_refl 0)

theorem Calm.drop {run : Nat} {bytes : List UInt8} (h : Calm run bytes)
    (hlt : run < syncRunLength) (k : Nat) : Calm 0 (bytes.drop k) := by
  induction bytes generalizing run k with
  | nil =>
    rw [List.drop_nil]
    trivial
  | cons byte rest ih =>
    cases k with
    | zero => exact h.mono hlt (Nat.zero_le run)
    | succ k => exact ih h.2 (tallyByte_lt hlt byte) k

theorem Calm.take {run : Nat} {bytes : List UInt8} (h : Calm run bytes) (n : Nat) :
    Calm run (bytes.take n) := by
  rw [← List.take_append_drop n bytes] at h
  exact (calm_append.mp h).1

theorem Calm.not_sync_isPrefix {bytes : List UInt8} (h : Calm 0 bytes) :
    ¬ syncSequence <+: bytes := by
  rintro ⟨rest, rfl⟩
  exact absurd (calm_append.mp h).1 (by decide)

/-! ### Blocks at even addresses -/

theorem low_ne_sync_of_even {a : Address} (h : a.toNat % 2 = 0) : Word.low a ≠ syncByte := by
  intro hl
  have hodd : (Word.low a).toNat = 85 := by rw [hl]; rfl
  rw [Word.toNat_low] at hodd
  omega

/-- The low byte of an even address ends the sync bytes before it, however many those are. -/
theorem calm_even {a : Address} (h : a.toNat % 2 = 0) (run : Nat) : Calm run (Word.bytes a) := by
  have hl := low_ne_sync_of_even h
  refine ⟨not_completes_of_ne hl run, ?_, trivial⟩
  rw [tallyByte_other hl, completes_iff]
  omega

theorem Block.calm_encodes_even {blocks : List Block} (h : ∀ b ∈ blocks, b.Clear)
    (heven : ∀ b ∈ blocks, b.address.toNat % 2 = 0) (run : Nat) :
    Calm run (blocks.flatMap Block.encode) := by
  induction blocks generalizing run with
  | nil => trivial
  | cons b blocks ih =>
    have hbody := (h b List.mem_cons_self).calm_body (tally run (Word.bytes b.address))
    rw [List.flatMap_cons, calm_append, encode_eq, calm_append]
    exact ⟨⟨calm_even (heven b List.mem_cons_self) run, hbody.1⟩,
      ih (fun c hc => h c (List.mem_cons_of_mem b hc))
        (fun c hc => heven c (List.mem_cons_of_mem b hc)) _⟩

namespace Sender

variable {s : Sender} {m : Memory}

theorem address_even (hm : ∀ a, m.get? a ≠ none → a.toNat % 2 = 0)
    (he : ∀ e, s.settings.endAddress = some e → e.toNat % 2 = 0) :
    ∀ b ∈ s.blocks m, b.address.toNat % 2 = 0 := by
  intro b hb
  obtain ⟨t, ht, rfl⟩ := List.mem_map.mp hb
  rcases (due_of_mem_spans ht).stored with hstored | hend
  · exact hm _ hstored
  · exact he _ hend

/-- Behind the first byte of an update no four sync bytes follow one another. The three that are
left of the sync sequence are the most that come before an address. -/
theorem calm_drop_update (hm : ∀ a, m.get? a ≠ none → a.toNat % 2 = 0)
    (he : ∀ e, s.settings.endAddress = some e → e.toNat % 2 = 0) {k : Nat} (hk : 1 ≤ k) :
    Calm 0 ((s.update m).bytes.drop k) := by
  obtain ⟨k, rfl⟩ : ∃ j, k = j + 1 := ⟨k - 1, by omega⟩
  by_cases hne : s.blocks m = []
  · rw [update_bytes_of_nil hne, List.drop_nil]
    trivial
  · have htail : Calm 0 ([syncByte, syncByte, syncByte] ++ (s.blocks m).flatMap Block.encode) :=
      calm_append.mpr ⟨by decide, Block.calm_encodes_even (blocks_clear s m) (address_even hm he) _⟩
    rw [update_bytes hne]
    exact htail.drop (by decide) k

theorem sync_isPrefix_update (hne : (s.update m).bytes ≠ []) :
    syncSequence <+: (s.update m).bytes := by
  have hblocks : s.blocks m ≠ [] := fun hnil => hne (update_bytes_of_nil hnil)
  rw [update_bytes hblocks]
  exact List.prefix_append _ _

/-- With even addresses only, a new receiver that misses the first byte of an update, or any more,
waits through the rest of it and reports nothing: four sync bytes in a row are at the start of the
update and nowhere else. -/
theorem late_join_silent (s : Sender) (m : Memory) (settings : Receiver.Settings)
    (hm : ∀ a, m.get? a ≠ none → a.toNat % 2 = 0)
    (he : ∀ e, s.settings.endAddress = some e → e.toNat % 2 = 0) :
    (∀ k n, 1 ≤ k →
      ((Receiver.ofSettings settings).push (((s.update m).bytes.drop k).take n)).1.phase =
          .awaitSync ∧
        ((Receiver.ofSettings settings).push (((s.update m).bytes.drop k).take n)).2 = []) ∧
    ∀ k, syncSequence <+: (s.update m).bytes.drop k ↔ k = 0 ∧ (s.update m).bytes ≠ [] := by
  constructor
  · intro k n hk
    exact Receiver.push_await_calm rfl ((calm_drop_update hm he hk).take n)
  · intro k
    constructor
    · intro hsync
      have hzero : k = 0 := Nat.eq_zero_of_not_pos fun hpos =>
        (calm_drop_update hm he hpos).not_sync_isPrefix hsync
      refine ⟨hzero, fun hnil => ?_⟩
      rw [hnil, List.drop_nil] at hsync
      exact absurd hsync (by decide)
    · rintro ⟨rfl, hne⟩
      exact sync_isPrefix_update hne

/-- Two sync words behind each other and a high address byte that is a sync byte, read from the
second byte of the sync sequence on. -/
theorem late_join_silent_sync_words :
    (∀ a, ((Memory.empty.store 0x5552 syncWord).store 0x5554 syncWord).get? a ≠ none →
      a.toNat % 2 = 0) ∧
    ((Receiver.ofSettings { markerBoundary := true }).push
      (((Sender.update { settings := { endAddress := some 0x5556 } }
        ((Memory.empty.store 0x5552 syncWord).store 0x5554 syncWord)).bytes.drop 1).take
          17)).1.phase = .awaitSync ∧
      ((Receiver.ofSettings { markerBoundary := true }).push
        (((Sender.update { settings := { endAddress := some 0x5556 } }
          ((Memory.empty.store 0x5552 syncWord).store 0x5554 syncWord)).bytes.drop 1).take 17)).2 =
            [] := by
  have heven : ∀ a, ((Memory.empty.store 0x5552 syncWord).store 0x5554 syncWord).get? a ≠ none →
      a.toNat % 2 = 0 := by
    intro a ha
    have hall : ((Memory.empty.store 0x5552 syncWord).store 0x5554 syncWord).addresses.all
        (fun a => a.toNat % 2 == 0) = true := by decide +kernel
    exact eq_of_beq (Memory.forall_of_all_addresses hall a ha)
  have hend : ∀ e, some (0x5556 : Address) = some e → e.toNat % 2 = 0 := by
    rintro e he
    cases he
    rfl
  exact ⟨heven, (late_join_silent { settings := { endAddress := some 0x5556 } } _
    { markerBoundary := true } heven hend).1 1 17 (Nat.le_refl 1)⟩

/-- An odd address may go on where the sync sequence ends. -/
example : syncSequence <+:
    (Sender.update { settings := .minimal } (Memory.empty.store 0x1055 7)).bytes.drop 1 := by
  decide +kernel

end Sender

end WordLink
