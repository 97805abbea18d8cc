import WordLink.Proofs.RoundTrip

/-!
# Updates between two boundaries

A sender and a receiver may share the end word. If no other word is behind it, it is the last word
of the last block, however the blocks are laid out, and so the block that the receiver closes with a
boundary is the one that ends the update (`update_framed`).
-/
namespace WordLink

theorem Memory.le_of_all_addresses {m : Memory} {e : Address}
    (h : m.addresses.all (fun a => decide (a ≤ e)) = true) : ∀ a, m.get? a ≠ none → a ≤ e := by
  intro a ha
  exact of_decide_eq_true (forall_of_all_addresses h a ha)

theorem Span.report_block {settings : Receiver.Settings} {e : Address}
    (h : settings.endAddress = some e) (m : Memory) (s : Span) :
    (s.block m).report settings = (s.block m).events ++ boundaryIf (decide (e ∈ s.addresses)) := by
  have hany : ((s.block m).events.any fun ev => settings.endAddress == ev.address?) =
      decide (e ∈ s.addresses) := by
    rw [Span.block_events, List.any_map, Bool.eq_iff_iff, List.any_eq_true, decide_eq_true_iff]
    constructor
    · rintro ⟨a, ha, heq⟩
      rw [h] at heq
      obtain rfl : e = a := by simpa using heq
      exact ha
    · intro he
      exact ⟨e, he, by simp [h]⟩
  rw [Block.report, hany]

namespace Sender

variable {s : Sender} {m : Memory} {e : Address} {settings : Receiver.Settings}

theorem Due.le (hs : s.settings.endAddress = some e) (hlast : ∀ a, m.get? a ≠ none → a ≤ e)
    {a : Address} (h : s.Due m a) : a ≤ e := by
  rcases h.stored with hstored | hend
  · exact hlast _ hstored
  · rw [hs] at hend
    exact UInt16.le_of_eq (Option.some.inj hend).symm

/-- The last span ends with the end word, if no other word is behind it. -/
theorem exists_last_span (hs : s.settings.endAddress = some e)
    (hlast : ∀ a, m.get? a ≠ none → a ≤ e) :
    ∃ before t, s.spans m = before ++ [t] ∧ t.Sound (s.prepare m) ∧ t.last = e := by
  have hasc := (s.prepare m).dirtyAddresses_ascending
  have hmem := (mem_dirtyAddresses_prepare s m e).mpr (Or.inr (Or.inl hs))
  obtain ⟨below, above, hsplit⟩ := List.append_of_mem hmem
  rw [hsplit] at hasc
  have habove : above = [] := by
    refine List.eq_nil_iff_forall_not_mem.mpr fun a ha => ?_
    have hdue : s.Due m a := (mem_dirtyAddresses_prepare s m a).mp (by simp [hsplit, ha])
    have hlt : e < a := List.rel_of_pairwise_cons (List.pairwise_append.mp hasc).2.1 ha
    exact absurd hlt (UInt16.not_lt.mpr (hdue.le hs hlast))
  subst habove
  obtain ⟨before, t, hspans, ht⟩ :=
    (s.prepare m).exists_spans_append s.settings.mergeGap hasc
  exact ⟨before, t, by rw [spans, hsplit, hspans, Span.lay], ht⟩

/-- The end word is sent last. -/
theorem getLast?_sent (hs : s.settings.endAddress = some e)
    (hlast : ∀ a, m.get? a ≠ none → a ≤ e) : (s.sent m).getLast? = some e := by
  obtain ⟨before, t, hspans, ht, hend⟩ := exists_last_span hs hlast
  have hsent : s.sent m = before.flatMap Span.addresses ++ t.addresses := by
    rw [sent, hspans, List.flatMap_append]
    simp
  rw [hsent, List.getLast?_append, Span.getLast?_addresses ht, hend]
  rfl

/-- Only the block that ends the update has the end word, and so only its end is a boundary. -/
theorem reports_eq (hs : s.settings.endAddress = some e)
    (hlast : ∀ a, m.get? a ≠ none → a ≤ e) (hr : settings.endAddress = some e) :
    (s.blocks m).flatMap (Block.report · settings) =
      (s.sent m).map (fun a => .word a (m.word a)) ++ [.boundary] := by
  obtain ⟨before, t, hspans, ht, hend⟩ := exists_last_span hs hlast
  have het : e ∈ t.addresses := hend ▸ Span.last_mem ht
  have hopen : ∀ u ∈ before, (u.block (s.prepare m)).report settings =
      (u.block (s.prepare m)).events := by
    intro u hu
    have hnot : e ∉ u.addresses := by
      intro heu
      have hasc := sent_ascending s m
      rw [sent, hspans, List.flatMap_append] at hasc
      have hlt := (List.pairwise_append.mp hasc).2.2 e (List.mem_flatMap.mpr ⟨u, hu, heu⟩) e
        (by simpa using het)
      exact UInt16.lt_irrefl e hlt
    rw [Span.report_block hr, decide_eq_false hnot]
    exact List.append_nil _
  have hclosed : (t.block (s.prepare m)).report settings =
      (t.block (s.prepare m)).events ++ [.boundary] := by
    rw [Span.report_block hr, decide_eq_true het]
    rfl
  calc (s.blocks m).flatMap (Block.report · settings)
      = before.flatMap (fun u => (u.block (s.prepare m)).report settings) ++
          (t.block (s.prepare m)).report settings := by simp [blocks, hspans, List.flatMap_map]
    _ = before.flatMap (fun u => (u.block (s.prepare m)).events) ++
          ((t.block (s.prepare m)).events ++ [.boundary]) := by
        rw [hclosed, List.flatMap_def, List.map_congr_left hopen, ← List.flatMap_def]
    _ = (s.blocks m).flatMap Block.events ++ [.boundary] := by
        simp [blocks, hspans, List.flatMap_map]
    _ = (s.sent m).map (fun a => .word a (m.word a)) ++ [.boundary] := by rw [blocks_events]

theorem blocks_ne_nil (hs : s.settings.endAddress = some e) : s.blocks m ≠ [] :=
  fun hnil => not_due_of_nil hnil e (Or.inr (Or.inl hs))

/-- For a receiver with the same end word an update is never empty: it is one boundary, then words
in order, all that are due among them and the end word last, and one boundary. -/
theorem update_framed (s : Sender) (m : Memory) (r : Receiver) (e : Address) (hr : r.Reachable)
    (hs : s.settings.endAddress = some e) (hend : r.settings.endAddress = some e)
    (hp : r.phase = .awaitSync ∨ r.phase = .addressLow) (hrun : r.syncRun = 0)
    (he : e ≠ markerAddress) (hm : m.get? markerAddress = none)
    (hlast : ∀ a, m.get? a ≠ none → a ≤ e) :
    (s.update m).bytes ≠ [] ∧ ∃ before : List Address,
      (r.push (s.update m).bytes).2 =
        .boundary :: (before ++ [e]).map (fun a => .word a (m.word a)) ++ [.boundary] ∧
      (before ++ [e]).Pairwise (· < ·) ∧ (∀ a, s.Due m a → a ∈ before ++ [e]) ∧
      (r.push (s.update m).bytes).1.phase = .addressLow := by
  have hunmarked : s.Unmarked m := ⟨hm, by rw [hs]; exact fun h => he (Option.some.inj h)⟩
  have hne : s.blocks m ≠ [] := blocks_ne_nil hs
  obtain ⟨hready, hevents⟩ := push_update_report hr.wellFormed hp hrun hunmarked hne
  rw [reports_eq hs hlast hend] at hevents
  obtain ⟨before, hsent⟩ := List.getLast?_eq_some_iff.mp (getLast?_sent hs hlast)
  constructor
  · rw [update_bytes hne]
    exact List.append_ne_nil_of_left_ne_nil (List.cons_ne_nil _ _) _
  · refine ⟨before, ?_, ?_, ?_, hready.phase⟩
    · rw [hevents, hsent]
      rfl
    · rw [← hsent]
      exact sent_ascending s m
    · intro a ha
      rw [← hsent]
      exact mem_sent_of_due ha

/-- An end word that is a sync word starts a block of its own beside the word before it. -/
theorem update_framed_sync_word : ∃ before : List Address,
    ((Receiver.ofSettings { markerBoundary := true, endAddress := some 0x0010 }).push
      (Sender.update { settings := { endAddress := some 0x0010 } }
        ((Memory.empty.store 0x000E 7).store 0x0010 syncWord)).bytes).2 =
      .boundary :: (before ++ [0x0010]).map (fun a =>
        .word a (((Memory.empty.store 0x000E 7).store 0x0010 syncWord).word a)) ++ [.boundary] := by
  obtain ⟨-, before, hevents, -⟩ := update_framed { settings := { endAddress := some 0x0010 } }
    ((Memory.empty.store 0x000E 7).store 0x0010 syncWord) _ 0x0010
    (.new { markerBoundary := true, endAddress := some 0x0010 }) rfl rfl (Or.inl rfl) rfl
    (by decide) (by decide +kernel) (Memory.le_of_all_addresses (by decide +kernel))
  exact ⟨before, hevents⟩

end Sender

end WordLink
