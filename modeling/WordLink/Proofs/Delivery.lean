import WordLink.Proofs.ClosedUpdate
import WordLink.Proofs.Connection
import WordLink.Proofs.LiveGauges

/-!
# From a memory to the gauges at the other end

The first update of a memory carries every word of it. If the end word is behind all others, the
block that closes the update has it, and so the update itself ends with a boundary: what the gauges
show then is the memory it came from (`first_update_shown`).
-/
namespace WordLink

namespace Memory

/-- Every word is flagged, as in a memory that has never been sent. -/
def Unsent (m : Memory) : Prop := ∀ a, m.get? a ≠ none → m.Changed a

theorem unsent_empty : empty.Unsent := fun _ h => absurd rfl h

theorem Unsent.store {m : Memory} (h : m.Unsent) (a : Address) (data : Word) :
    (m.store a data).Unsent := by
  intro b hb
  rw [Changed]
  rw [get?_store] at hb ⊢
  split
  · cases hc : m.get? a with
    | none => exact ⟨data, rfl⟩
    | some cell =>
      obtain ⟨old, hold⟩ := h a (by simp [hc])
      obtain rfl : cell = ⟨old, true⟩ := Option.some.inj (hc.symm.trans hold)
      rw [Cell.stored]
      split
      · exact ⟨old, rfl⟩
      · exact ⟨data, rfl⟩
  · rename_i hne
    rw [if_neg hne] at hb
    exact h b hb

theorem Unsent.mark {m : Memory} (h : m.Unsent) (a : Address) : (m.mark a).Unsent := by
  intro b hb
  rw [Changed]
  rw [get?_mark] at hb ⊢
  split
  · exact ⟨_, rfl⟩
  · rename_i hne
    rw [if_neg hne] at hb
    exact h b hb

theorem Unsent.storeBytes {m : Memory} (h : m.Unsent) (a : Address) (bytes : List UInt8) :
    (m.storeBytes a bytes).Unsent := by
  fun_induction Memory.storeBytes m a bytes with
  | case1 => exact h
  | case2 => exact h.store _ _
  | case3 m a low high rest ih => exact ih (h.store _ _)

theorem eq_store_of_setInteger {m n : Memory} {f : IntegerField} {value : Word}
    (h : m.setInteger f value = .ok n) :
    n = m.store f.address (f.insert (m.word f.address) value) := by
  unfold setInteger at h
  split at h
  · cases h
  · split at h
    · cases h
    · cases h
      rfl

theorem Unsent.edit {m : Memory} (h : m.Unsent) (e : Edit) : (e.apply m).Unsent := by
  cases e with
  | store a data => exact h.store a data
  | mark a => exact h.mark a
  | setInteger f value =>
    rw [Edit.apply]
    split
    · rename_i n hn
      rw [eq_store_of_setInteger hn]
      exact h.store _ _
    · exact h
  | setText f value => exact h.storeBytes _ _

/-- Whatever has been written into a new memory is still to be sent. -/
theorem unsent_edits (edits : List Edit) : (edits.foldl Edit.apply .empty).Unsent :=
  List.foldlRecOn (motive := Unsent) edits _ unsent_empty fun _ h e _ => h.edit e

end Memory

/-! ### The events of the update -/

namespace Sender

variable {s : Sender} {m : Memory} {e : Address}

/-- The update ends with a boundary, and its words are those of the memory. -/
theorem push_closed_update {r : Receiver} (hw : r.WellFormed) (hp : r.phase = .awaitSync)
    (hrun : r.syncRun = 0) (hr : r.settings.endAddress = some e) (hm : s.Unmarked m)
    (hs : s.settings.endAddress = some e) (hlast : ∀ a, m.get? a ≠ none → a ≤ e) :
    ∃ events : List Event, (r.push (s.update m).bytes).2 = events ++ [.boundary] ∧
      ∀ a data, .word a data ∈ events ↔ a ∈ s.sent m ∧ m.word a = data := by
  have hpush := (push_update_report hw (Or.inl hp) hrun hm (blocks_ne_nil hs)).2
  rw [reports_eq hs hlast hr, ← List.cons_append] at hpush
  refine ⟨_, hpush, fun a data => ?_⟩
  simp only [List.mem_cons, reduceCtorEq, false_or, List.mem_map, Event.word.injEq]
  constructor
  · rintro ⟨b, hb, rfl, hdata⟩
    exact ⟨hb, hdata⟩
  · rintro ⟨ha, hdata⟩
    exact ⟨a, ha, rfl, hdata⟩

/-- Whatever the memory holds after the update was in it. -/
theorem mem_sent_of_get? {a : Address} (hm : m.Unsent) (h : (s.update m).memory.get? a ≠ none) :
    a ∈ s.sent m := by
  refine mem_sent_of_due ?_
  rw [update, Memory.get?_settle, Ne, Option.map_eq_none_iff, prepare, get?_foldl_markAt] at h
  by_cases hturn : ∃ i ∈ s.positions (s.markEnd m).size, (s.markEnd m).addresses[i]? = some a
  · exact Or.inr (Or.inr hturn)
  · rw [if_neg hturn, get?_markEnd] at h
    by_cases hend : s.settings.endAddress = some a
    · exact Or.inr (Or.inl hend)
    · rw [if_neg hend] at h
      exact Or.inl (hm a h)

end Sender

/-! ### An image that takes the events in -/

namespace Image

theorem get?_foldl_other {a : Address} {events : List Event} (h : ∀ data, .word a data ∉ events)
    (i : Image) : ((events.foldl apply i).memory.get? a).map Cell.data =
      (i.memory.get? a).map Cell.data := by
  induction events generalizing i with
  | nil => rfl
  | cons event rest ih =>
    rw [List.foldl_cons, ih fun data hd => h data (List.mem_cons_of_mem _ hd)]
    cases event with
    | word b data =>
      have hne : a ≠ b := by
        rintro rfl
        exact h data List.mem_cons_self
      rw [apply, Memory.get?_store, if_neg hne]
    | boundary =>
      rw [apply, Memory.get?_settle, Option.map_map]
      rfl

theorem get?_foldl_word {a : Address} {w data : Word} {events : List Event}
    (hall : ∀ data, .word a data ∈ events → w = data) (hmem : .word a data ∈ events) (i : Image) :
    ((events.foldl apply i).memory.get? a).map Cell.data = some w := by
  induction events generalizing i with
  | nil => cases hmem
  | cons event rest ih =>
    have hrest : ∀ data, .word a data ∈ rest → w = data :=
      fun data hd => hall data (List.mem_cons_of_mem _ hd)
    by_cases hin : .word a data ∈ rest
    · exact ih hrest hin _
    · obtain rfl : .word a data = event := (List.mem_cons.mp hmem).resolve_right hin
      obtain rfl := hall data List.mem_cons_self
      have hother : ∀ d, .word a d ∉ rest := by
        intro d hd
        obtain rfl := hrest d hd
        exact hin hd
      rw [List.foldl_cons, get?_foldl_other hother, apply, Memory.get?_store, if_pos rfl,
        Option.map_some, Memory.data_stored]

end Image

/-- An image that takes in the words of a first update comes to hold what the memory holds. -/
theorem Sender.image_first_update {s : Sender} {m : Memory} (hunsent : m.Unsent)
    {events : List Event}
    (hwords : ∀ a data, .word a data ∈ events ↔ a ∈ s.sent m ∧ m.word a = data) :
    (∀ a, (s.update m).memory.get? a ≠ none →
      ((events.foldl Image.apply {}).memory.get? a).isSome) ∧
    ∀ a, (events.foldl Image.apply {}).memory.word a = m.word a := by
  have hsent : ∀ a ∈ s.sent m, ((events.foldl Image.apply {}).memory.get? a).map Cell.data =
      some (m.word a) :=
    fun a ha => Image.get?_foldl_word (fun _ hd => ((hwords ..).mp hd).2)
      ((hwords ..).mpr ⟨ha, rfl⟩) _
  constructor
  · intro a ha
    rw [← Option.isSome_map, hsent a (mem_sent_of_get? hunsent ha)]
    rfl
  · intro a
    by_cases ha : a ∈ s.sent m
    · rw [Memory.word_eq_getD, hsent a ha]
      rfl
    · -- a word that is not sent is not there
      have hnone : m.get? a = none := by
        by_cases h : m.get? a = none
        · exact h
        · exact absurd (mem_sent_of_due (Or.inl (hunsent a h))) ha
      have hother : ∀ data, .word a data ∉ events := fun data hd => ha ((hwords ..).mp hd).1
      rw [Memory.word_eq_getD, Image.get?_foldl_other hother, Memory.word, hnone]
      rfl

/-! ### What the gauges show -/

/-- The gauge has the value that the memory has for its field, if that has any word of it. -/
def Gauge.Shows (m : Memory) : Gauge → Prop
  | integer g => m.get? g.field.address ≠ none → g.value = some (m.integer g.field)
  | text g => m.holdsAny g.field.addresses = true →
      g.shown = some (m.text g.field) ∧ g.pending = false

/-- At a boundary a gauge that agrees with an image shows any memory with the same words, as long as
the image has got all of them. -/
theorem Gauge.Agrees.shows {g : Gauge} {image : Image} {m : Memory}
    (h : g.Agrees (image.apply .boundary) []) (hword : ∀ a, image.memory.word a = m.word a)
    (hget : ∀ a, m.get? a ≠ none → (image.memory.get? a).isSome) : g.Shows m := by
  cases g with
  | integer g =>
    intro hstored
    have h : g.value = _ := h
    obtain ⟨cell, hcell⟩ := Option.isSome_iff_exists.mp (hget _ hstored)
    rw [h, Image.apply, Memory.get?_settle, hcell, Memory.integer, Memory.word_settle, hword]
    rfl
  | text g =>
    intro hstored
    obtain ⟨a, ha, hsome⟩ := List.any_eq_true.mp hstored
    have hframe : image.memory.holdsAny g.field.addresses = true :=
      List.any_eq_true.mpr ⟨a, ha, hget a (Option.isSome_iff_ne_none.mp hsome)⟩
    constructor
    · rw [TextGauge.Agrees.shown h, Image.apply, if_pos hframe,
        Memory.text_congr fun a _ => hword a]
    · have hnone : ¬ g.pending = true := by
        rw [TextGauge.Agrees.pending h]
        simp
      simpa using hnone

namespace Session

/-- Once the first update of a memory has been fed to a new session, each gauge shows what the
memory holds for it. The image plays no part in this: the session need not have one. -/
theorem first_update_shown (s : Sender) {e : Address} (hs : s.settings.endAddress = some e)
    {m : Memory} (hunsent : m.Unsent) (hlast : ∀ a, m.get? a ≠ none → a ≤ e)
    (hmarker : m.get? markerAddress = none) (he : e ≠ markerAddress) (markerBoundary : Bool)
    (readSize : Nat) (withImage : Bool) {commands : List Command}
    (hquiet : ∀ c ∈ commands, c.quiet) {name : String} {mount : Mount}
    (hup : (start { markerBoundary, endAddress := some e } readSize withImage
      commands).panel.gauges.lookup name = some mount)
    (hkept : ((start { markerBoundary, endAddress := some e } readSize withImage commands).feed
      (s.update m).bytes).panel.gauges.lookup name = some mount) :
    ∃ first g : Gauge,
      (start { markerBoundary, endAddress := some e } readSize withImage
        commands).panel.gauge? name = some (first, mount.attached) ∧
      ((start { markerBoundary, endAddress := some e } readSize withImage commands).feed
        (s.update m).bytes).panel.gauge? name = some (g, mount.attached) ∧
      g.field = first.field ∧ g.Shows m ∧ g.Shows (s.update m).memory := by
  have hunmarked : s.Unmarked m := ⟨hmarker, by rw [hs]; exact fun h => he (Option.some.inj h)⟩
  obtain ⟨events, hevents, hwords⟩ := Sender.push_closed_update
    (r := .ofSettings { markerBoundary, endAddress := some e }) (Receiver.wellFormed_new _)
    rfl rfl rfl hunmarked hs hlast
  have hpanel : ((start { markerBoundary, endAddress := some e } readSize withImage commands).feed
      (s.update m).bytes).panel =
        (events ++ [Event.boundary]).foldl Panel.dispatch (Panel.setUp commands) := by
    rw [feed_eq, ← hevents]
    rfl
  rw [hpanel] at hkept
  obtain ⟨first, g, hfirst, hg, hfield, hagrees⟩ := Panel.setUp_agrees hquiet hup hkept
  rw [sinceBoundary_boundary, List.foldl_append] at hagrees
  obtain ⟨hget, hword⟩ := Sender.image_first_update hunsent hwords
  refine ⟨first, g, hfirst, hpanel ▸ hg, hfield, ?_, ?_⟩
  · exact hagrees.shows hword fun a ha => hget a fun hnone => ha (Sender.get?_of_update hnone)
  · exact hagrees.shows (fun a => (hword a).trans (Sender.word_update ..).symm) hget

/-- A text of odd length and an integer, sent to a session with a gauge for the text. -/
theorem first_update_shown_text : ∃ g : Gauge,
    ((start { endAddress := some 0x0024 } 1 false
        [.follow "title" (.text ⟨0x0020, 3⟩) true []]).feed
      (Sender.update { settings := { endAddress := some 0x0024 }, cursor := 9 }
        ([.setText ⟨0x0020, 3⟩ [0x41, 0x42, 0x43], .store 0x0010 7].foldl
          Edit.apply .empty)).bytes).panel.gauge? "title" = some (g, false) ∧
      g.Shows ([.setText ⟨0x0020, 3⟩ [0x41, 0x42, 0x43], .store 0x0010 7].foldl
        Edit.apply .empty) := by
  have hquiet : ∀ c ∈ [Command.follow "title" (.text ⟨0x0020, 3⟩) true []], c.quiet := by decide
  have hup : (Panel.setUp [.follow "title" (.text ⟨0x0020, 3⟩) true []]).gauges.lookup "title" =
      some ⟨0, false, 0, 2, some 2⟩ := by
    rw [Panel.setUp_quiet hquiet]
    rfl
  have hscriptless : (Panel.setUp [.follow "title" (.text ⟨0x0020, 3⟩) true []]).Scriptless := by
    rw [Panel.setUp_quiet hquiet]
    decide
  have hkept (bytes : List UInt8) : ((start { endAddress := some 0x0024 } 1 false
      [.follow "title" (.text ⟨0x0020, 3⟩) true []]).feed bytes).panel.gauges.lookup "title" =
        some ⟨0, false, 0, 2, some 2⟩ := by
    have hgauges := gauges_foldl_feed { endAddress := some 0x0024 } 1 false hscriptless [bytes]
    rw [List.foldl_cons, List.foldl_nil] at hgauges
    rwa [hgauges]
  have hlast : ∀ a, (List.foldl Edit.apply .empty
      [.setText ⟨0x0020, 3⟩ [0x41, 0x42, 0x43], .store 0x0010 7]).get? a ≠ none → a ≤ 0x0024 := by
    intro a ha
    have hall : (List.foldl Edit.apply .empty [.setText ⟨0x0020, 3⟩ [0x41, 0x42, 0x43],
        .store 0x0010 7]).addresses.all (fun b => decide (b ≤ 0x0024)) = true := by
      decide +kernel
    exact of_decide_eq_true (List.all_eq_true.mp hall a ((Memory.mem_addresses_iff ..).mpr ha))
  obtain ⟨-, g, -, hg, -, hshows, -⟩ := first_update_shown
    { settings := { endAddress := some 0x0024 }, cursor := 9 } rfl (Memory.unsent_edits _) hlast
    (by decide +kernel) (by decide) false 1 false hquiet hup (hkept _)
  exact ⟨g, hg, hshows⟩

end Session

end WordLink
