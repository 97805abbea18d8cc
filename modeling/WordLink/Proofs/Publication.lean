import WordLink.Proofs.Frames
import WordLink.Proofs.LiveGauges
import WordLink.Proofs.Ownership
import WordLink.Proofs.SilentCourse

/-!
# Texts are published whole

The words of a text come in any order and over any number of frames. A text gauge announces a new
text at a boundary if some of its words have come since the boundary before, and never else; what it
announces is made of the latest word for each place, and what it shows is what it has announced last
(`text_published`).
-/
namespace WordLink

/-! ### What there is to be published -/

namespace TextField

variable {f : TextField} {events : List Event}

/-- The byte for a place of the text in the latest word for it, 0 if none has come. -/
def byteIn (f : TextField) (events : List Event) (j : Nat) : UInt8 :=
  let word := (latest? events (f.address + UInt16.ofNat (2 * (j / 2)))).getD 0
  if j % 2 = 0 then word.low else word.high

def reading (f : TextField) (events : List Event) : List UInt8 :=
  terminated ((List.range f.length.toNat).map (f.byteIn events))

/-- A word of the text has come since the last boundary. -/
def touched (f : TextField) (events : List Event) : Bool :=
  f.addresses.any fun a => (sinceBoundary events).any fun e => e.address? == some a

/-- What is to be published when the event comes after those of the past. -/
def publication? (f : TextField) (past : List Event) : Event → Option (List UInt8)
  | .boundary => if f.touched past then some (f.reading past) else none
  | .word _ _ => none

def publicationsAfter (f : TextField) (past : List Event) : List Event → List (List UInt8)
  | [] => []
  | event :: rest =>
    (f.publication? past event).toList ++ f.publicationsAfter (past ++ [event]) rest

/-- All that is to be published, the first one first. -/
def publications (f : TextField) (events : List Event) : List (List UInt8) :=
  f.publicationsAfter [] events

/-- The event is a word of the text or a boundary. -/
def Concerns (f : TextField) : Event → Prop
  | .word a _ => a ∈ f.addresses
  | .boundary => True

theorem touched_iff : f.touched events = true ↔
    ∃ a ∈ f.addresses, ∃ data, .word a data ∈ sinceBoundary events := by
  rw [touched, List.any_eq_true]
  refine exists_congr fun a => and_congr_right fun _ => ?_
  rw [List.any_eq_true]
  constructor
  · rintro ⟨event, hmem, ha⟩
    cases event with
    | word b data =>
      obtain rfl : b = a := by simpa [Event.address?] using ha
      exact ⟨data, hmem⟩
    | boundary => simp [Event.address?] at ha
  · rintro ⟨data, hmem⟩
    exact ⟨_, hmem, by simp⟩

theorem publicationsAfter_concat (f : TextField) (past events : List Event) (event : Event) :
    f.publicationsAfter past (events ++ [event]) =
      f.publicationsAfter past events ++ (f.publication? (past ++ events) event).toList := by
  induction events generalizing past with
  | nil => simp [publicationsAfter]
  | cons first rest ih => simp [publicationsAfter, ih]

theorem publications_concat (f : TextField) (events : List Event) (event : Event) :
    f.publications (events ++ [event]) =
      f.publications events ++ (f.publication? events event).toList :=
  f.publicationsAfter_concat [] events event

theorem publications_word (f : TextField) (events : List Event) (a : Address) (data : Word) :
    f.publications (events ++ [.word a data]) = f.publications events := by
  rw [publications_concat]
  exact List.append_nil _

theorem byteAt_foldl_apply (f : TextField) (events : List Event) :
    (events.foldl Image.apply {}).memory.byteAt f = f.byteIn events := by
  funext j
  have hlatest := (Image.follows_new.foldl events).memory.latest
  simp only [Memory.byteAt, byteIn, Memory.word_eq_getD, hlatest, List.nil_append]

end TextField

/-! ### The gauge -/

namespace TextGauge

variable {g : TextGauge} {f : TextField} {events : List Event} {event : Event}

def hear (event : Event) (g : TextGauge) : TextGauge :=
  match event with
  | .word address data => g.see address data
  | .boundary => g.publish

/-- The gauge has been told of all events that concern it. -/
structure Abreast (g : TextGauge) (f : TextField) (events : List Event) : Prop where
  field : g.field = f
  tracks : g.Tracks (events.foldl Image.apply {}) (sinceBoundary events)
  shown : g.shown = (f.publications events).getLast?

theorem abreast_new (f : TextField) : (ofField f).Abreast f [] := ⟨rfl, tracks_ofField f, rfl⟩

theorem Abreast.pending (h : g.Abreast f events) : g.pending = f.touched events := by
  rw [Bool.eq_iff_iff, h.tracks.pending, h.field, TextField.touched_iff]

theorem Abreast.collected (h : g.Abreast f events) : g.collected = f.reading events := by
  rw [TextGauge.collected, h.tracks.slots, h.field, f.byteAt_foldl_apply, TextField.reading]

theorem Abreast.publication_boundary (h : g.Abreast f events) : f.publication? events .boundary =
    if g.pending then some g.collected else none := by
  rw [TextField.publication?, h.pending, h.collected]

theorem Abreast.ignore (h : g.Abreast f events) (hc : ¬ f.Concerns event) :
    g.Abreast f (events ++ [event]) := by
  cases event with
  | word a data =>
    have ha : a ∉ g.field.addresses := h.field ▸ hc
    refine ⟨h.field, ?_, ?_⟩
    · rw [List.foldl_append]
      exact h.tracks.other ha data
    · rw [f.publications_word, h.shown]
  | boundary => exact absurd trivial hc

theorem Abreast.hear (h : g.Abreast f events) (hc : f.Concerns event) :
    (g.hear event).Abreast f (events ++ [event]) := by
  cases event with
  | word a data =>
    have ha : a ∈ g.field.addresses := h.field ▸ hc
    refine ⟨(g.field_see a data).trans h.field, ?_, ?_⟩
    · rw [List.foldl_append]
      exact h.tracks.see ha data
    · rw [f.publications_word, ← h.shown, TextGauge.hear, see]
      split <;> rfl
  | boundary =>
    refine ⟨g.field_publish.trans h.field, ?_, ?_⟩
    · rw [List.foldl_append]
      exact h.tracks.publish
    · rw [f.publications_concat, h.publication_boundary, TextGauge.hear, publish]
      split
      · simp
      · simp [h.shown]

end TextGauge

/-! ### Its listener -/

namespace Listener

variable {l : Listener} {name : String} {g : TextGauge} {f : TextField} {events : List Event}
  {event : Event}

/-- The listener is there for the gauge and writes down what it announces. -/
structure Announces (l : Listener) (name : String) (g : TextGauge) : Prop where
  name : l.name = name
  outspoken : l.outspoken = true
  role : l.role = .gauge (.text g)

theorem Announces.hear (h : l.Announces name g) (event : Event) :
    (l.hear event).Announces name (g.hear event) := by
  refine ⟨h.name, h.outspoken, ?_⟩
  simp only [Listener.hear, h.role]
  cases event <;> rfl

theorem Announces.entry (h : l.Announces name g) (ha : g.Abreast f events) (event : Event) :
    (l.remark? event).toList = (f.publication? events event).toList.map (.text name) := by
  cases event with
  | word a data => simp [remark?, h.role, TextField.publication?]
  | boundary =>
    rw [ha.publication_boundary]
    simp only [remark?, h.role, h.outspoken, h.name, Bool.true_and]
    split <;> rfl

end Listener

/-! ### The panel -/

namespace Panel

variable {p q r : Panel} {m : Mount} {name : String} {f : TextField} {g : TextGauge}
  {events : List Event} {event : Event} {steps : List Moment}

/-- The gauge is there and has been told of the events. -/
structure OnAir (p : Panel) (m : Mount) (name : String) (f : TextField) (events : List Event)
    (g : TextGauge) : Prop where
  exists_listener : ∃ l, p.listeners[m.listener]? = some l ∧ l.Announces name g
  abreast : g.Abreast f events

/-- What may become of a panel while it is told of events. No listener dispatches anything itself,
but else they do what they like; and so may anyone between two events. -/
inductive Told (p : Panel) : List Event → Panel → Prop where
  | start : Told p [] p
  | dispatch {q r : Panel} {events : List Event} {event : Event} {steps : List Moment}
      (h : Told p events q) (hc : q.Course ((q.calls event).map (0, ·)) steps r)
      (hs : ∀ x ∈ steps, x.task.Silent) : Told p (events ++ [event]) r
  | perform {q : Panel} {events : List Event} (h : Told p events q) (c : Command) :
      Told p events (q.perform c).1

theorem OnAir.gaugeAt (h : p.OnAir m name f events g) : p.gaugeAt m = some (.text g) := by
  obtain ⟨l, hl, ha⟩ := h.exists_listener
  rw [gaugeAt_eq, hl, Option.bind_some, Listener.gauge?, ha.role]

theorem OnAir.perform (h : p.OnAir m name f events g) (c : Command) :
    (p.perform c).1.OnAir m name f events g := by
  obtain ⟨l, hl, ha⟩ := h.exists_listener
  exact ⟨⟨l, listeners_perform hl c, ha⟩, h.abreast⟩

/-- Whatever else is done, a gauge that is told nothing stays as it is and announces nothing. -/
theorem OnAir.unheard (h : p.OnAir m name f events g) (hlinked : p.Linked steps)
    (hnone : steps.filterMap (·.task.heardBy m.listener) = []) :
    (p.replay steps).OnAir m name f events g ∧ steps.flatMap (Moment.writes m.listener) = [] := by
  obtain ⟨l, hl, ha⟩ := h.exists_listener
  obtain ⟨hlistener, hwrites⟩ := hlinked.listener hl
  rw [hnone] at hlistener hwrites
  exact ⟨⟨⟨l, hlistener, ha⟩, h.abreast⟩, hwrites⟩

theorem OnAir.heard (h : p.OnAir m name f events g) (hlinked : p.Linked steps)
    (hone : steps.filterMap (·.task.heardBy m.listener) = [event]) (hc : f.Concerns event) :
    (p.replay steps).OnAir m name f (events ++ [event]) (g.hear event) ∧
      steps.flatMap (Moment.writes m.listener) =
        (f.publication? events event).toList.map (.text name) := by
  obtain ⟨l, hl, ha⟩ := h.exists_listener
  obtain ⟨hlistener, hwrites⟩ := hlinked.listener hl
  rw [hone] at hlistener hwrites
  refine ⟨⟨⟨l.hear event, hlistener, ha.hear event⟩, h.abreast.hear hc⟩, ?_⟩
  rw [hwrites, Listener.speech, Listener.speech, List.append_nil, ha.entry h.abreast event]

/-- A dispatch tells a gauge of the event once, if it concerns it. -/
theorem Stands.heard_calls (h : p.Stands m (.text g)) (event : Event) :
    (p.calls event).filterMap (Task.heardBy m.listener) = [] ∧ ¬ g.field.Concerns event ∨
      (p.calls event).filterMap (Task.heardBy m.listener) = [event] ∧ g.field.Concerns event := by
  cases event with
  | word a data =>
    rw [h.heard_word]
    by_cases ha : a ∈ g.field.addresses
    · exact Or.inr ⟨if_pos ha, ha⟩
    · exact Or.inl ⟨if_neg ha, ha⟩
  | boundary => exact Or.inr ⟨h.heard_boundary, trivial⟩

theorem OnAir.heard_dispatch (h : p.OnAir m name f events g) (hstands : p.Stands m (.text g))
    (hc : p.Course ((p.calls event).map (0, ·)) steps q) (hs : ∀ x ∈ steps, x.task.Silent) :
    steps.filterMap (·.task.heardBy m.listener) = [] ∧ ¬ f.Concerns event ∨
      steps.filterMap (·.task.heardBy m.listener) = [event] ∧ f.Concerns event := by
  rw [hc.heard_calls hs, ← h.abreast.field]
  exact hstands.heard_calls event

/-- A dispatch leaves the gauge abreast of its event, and the gauge has announced what there was to
be published. -/
theorem OnAir.dispatch (h : p.OnAir m name f events g) (hstands : p.Stands m (.text g))
    (hc : p.Course ((p.calls event).map (0, ·)) steps q) (hs : ∀ x ∈ steps, x.task.Silent) :
    (∃ g', q.OnAir m name f (events ++ [event]) g') ∧
      steps.flatMap (Moment.writes m.listener) =
        (f.publication? events event).toList.map (.text name) := by
  rw [hc.end_eq]
  rcases h.heard_dispatch hstands hc hs with ⟨hnone, hnot⟩ | ⟨hone, hconcerns⟩
  · obtain ⟨hair, hwrites⟩ := h.unheard hc.linked hnone
    have hnothing : f.publication? events event = none := by
      cases event with
      | word a data => rfl
      | boundary => exact absurd trivial hnot
    exact ⟨⟨g, hair.exists_listener, hair.abreast.ignore hnot⟩, by rw [hwrites, hnothing]; rfl⟩
  · obtain ⟨hair, hwrites⟩ := h.heard hc.linked hone hconcerns
    exact ⟨⟨_, hair⟩, hwrites⟩

/-- In the middle of a dispatch the gauge shows what it has announced last, and an event that does
not concern it leaves it alone. -/
theorem OnAir.during {before after : List Moment} (h : p.OnAir m name f events g)
    (hstands : p.Stands m (.text g))
    (hc : p.Course ((p.calls event).map (0, ·)) (before ++ after) q)
    (hs : ∀ x ∈ before ++ after, x.task.Silent) : ∃ g' : TextGauge,
      (p.replay before).gaugeAt m = some (.text g') ∧
      g'.shown.map (Entry.text name) = ((f.publications events).map (Entry.text name) ++
        before.flatMap (Moment.writes m.listener)).getLast? ∧
      (¬ f.Concerns event → g' = g) := by
  -- the gauge is called once at most, and by now it has been or has not
  have hwhole := h.heard_dispatch hstands hc hs
  rw [List.filterMap_append] at hwhole
  have hpart : before.filterMap (·.task.heardBy m.listener) = [] ∨
      before.filterMap (·.task.heardBy m.listener) = [event] ∧ f.Concerns event := by
    rcases hwhole with ⟨hnone, -⟩ | ⟨hone, hconcerns⟩
    · exact Or.inl (List.append_eq_nil_iff.mp hnone).1
    · rcases List.append_eq_singleton_iff.mp hone with ⟨hbefore, -⟩ | ⟨hbefore, -⟩
      · exact Or.inl hbefore
      · exact Or.inr ⟨hbefore, hconcerns⟩
  rcases hpart with hnone | ⟨hone, hconcerns⟩
  · obtain ⟨hair, hwrites⟩ := h.unheard hc.linked.left hnone
    refine ⟨g, hair.gaugeAt, ?_, fun _ => rfl⟩
    rw [hwrites, List.append_nil, h.abreast.shown, List.getLast?_map]
  · obtain ⟨hair, hwrites⟩ := h.heard hc.linked.left hone hconcerns
    refine ⟨_, hair.gaugeAt, ?_, fun hnot => absurd hconcerns hnot⟩
    rw [hwrites, ← List.map_append, ← f.publications_concat, hair.abreast.shown, List.getLast?_map]

/-! ### From one event to the next -/

theorem Told.orderly (h : p.Told events q) (ho : p.Orderly []) : q.Orderly [] := by
  induction h with
  | start => exact ho
  | dispatch h hc hs ih => exact hc.orderly ih
  | perform h c ih => exact ih.perform c

theorem Told.onward (h : p.Told events q) : p.Onward q := by
  induction h with
  | start => exact Onward.of_eq rfl rfl
  | dispatch h hc hs ih => exact ih.trans hc.onward
  | perform h c ih => exact ih.trans (effect_perform _ c).onward

/-- Events that are dispatched one after the other on a panel whose scripts dispatch nothing. -/
theorem Told.foldl_dispatch (h : p.Told events q) (hq : q.Quiet) (more : List Event) :
    p.Told (events ++ more) (more.foldl Panel.dispatch q) := by
  induction more generalizing q events with
  | nil => rwa [List.append_nil]
  | cons event rest ih =>
    obtain ⟨steps, hc, hs⟩ := hq.exists_course_dispatch event
    have hrest := ih (h.dispatch hc hs) (hq.dispatch event)
    rwa [List.append_assoc] at hrest

theorem OnAir.stands (h : p.OnAir m name f events g) (ho : p.Orderly [])
    (hup : p.gauges.lookup name = some m) : p.Stands m (.text g) := by
  obtain ⟨g', hstands⟩ := ho.stands_of_lookup hup
  obtain rfl : g' = .text g := Option.some.inj (hstands.gauge.symm.trans h.gaugeAt)
  exact hstands

theorem OnAir.told (h : p.OnAir m name f [] g) (ho : p.Orderly []) (ht : p.Told events q)
    (hup : q.gauges.lookup name = some m) : ∃ g', q.OnAir m name f events g' := by
  have hlt := lt_size_of_gaugeAt h.gaugeAt
  induction ht with
  | start => exact ⟨g, h⟩
  | @dispatch q r events event steps ht hc hs ih =>
    have hq := hc.onward.lookup name m (Nat.lt_of_lt_of_le hlt ht.onward.size_le) hup
    obtain ⟨g', hair⟩ := ih hq
    exact (hair.dispatch (hair.stands (ht.orderly ho) hq) hc hs).1
  | @perform q events ht c ih =>
    have honward := (effect_perform q c).onward
    obtain ⟨g', hair⟩ := ih (honward.lookup name m (Nat.lt_of_lt_of_le hlt ht.onward.size_le) hup)
    exact ⟨g', hair.perform c⟩

/-- A valid text is put up, and its gauge is on the air. -/
theorem perform_follow_text (p : Panel) (hf : f.check = .ok ()) (name : String)
    (script : List (Stretch Command)) : ∃ q m,
      p.perform (.follow name (.text f) true script) = (q, .nothing) ∧
      q.gauges.lookup name = some m ∧ m.attached = false ∧ q.OnAir m name f [] (.ofField f) := by
  have hfollow : p.perform (.follow name (.text f) true script) =
      ((p.mount { name, script } (.text (.ofField f)) false).1.putUp name
        (p.mount { name, script } (.text (.ofField f)) false).2, .nothing) := by
    simp [Panel.perform, Panel.follow, Field.gauge, hf]
  refine ⟨_, (p.mount { name, script } (.text (.ofField f)) false).2, hfollow,
    List.lookup_cons_self, rfl,
    ⟨{ name, script, role := .gauge (.text (.ofField f)) }, ?_, ⟨rfl, rfl, rfl⟩⟩,
    TextGauge.abreast_new f⟩
  rw [listeners_putUp, listeners_mount]
  exact Array.getElem?_push_size

/-- A text gauge with someone to announce to is put up on any panel and told of words and boundaries
from then on, among listeners that dispatch nothing. As long as it is up, it shows what there was to
be published last, and a text is pending if one of its words has come since the last boundary. The
next event makes it announce what there is to be published then, once, and nothing else; at every
point of that dispatch it shows what it has announced last; and a word that is none of its own
leaves it as it is. -/
theorem text_published (tasks : List Task) (f : TextField) (hf : f.check = .ok ())
    (name : String) (script : List (Stretch Command)) :
    let p := ({} : Panel).pass tasks
    let q := (p.perform (.follow name (.text f) true script)).1
    (p.perform (.follow name (.text f) true script)).2 = .nothing ∧
    ∃ m, q.gauges.lookup name = some m ∧
      ∀ events r, q.Told events r → r.gauges.lookup name = some m →
        ∃ g : TextGauge, r.gauge? name = some (.text g, false) ∧ g.field = f ∧
          g.shown = (f.publications events).getLast? ∧
          (g.pending = true ↔ ∃ a ∈ f.addresses, ∃ data, .word a data ∈ sinceBoundary events) ∧
          ∀ event steps s, r.Course ((r.calls event).map (0, ·)) steps s →
            (∀ x ∈ steps, x.task.Silent) →
            steps.flatMap (Moment.writes m.listener) =
              (f.publication? events event).toList.map (.text name) ∧
            ∀ before after, steps = before ++ after → ∃ g' : TextGauge,
              (r.replay before).gaugeAt m = some (.text g') ∧
              g'.shown.map (Entry.text name) = ((f.publications events).map (Entry.text name) ++
                before.flatMap (Moment.writes m.listener)).getLast? ∧
              ∀ a data, event = .word a data → a ∉ f.addresses → g' = g := by
  intro p q
  obtain ⟨q', m, hperform, hup, hattached, hair⟩ := p.perform_follow_text hf name script
  have hp : p.Orderly [] := (accounted_new.pass tasks).orderly
  have hq : q.Orderly [] := hp.perform _
  obtain rfl : q = q' := congrArg Prod.fst hperform
  refine ⟨congrArg Prod.snd hperform, m, hup, fun events r ht hkept => ?_⟩
  obtain ⟨g, hg⟩ := hair.told hq ht hkept
  have hstands := hg.stands (ht.orderly hq) hkept
  refine ⟨g, ?_, hg.abreast.field, hg.abreast.shown, ?_, fun event steps s hc hs => ⟨?_, ?_⟩⟩
  · rw [← hattached]
    exact gauge?_eq hkept hg.gaugeAt
  · rw [hg.abreast.pending, TextField.touched_iff]
  · exact (hg.dispatch hstands hc hs).2
  · rintro before after rfl
    obtain ⟨g', hgauge, hshown, hsame⟩ := hg.during hstands hc hs
    refine ⟨g', hgauge, hshown, ?_⟩
    rintro a data rfl ha
    exact hsame ha

/-- Three bytes in two words, the second word first, and a word at an odd address between them. -/
theorem text_published_title :
    let f : TextField := ⟨0x0020, 3⟩
    let q := (({} : Panel).perform (.follow "title" (.text f) true [])).1
    let events : List Event := [.word 0x0022 0x7743, .word 0x0021 0x5A5A, .word 0x0020 0x4241]
    let r := events.foldl Panel.dispatch q
    f.check = .ok () ∧ q.Told events r ∧ ∃ steps,
      r.Course ((r.calls .boundary).map (0, ·)) steps (r.dispatch .boundary) ∧
        (∀ x ∈ steps, x.task.Silent) ∧
        steps.flatMap (Moment.writes 0) = [.text "title" [0x41, 0x42, 0x43]] := by
  intro f q events r
  have hf : f.check = .ok () := rfl
  have hq : q.Quiet := (grown_perform {} (by decide)).quiet (by simp [Quiet])
  have htold : q.Told events r := Told.start.foldl_dispatch hq events
  have hr : r.Quiet := List.foldlRecOn events _ hq fun _ h event _ => h.dispatch event
  have hlookup : q.gauges.lookup "title" = some ⟨0, false, 0, 2, some 2⟩ := by
    show (({} : Panel).perform (.follow "title" (.text ⟨0x0020, 3⟩) true [])).1.gauges.lookup _ = _
    rfl
  have hscriptless : q.Scriptless := by decide
  have hkept : r.gauges.lookup "title" = some ⟨0, false, 0, 2, some 2⟩ := by
    rw [hscriptless.gauges_foldl_dispatch events, hlookup]
  have hnew : f.publication? events .boundary = some [0x41, 0x42, 0x43] := by decide +kernel
  obtain ⟨-, m, hup, hall⟩ := text_published [] f hf "title" []
  obtain rfl : ⟨0, false, 0, 2, some 2⟩ = m := Option.some.inj (hlookup.symm.trans hup)
  obtain ⟨g, -, -, -, -, hnext⟩ := hall events r htold hkept
  obtain ⟨steps, hc, hs⟩ := hr.exists_course_dispatch .boundary
  have hwrites := (hnext .boundary steps _ hc hs).1
  rw [hnew] at hwrites
  exact ⟨hf, htold, steps, hc, hs, hwrites⟩

end Panel

end WordLink
