import WordLink.Proofs.Agreement
import WordLink.Proofs.Feeding

/-!
# Gauges of a session

Whatever a session with an image is fed, and however it is cut up, between two pieces each gauge
that was put up at first and is still up agrees with the image (`live_gauges_agree`).
-/
namespace WordLink

namespace Panel

variable {p : Panel} {name : String} {m : Mount}

/-- A new panel on which the commands have been carried out. -/
def setUp (commands : List Command) : Panel := commands.foldl (fun p c => (p.execute c).1) {}

theorem setUp_quiet {commands : List Command} (hquiet : ∀ c ∈ commands, c.quiet) :
    setUp commands = commands.foldl (fun p c => (p.perform c).1) {} := by
  have all : ∀ (commands : List Command) (p : Panel), (∀ c ∈ commands, c.quiet) →
      commands.foldl (fun p c => (p.execute c).1) p =
        commands.foldl (fun p c => (p.perform c).1) p := by
    intro commands
    induction commands with
    | nil => exact fun p _ => rfl
    | cons c rest ih =>
      intro p hc
      obtain ⟨hc, hrest⟩ := List.forall_mem_cons.mp hc
      rw [List.foldl_cons, List.foldl_cons, p.execute_quiet hc]
      exact ih _ hrest
  exact all commands {} hquiet

/-- The scripts dispatch nothing, and no gauge has heard of anything yet. -/
theorem setUp_quiet_fresh {commands : List Command} (hquiet : ∀ c ∈ commands, c.quiet) :
    (setUp commands).Quiet ∧ (setUp commands).Fresh := by
  rw [setUp_quiet hquiet]
  refine List.foldlRecOn (motive := fun p : Panel => p.Quiet ∧ p.Fresh) commands _
    ⟨by simp [Quiet], by simp [Fresh]⟩ fun p h c hc => ?_
  have hgrown := p.grown_perform (hquiet c hc)
  exact ⟨hgrown.quiet h.1, hgrown.fresh h.2⟩

theorem setUp_orderly (commands : List Command) : (setUp commands).Orderly [] :=
  List.foldlRecOn (motive := fun p : Panel => p.Orderly []) commands _ orderly_new
    fun _ h c _ => h.execute c

theorem onward_foldl_dispatch (p : Panel) (events : List Event) :
    p.Onward (events.foldl dispatch p) :=
  List.foldlRecOn (motive := p.Onward) events _ (Onward.of_eq rfl rfl)
    fun q h event _ => h.trans (q.onward_dispatch event)

theorem Orderly.stands_of_lookup (h : p.Orderly []) (hup : p.gauges.lookup name = some m) :
    ∃ g, p.Stands m g := by
  obtain ⟨before, after, heq, -⟩ := List.lookup_eq_some_iff.mp hup
  exact h.stands m (by simp [mounts, heq])

/-- Through any events a gauge that stays up keeps up with an image that is told of them. -/
theorem tracks_foldl_dispatch (ho : p.Orderly []) (hq : p.Quiet) {g : Gauge} {image : Image}
    (past : List Event) {events : List Event} (hup : p.gauges.lookup name = some m)
    (hg : p.gaugeAt m = some g) (ht : g.Tracks image (sinceBoundary past))
    (hkept : (events.foldl dispatch p).gauges.lookup name = some m) :
    ∃ g' : Gauge, (events.foldl dispatch p).gaugeAt m = some g' ∧ g'.field = g.field ∧
      g'.Tracks (events.foldl Image.apply image) (sinceBoundary (past ++ events)) := by
  induction events generalizing p g image past with
  | nil => exact ⟨g, hg, rfl, by rwa [List.append_nil]⟩
  | cons event rest ih =>
    obtain ⟨g₀, hstands⟩ := ho.stands_of_lookup hup
    obtain rfl : g₀ = g := Option.some.inj (hstands.gauge.symm.trans hg)
    have hsize := Nat.lt_of_lt_of_le hstands.lt_size (p.onward_dispatch event).size_le
    have hup' := (onward_foldl_dispatch (p.dispatch event) rest).lookup name m hsize hkept
    obtain ⟨g', hg', hfield, ht'⟩ := ih (ho.dispatch event) (hq.dispatch event)
      (past ++ [event]) hup'
      (hstands.dispatch hq event) (ht.attend event) hkept
    refine ⟨g', hg', hfield.trans (g₀.field_attend event), ?_⟩
    rwa [List.append_assoc] at ht'

theorem Fresh.gauge (h : p.Fresh) {g : Gauge} (hg : p.gaugeAt m = some g) : g.Fresh := by
  rw [gaugeAt_eq] at hg
  obtain ⟨l, hl, hl'⟩ := Option.bind_eq_some_iff.mp hg
  exact h l (List.mem_of_getElem? (by rwa [Array.getElem?_toList])) g hl'

theorem gauge?_eq {g : Gauge} (hup : p.gauges.lookup name = some m) (hg : p.gaugeAt m = some g) :
    p.gauge? name = some (g, m.attached) := by
  simp [gauge?, hup, hg]

/-- A gauge that is up from the start and stays up agrees with a new image that is told of the
same events. -/
theorem setUp_agrees {commands : List Command} (hquiet : ∀ c ∈ commands, c.quiet)
    {events : List Event} (hup : (setUp commands).gauges.lookup name = some m)
    (hkept : (events.foldl dispatch (setUp commands)).gauges.lookup name = some m) :
    ∃ first g : Gauge, (setUp commands).gauge? name = some (first, m.attached) ∧
      (events.foldl dispatch (setUp commands)).gauge? name = some (g, m.attached) ∧
      g.field = first.field ∧ g.Agrees (events.foldl Image.apply {}) (sinceBoundary events) := by
  have horderly := setUp_orderly commands
  obtain ⟨hpquiet, hpfresh⟩ := setUp_quiet_fresh hquiet
  obtain ⟨first, hstands⟩ := horderly.stands_of_lookup hup
  have htracks := (hpfresh.gauge hstands.gauge).tracks
  obtain ⟨g, hg, hfield, ht⟩ :=
    tracks_foldl_dispatch horderly hpquiet [] hup hstands.gauge htracks hkept
  exact ⟨first, g, gauge?_eq hup hstands.gauge, gauge?_eq hkept hg, hfield, ht.agrees⟩

end Panel

namespace Session

/-- A session at its start, with what has been put up on its panel before the first byte. -/
def start (settings : Receiver.Settings) (readSize : Nat) (withImage : Bool)
    (commands : List Command) : Session :=
  { build settings readSize withImage with panel := Panel.setUp commands }

theorem panel_foldl_feed (settings : Receiver.Settings) (readSize : Nat) (withImage : Bool)
    (commands : List Command) (chunks : List (List UInt8)) :
    (chunks.foldl feed (start settings readSize withImage commands)).panel =
      ((Receiver.ofSettings settings).push chunks.flatten).2.foldl Panel.dispatch
        (Panel.setUp commands) := by
  rw [foldl_feed, feed_eq]
  rfl

theorem image_foldl_feed (settings : Receiver.Settings) (readSize : Nat)
    (commands : List Command) (chunks : List (List UInt8)) :
    (chunks.foldl feed (start settings readSize true commands)).image =
      some (((Receiver.ofSettings settings).push chunks.flatten).2.foldl Image.apply {}) := by
  rw [foldl_feed, feed_eq]
  rfl

/-- An integer gauge reads what the image has at its address, a text gauge what the latest frame
has if it has any word of the text, and a text is pending when one of its words has come in since
the last boundary. All that is asked is that nothing but the stream makes events. -/
theorem live_gauges_agree (settings : Receiver.Settings) (readSize : Nat) {commands : List Command}
    (hquiet : ∀ c ∈ commands, c.quiet) (chunks : List (List UInt8)) {name : String} {m : Mount}
    (hup : (start settings readSize true commands).panel.gauges.lookup name = some m)
    (hkept : (chunks.foldl feed (start settings readSize true commands)).panel.gauges.lookup name =
      some m) :
    ∃ (first g : Gauge) (image : Image),
      (start settings readSize true commands).panel.gauge? name = some (first, m.attached) ∧
      (chunks.foldl feed (start settings readSize true commands)).panel.gauge? name =
        some (g, m.attached) ∧
      (chunks.foldl feed (start settings readSize true commands)).image = some image ∧
      g.field = first.field ∧
      g.Agrees image (sinceBoundary ((Receiver.ofSettings settings).push chunks.flatten).2) := by
  have hpanel := panel_foldl_feed settings readSize true commands chunks
  rw [hpanel] at hkept
  obtain ⟨first, g, hfirst, hg, hfield, hagrees⟩ := Panel.setUp_agrees hquiet hup hkept
  exact ⟨first, g, _, hfirst, hpanel ▸ hg, image_foldl_feed .., hfield, hagrees⟩

/-- Without scripts nothing takes a gauge down. -/
theorem gauges_foldl_feed (settings : Receiver.Settings) (readSize : Nat) (withImage : Bool)
    {commands : List Command} (h : (Panel.setUp commands).Scriptless) (chunks : List (List UInt8)) :
    (chunks.foldl feed (start settings readSize withImage commands)).panel.gauges =
      (Panel.setUp commands).gauges := by
  rw [panel_foldl_feed]
  exact h.gauges_foldl_dispatch _

/-- A text of three bytes whose second word is still to be published. -/
theorem live_gauges_agree_pending : ∃ (g : Gauge) (image : Image),
    ([[0x55, 0x55, 0x55, 0x55, 0x20, 0x00, 0x02, 0x00, 0x41], [0x42, 0x55, 0x55, 0x55, 0x55],
        [0x22, 0x00, 0x02, 0x00, 0x43, 0x00]].foldl feed
      (start {} 1 true [.subscribe "words" 0x0020 [],
        .follow "title" (.text ⟨0x0020, 3⟩) true []])).panel.gauge? "title" = some (g, false) ∧
    g.Agrees image [.word 0x0022 0x0043] := by
  have hquiet : ∀ c ∈ [Command.subscribe "words" 0x0020 [],
      .follow "title" (.text ⟨0x0020, 3⟩) true []], c.quiet := by decide
  have hup : (Panel.setUp [.subscribe "words" 0x0020 [],
      .follow "title" (.text ⟨0x0020, 3⟩) true []]).gauges.lookup "title" =
        some ⟨1, false, 1, 2, some 3⟩ := by
    rw [Panel.setUp_quiet hquiet]
    rfl
  have hscriptless : (Panel.setUp [.subscribe "words" 0x0020 [],
      .follow "title" (.text ⟨0x0020, 3⟩) true []]).Scriptless := by
    rw [Panel.setUp_quiet hquiet]
    decide
  obtain ⟨-, g, image, -, hg, -, -, hagrees⟩ := live_gauges_agree {} 1 hquiet
    [[0x55, 0x55, 0x55, 0x55, 0x20, 0x00, 0x02, 0x00, 0x41], [0x42, 0x55, 0x55, 0x55, 0x55],
      [0x22, 0x00, 0x02, 0x00, 0x43, 0x00]] hup (by rwa [gauges_foldl_feed {} 1 true hscriptless])
  exact ⟨g, image, hg, hagrees⟩

end Session

end WordLink
