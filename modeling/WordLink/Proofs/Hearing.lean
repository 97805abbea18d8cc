import WordLink.Proofs.Onward

/-!
# What a gauge hears of a dispatch

As long as no command dispatches anything itself, a gauge that is up is told of each event that
concerns it, once: of a word if it is one of its own, of every boundary if it is a text. Whatever
else the listeners' scripts do meanwhile makes no difference to it (`Stands.dispatch`).
-/
namespace WordLink

mutual

/-- Neither the command nor anything in the scripts that it brings dispatches an event. -/
def Command.quiet : Command → Bool
  | .subscribe _ _ script => Command.quietScript script
  | .subscribeShared _ _ script => Command.quietScript script
  | .subscribeBoundary _ script => Command.quietScript script
  | .follow _ _ _ script => Command.quietScript script
  | .dispatch _ => false
  | .unsubscribe _ => true
  | .unsubscribeBoundary _ => true
  | .compareIds _ _ => true
  | .isSubscribed _ => true
  | .attach _ _ => true
  | .attachAll _ _ => true
  | .drop _ => true
  | .query _ => true
  | .describeGauge _ => true
  | .describeRoster => true

def Command.quietScript : List (Stretch Command) → Bool
  | [] => true
  | stretch :: rest => stretch.quiet && Command.quietScript rest

/-- A stretch of no calls is over before it does anything. -/
def Stretch.quiet : Stretch Command → Bool
  | ⟨times, commands⟩ => times == 0 || Command.quietAll commands

def Command.quietAll : List Command → Bool
  | [] => true
  | c :: rest => c.quiet && Command.quietAll rest

end

namespace Stretch

theorem quiet_spend {script : List (Stretch Command)} (h : Command.quietScript script) :
    Command.quietScript (spend script) := by
  induction script with
  | nil => rfl
  | cons stretch rest ih =>
    obtain ⟨times, commands⟩ := stretch
    cases times with
    | zero => exact ih (by simpa [Command.quietScript, Stretch.quiet] using h)
    | succ n =>
      simp only [Command.quietScript, Stretch.quiet, spend, Bool.and_eq_true, Bool.or_eq_true,
        beq_iff_eq, Nat.succ_ne_zero, false_or] at h ⊢
      exact ⟨.inr h.1, h.2⟩

theorem quiet_current {script : List (Stretch Command)} (h : Command.quietScript script) :
    Command.quietAll (current script) := by
  induction script with
  | nil => rfl
  | cons stretch rest ih =>
    obtain ⟨times, commands⟩ := stretch
    cases times with
    | zero => exact ih (by simpa [Command.quietScript, Stretch.quiet] using h)
    | succ n =>
      simp only [Command.quietScript, Stretch.quiet, Bool.and_eq_true, Bool.or_eq_true,
        beq_iff_eq, Nat.succ_ne_zero, false_or] at h
      exact h.1

end Stretch

theorem Command.quiet_script (c : Command) (h : c.quiet) : Command.quietScript c.script := by
  cases c with
  | subscribe | subscribeShared | subscribeBoundary | follow => exact h
  | _ => rfl

theorem Command.quiet_of_mem {commands : List Command} (h : Command.quietAll commands) :
    ∀ c ∈ commands, c.quiet := by
  induction commands with
  | nil => simp
  | cons c rest ih =>
    simp only [Command.quietAll, Bool.and_eq_true] at h
    exact List.forall_mem_cons.mpr ⟨h.1, ih h.2⟩

def Listener.Quiet (l : Listener) : Prop := Command.quietScript l.script = true

/-- Nothing has been heard yet. -/
def Gauge.Fresh : Gauge → Prop
  | integer g => g.raw = none
  | text g => g = .ofField g.field

def Listener.Fresh (l : Listener) : Prop := ∀ g, l.gauge? = some g → g.Fresh

theorem Field.fresh_gauge {field : Field} {g : Gauge} (h : field.gauge = .ok g) : g.Fresh := by
  cases field with
  | integer f =>
    simp only [Field.gauge] at h
    split at h
    · cases h
      rfl
    · cases h
  | text f =>
    simp only [Field.gauge] at h
    split at h
    · cases h
      rfl
    · cases h

theorem Listener.Quiet.hear {l : Listener} (h : l.Quiet) (event : Event) :
    (l.hear event).Quiet := by
  unfold Quiet Listener.hear
  dsimp only
  split
  · exact Stretch.quiet_spend h
  · exact h

namespace Task

def Quiet : Task → Prop
  | call _ _ => True
  | act _ command => command.quiet = true
  | note _ _ => True

/-- The event, if the listener is told of one. -/
def heardBy (k : Nat) : Task → Option Event
  | call listener event => if listener = k then some event else none
  | act _ _ => none
  | note _ _ => none

theorem heardBy_calls {α : Type} (entries : List α) (listener : α → Nat) (event : Event) (k : Nat) :
    ((entries.map listener).map (Task.call · event)).filterMap (heardBy k) =
      (entries.filter (listener · == k)).map fun _ => event := by
  induction entries with
  | nil => rfl
  | cons e rest ih =>
    by_cases hk : listener e = k
    · simpa [heardBy, hk] using ih
    · simpa [heardBy, hk] using ih

end Task

theorem TextField.nodup_addresses (f : TextField) : f.addresses.Nodup := by
  refine List.pairwise_map.mpr (List.nodup_range.imp_of_mem ?_)
  intro i j hi hj hne heq
  have hi := List.mem_range.mp hi
  have hj := List.mem_range.mp hj
  have hlen := f.length.toNat_lt
  have hcount : f.wordCount ≤ 32768 := by
    rw [wordCount]
    omega
  have h := congrArg UInt16.toNat (UInt16.add_right_inj f.address |>.mp heq)
  simp only [UInt16.toNat_ofNat'] at h
  omega

namespace Gauge

theorem nodup_addresses (g : Gauge) : g.addresses.Nodup := by
  cases g with
  | integer g => exact by simp [addresses]
  | text g => exact g.field.nodup_addresses

/-- Takes notice of an event as a gauge does that is called for its own words only. -/
def attend (event : Event) (g : Gauge) : Gauge :=
  match event with
  | .word address data => if address ∈ g.addresses then g.see address data else g
  | .boundary => g.publish

end Gauge

namespace Panel

def Quiet (p : Panel) : Prop := ∀ l ∈ p.listeners.toList, l.Quiet

def Fresh (p : Panel) : Prop := ∀ l ∈ p.listeners.toList, l.Fresh

/-- At most new listeners have come, none of which dispatches or has heard anything. -/
def Grown (p q : Panel) : Prop :=
  ∃ new : List Listener, q.listeners.toList = p.listeners.toList ++ new ∧
    ∀ l ∈ new, l.Quiet ∧ l.Fresh

variable {p q : Panel} {m : Mount}

theorem Grown.quiet (h : p.Grown q) (hp : p.Quiet) : q.Quiet := by
  obtain ⟨new, heq, hnew⟩ := h
  intro l hl
  rw [heq] at hl
  exact (List.mem_append.mp hl).elim (hp l) fun hl => (hnew l hl).1

theorem Grown.fresh (h : p.Grown q) (hp : p.Fresh) : q.Fresh := by
  obtain ⟨new, heq, hnew⟩ := h
  intro l hl
  rw [heq] at hl
  exact (List.mem_append.mp hl).elim (hp l) fun hl => (hnew l hl).2

theorem grown_perform (p : Panel) {c : Command} (hc : c.quiet) : p.Grown (p.perform c).1 := by
  obtain ⟨new, heq, hnew⟩ := (p.effect_perform c).enlists
  refine ⟨new, heq, fun l hl => ⟨?_, fun g hg => ?_⟩⟩
  · rw [Listener.Quiet, (hnew l hl).1]
    exact c.quiet_script hc
  · obtain ⟨field, hfield⟩ := (hnew l hl).2 g hg
    exact Field.fresh_gauge hfield

/-! ### Quiet panels stay quiet -/

theorem summons_of_quiet (p : Panel) {c : Command} (hc : c.quiet) : p.summons c = [] := by
  cases c with
  | dispatch event => cases hc
  | _ => rfl

theorem Quiet.call (h : p.Quiet) (k : Nat) (event : Event) : (p.call k event).1.Quiet :=
  forall_call h (fun _ hl => hl.hear event) k

theorem Quiet.step (h : p.Quiet) {t : Task} (ht : t.Quiet) :
    (p.step t).1.Quiet ∧ ∀ u ∈ (p.step t).2, u.Quiet := by
  cases t with
  | call k event =>
    refine ⟨h.call k event, fun u hu => ?_⟩
    obtain ⟨l, hl, c, hc, rfl⟩ := mem_call hu
    exact Command.quiet_of_mem (Stretch.quiet_current (h l hl)) c hc
  | act name command =>
    simp only [Panel.step, p.summons_of_quiet ht]
    exact ⟨(p.grown_perform ht).quiet h, by simp [Task.Quiet]⟩
  | note name reply => exact ⟨h, by simp [Panel.step]⟩

theorem Quiet.run (h : p.Quiet) {tasks : List Task} (ht : ∀ t ∈ tasks, t.Quiet) :
    (p.run tasks).Quiet := by
  induction p, tasks using Panel.run.induct with
  | case1 p => rwa [run_nil]
  | case2 p t rest done ih =>
    obtain ⟨ht, hrest⟩ := List.forall_mem_cons.mp ht
    rw [run_cons]
    exact ih (h.step ht).1 (List.forall_mem_append.mpr ⟨(h.step ht).2, hrest⟩)

theorem quiet_calls (p : Panel) (event : Event) : ∀ t ∈ p.calls event, t.Quiet := by
  intro t ht
  cases event with
  | word a data =>
    obtain ⟨k, -, rfl⟩ := List.mem_map.mp ht
    trivial
  | boundary =>
    obtain ⟨k, -, rfl⟩ := List.mem_map.mp ht
    trivial

theorem Quiet.dispatch (h : p.Quiet) (event : Event) : (p.dispatch event).Quiet :=
  h.run (p.quiet_calls event)

/-- A quiet command is done once the panel itself has carried it out. -/
theorem execute_quiet (p : Panel) {c : Command} (hc : c.quiet) :
    (p.execute c).1 = (p.perform c).1 := by
  simp only [Panel.execute, p.summons_of_quiet hc, run_nil]

/-! ### What a run tells a gauge -/

theorem gaugeAt_call (p : Panel) (k : Nat) (event : Event) (m : Mount) :
    (p.call k event).1.gaugeAt m =
      if k = m.listener then (p.gaugeAt m).map (Gauge.hear event) else p.gaugeAt m := by
  rw [← gaugeAt_hear, gaugeAt_eq, gaugeAt_eq, listeners_call]

theorem gaugeAt_step (hm : m.listener < p.listeners.size) {t : Task} (ht : t.Quiet) :
    (p.step t).1.gaugeAt m =
      (p.gaugeAt m).map fun g => (t.heardBy m.listener).toList.foldl (fun g e => g.hear e) g := by
  cases t with
  | call k event =>
    rw [Panel.step, gaugeAt_call, Task.heardBy]
    split
    · rfl
    · exact Option.map_id'.symm
  | act name command =>
    have hg : (p.step (.act name command)).1.gaugeAt m = p.gaugeAt m :=
      (p.effect_perform command).enlists.gaugeAt hm
    rw [hg]
    exact Option.map_id'.symm
  | note name reply => exact Option.map_id'.symm

/-- The tasks that come of a quiet one tell nobody of an event. -/
theorem heardBy_step (p : Panel) {t : Task} (ht : t.Quiet) (k : Nat) :
    (p.step t).2.filterMap (Task.heardBy k) = [] := by
  refine List.filterMap_eq_nil_iff.mpr fun u hu => ?_
  cases t with
  | call j event =>
    obtain ⟨l, -, c, -, rfl⟩ := mem_call hu
    rfl
  | act name command =>
    simp only [Panel.step, p.summons_of_quiet ht, List.nil_append, List.mem_singleton] at hu
    rw [hu]
    rfl
  | note name reply => cases hu

theorem gaugeAt_run (hp : p.Quiet) {tasks : List Task} (ht : ∀ t ∈ tasks, t.Quiet)
    (hm : m.listener < p.listeners.size) :
    (p.run tasks).gaugeAt m = (p.gaugeAt m).map fun g =>
      (tasks.filterMap (Task.heardBy m.listener)).foldl (fun g e => g.hear e) g := by
  induction p, tasks using Panel.run.induct with
  | case1 p => simp
  | case2 p t rest done ih =>
    obtain ⟨ht, hrest⟩ := List.forall_mem_cons.mp ht
    have hnext := (hp.step ht)
    rw [run_cons, ih hnext.1 (List.forall_mem_append.mpr ⟨hnext.2, hrest⟩)
      (Nat.lt_of_lt_of_le hm (p.onward_step t).size_le), gaugeAt_step hm ht, Option.map_map,
      List.filterMap_append, p.heardBy_step ht, List.nil_append]
    cases hh : t.heardBy m.listener <;> simp [hh, Function.comp_def]

/-! ### What a dispatch tells a gauge -/

theorem Stands.heard_word {g : Gauge} (h : p.Stands m g) (a : Address) (data : Word) :
    (p.calls (.word a data)).filterMap (Task.heardBy m.listener) =
      if a ∈ g.addresses then [.word a data] else [] := by
  have hmine : ((p.roster.words.filter (·.address == a)).filter (·.listener == m.listener)) =
      (p.roster.wordsOf m.listener).filter (·.address == a) := by
    rw [Roster.wordsOf, List.filter_filter, List.filter_filter]
    exact List.filter_congr fun e _ => Bool.and_comm _ _
  have haddress : (p.roster.wordsOf m.listener).map (·.address) = g.addresses := by
    rw [h.words, Roster.registrations, List.map_map]
    exact List.zipIdx_map_fst _ _
  have hcount : ((p.roster.wordsOf m.listener).filter (·.address == a)).length =
      if a ∈ g.addresses then 1 else 0 := by
    rw [← g.nodup_addresses.count, ← haddress, List.count, List.countP_map,
      List.countP_eq_length_filter]
    rfl
  rw [calls, Roster.wordListeners, Task.heardBy_calls, hmine, List.map_const', hcount]
  split <;> rfl

theorem Stands.heard_boundary {g : Gauge} (h : p.Stands m g) :
    (p.calls .boundary).filterMap (Task.heardBy m.listener) =
      if g.hearsBoundaries then [.boundary] else [] := by
  have hlength : (p.roster.boundariesOf m.listener).length =
      if g.hearsBoundaries then 1 else 0 := by
    rw [h.boundaries, ← h.kind]
    cases m.boundaryId <;> rfl
  rw [Roster.boundariesOf] at hlength
  rw [calls, Roster.boundaryListeners, Task.heardBy_calls, List.map_const', hlength]
  split <;> rfl

theorem Stands.dispatch {g : Gauge} (h : p.Stands m g) (hp : p.Quiet) (event : Event) :
    (p.dispatch event).gaugeAt m = some (g.attend event) := by
  rw [Panel.dispatch, gaugeAt_run hp (p.quiet_calls event) h.lt_size, h.gauge, Option.map_some]
  cases event with
  | word a data =>
    rw [h.heard_word, Gauge.attend]
    split <;> rfl
  | boundary =>
    rw [h.heard_boundary]
    cases g <;> rfl

end Panel

end WordLink
