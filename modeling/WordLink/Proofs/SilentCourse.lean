import WordLink.Proofs.Course
import WordLink.Proofs.Hearing

/-!
# Courses without dispatches inside

As long as no listener dispatches anything itself, a course calls a listener just as often as its
agenda says. What the listener is then, and what it has written into the log, depends on nothing but
what it was told (`Linked.listener`), whatever else the listeners do to the panel in between.
-/
namespace WordLink

/-- Everything but a dispatch. -/
def Task.Silent : Task → Prop
  | .act _ (.dispatch _) => False
  | _ => True

/-- What the listener writes into the log when it is told of one event after another. -/
def Listener.speech (l : Listener) : List Event → List Entry
  | [] => []
  | event :: rest => (l.remark? event).toList ++ (l.hear event).speech rest

namespace Panel

/-- What listener `k` writes into the log at the moment, if it is called then. -/
def Moment.writes (k : Nat) (x : Moment) : List Entry :=
  if (x.task.heardBy k).isSome then x.after.log.toList.drop x.panel.log.size else []

/-- Each moment finds the panel as the one before has left it. -/
def Linked (p : Panel) : List Moment → Prop
  | [] => True
  | x :: rest => x.panel = p ∧ x.after.Linked rest

variable {p q : Panel} {steps before after : List Moment} {k : Nat} {l : Listener}

theorem Course.linked {agenda : List (Nat × Task)} (h : p.Course agenda steps q) :
    p.Linked steps := by
  induction h with
  | done p => trivial
  | next tasks ht h ih => exact ⟨rfl, ih⟩

theorem Linked.left (h : p.Linked (before ++ after)) : p.Linked before := by
  induction before generalizing p with
  | nil => trivial
  | cons x before ih => exact ⟨h.1, ih h.2⟩

theorem onward_replay (p : Panel) (steps : List Moment) : p.Onward (p.replay steps) := by
  induction steps generalizing p with
  | nil => exact Onward.of_eq rfl rfl
  | cons x steps ih => exact (p.onward_step x.task).trans (ih _)

theorem Orderly.replay (h : p.Orderly []) (steps : List Moment) : (p.replay steps).Orderly [] := by
  induction steps generalizing p with
  | nil => exact h
  | cons x steps ih => exact ih (h.step x.task)

theorem Course.onward {agenda : List (Nat × Task)} (h : p.Course agenda steps q) : p.Onward q :=
  h.end_eq ▸ p.onward_replay steps

theorem Course.orderly {agenda : List (Nat × Task)} (h : p.Course agenda steps q)
    (ho : p.Orderly []) : q.Orderly [] :=
  h.end_eq ▸ ho.replay steps

/-! ### What a listener does -/

theorem listeners_perform (hl : p.listeners[k]? = some l) (c : Command) :
    (p.perform c).1.listeners[k]? = some l := by
  obtain ⟨new, heq, -⟩ := (p.effect_perform c).enlists
  rw [← Array.getElem?_toList] at hl ⊢
  have hk := (List.getElem?_eq_some_iff.mp hl).1
  rw [heq, List.getElem?_append_left hk, hl]

theorem listeners_step (hl : p.listeners[k]? = some l) (t : Task) :
    (p.step t).1.listeners[k]? =
      some ((t.heardBy k).toList.foldl (fun l event => l.hear event) l) := by
  cases t with
  | call j event =>
    rw [Panel.step, listeners_call, Array.getElem?_modify, hl, Task.heardBy]
    by_cases hj : j = k
    · simp [hj]
    · simp [hj]
  | act name command => exact listeners_perform hl command
  | note name reply => exact hl

theorem log_call (hl : p.listeners[k]? = some l) (event : Event) :
    (p.call k event).1.log.toList = p.log.toList ++ (l.remark? event).toList := by
  simp only [call, hl]
  cases l.remark? event <;> simp [write]

theorem writes_eq {x : Moment} (hl : x.panel.listeners[k]? = some l) :
    x.writes k = (x.task.heardBy k).toList.flatMap fun event => (l.remark? event).toList := by
  obtain ⟨depth, p, t⟩ := x
  cases t with
  | call j event =>
    by_cases hj : j = k
    · subst hj
      have hlog : (⟨depth, p, .call j event⟩ : Moment).after.log.toList =
          p.log.toList ++ (l.remark? event).toList := log_call hl event
      simp [Moment.writes, Task.heardBy, hlog]
    · simp [Moment.writes, Task.heardBy, hj]
  | act name command => rfl
  | note name reply => rfl

/-- A listener is what it has heard, and says what that makes it say. -/
theorem Linked.listener (h : p.Linked steps) (hl : p.listeners[k]? = some l) :
    let heard := steps.filterMap (·.task.heardBy k)
    (p.replay steps).listeners[k]? = some (heard.foldl (fun l event => l.hear event) l) ∧
      steps.flatMap (Moment.writes k) = l.speech heard := by
  induction steps generalizing p l with
  | nil => exact ⟨hl, rfl⟩
  | cons x steps ih =>
    obtain ⟨rfl, hrest⟩ := h
    have hstep := listeners_step hl x.task
    have hfirst := writes_eq hl
    cases hheard : x.task.heardBy k with
    | none =>
      rw [hheard] at hstep hfirst
      obtain ⟨hlistener, hwrites⟩ := ih hrest hstep
      simp only [List.filterMap_cons, hheard, List.flatMap_cons, hfirst, hwrites]
      exact ⟨hlistener, rfl⟩
    | some event =>
      rw [hheard] at hstep hfirst
      obtain ⟨hlistener, hwrites⟩ := ih hrest hstep
      simp only [List.filterMap_cons, hheard, List.flatMap_cons, hfirst, hwrites]
      exact ⟨hlistener, by simp [Listener.speech]⟩

/-! ### What a silent course tells a listener -/

theorem heardBy_of_maySetOff {t : Task} {tasks : List Task} (ht : p.MaySetOff t tasks)
    (hs : t.Silent) (k : Nat) : tasks.filterMap (Task.heardBy k) = [] := by
  cases t with
  | call j event =>
    obtain ⟨name, commands, rfl⟩ := ht
    exact List.filterMap_eq_nil_iff.mpr (by simp [Task.heardBy])
  | act name command =>
    have hsummons : p.summons command = [] := by
      cases command with
      | dispatch event => exact absurd hs id
      | _ => rfl
    obtain rfl : tasks = (p.step (.act name command)).2 := ht
    simp [Panel.step, hsummons, Task.heardBy]
  | note name reply =>
    obtain rfl : tasks = [] := ht
    rfl

theorem Course.heard {agenda : List (Nat × Task)} (h : p.Course agenda steps q)
    (hs : ∀ x ∈ steps, x.task.Silent) (k : Nat) :
    steps.filterMap (·.task.heardBy k) = agenda.filterMap (·.2.heardBy k) := by
  induction h with
  | done p => rfl
  | @next p q depth t rest steps tasks ht h ih =>
    obtain ⟨hfirst, hsteps⟩ := List.forall_mem_cons.mp hs
    have hnone := heardBy_of_maySetOff ht hfirst k
    have hrest := ih hsteps
    rw [List.filterMap_append, List.filterMap_map, Function.comp_def, hnone,
      List.nil_append] at hrest
    rw [List.filterMap_cons, List.filterMap_cons, hrest]

/-- A silent dispatch calls a listener as often as it is registered for the event. -/
theorem Course.heard_calls {event : Event} (h : p.Course ((p.calls event).map (0, ·)) steps q)
    (hs : ∀ x ∈ steps, x.task.Silent) (k : Nat) :
    steps.filterMap (·.task.heardBy k) = (p.calls event).filterMap (Task.heardBy k) := by
  rw [h.heard hs k, List.filterMap_map]
  rfl

theorem silent_of_quiet {t : Task} (h : t.Quiet) : t.Silent := by
  cases t with
  | act name command =>
    cases command with
    | dispatch event => cases h
    | _ => trivial
  | _ => trivial

/-- A dispatch on a panel whose scripts dispatch nothing is a silent course. -/
theorem Quiet.exists_course_dispatch (h : p.Quiet) (event : Event) : ∃ steps,
    p.Course ((p.calls event).map (0, ·)) steps (p.dispatch event) ∧
      ∀ x ∈ steps, x.task.Silent := by
  obtain ⟨steps, hsteps, hquiet⟩ := exists_course_run_of (P := Panel.Quiet) (T := Task.Quiet)
    (fun _ _ hp ht => Quiet.step hp ht) h
    (List.forall_mem_map.mpr (p.quiet_calls event) : ∀ e ∈ (p.calls event).map (0, ·), e.2.Quiet)
  refine ⟨steps, ?_, fun x hx => silent_of_quiet (hquiet x hx)⟩
  rw [Panel.dispatch]
  simpa [Function.comp_def] using hsteps

end Panel

end WordLink
