import WordLink.Proofs.Effects

/-!
# Dispatches among listeners that interfere

A listener that is called may do what it likes with the panel: register listeners and take them out,
put up gauges and take them down, dispatch events of its own. A course is any way in which all this
comes to an end, whatever the listeners choose to do; a run of the panel, where they keep to their
scripts, is one. In every course each dispatch, those inside other dispatches included, calls the
listeners that were registered when it started and no others (`dispatch_snapshot`).
-/
namespace WordLink.Panel

/-! ### What becomes of the roster -/

theorem becomes_unmount (p : Panel) (m : Mount) : p.roster.Becomes (p.unmount m).roster := by
  have hwords := Roster.Becomes.same.thinned
    (p.roster.thinned_unsubscribeRun m.firstId m.wordCount)
  unfold unmount
  split
  · exact hwords.thinned (Roster.thinned_unsubscribeBoundary ..)
  · exact hwords

theorem becomes_foldl_unmount (mounts : List Mount) (p : Panel) :
    p.roster.Becomes (mounts.foldl unmount p).roster := by
  induction mounts generalizing p with
  | nil => exact .same
  | cons m rest ih => exact (p.becomes_unmount m).trans (ih (p.unmount m))

theorem becomes_takeDown (p : Panel) (name : String) :
    p.roster.Becomes (p.takeDown name).roster := by
  unfold takeDown
  split
  · exact p.becomes_unmount _
  · exact .same

theorem becomes_putUpAll (p : Panel) (name : String) (mounts : List Mount) :
    p.roster.Becomes (p.putUpAll name mounts).roster := by
  have all : ∀ (l : List (Mount × Nat)) (p : Panel), p.roster.Becomes
      (l.foldl (fun p e => p.putUp (numbered name e.2) e.1) p).roster := by
    intro l
    induction l with
    | nil => exact fun p => .same
    | cons e l ih => exact fun p => (p.becomes_takeDown _).trans (ih (p.putUp _ e.1))
  exact all mounts.zipIdx p

theorem Mounting.becomes {p q : Panel} {script : List (Stretch Command)} {done : List Mount}
    (hm : p.Mounting script done q) : p.roster.Becomes q.roster := by
  induction hm with
  | none => exact .same
  | more l attached _ _ _ ih => exact ih.trans (enrolled_mount _ l _ attached).becomes

theorem Effect.becomes {p q : Panel} {c : Command} (he : p.Effect c q) :
    p.roster.Becomes q.roster := by
  cases he with
  | nothing => exact .same
  | enrolled he hplain hscript hids => exact he.becomes
  | withdrawn hid => exact Roster.Becomes.same.thinned (Roster.thinned_unsubscribe ..)
  | boundaryWithdrawn hid =>
    exact Roster.Becomes.same.thinned (Roster.thinned_unsubscribeBoundary ..)
  | putUp hm name => exact hm.becomes.trans (becomes_takeDown ..)
  | putUpAll hm name => exact hm.becomes.trans (becomes_putUpAll ..)
  | takenBack hm => exact hm.becomes.trans (becomes_foldl_unmount ..)
  | takenDown name => exact p.becomes_takeDown name

theorem roster_call (p : Panel) (k : Nat) (event : Event) :
    (p.call k event).1.roster = p.roster := by
  unfold call
  split
  · rfl
  · dsimp only
    split <;> rfl

theorem becomes_step (p : Panel) (t : Task) : p.roster.Becomes (p.step t).1.roster := by
  cases t with
  | call k event =>
    rw [step, roster_call]
    exact .same
  | act name command => exact (p.effect_perform command).becomes
  | note name reply => exact .same

/-! ### Courses -/

/-- A task as it was dealt with: on which panel, and how deep inside what other tasks set off. -/
structure Moment where
  depth : Nat
  panel : Panel
  task : Task

def Moment.after (x : Moment) : Panel := (x.panel.step x.task).1

/-- The registration for the event outlives the moment, if it is there. -/
def Moment.Keeps (x : Moment) (event : Event) (e : RegistrationId × Nat) : Prop :=
  e ∈ x.panel.roster.entriesFor event → e ∈ x.after.roster.entriesFor event

/-- The tasks right below the moment, out of the moments that follow it: those one level deeper,
until the course is back at its own level. -/
def Moment.below (x : Moment) (after : List Moment) : List Task :=
  ((after.takeWhile (x.depth < ·.depth)).filter (·.depth == x.depth + 1)).map Moment.task

/-- What may come of a task. A listener that is called may give any commands; a command sets off
what it does in the panel's own steps. -/
def MaySetOff (p : Panel) : Task → List Task → Prop
  | .call _ _, tasks => ∃ name commands, tasks = List.map (Task.act name) commands
  | .act name command, tasks => tasks = (p.step (.act name command)).2
  | .note _ _, tasks => tasks = []

/-- The tasks of an agenda are dealt with one after the other, each with all that comes of it, until
none is left. -/
inductive Course : Panel → List (Nat × Task) → List Moment → Panel → Prop where
  | done (p : Panel) : Course p [] [] p
  | next {p q : Panel} {depth : Nat} {t : Task} {rest : List (Nat × Task)} {steps : List Moment}
      (tasks : List Task) (ht : p.MaySetOff t tasks)
      (h : Course (p.step t).1 (tasks.map (depth + 1, ·) ++ rest) steps q) :
      Course p ((depth, t) :: rest) (⟨depth, p, t⟩ :: steps) q

/-- The panel once the same tasks have been dealt with. -/
def replay (p : Panel) (steps : List Moment) : Panel :=
  steps.foldl (fun q x => (q.step x.task).1) p

variable {p q : Panel} {agenda : List (Nat × Task)} {steps : List Moment}

theorem maySetOff_step (p : Panel) (t : Task) : p.MaySetOff t (p.step t).2 := by
  cases t with
  | call k event =>
    show ∃ name commands, (p.call k event).2 = List.map (Task.act name) commands
    unfold call
    split
    · exact ⟨"", [], rfl⟩
    · rename_i l hl
      dsimp only
      split
      · exact ⟨l.name, Stretch.current l.script, rfl⟩
      · exact ⟨"", [], rfl⟩
  | act name command => rfl
  | note name reply => rfl

/-- A run is a course. What every step hands on to the tasks that come of it holds of the tasks of
all moments. -/
theorem exists_course_run_of {P : Panel → Prop} {T : Task → Prop}
    (hstep : ∀ p t, P p → T t → P (p.step t).1 ∧ ∀ u ∈ (p.step t).2, T u) (hp : P p)
    (hagenda : ∀ e ∈ agenda, T e.2) : ∃ steps,
      p.Course agenda steps (p.run (agenda.map Prod.snd)) ∧ ∀ x ∈ steps, T x.task := by
  generalize htasks : agenda.map Prod.snd = tasks
  induction p, tasks using Panel.run.induct generalizing agenda with
  | case1 p =>
    obtain rfl := List.map_eq_nil_iff.mp htasks
    rw [run_nil]
    exact ⟨[], .done p, by simp⟩
  | case2 p t rest done =>
    rename_i ih
    obtain ⟨⟨depth, u⟩, rest', rfl, rfl, rfl⟩ := List.map_eq_cons_iff.mp htasks
    obtain ⟨hu, hrest⟩ := List.forall_mem_cons.mp hagenda
    obtain ⟨hnext, hdone⟩ := hstep p u hp hu
    have hall : ∀ e ∈ done.2.map (depth + 1, ·) ++ rest', T e.2 :=
      List.forall_mem_append.mpr ⟨List.forall_mem_map.mpr hdone, hrest⟩
    obtain ⟨steps, hsteps, htasks⟩ := ih hnext hall (by simp [Function.comp_def])
    rw [run_cons]
    exact ⟨_, .next done.2 (p.maySetOff_step u) hsteps, List.forall_mem_cons.mpr ⟨hu, htasks⟩⟩

/-- A run is the course in which the listeners keep to their scripts. -/
theorem exists_course_run (p : Panel) (agenda : List (Nat × Task)) :
    ∃ steps, p.Course agenda steps (p.run (agenda.map Prod.snd)) := by
  obtain ⟨steps, hsteps, -⟩ := exists_course_run_of (P := fun _ => True) (T := fun _ => True)
    (fun _ _ _ _ => ⟨trivial, fun _ _ => trivial⟩) trivial
    (fun _ _ => trivial : ∀ e ∈ agenda, True)
  exact ⟨steps, hsteps⟩

/-- The first tasks of an agenda are done before the others are begun. -/
theorem Course.split {ts us : List (Nat × Task)} (h : p.Course (ts ++ us) steps q) :
    ∃ r first second, steps = first ++ second ∧ p.Course ts first r ∧ r.Course us second q := by
  generalize hagenda : ts ++ us = agenda at h
  induction h generalizing ts with
  | done p =>
    obtain ⟨rfl, rfl⟩ := List.append_eq_nil_iff.mp hagenda
    exact ⟨p, [], [], rfl, .done p, .done p⟩
  | @next p q depth t rest steps tasks ht h ih =>
    cases ts with
    | nil =>
      rw [List.nil_append] at hagenda
      exact ⟨p, [], _, rfl, .done p, hagenda ▸ .next tasks ht h⟩
    | cons u ts =>
      obtain ⟨rfl, rfl⟩ := List.cons.inj hagenda
      obtain ⟨r, first, second, rfl, hfirst, hsecond⟩ := ih (List.append_assoc ..)
      exact ⟨r, _, second, rfl, .next tasks ht hfirst, hsecond⟩

theorem Course.depth_le (h : p.Course agenda steps q) {n : Nat} (hn : ∀ e ∈ agenda, n ≤ e.1) :
    ∀ x ∈ steps, n ≤ x.depth := by
  induction h with
  | done p => simp
  | @next p q depth t rest steps tasks ht h ih =>
    obtain ⟨hdepth, hrest⟩ := List.forall_mem_cons.mp hn
    refine List.forall_mem_cons.mpr ⟨hdepth, ih fun e he => ?_⟩
    rcases List.mem_append.mp he with he | he
    · obtain ⟨u, -, rfl⟩ := List.mem_map.mp he
      exact Nat.le_succ_of_le hdepth
    · exact hrest e he

/-- On its own level an agenda is worked off in order, each task once. -/
theorem Course.level {n : Nat} {ts : List Task} (h : p.Course (ts.map (n, ·)) steps q) :
    (steps.filter (·.depth == n)).map Moment.task = ts := by
  induction ts generalizing p steps with
  | nil =>
    cases h
    rfl
  | cons t ts ih =>
    rw [List.map_cons] at h
    cases h with
    | next tasks ht h =>
      obtain ⟨r, first, second, rfl, hfirst, hsecond⟩ := h.split
      have hdeep : first.filter (·.depth == n) = [] := by
        refine List.filter_eq_nil_iff.mpr fun x hx => ?_
        have hle := hfirst.depth_le (n := n + 1) (by simp) x hx
        simp only [beq_iff_eq]
        omega
      rw [List.filter_cons_of_pos (by simp), List.filter_append, hdeep, List.nil_append,
        List.map_cons, ih hsecond]

/-- At each moment the course goes on with the task of the moment, and what is left to be done
behind it is no deeper. -/
theorem Course.exists_rest {before after : List Moment} {x : Moment}
    (h : p.Course agenda (before ++ x :: after) q)
    (hagenda : agenda.Pairwise fun e f => f.1 ≤ e.1) :
    ∃ rest, x.panel.Course ((x.depth, x.task) :: rest) (x :: after) q ∧
      ∀ e ∈ rest, e.1 ≤ x.depth := by
  generalize hsteps : before ++ x :: after = steps at h
  induction h generalizing before with
  | done p => simp at hsteps
  | @next p q depth t rest steps tasks ht h ih =>
    obtain ⟨hrest, hpairs⟩ := List.pairwise_cons.mp hagenda
    cases before with
    | nil =>
      obtain ⟨rfl, rfl⟩ := List.cons.inj hsteps
      exact ⟨rest, .next tasks ht h, hrest⟩
    | cons y before =>
      obtain ⟨rfl, rfl⟩ := List.cons.inj hsteps
      refine ih (List.pairwise_append.mpr ⟨?_, hpairs, fun e he f hf => ?_⟩) rfl
      · exact List.pairwise_map.mpr (List.pairwise_of_forall fun _ _ => Nat.le_refl _)
      · obtain ⟨u, -, rfl⟩ := List.mem_map.mp he
        exact Nat.le_succ_of_le (hrest f hf)

/-- Right below a moment are the tasks that it set off. -/
theorem Course.maySetOff_below {before after : List Moment} {x : Moment}
    (h : p.Course agenda (before ++ x :: after) q)
    (hagenda : agenda.Pairwise fun e f => f.1 ≤ e.1) :
    x.panel.MaySetOff x.task (x.below after) := by
  obtain ⟨rest, hx, hrest⟩ := h.exists_rest hagenda
  cases hx with
  | next tasks ht h =>
    obtain ⟨r, first, second, rfl, hfirst, hsecond⟩ := h.split
    have hdeep : ∀ y ∈ first, decide (x.depth < y.depth) = true :=
      fun y hy => decide_eq_true (hfirst.depth_le (n := x.depth + 1) (by simp) y hy)
    have hback : second.takeWhile (x.depth < ·.depth) = [] := by
      cases hsecond with
      | done => rfl
      | next =>
        have hle := hrest _ List.mem_cons_self
        exact List.takeWhile_cons_of_neg (by simpa using hle)
    rw [Moment.below, List.takeWhile_append_of_pos hdeep, hback, List.append_nil, hfirst.level]
    exact ht

/-! ### What a dispatch sees -/

theorem calls_eq (p : Panel) (event : Event) :
    p.calls event = (p.roster.entriesFor event).map fun e => .call e.2 event := by
  cases event <;> simp [calls, Roster.entriesFor, Roster.wordListeners, Roster.boundaryListeners]

/-- Each moment finds the panel as the ones before have left it, all of them. -/
theorem Course.panel_eq {before after : List Moment} {x : Moment}
    (h : p.Course agenda (before ++ x :: after) q) :
    x.panel = p.replay before ∧ ∃ agenda', x.after.Course agenda' after q := by
  generalize hsteps : before ++ x :: after = steps at h
  induction h generalizing before with
  | done p => simp at hsteps
  | @next p q depth t rest steps tasks ht h ih =>
    cases before with
    | nil =>
      obtain ⟨rfl, rfl⟩ := List.cons.inj hsteps
      exact ⟨rfl, _, h⟩
    | cons y before =>
      obtain ⟨rfl, rfl⟩ := List.cons.inj hsteps
      exact ih rfl

theorem Course.end_eq (h : p.Course agenda steps q) : q = p.replay steps := by
  induction h with
  | done p => rfl
  | next tasks ht h ih => exact ih

theorem becomes_replay (steps : List Moment) (p : Panel) :
    p.roster.Becomes (p.replay steps).roster := by
  induction steps generalizing p with
  | nil => exact .same
  | cons x steps ih => exact (p.becomes_step x.task).trans (ih (p.step x.task).1)

/-- A registration that nobody takes out is there for the dispatches to come. -/
theorem Course.mem_of_keeps {mid later : List Moment} {y : Moment} {event : Event}
    {e : RegistrationId × Nat} (h : p.Course agenda (mid ++ y :: later) q)
    (he : e ∈ p.roster.entriesFor event) (hmid : ∀ z ∈ mid, z.Keeps event e) :
    e ∈ y.panel.roster.entriesFor event := by
  induction mid generalizing p agenda with
  | nil =>
    cases h
    exact he
  | cons z mid ih =>
    cases h with
    | next tasks ht h =>
      obtain ⟨hz, hrest⟩ := List.forall_mem_cons.mp hmid
      exact ih h (hz he) hrest

/-- A registration that has been taken out is not there for any dispatch to come. -/
theorem Course.not_mem_of_not_mem {mid later : List Moment} {x y : Moment} {event : Event}
    {e : RegistrationId × Nat} (h : x.after.Course agenda (mid ++ y :: later) q)
    (hx : x.panel.roster.Numbered) (hin : e ∈ x.panel.roster.entriesFor event)
    (hout : e ∉ x.after.roster.entriesFor event) : e ∉ y.panel.roster.entriesFor event := by
  have hbefore : x.panel.roster.Becomes x.after.roster := x.panel.becomes_step x.task
  rw [h.panel_eq.1]
  exact hbefore.not_mem_of_not_mem hx (becomes_replay mid x.after) hin hout

/-- A dispatch works on a snapshot. On its own level it calls the listeners that are registered for
its event when it starts, once for each registration, in the order of registration, with the event,
and nothing else; this is so for every dispatch in the course of it. Each finds the panel as all
that was done before has left it: what was taken out is gone, what was added is there until it is
taken out. The same goes for what is dispatched afterwards. -/
theorem dispatch_snapshot (p : Panel) (hp : ({} : Roster Nat).Becomes p.roster)
    (tasks : List Task) :
    (∀ event, p.dispatch event =
      p.run ((p.roster.entriesFor event).map fun e => .call e.2 event)) ∧
    (∀ event, (p.roster.entriesFor event).Pairwise (·.1 < ·.1)) ∧
    (∃ steps, p.Course (tasks.map (0, ·)) steps (p.run tasks)) ∧
    ∀ steps q, p.Course (tasks.map (0, ·)) steps q →
      (steps.filter (·.depth == 0)).map Moment.task = tasks ∧
      q = p.replay steps ∧ ({} : Roster Nat).Becomes q.roster ∧
      ∀ before x after, steps = before ++ x :: after →
        x.panel = p.replay before ∧
        (∀ event, (x.panel.roster.entriesFor event).Pairwise (·.1 < ·.1)) ∧
        (∀ name event, x.task = .act name (.dispatch event) →
          x.below after = (x.panel.roster.entriesFor event).map (fun e => .call e.2 event) ++
            [.note name .nothing]) ∧
        ∀ mid y later, after = mid ++ y :: later → ∀ event e,
          (e ∈ x.panel.roster.entriesFor event → e ∉ x.after.roster.entriesFor event →
            e ∉ y.panel.roster.entriesFor event) ∧
          (e ∈ x.after.roster.entriesFor event → (∀ z ∈ mid, z.Keeps event e) →
            e ∈ y.panel.roster.entriesFor event) := by
  have hnumbered := hp.numbered Roster.numbered_new
  refine ⟨fun event => ?_, hnumbered.entriesFor_ascending, ?_,
    fun steps q h => ⟨h.level, h.end_eq, ?_, ?_⟩⟩
  · rw [dispatch, calls_eq]
  · obtain ⟨steps, hsteps⟩ := p.exists_course_run (tasks.map (0, ·))
    exact ⟨steps, by simpa [Function.comp_def] using hsteps⟩
  · rw [h.end_eq]
    exact hp.trans (becomes_replay steps p)
  · rintro before x after rfl
    obtain ⟨hpanel, agenda, hafter⟩ := h.panel_eq
    have hx : x.panel.roster.Numbered := by
      rw [hpanel]
      exact (becomes_replay before p).numbered hnumbered
    refine ⟨hpanel, hx.entriesFor_ascending, fun name event htask => ?_, ?_⟩
    · have hbelow := h.maySetOff_below
        (List.pairwise_map.mpr (List.pairwise_of_forall fun _ _ => Nat.le_refl 0))
      rw [htask] at hbelow
      rw [← calls_eq]
      exact hbelow
    · rintro mid y later rfl event e
      exact ⟨hafter.not_mem_of_not_mem hx, hafter.mem_of_keeps⟩

/-- Two listeners for one address. Called for the first time, the first of them takes the second
out, puts a third in its place and dispatches another word for the address. -/
def meddled : Panel :=
  let script := [⟨1, [.unsubscribe "second", .subscribe "third" 0x0010 [],
    .dispatch (.word 0x0010 2)]⟩]
  ((({} : Panel).perform (.subscribe "first" 0x0010 script)).1.perform
    (.subscribe "second" 0x0010 [])).1

theorem dispatch_snapshot_meddled :
    meddled.dispatch (.word 0x0010 1) =
      meddled.run [.call 0 (.word 0x0010 1), .call 1 (.word 0x0010 1)] ∧
    ∃ before x after q,
      meddled.Course [(0, .call 0 (.word 0x0010 1)), (0, .call 1 (.word 0x0010 1))]
        (before ++ x :: after) q ∧
      x.task = .act "first" (.dispatch (.word 0x0010 2)) ∧
      (1, 1) ∉ x.panel.roster.entriesFor (.word 0x0010 2) ∧
      (2, 2) ∈ x.panel.roster.entriesFor (.word 0x0010 2) ∧
      x.below after =
        [.call 0 (.word 0x0010 2), .call 2 (.word 0x0010 2), .note "first" .nothing] := by
  have hbuilt : ({} : Roster Nat).Becomes meddled.roster :=
    (effect_perform {} _).becomes.trans (effect_perform _ _).becomes
  have hquiet : ∀ (p : Panel) (k : Nat) (event : Event), p.MaySetOff (.call k event) [] :=
    fun _ _ _ => ⟨"", [], rfl⟩
  have hcourse : meddled.Course
      [(0, .call 0 (.word 0x0010 1)), (0, .call 1 (.word 0x0010 1))] _ _ :=
    .next (.map (.act "first") [.unsubscribe "second", .subscribe "third" 0x0010 [],
      .dispatch (.word 0x0010 2)]) ⟨_, _, rfl⟩ <|
    .next [.note "first" (.flag true)] rfl <|
    .next [] rfl <|
    .next [.note "first" (.id 2)] rfl <|
    .next [] rfl <|
    .next [.call 0 (.word 0x0010 2), .call 2 (.word 0x0010 2), .note "first" .nothing] rfl <|
    .next [] (hquiet _ _ _) <|
    .next [] (hquiet _ _ _) <|
    .next [] rfl <|
    .next [] (hquiet _ _ _) <|
    .done _
  obtain ⟨hdispatch, -, -, hall⟩ := dispatch_snapshot meddled hbuilt
    [.call 0 (.word 0x0010 1), .call 1 (.word 0x0010 1)]
  obtain ⟨-, -, -, hmoments⟩ := hall _ _ hcourse
  obtain ⟨-, -, -, hwithdrawn⟩ := hmoments [_] _ [_, _, _, _, _, _, _, _] rfl
  obtain ⟨-, -, -, hadded⟩ := hmoments [_, _, _] _ [_, _, _, _, _, _] rfl
  obtain ⟨-, -, hbelow, -⟩ := hmoments [_, _, _, _, _] _ [_, _, _, _] rfl
  refine ⟨hdispatch _, [_, _, _, _, _], _, [_, _, _, _], _, hcourse, rfl, ?_, ?_, hbelow _ _ rfl⟩
  · refine (hwithdrawn [_, _, _] _ [_, _, _, _] rfl _ _).1 ?_ ?_
    · decide
    · decide
  · refine (hadded [_] _ [_, _, _, _] rfl _ _).2 ?_ ?_
    · decide
    · intro z hz
      rw [List.mem_singleton.mp hz]
      exact fun he => he

end WordLink.Panel
