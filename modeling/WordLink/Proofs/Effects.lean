import WordLink.Proofs.Mounts

/-!
# What a command does to a panel

Few things happen to a panel, whatever the command: a listener is enrolled, registrations are taken
back, gauges are put up or taken down. `effect_perform` says which; everything else about commands
is read off from there.
-/
namespace WordLink

/-- The script that the command brings along. -/
def Command.script : Command → List (Stretch Command)
  | .subscribe _ _ script => script
  | .subscribeShared _ _ script => script
  | .subscribeBoundary _ script => script
  | .follow _ _ _ script => script
  | _ => []

/-- The command is about single registrations. -/
def Command.plain : Command → Bool
  | .subscribe .. => true
  | .subscribeShared .. => true
  | .subscribeBoundary .. => true
  | .unsubscribe _ => true
  | .unsubscribeBoundary _ => true
  | _ => false

namespace Panel

/-- Gauges mounted one after the other, the latest first, by listeners with the same script. -/
inductive Mounting (p : Panel) (script : List (Stretch Command)) : List Mount → Panel → Prop where
  | none : Mounting p script [] p
  | more {done : List Mount} {q : Panel} {field : Field} {g : Gauge} (l : Listener)
      (attached : Bool) (h : Mounting p script done q) (hl : l.script = script)
      (hg : field.gauge = .ok g) :
      Mounting p script ((q.mount l g attached).2 :: done) (q.mount l g attached).1

/-- What a command may make of a panel. -/
inductive Effect (p : Panel) (c : Command) : Panel → Prop where
  | nothing : Effect p c p
  | enrolled {q : Panel} {l : Listener} {ids : List (String × RegistrationId)}
      (he : p.Enrolled q l) (hplain : l.role = .plain) (hscript : l.script = c.script)
      (hids : ∀ e ∈ ids, p.roster.nextId ≤ e.2 ∧ e.2 < q.roster.nextId) :
      Effect p c { q with ids := ids ++ q.ids }
  | withdrawn {name : String} {id : RegistrationId} (hid : p.ids.lookup name = some id) :
      Effect p c { p with roster := p.roster.unsubscribe id }
  | boundaryWithdrawn {name : String} {id : RegistrationId} (hid : p.ids.lookup name = some id) :
      Effect p c { p with roster := p.roster.unsubscribeBoundary id }
  | putUp {m : Mount} {q : Panel} (hm : p.Mounting c.script [m] q) (name : String) :
      Effect p c (q.putUp name m)
  | putUpAll {done : List Mount} {q : Panel} (hm : p.Mounting c.script done q) (name : String) :
      Effect p c (q.putUpAll name done.reverse)
  | takenBack {done : List Mount} {q : Panel} (hm : p.Mounting c.script done q) :
      Effect p c (done.foldl unmount q)
  | takenDown (name : String) : Effect p c (p.takeDown name)

/-- What a command may make of a panel that is not about single registrations. -/
inductive GaugeEffect (p : Panel) (script : List (Stretch Command)) : Panel → Prop where
  | nothing : GaugeEffect p script p
  | putUp {m : Mount} {q : Panel} (hm : p.Mounting script [m] q) (name : String) :
      GaugeEffect p script (q.putUp name m)
  | putUpAll {done : List Mount} {q : Panel} (hm : p.Mounting script done q) (name : String) :
      GaugeEffect p script (q.putUpAll name done.reverse)
  | takenBack {done : List Mount} {q : Panel} (hm : p.Mounting script done q) :
      GaugeEffect p script (done.foldl unmount q)
  | takenDown (name : String) : GaugeEffect p script (p.takeDown name)

variable {p q : Panel} {script : List (Stretch Command)}

theorem GaugeEffect.effect {c : Command} (h : p.GaugeEffect c.script q) : p.Effect c q := by
  cases h with
  | nothing => exact .nothing
  | putUp hm name => exact .putUp hm name
  | putUpAll hm name => exact .putUpAll hm name
  | takenBack hm => exact .takenBack hm
  | takenDown name => exact .takenDown name

theorem Mounting.follow {done : List Mount} {l : Listener} {field : Field} {attached : Bool}
    {r : Panel} {m : Mount} (h : p.Mounting script done q) (hl : l.script = script)
    (hf : q.follow l field attached = (r, .ok m)) : p.Mounting script (m :: done) r := by
  unfold Panel.follow at hf
  split at hf
  · rename_i g hg
    cases hf
    exact h.more l attached hl hg
  · cases hf

theorem follow_error {l : Listener} {field : Field} {attached : Bool} {cause : FieldError}
    (hf : p.follow l field attached = (q, .error cause)) : q = p := by
  unfold Panel.follow at hf
  split at hf
  · cases hf
  · cases hf
    rfl

theorem Mounting.followAll {name : String} {fields : List Field} {done mounts : List Mount}
    {r : Panel} (h : p.Mounting [] done q)
    (hf : q.followAll name done fields = (r, .ok mounts)) :
    ∃ done', p.Mounting [] done' r ∧ mounts = done'.reverse := by
  induction fields generalizing q done with
  | nil =>
    cases hf
    exact ⟨done, h, rfl⟩
  | cons field rest ih =>
    unfold Panel.followAll at hf
    split at hf
    · rename_i q' m hq'
      exact ih (h.follow rfl hq') hf
    · cases hf

theorem Mounting.followAll_error {name : String} {fields : List Field} {done : List Mount}
    {cause : FieldError} {r : Panel} (h : p.Mounting [] done q)
    (hf : q.followAll name done fields = (r, .error cause)) :
    ∃ done' q', p.Mounting [] done' q' ∧ r = done'.foldl unmount q' := by
  induction fields generalizing q done with
  | nil => cases hf
  | cons field rest ih =>
    unfold Panel.followAll at hf
    split at hf
    · rename_i q' m hq'
      exact ih (h.follow rfl hq') hf
    · rename_i q' cause hq'
      cases hf
      exact ⟨done, q, h, by rw [follow_error hq']⟩

theorem registerAll_eq (name : String) (l : List (RegistrationId × Nat)) (p : Panel) :
    l.foldl (fun p e => p.register (numbered name e.2) e.1) p =
      { p with ids := (l.map fun e => (numbered name e.2, e.1)).reverse ++ p.ids } := by
  induction l generalizing p with
  | nil => rfl
  | cons e l ih =>
    rw [List.foldl_cons, ih]
    simp [register]

theorem gaugeEffect_perform (p : Panel) {c : Command} (hc : c.plain = false) :
    p.GaugeEffect c.script (p.perform c).1 := by
  cases c with
  | subscribe name address script => cases hc
  | subscribeShared name addresses script => cases hc
  | subscribeBoundary name script => cases hc
  | unsubscribe name => cases hc
  | unsubscribeBoundary name => cases hc
  | compareIds name other =>
    simp only [perform]
    split <;> exact .nothing
  | isSubscribed address => exact .nothing
  | dispatch event => exact .nothing
  | follow name field outspoken script =>
    simp only [perform]
    split
    · rename_i q m hf
      exact .putUp (Mounting.none.follow rfl hf) name
    · rename_i q cause hf
      rw [follow_error hf]
      exact .nothing
  | attach name definition =>
    simp only [perform]
    split
    · exact .nothing
    · split
      · rename_i q m hf
        exact .putUp (Mounting.none.follow rfl hf) name
      · rename_i q cause hf
        rw [follow_error hf]
        exact .nothing
  | attachAll name definitions =>
    simp only [perform]
    split
    · exact .nothing
    · split
      · rename_i q mounts hf
        obtain ⟨done, hm, rfl⟩ := Mounting.none.followAll hf
        exact .putUpAll hm name
      · rename_i q cause hf
        obtain ⟨done, r, hm, rfl⟩ := Mounting.none.followAll_error hf
        exact .takenBack hm
  | drop name => exact .takenDown name
  | query name =>
    simp only [perform]
    split <;> exact .nothing
  | describeGauge name =>
    simp only [perform]
    split <;> exact .nothing
  | describeRoster => exact .nothing

theorem effect_perform (p : Panel) (c : Command) : p.Effect c (p.perform c).1 := by
  cases c with
  | subscribe name address script =>
    have he := p.enrolled_words [address] { name, script }
    have hids : ∀ e ∈ [(name, p.roster.nextId)],
        p.roster.nextId ≤ e.2 ∧ e.2 < p.roster.nextId + 1 := by simp
    exact .enrolled he rfl rfl hids
  | subscribeShared name addresses script =>
    have he := p.enrolled_words addresses { name, script }
    simp only [perform, registerAll_eq]
    refine .enrolled he rfl rfl fun e hm => ?_
    rw [List.mem_reverse] at hm
    obtain ⟨⟨id, i⟩, hmem, rfl⟩ := List.mem_map.mp hm
    exact List.mem_range'_1.mp (List.fst_mem_of_mem_zipIdx hmem)
  | subscribeBoundary name script =>
    have he := p.enrolled_boundary { name, script }
    have hids : ∀ e ∈ [(name, p.roster.nextId)],
        p.roster.nextId ≤ e.2 ∧ e.2 < p.roster.nextId + 1 := by simp
    exact .enrolled he rfl rfl hids
  | unsubscribe name =>
    simp only [perform]
    split
    · rename_i id hid
      exact .withdrawn hid
    · exact .nothing
  | unsubscribeBoundary name =>
    simp only [perform]
    split
    · rename_i id hid
      exact .boundaryWithdrawn hid
    · exact .nothing
  | _ => exact (p.gaugeEffect_perform rfl).effect

/-! ### New listeners -/

/-- At most new listeners have come, with this script, and their gauges are new. -/
def Enlists (p : Panel) (script : List (Stretch Command)) (q : Panel) : Prop :=
  ∃ new : List Listener, q.listeners.toList = p.listeners.toList ++ new ∧
    ∀ l ∈ new, l.script = script ∧ ∀ g, l.gauge? = some g → ∃ field : Field, field.gauge = .ok g

theorem Enlists.of_eq (h : q.listeners = p.listeners) : p.Enlists script q :=
  ⟨[], by simp [h], by simp⟩

theorem Enlists.of_push {l : Listener} (h : q.listeners = p.listeners.push l)
    (hl : l.script = script) (hg : ∀ g, l.gauge? = some g → ∃ field : Field, field.gauge = .ok g) :
    p.Enlists script q :=
  ⟨[l], by simp [h], by simpa using ⟨hl, hg⟩⟩

theorem Enlists.trans {r : Panel} (h : p.Enlists script q) (h' : q.Enlists script r) :
    p.Enlists script r := by
  obtain ⟨new, heq, hnew⟩ := h
  obtain ⟨new', heq', hnew'⟩ := h'
  refine ⟨new ++ new', by rw [heq', heq, List.append_assoc], fun l hl => ?_⟩
  exact (List.mem_append.mp hl).elim (hnew l) (hnew' l)

theorem Mounting.enlists {done : List Mount} (hm : p.Mounting script done q) :
    p.Enlists script q := by
  induction hm with
  | none => exact .of_eq rfl
  | @more done q field g l attached h hl hg ih =>
    exact ih.trans (.of_push (listeners_mount ..) hl
      fun g' hg' => ⟨field, Option.some.inj hg' ▸ hg⟩)

theorem Effect.enlists {c : Command} (he : p.Effect c q) : p.Enlists c.script q := by
  cases he with
  | nothing => exact .of_eq rfl
  | enrolled he hplain hscript hids =>
    refine .of_push he.listeners hscript fun g hg => ?_
    rw [Listener.gauge?, hplain] at hg
    cases hg
  | withdrawn hid => exact .of_eq rfl
  | boundaryWithdrawn hid => exact .of_eq rfl
  | putUp hm name => exact hm.enlists.trans (.of_eq (listeners_putUp ..))
  | putUpAll hm name => exact hm.enlists.trans (.of_eq (listeners_putUpAll ..))
  | takenBack hm => exact hm.enlists.trans (.of_eq (listeners_foldl_unmount ..))
  | takenDown name => exact .of_eq (listeners_takeDown ..)

theorem Enlists.forall_listeners {P : Listener → Prop} (h : p.Enlists script q)
    (hp : ∀ l ∈ p.listeners.toList, P l)
    (hnew : ∀ l, l.script = script →
      (∀ g, l.gauge? = some g → ∃ field : Field, field.gauge = .ok g) → P l) :
    ∀ l ∈ q.listeners.toList, P l := by
  obtain ⟨new, heq, hall⟩ := h
  intro l hl
  rw [heq] at hl
  rcases List.mem_append.mp hl with hold | hadded
  · exact hp l hold
  · exact hnew l (hall l hadded).1 (hall l hadded).2

/-- What is new leaves the gauges there are as they are. -/
theorem Enlists.gaugeAt {m : Mount} (h : p.Enlists script q)
    (hm : m.listener < p.listeners.size) : q.gaugeAt m = p.gaugeAt m := by
  obtain ⟨new, heq, -⟩ := h
  rw [gaugeAt_eq, gaugeAt_eq, ← Array.getElem?_toList, ← Array.getElem?_toList, heq,
    List.getElem?_append_left (by simpa using hm)]

end Panel

end WordLink
