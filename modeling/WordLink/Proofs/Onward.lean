import WordLink.Proofs.PanelOrder

/-!
# A gauge that is still up was never down

The listener of a new gauge is a new one. So a name that stands for a gauge put up earlier has
stood for it all the time since, through whatever commands were carried out (`onward_run`).
-/
namespace WordLink.Panel

variable {p q r : Panel} {m : Mount}

/-- A name that stands for an older gauge now has stood for it before. -/
structure Onward (p q : Panel) : Prop where
  size_le : p.listeners.size ≤ q.listeners.size
  lookup : ∀ name m, m.listener < p.listeners.size →
    q.gauges.lookup name = some m → p.gauges.lookup name = some m

theorem Onward.of_eq (hl : q.listeners = p.listeners) (hg : q.gauges = p.gauges) : p.Onward q :=
  ⟨Nat.le_of_eq (by rw [hl]), fun name m _ h => by rwa [hg] at h⟩

theorem Onward.trans (h : p.Onward q) (h' : q.Onward r) : p.Onward r :=
  ⟨Nat.le_trans h.size_le h'.size_le, fun name m hm hr =>
    h.lookup name m hm (h'.lookup name m (Nat.lt_of_lt_of_le hm h.size_le) hr)⟩

theorem lookup_of_lookup_filter {α : Type} {entries : List (String × α)} {name other : String}
    {x : α} (h : (entries.filter (·.1 != name)).lookup other = some x) :
    entries.lookup other = some x := by
  induction entries with
  | nil => cases h
  | cons e rest ih =>
    obtain ⟨key, y⟩ := e
    by_cases hkey : key = name
    · subst hkey
      simp only [List.filter_cons, bne_self_eq_false, Bool.false_eq_true, if_false] at h
      have hne : other ≠ key := by
        rintro rfl
        obtain ⟨before, after, heq, -⟩ := List.lookup_eq_some_iff.mp h
        have hmem : (other, x) ∈ rest.filter (·.1 != other) := by simp [heq]
        simpa using (List.mem_filter.mp hmem).2
      rw [List.lookup_cons, beq_false_of_ne hne]
      exact ih h
    · simp only [List.filter_cons, bne_iff_ne, ne_eq, hkey, not_false_eq_true, if_true,
        List.lookup_cons] at h ⊢
      split at h
      · exact h
      · exact ih h

theorem onward_takeDown (p : Panel) (name : String) : p.Onward (p.takeDown name) := by
  refine ⟨Nat.le_of_eq (by rw [listeners_takeDown]), fun other m _ h => ?_⟩
  rw [gauges_takeDown] at h
  exact lookup_of_lookup_filter h

theorem Onward.putUp (h : p.Onward q) {n : Mount} (hn : p.listeners.size ≤ n.listener)
    (name : String) : p.Onward (q.putUp name n) := by
  refine ⟨by rw [listeners_putUp]; exact h.size_le, fun other m hm hl => ?_⟩
  rw [Panel.putUp, List.lookup_cons] at hl
  split at hl
  · cases hl
    omega
  · exact (h.trans (q.onward_takeDown name)).lookup other m hm hl

theorem gauges_foldl_unmount (mounts : List Mount) (p : Panel) :
    (mounts.foldl unmount p).gauges = p.gauges := by
  induction mounts generalizing p with
  | nil => rfl
  | cons m rest ih => rw [List.foldl_cons, ih, gauges_unmount]

/-- New gauges have new listeners. -/
theorem Mounting.onward {script : List (Stretch Command)} {done : List Mount}
    (hm : p.Mounting script done q) :
    p.Onward q ∧ ∀ m ∈ done, p.listeners.size ≤ m.listener := by
  induction hm with
  | none => exact ⟨Onward.of_eq rfl rfl, by simp⟩
  | @more done q field g l attached _ _ _ ih =>
    obtain ⟨honward, hnew⟩ := ih
    have he := enrolled_mount q l g attached
    have hsize : (q.mount l g attached).1.listeners.size = q.listeners.size + 1 := by
      rw [he.listeners, Array.size_push]
    have hlistener : (q.mount l g attached).2.listener = q.listeners.size := by cases g <;> rfl
    refine ⟨honward.trans ⟨by omega, fun name m _ h => by rwa [he.gauges] at h⟩, ?_⟩
    exact List.forall_mem_cons.mpr ⟨hlistener ▸ honward.size_le, hnew⟩

theorem Onward.putUpAll (h : p.Onward q) {mounts : List Mount}
    (hm : ∀ m ∈ mounts, p.listeners.size ≤ m.listener) (name : String) :
    p.Onward (q.putUpAll name mounts) := by
  have all : ∀ (l : List (Mount × Nat)) (q : Panel), p.Onward q →
      (∀ e ∈ l, p.listeners.size ≤ e.1.listener) →
      p.Onward (l.foldl (fun q e => q.putUp (numbered name e.2) e.1) q) := by
    intro l
    induction l with
    | nil => exact fun q h _ => h
    | cons e l ih =>
      intro q h hl
      obtain ⟨he, hl⟩ := List.forall_mem_cons.mp hl
      exact ih _ (h.putUp he _) hl
  exact all mounts.zipIdx q h fun e he => hm _ (List.fst_mem_of_mem_zipIdx he)

theorem Effect.onward {c : Command} (he : p.Effect c q) : p.Onward q := by
  cases he with
  | nothing => exact Onward.of_eq rfl rfl
  | enrolled he hplain hscript hids =>
    refine ⟨?_, fun name m _ hl => he.gauges ▸ hl⟩
    rw [he.listeners, Array.size_push]
    exact Nat.le_succ _
  | withdrawn hid => exact Onward.of_eq rfl rfl
  | boundaryWithdrawn hid => exact Onward.of_eq rfl rfl
  | putUp hm name => exact hm.onward.1.putUp (hm.onward.2 _ List.mem_cons_self) name
  | putUpAll hm name =>
    exact hm.onward.1.putUpAll (fun m h => hm.onward.2 m (List.mem_reverse.mp h)) name
  | takenBack hm =>
    exact hm.onward.1.trans (Onward.of_eq (listeners_foldl_unmount ..) (gauges_foldl_unmount ..))
  | takenDown name => exact p.onward_takeDown name

theorem listeners_call (p : Panel) (k : Nat) (event : Event) :
    (p.call k event).1.listeners = p.listeners.modify k (Listener.hear event) := by
  unfold call
  split
  · rename_i hl
    refine Array.ext_getElem? fun i => ?_
    rw [Array.getElem?_modify]
    split
    · rename_i hk
      rw [← hk, hl]
      rfl
    · rfl
  · dsimp only
    split <;> rfl

theorem forall_call {P : Listener → Prop} (h : ∀ l ∈ p.listeners.toList, P l) {event : Event}
    (hear : ∀ l, P l → P (l.hear event)) (k : Nat) :
    ∀ l ∈ (p.call k event).1.listeners.toList, P l := by
  intro l hl
  rw [listeners_call, Array.toList_modify] at hl
  obtain ⟨i, hi⟩ := List.mem_iff_getElem?.mp hl
  rw [List.getElem?_modify] at hi
  obtain ⟨l', hl', rfl⟩ := Option.map_eq_some_iff.mp hi
  have hP := h l' (List.mem_of_getElem? hl')
  split
  · exact hear l' hP
  · exact hP

theorem gauges_call (p : Panel) (k : Nat) (event : Event) :
    (p.call k event).1.gauges = p.gauges := by
  unfold call
  split
  · rfl
  · dsimp only
    split <;> rfl

theorem onward_step (p : Panel) (t : Task) : p.Onward (p.step t).1 := by
  cases t with
  | call k event =>
    refine ⟨?_, fun name m _ h => ?_⟩
    · exact Nat.le_of_eq (by rw [Panel.step, listeners_call, Array.size_modify])
    · rwa [Panel.step, gauges_call] at h
  | act name command => exact (p.effect_perform command).onward
  | note name reply => exact Onward.of_eq rfl rfl

theorem onward_run (p : Panel) (tasks : List Task) : p.Onward (p.run tasks) := by
  induction p, tasks using Panel.run.induct with
  | case1 p => exact Onward.of_eq (by rw [run_nil]) (by rw [run_nil])
  | case2 p t rest done ih =>
    rw [run_cons]
    exact (p.onward_step t).trans ih

theorem onward_dispatch (p : Panel) (event : Event) : p.Onward (p.dispatch event) :=
  p.onward_run _

/-- What comes of a call are commands of the script of the listener called. -/
theorem mem_call {k : Nat} {event : Event} {t : Task} (ht : t ∈ (p.call k event).2) :
    ∃ l ∈ p.listeners.toList, ∃ c ∈ Stretch.current l.script, t = .act l.name c := by
  unfold call at ht
  split at ht
  · cases ht
  · rename_i l hl
    dsimp only at ht
    split at ht
    · obtain ⟨c, hc, rfl⟩ := List.mem_map.mp ht
      exact ⟨l, List.mem_of_getElem? (by rw [Array.getElem?_toList]; exact hl), c, hc, rfl⟩
    · cases ht

/-! ### Panels without scripts -/

/-- No listener ever asks for anything. -/
def Scriptless (p : Panel) : Prop := ∀ l ∈ p.listeners.toList, l.script.isEmpty

instance (p : Panel) : Decidable p.Scriptless :=
  inferInstanceAs (Decidable (∀ l ∈ p.listeners.toList, l.script.isEmpty))

theorem Scriptless.call (h : p.Scriptless) (k : Nat) (event : Event) :
    (p.call k event).1.Scriptless := by
  refine forall_call h (fun l hempty => ?_) k
  simp [Listener.hear, List.isEmpty_iff.mp hempty, Stretch.spend]

theorem Scriptless.call_eq_nil (h : p.Scriptless) (k : Nat) (event : Event) :
    (p.call k event).2 = [] := by
  refine List.eq_nil_iff_forall_not_mem.mpr fun t ht => ?_
  obtain ⟨l, hl, c, hc, -⟩ := mem_call ht
  rw [List.isEmpty_iff.mp (h l hl)] at hc
  cases hc

theorem Scriptless.run (h : p.Scriptless) {tasks : List Task}
    (ht : ∀ t ∈ tasks, ∃ k event, t = .call k event) :
    (p.run tasks).Scriptless ∧ (p.run tasks).gauges = p.gauges := by
  induction p, tasks using Panel.run.induct with
  | case1 p => exact ⟨by rwa [run_nil], by rw [run_nil]⟩
  | case2 p t rest done ih =>
    obtain ⟨⟨k, event, rfl⟩, hrest⟩ := List.forall_mem_cons.mp ht
    have hnil : done.2 = [] := h.call_eq_nil k event
    obtain ⟨hs, hg⟩ := ih (h.call k event) (by rwa [hnil, List.nil_append])
    rw [run_cons]
    exact ⟨hs, hg.trans (p.gauges_call k event)⟩

/-- Events alone take no gauge down: that is left to scripts. -/
theorem Scriptless.dispatch (h : p.Scriptless) (event : Event) :
    (p.dispatch event).Scriptless ∧ (p.dispatch event).gauges = p.gauges := by
  refine h.run fun t ht => ?_
  cases event with
  | word a data =>
    obtain ⟨k, -, rfl⟩ := List.mem_map.mp ht
    exact ⟨k, _, rfl⟩
  | boundary =>
    obtain ⟨k, -, rfl⟩ := List.mem_map.mp ht
    exact ⟨k, _, rfl⟩

theorem Scriptless.gauges_foldl_dispatch (h : p.Scriptless) (events : List Event) :
    (events.foldl Panel.dispatch p).gauges = p.gauges := by
  refine (List.foldlRecOn (motive := fun q : Panel => q.Scriptless ∧ q.gauges = p.gauges) events _
    ⟨h, rfl⟩ fun q hq event _ => ?_).2
  obtain ⟨hs, hg⟩ := hq.1.dispatch event
  exact ⟨hs, hg.trans hq.2⟩

end WordLink.Panel
