import WordLink.Proofs.Effects

/-!
# Commands leave the gauges that stay up alone

Every command keeps a panel orderly, and so does every call of a listener. Hence a panel that
started empty is orderly whatever was carried out on it, in the middle of a dispatch too
(`Orderly.run`).
-/
namespace WordLink.Panel

variable {p q : Panel} {m : Mount} {g : Gauge} {loose : List Mount}

/-! ### Gauges under names -/

theorem gauges_takeDown (p : Panel) (name : String) :
    (p.takeDown name).gauges = p.gauges.filter (·.1 != name) := by
  unfold takeDown
  split
  · simp only [gauges_unmount]
  · rename_i hnone
    refine (List.filter_eq_self.mpr fun e he => ?_).symm
    simpa [eq_comm (a := name)] using List.lookup_eq_none_iff.mp hnone e he

theorem takeDown_eq {name : String} (hm : p.gauges.lookup name = some m) :
    p.takeDown name =
      ({ p with gauges := p.gauges.filter (·.1 != name) } : Panel).unmount m := by
  unfold takeDown
  rw [hm]
  dsimp only
  rw [gauges_unmount]
  unfold unmount
  cases m.boundaryId <;> rfl

theorem roster_takeDown {name : String} (hm : p.gauges.lookup name = some m) :
    (p.takeDown name).roster = (p.unmount m).roster := by
  unfold takeDown
  rw [hm]

theorem Orderly.takeDown (h : p.Orderly loose) (name : String) :
    (p.takeDown name).Orderly loose := by
  unfold Panel.takeDown
  split
  · rename_i m hm
    -- the entries under the name, the taken one among them, and all the others
    have hperm : ((p.gauges.filter (·.1 == name)).map Prod.snd ++
        ((p.gauges.filter (·.1 != name)).map Prod.snd ++ loose)).Perm (p.mounts ++ loose) := by
      rw [← List.append_assoc, ← List.map_append]
      exact ((List.filter_append_perm _ _).map _).append_right _
    have happ := (hperm.symm.pairwise_iff fun hmn => hmn.symm).mp h.apart
    have hcross := (List.pairwise_append.mp happ).2.2
    have hmem : m ∈ (p.gauges.filter (·.1 == name)).map Prod.snd := by
      obtain ⟨before, after, heq, -⟩ := List.lookup_eq_some_iff.mp hm
      exact List.mem_map.mpr ⟨(name, m), List.mem_filter.mpr ⟨by simp [heq], by simp⟩, rfl⟩
    have ht := p.thinned_unmount m
    simp only [gauges_unmount]
    refine Thinned.orderly ⟨ht.listeners, ht.ids, ht.nextId, ht.words, ht.boundaries⟩ h ?_ ?_
    · exact (List.filter_sublist.map _).append_right _
    · intro n hn g hg
      exact (hg.unmount (hcross m hmem n hn)).frame rfl (Nat.le_refl _) rfl rfl
  · exact h

theorem Orderly.named (h : p.Orderly (m :: loose)) (name : String) :
    ({ p with gauges := (name, m) :: p.gauges } : Panel).Orderly loose :=
  h.regroup rfl rfl rfl List.perm_middle.symm

theorem Orderly.putUp (h : p.Orderly (m :: loose)) (name : String) :
    (p.putUp name m).Orderly loose :=
  (h.takeDown name).named name

theorem Orderly.putUpAll {mounts : List Mount} (h : p.Orderly mounts) (name : String) :
    (p.putUpAll name mounts).Orderly [] := by
  have all : ∀ (l : List (Mount × Nat)) (p : Panel), p.Orderly (l.map Prod.fst) →
      (l.foldl (fun p e => p.putUp (numbered name e.2) e.1) p).Orderly [] := by
    intro l
    induction l with
    | nil => exact fun p h => h
    | cons e l ih => exact fun p h => ih _ (h.putUp _)
  exact all mounts.zipIdx p (by rwa [List.zipIdx_map_fst])

theorem Mounting.orderly {script : List (Stretch Command)} {done : List Mount}
    (hm : p.Mounting script done q) (h : p.Orderly []) : q.Orderly done := by
  induction hm with
  | none => exact h
  | more l attached _ _ _ ih => exact ih.mount l _ attached

/-! ### Numbers under names -/

theorem Orderly.registered {ids : List (String × RegistrationId)} (h : p.Orderly loose)
    (hlt : ∀ e ∈ ids, e.2 < p.roster.nextId)
    (hf : ∀ e ∈ ids, ∀ m ∈ p.mounts ++ loose, ¬ m.Owns e.2) :
    ({ p with ids := ids ++ p.ids } : Panel).Orderly loose := by
  constructor
  · exact h.words_known
  · exact h.boundaries_known
  · exact fun e he => (List.mem_append.mp he).elim (hlt e) (h.ids_given e)
  · intro m hm
    obtain ⟨g, hg⟩ := h.stands m hm
    exact ⟨g, hg.frame rfl (Nat.le_refl _) rfl rfl⟩
  · exact h.apart
  · exact fun m hm e he => (List.mem_append.mp he).elim (hf e · m hm) (h.foreign m hm e)

theorem Enrolled.not_owns {l : Listener} {id : RegistrationId} (he : p.Enrolled q l)
    (h : p.Orderly loose) (hid : p.roster.nextId ≤ id) : ∀ m ∈ q.mounts ++ loose, ¬ m.Owns id := by
  intro m hm howns
  rw [mounts, he.gauges] at hm
  obtain ⟨g, hg⟩ := h.stands m hm
  exact absurd (hg.given id howns) (Nat.not_lt_of_le hid)

theorem Orderly.unsubscribe {name : String} {id : RegistrationId} (h : p.Orderly loose)
    (hid : p.ids.lookup name = some id) :
    ({ p with roster := p.roster.unsubscribe id } : Panel).Orderly loose := by
  obtain ⟨before, after, heq, -⟩ := List.lookup_eq_some_iff.mp hid
  have hmem : (name, id) ∈ p.ids := by simp [heq]
  have ht : p.Thinned { p with roster := p.roster.unsubscribe id } :=
    ⟨rfl, rfl, rfl, fun e he => (List.mem_filter.mp he).1, fun e he => he⟩
  refine ht.orderly h (List.Sublist.refl _) fun m hm g hg => ?_
  refine hg.frame rfl (Nat.le_refl _) (Roster.wordsOf_unsubscribe fun e he => ?_) rfl
  rintro rfl
  exact h.foreign m hm _ hmem (hg.owns_of_mem_words he)

theorem Orderly.unsubscribeBoundary {name : String} {id : RegistrationId} (h : p.Orderly loose)
    (hid : p.ids.lookup name = some id) :
    ({ p with roster := p.roster.unsubscribeBoundary id } : Panel).Orderly loose := by
  obtain ⟨before, after, heq, -⟩ := List.lookup_eq_some_iff.mp hid
  have hmem : (name, id) ∈ p.ids := by simp [heq]
  have ht : p.Thinned { p with roster := p.roster.unsubscribeBoundary id } :=
    ⟨rfl, rfl, rfl, fun e he => he, fun e he => (List.mem_filter.mp he).1⟩
  refine ht.orderly h (List.Sublist.refl _) fun m hm g hg => ?_
  refine hg.frame rfl (Nat.le_refl _) rfl (Roster.boundariesOf_unsubscribeBoundary fun e he => ?_)
  rintro rfl
  exact h.foreign m hm _ hmem (hg.owns_of_mem_boundaries he)

/-! ### Commands and runs -/

theorem Effect.orderly {c : Command} (he : p.Effect c q) (h : p.Orderly []) : q.Orderly [] := by
  cases he with
  | nothing => exact h
  | enrolled he hplain hscript hids =>
    exact (he.orderly h).registered (fun e hm => (hids e hm).2)
      fun e hm => he.not_owns h (hids e hm).1
  | withdrawn hid => exact h.unsubscribe hid
  | boundaryWithdrawn hid => exact h.unsubscribeBoundary hid
  | putUp hm name => exact (hm.orderly h).putUp name
  | putUpAll hm name => exact ((hm.orderly h).perm (List.reverse_perm _).symm).putUpAll name
  | takenBack hm => exact (hm.orderly h).unmountAll
  | takenDown name => exact h.takeDown name

theorem Orderly.perform (h : p.Orderly []) (c : Command) : (p.perform c).1.Orderly [] :=
  (p.effect_perform c).orderly h

theorem gaugeAt_hear (p : Panel) (k : Nat) (event : Event) (m : Mount) :
    ({ p with listeners := p.listeners.modify k (Listener.hear event) } : Panel).gaugeAt m =
      if k = m.listener then (p.gaugeAt m).map (Gauge.hear event) else p.gaugeAt m := by
  simp only [gaugeAt_eq, Array.getElem?_modify]
  split
  · cases hl : p.listeners[m.listener]? with
    | none => rfl
    | some l =>
      obtain ⟨name, role, outspoken, script⟩ := l
      cases role <;> rfl
  · rfl

theorem Orderly.hear (h : p.Orderly loose) (k : Nat) (event : Event) :
    ({ p with listeners := p.listeners.modify k (Listener.hear event) } : Panel).Orderly loose := by
  have hsize : (p.listeners.modify k (Listener.hear event)).size = p.listeners.size :=
    Array.size_modify
  constructor
  · exact fun e he => hsize.symm ▸ h.words_known e he
  · exact fun e he => hsize.symm ▸ h.boundaries_known e he
  · exact h.ids_given
  · intro m hm
    obtain ⟨g, hg⟩ := h.stands m hm
    have hgauge := p.gaugeAt_hear k event m
    rw [hg.gauge] at hgauge
    by_cases hk : k = m.listener
    · rw [if_pos hk] at hgauge
      refine ⟨g.hear event, hgauge, ?_, hg.given, ?_, hg.boundaries, ?_⟩
      · rw [Gauge.addresses_hear, hg.count]
      · rw [Gauge.addresses_hear]
        exact hg.words
      · rw [Gauge.hearsBoundaries_hear, hg.kind]
    · rw [if_neg hk] at hgauge
      exact ⟨g, hgauge, hg.count, hg.given, hg.words, hg.boundaries, hg.kind⟩
  · exact h.apart
  · exact h.foreign

theorem Orderly.write (h : p.Orderly loose) (entry : Entry) : (p.write entry).Orderly loose :=
  h.regroup rfl rfl rfl (List.Perm.refl _)

theorem Orderly.step (h : p.Orderly []) (t : Task) : (p.step t).1.Orderly [] := by
  cases t with
  | call k event =>
    simp only [Panel.step, Panel.call]
    split
    · exact h
    · split
      · exact (h.hear k event).write _
      · exact h.hear k event
  | act name command => exact h.perform command
  | note name reply => exact h.write _

theorem Orderly.run (h : p.Orderly []) (tasks : List Task) : (p.run tasks).Orderly [] := by
  induction p, tasks using Panel.run.induct with
  | case1 p => rwa [run_nil]
  | case2 p t rest done ih =>
    rw [run_cons]
    exact ih (h.step t)

theorem Orderly.execute (h : p.Orderly []) (c : Command) : (p.execute c).1.Orderly [] :=
  (h.perform c).run _

theorem Orderly.dispatch (h : p.Orderly []) (event : Event) : (p.dispatch event).Orderly [] :=
  h.run _

end WordLink.Panel
