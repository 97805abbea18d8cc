import WordLink.Proofs.Course
import WordLink.Proofs.Fitting

/-!
# Whose registrations they are

Every registration on a panel is either in the ledger of those that commands have made one by one
and not taken out, or it belongs to a gauge that is up; gauges that have been taken down leave
nothing behind, and none of them takes anything that is not its own (`registrations_accounted`).
What a gauge takes out is told by numbers, what belongs to it by its listener: that these come to
the same (`Stands.words_unmount`) carries the proof.
-/
namespace WordLink

/-! ### Lists by listener -/

section Listeners

variable {ε : Type} {listener : ε → Nat} {entries new : List ε} {k : Nat} {ks ls : List Nat}

theorem filter_others_enrol (hk : k ∉ ks) (hnew : ∀ e ∈ new, listener e = k) :
    (entries ++ new).filter (listener · ∉ ks) = entries.filter (listener · ∉ ks) ++ new := by
  have hall : ∀ e ∈ new, decide (listener e ∉ ks) = true :=
    fun e he => decide_eq_true (hnew e he ▸ hk)
  rw [List.filter_append, List.filter_eq_self.mpr hall]

theorem filter_others_mount (hold : ∀ e ∈ entries, listener e ≠ k)
    (hnew : ∀ e ∈ new, listener e = k)
    (hls : ∀ j, j ∈ ls ↔ j = k ∨ j ∈ ks) :
    (entries ++ new).filter (listener · ∉ ls) = entries.filter (listener · ∉ ks) := by
  have hnone : new.filter (listener · ∉ ls) = [] := by
    refine List.filter_eq_nil_iff.mpr fun e he => ?_
    simp [hls, hnew e he]
  rw [List.filter_append, hnone, List.append_nil]
  refine List.filter_congr fun e he => ?_
  simp [hls, hold e he]

theorem filter_others_filter {left : List ε} {keep : ε → Bool}
    (h : entries.filter (listener · ∉ ks) = left) :
    (entries.filter keep).filter (listener · ∉ ks) = left.filter keep := by
  rw [← h, List.filter_filter, List.filter_filter]
  exact List.filter_congr fun e _ => Bool.and_comm ..

/-- What belongs to none of the listeners, and what belongs to each of them. -/
theorem perm_by_listener (listener : ε → Nat) (hks : ks.Nodup) (entries : List ε) :
    entries.Perm (entries.filter (listener · ∉ ks) ++
      ks.flatMap fun k => entries.filter (listener · == k)) := by
  induction ks generalizing entries with
  | nil =>
    rw [List.filter_eq_self.mpr (by simp)]
    simp
  | cons k ks ih =>
    obtain ⟨hk, hks⟩ := List.nodup_cons.mp hks
    have hrest : ∀ j ∈ ks, (entries.filter (listener · != k)).filter (listener · == j) =
        entries.filter (listener · == j) := by
      intro j hj
      rw [List.filter_filter]
      refine List.filter_congr fun e _ => ?_
      by_cases he : listener e = j
      · have hne : j ≠ k := fun h => hk (h ▸ hj)
        simp [he, hne]
      · simp [he]
    have hmem : ∀ j, j ∈ k :: ks ↔ j = k ∨ j ∈ ks := fun j => List.mem_cons
    have hothers := ih hks (entries.filter (listener · != k))
    rw [List.flatMap_def, List.map_congr_left hrest, ← List.flatMap_def,
      Roster.filter_ne_filter_not_mem hmem] at hothers
    rw [List.flatMap_cons]
    calc
      entries.Perm (entries.filter (listener · == k) ++ entries.filter (listener · != k)) :=
        (List.filter_append_perm ..).symm
      List.Perm _ (entries.filter (listener · == k) ++ (entries.filter (listener · ∉ k :: ks) ++
          ks.flatMap fun j => entries.filter (listener · == j))) := hothers.append_left _
      List.Perm _ (entries.filter (listener · ∉ k :: ks) ++ (entries.filter (listener · == k) ++
          ks.flatMap fun j => entries.filter (listener · == j))) := by
        rw [← List.append_assoc, ← List.append_assoc]
        exact List.perm_append_comm.append_right _

end Listeners

theorem eq_of_key_eq {ε : Type} {key : ε → Nat} {entries : List ε}
    (h : entries.Pairwise (key · < key ·)) {e f : ε} (he : e ∈ entries) (hf : f ∈ entries)
    (hk : key e = key f) : e = f := by
  induction entries with
  | nil => cases he
  | cons d rest ih =>
    obtain ⟨hd, hrest⟩ := List.pairwise_cons.mp h
    cases he with
    | head =>
      cases hf with
      | head => rfl
      | tail _ hf => exact absurd hk (Nat.ne_of_lt (hd f hf))
    | tail _ he =>
      cases hf with
      | head => exact absurd hk (Nat.ne_of_gt (hd e he))
      | tail _ hf => exact ih hrest he hf

/-- The registrations made one by one and not taken out. -/
structure Ledger where
  words : List (WordRegistration Nat) := []
  boundaries : List (BoundaryRegistration Nat) := []

namespace Ledger

def unsubscribe (b : Ledger) (id : RegistrationId) : Ledger :=
  { b with words := b.words.filter (·.id != id) }

def unsubscribeBoundary (b : Ledger) (id : RegistrationId) : Ledger :=
  { b with boundaries := b.boundaries.filter (·.id != id) }

/-- What a command on the panel makes of the ledger. Gauges leave no trace. -/
def enter (b : Ledger) (p : Panel) : Command → Ledger
  | .subscribe _ address _ =>
    { b with words := b.words ++ [⟨p.roster.nextId, address, p.listeners.size⟩] }
  | .subscribeShared _ addresses _ =>
    { b with
      words := b.words ++ Roster.registrations p.roster.nextId addresses p.listeners.size }
  | .subscribeBoundary _ _ =>
    { b with boundaries := b.boundaries ++ [⟨p.roster.nextId, p.listeners.size⟩] }
  | .unsubscribe name => (p.ids.lookup name).elim b b.unsubscribe
  | .unsubscribeBoundary name => (p.ids.lookup name).elim b b.unsubscribeBoundary
  | _ => b

def note (b : Ledger) (p : Panel) : Task → Ledger
  | .act _ command => b.enter p command
  | _ => b

end Ledger

/-- The registration for boundaries that a gauge was given when it was put up, if it is a text. -/
def Mount.ownBoundaries (m : Mount) : List (BoundaryRegistration Nat) :=
  (m.boundaryId.map fun id => ⟨id, m.listener⟩).toList

namespace Panel

/-- The panel once the tasks have been dealt with, be they set off by others or not. -/
def pass (p : Panel) (tasks : List Task) : Panel := tasks.foldl (fun q t => (q.step t).1) p

def ledger (p : Panel) (b : Ledger) : List Task → Ledger
  | [] => b
  | t :: rest => (p.step t).1.ledger (b.note p t) rest

variable {p q : Panel} {m : Mount} {g : Gauge} {loose others : List Mount} {b : Ledger}

/-! ### A gauge is taken down -/

theorem Stands.listener_iff_word (h : p.Stands m g) (hn : p.roster.Numbered)
    {e : WordRegistration Nat} (he : e ∈ p.roster.words) :
    e.listener = m.listener ↔ m.firstId ≤ e.id ∧ e.id < m.firstId + m.wordCount := by
  constructor
  · intro hk
    have hmem : e ∈ p.roster.wordsOf m.listener := List.mem_filter.mpr ⟨he, by simp [hk]⟩
    rw [h.words] at hmem
    obtain ⟨hle, hlt, -⟩ := Roster.mem_registrations hmem
    exact ⟨hle, h.count ▸ hlt⟩
  · intro hid
    have hids : (Roster.registrations m.firstId g.addresses m.listener).map (·.id) =
        List.range' m.firstId m.wordCount := by
      rw [Roster.registrations, List.map_map, h.count]
      exact List.zipIdx_map_snd ..
    have hmem := List.mem_range'_1.mpr hid
    rw [← hids, ← h.words] at hmem
    obtain ⟨f, hf, hfe⟩ := List.mem_map.mp hmem
    obtain ⟨hf, hk⟩ := List.mem_filter.mp hf
    rw [eq_of_key_eq hn.words_ascending he hf hfe.symm]
    exact beq_iff_eq.mp hk

theorem Stands.listener_iff_boundary (h : p.Stands m g) (hn : p.roster.Numbered)
    {e : BoundaryRegistration Nat} (he : e ∈ p.roster.boundaries) :
    e.listener = m.listener ↔ m.boundaryId = some e.id := by
  have hof : e ∈ p.roster.boundariesOf m.listener ↔ e.listener = m.listener := by
    simp [Roster.boundariesOf, he]
  constructor
  · intro hk
    have hmem := hof.mpr hk
    rw [h.boundaries, Option.mem_toList, Option.map_eq_some_iff] at hmem
    obtain ⟨id, hid, rfl⟩ := hmem
    exact hid
  · intro hid
    have hmem : (⟨e.id, m.listener⟩ : BoundaryRegistration Nat) ∈
        p.roster.boundariesOf m.listener := by
      rw [h.boundaries, hid]
      exact List.mem_cons_self
    obtain ⟨hf, -⟩ := List.mem_filter.mp hmem
    rw [eq_of_key_eq hn.boundaries_ascending he hf rfl]

/-- Numbers tell the entries of a gauge from all others. -/
theorem Stands.words_unmount (h : p.Stands m g) (hn : p.roster.Numbered) :
    (p.unmount m).roster.words = p.roster.words.filter (·.listener != m.listener) := by
  have hrun : (p.unmount m).roster.words =
      (p.roster.unsubscribeRun m.firstId m.wordCount).words := by
    unfold Panel.unmount
    split <;> rfl
  rw [hrun, Roster.unsubscribeRun]
  refine List.filter_congr fun e he => ?_
  rw [Bool.eq_iff_iff]
  simp only [Bool.or_eq_true, decide_eq_true_eq, bne_iff_ne, Ne, h.listener_iff_word hn he,
    Classical.not_and_iff_not_or_not, Nat.not_le, Nat.not_lt]

theorem Stands.boundaries_unmount (h : p.Stands m g) (hn : p.roster.Numbered) :
    (p.unmount m).roster.boundaries = p.roster.boundaries.filter (·.listener != m.listener) := by
  have hother : ∀ e ∈ p.roster.boundaries,
      (e.listener != m.listener) = decide (m.boundaryId ≠ some e.id) := by
    intro e he
    rw [Bool.eq_iff_iff]
    simp [h.listener_iff_boundary hn he]
  rw [List.filter_congr hother]
  unfold Panel.unmount
  split
  · rename_i id hid
    refine List.filter_congr fun e _ => ?_
    rw [Bool.eq_iff_iff]
    simp [hid, eq_comm (a := id)]
  · rename_i hid
    exact (List.filter_eq_self.mpr (by simp [hid])).symm

/-! ### What is in the ledger -/

/-- Whatever belongs to no gauge is in the ledger. -/
structure Accounted (p : Panel) (b : Ledger) (loose : List Mount) : Prop where
  orderly : p.Orderly loose
  numbered : p.roster.Numbered
  names : (p.gauges.map Prod.fst).Nodup
  words : p.roster.words.filter (·.listener ∉ (p.mounts ++ loose).map Mount.listener) = b.words
  boundaries :
    p.roster.boundaries.filter (·.listener ∉ (p.mounts ++ loose).map Mount.listener) = b.boundaries

theorem accounted_new : ({} : Panel).Accounted {} [] :=
  ⟨orderly_new, Roster.numbered_new, List.nodup_nil, rfl, rfl⟩

theorem Accounted.regroup (h : p.Accounted b loose) (hroster : q.roster = p.roster)
    (hlisteners : q.listeners = p.listeners) (hids : q.ids = p.ids)
    (hnames : (q.gauges.map Prod.fst).Nodup)
    (hperm : (q.mounts ++ others).Perm (p.mounts ++ loose)) : q.Accounted b others := by
  have hmem := fun k => (hperm.map Mount.listener).mem_iff (a := k)
  constructor
  · exact h.orderly.regroup hroster hlisteners hids hperm
  · exact hroster ▸ h.numbered
  · exact hnames
  · simp only [hroster, hmem]
    exact h.words
  · simp only [hroster, hmem]
    exact h.boundaries

theorem mem_listeners (up : List Mount) (m : Mount) (loose : List Mount) (k : Nat) :
    k ∈ (up ++ m :: loose).map Mount.listener ↔
      k = m.listener ∨ k ∈ (up ++ loose).map Mount.listener := by
  rw [(List.perm_middle.map Mount.listener).mem_iff, List.map_cons, List.mem_cons]

theorem Accounted.mount (h : p.Accounted b loose) (l : Listener) (g : Gauge) (attached : Bool) :
    (p.mount l g attached).1.Accounted b ((p.mount l g attached).2 :: loose) := by
  have he := enrolled_mount p l g attached
  have hk : (p.mount l g attached).2.listener = p.listeners.size := by cases g <;> rfl
  -- the new listener joins those of the gauges, and nobody else's entries are its
  have hls : ∀ j, j ∈ ((p.mount l g attached).1.mounts ++
      (p.mount l g attached).2 :: loose).map Mount.listener ↔
        j = p.listeners.size ∨ j ∈ (p.mounts ++ loose).map Mount.listener := by
    intro j
    have hmounts : (p.mount l g attached).1.mounts = p.mounts := by rw [mounts, he.gauges, mounts]
    rw [hmounts, mem_listeners, hk]
  have hold : ∀ e ∈ p.roster.words, e.listener ≠ p.listeners.size :=
    fun e hm => Nat.ne_of_lt (h.orderly.words_known e hm)
  have holdb : ∀ e ∈ p.roster.boundaries, e.listener ≠ p.listeners.size :=
    fun e hm => Nat.ne_of_lt (h.orderly.boundaries_known e hm)
  constructor
  · exact h.orderly.mount l g attached
  · exact he.becomes.numbered h.numbered
  · rw [he.gauges]
    exact h.names
  · rw [← h.words]
    have hnew : ∀ e ∈ Roster.registrations p.roster.nextId g.addresses p.listeners.size,
        e.listener = p.listeners.size := fun e hm => (Roster.mem_registrations hm).2.2
    cases g <;> exact filter_others_mount hold hnew hls
  · rw [← h.boundaries]
    cases g with
    | integer g =>
      have hsame := filter_others_mount holdb (fun e he => absurd he List.not_mem_nil) hls
      rwa [List.append_nil] at hsame
    | text g => exact filter_others_mount holdb (by simp) hls

theorem Accounted.unmount (h : p.Accounted b (m :: loose)) : (p.unmount m).Accounted b loose := by
  obtain ⟨g, hg⟩ := h.orderly.stands m (by simp)
  have hls := mem_listeners p.mounts m loose
  constructor
  · exact h.orderly.unmount
  · exact (p.becomes_unmount m).numbered h.numbered
  · rw [gauges_unmount]
    exact h.names
  · rw [hg.words_unmount h.numbered, mounts_unmount, Roster.filter_ne_filter_not_mem hls, h.words]
  · rw [hg.boundaries_unmount h.numbered, mounts_unmount, Roster.filter_ne_filter_not_mem hls,
      h.boundaries]

/-- Under different names, taking one out leaves the others. -/
theorem perm_lookup {name : String} (hnames : (p.gauges.map Prod.fst).Nodup)
    (hm : p.gauges.lookup name = some m) :
    p.mounts.Perm (m :: (p.gauges.filter (·.1 != name)).map Prod.snd) := by
  obtain ⟨before, after, heq, hbefore⟩ := List.lookup_eq_some_iff.mp hm
  have hafter : ∀ e ∈ after, (e.1 != name) = true := by
    intro e he
    rw [heq, List.map_append, List.map_cons] at hnames
    have hnot := (List.nodup_cons.mp (List.nodup_append.mp hnames).2.1).1
    rw [bne_iff_ne]
    rintro rfl
    exact hnot (List.mem_map.mpr ⟨e, he, rfl⟩)
  have hfilter : p.gauges.filter (·.1 != name) = before ++ after := by
    rw [heq, List.filter_append, List.filter_cons_of_neg (by simp), List.filter_eq_self.mpr,
      List.filter_eq_self.mpr hafter]
    exact fun e he => by simpa [eq_comm (a := name)] using hbefore e he
  rw [hfilter, mounts, heq, List.map_append, List.map_append, List.map_cons]
  exact List.perm_middle

theorem Accounted.takeDown (h : p.Accounted b loose) (name : String) :
    (p.takeDown name).Accounted b loose := by
  cases hm : p.gauges.lookup name with
  | none =>
    unfold Panel.takeDown
    rw [hm]
    exact h
  | some m =>
    -- nameless for a moment, the gauge counts among those that are up without a name
    have hloose : ({ p with gauges := p.gauges.filter (·.1 != name) } : Panel).Accounted b
        (m :: loose) := by
      refine h.regroup rfl rfl rfl ?_ ?_
      · exact h.names.sublist (List.filter_sublist.map Prod.fst)
      · exact List.perm_middle.trans ((perm_lookup h.names hm).symm.append_right loose)
    rw [takeDown_eq hm]
    exact hloose.unmount

theorem Accounted.putUp (h : p.Accounted b (m :: loose)) (name : String) :
    (p.putUp name m).Accounted b loose := by
  have hdown := h.takeDown name
  refine hdown.regroup rfl rfl rfl ?_ List.perm_middle.symm
  refine List.nodup_cons.mpr ⟨?_, hdown.names⟩
  rw [gauges_takeDown]
  intro hin
  obtain ⟨e, he, heq⟩ := List.mem_map.mp hin
  simpa [heq] using (List.mem_filter.mp he).2

theorem Accounted.putUpAll {mounts : List Mount} (h : p.Accounted b mounts) (name : String) :
    (p.putUpAll name mounts).Accounted b [] := by
  have all : ∀ (l : List (Mount × Nat)) (p : Panel), p.Accounted b (l.map Prod.fst) →
      (l.foldl (fun p e => p.putUp (Panel.numbered name e.2) e.1) p).Accounted b [] := by
    intro l
    induction l with
    | nil => exact fun p h => h
    | cons e l ih => exact fun p h => ih _ (h.putUp _)
  exact all mounts.zipIdx p (by rwa [List.zipIdx_map_fst])

theorem Accounted.unmountAll (h : p.Accounted b loose) :
    (loose.foldl Panel.unmount p).Accounted b [] := by
  induction loose generalizing p with
  | nil => exact h
  | cons m loose ih => exact ih h.unmount

theorem Mounting.accounted {script : List (Stretch Command)} {done : List Mount}
    (hm : p.Mounting script done q) (h : p.Accounted b []) : q.Accounted b done := by
  induction hm with
  | none => exact h
  | more l attached _ _ _ ih => exact ih.mount l _ attached

theorem GaugeEffect.accounted {script : List (Stretch Command)} (he : p.GaugeEffect script q)
    (h : p.Accounted b []) : q.Accounted b [] := by
  cases he with
  | nothing => exact h
  | putUp hm name => exact (hm.accounted h).putUp name
  | putUpAll hm name =>
    have hdone := hm.accounted h
    refine Accounted.putUpAll (hdone.regroup rfl rfl rfl hdone.names ?_) name
    exact (List.reverse_perm _).append_left _
  | takenBack hm => exact (hm.accounted h).unmountAll
  | takenDown name => exact h.takeDown name

/-- The ledger goes along with every command. -/
theorem Accounted.perform (h : p.Accounted b []) (c : Command) :
    (p.perform c).1.Accounted (b.enter p c) [] := by
  have horderly := h.orderly.perform c
  have hnumbered := (p.effect_perform c).becomes.numbered h.numbered
  have hk : p.listeners.size ∉ (p.mounts ++ []).map Mount.listener := by
    intro hin
    obtain ⟨m, hm, hlistener⟩ := List.mem_map.mp hin
    obtain ⟨g, hg⟩ := h.orderly.stands m hm
    exact absurd hlistener (Nat.ne_of_lt hg.lt_size)
  have hregistered : ∀ first addresses,
      ∀ e ∈ Roster.registrations first addresses p.listeners.size, e.listener = p.listeners.size :=
    fun first addresses e he => (Roster.mem_registrations he).2.2
  cases c with
  | subscribe name address script =>
    refine ⟨horderly, hnumbered, h.names, ?_, h.boundaries⟩
    exact (filter_others_enrol hk (hregistered _ [address])).trans (congrArg (· ++ _) h.words)
  | subscribeShared name addresses script =>
    simp only [Panel.perform, registerAll_eq] at horderly hnumbered ⊢
    refine ⟨horderly, hnumbered, h.names, ?_, h.boundaries⟩
    exact (filter_others_enrol hk (hregistered _ addresses)).trans (congrArg (· ++ _) h.words)
  | subscribeBoundary name script =>
    refine ⟨horderly, hnumbered, h.names, h.words, ?_⟩
    exact (filter_others_enrol hk (by simp)).trans (congrArg (· ++ _) h.boundaries)
  | unsubscribe name =>
    simp only [Panel.perform, Ledger.enter] at horderly hnumbered ⊢
    cases hid : p.ids.lookup name with
    | none => exact h
    | some id =>
      rw [hid] at horderly hnumbered
      exact ⟨horderly, hnumbered, h.names, filter_others_filter h.words, h.boundaries⟩
  | unsubscribeBoundary name =>
    simp only [Panel.perform, Ledger.enter] at horderly hnumbered ⊢
    cases hid : p.ids.lookup name with
    | none => exact h
    | some id =>
      rw [hid] at horderly hnumbered
      exact ⟨horderly, hnumbered, h.names, h.words, filter_others_filter h.boundaries⟩
  | _ => exact (p.gaugeEffect_perform rfl).accounted h

theorem Accounted.step (h : p.Accounted b []) (t : Task) :
    (p.step t).1.Accounted (b.note p t) [] := by
  cases t with
  | call k event =>
    have hroster := p.roster_call k event
    have hgauges := p.gauges_call k event
    refine ⟨h.orderly.step (.call k event), ?_, ?_, ?_, ?_⟩
    · rw [Panel.step, hroster]
      exact h.numbered
    · rw [Panel.step, hgauges]
      exact h.names
    · rw [Panel.step, hroster, mounts, hgauges]
      exact h.words
    · rw [Panel.step, hroster, mounts, hgauges]
      exact h.boundaries
  | act name command => exact h.perform command
  | note name reply => exact h.regroup rfl rfl rfl h.names (List.Perm.refl _)

theorem Accounted.pass (h : p.Accounted b []) (tasks : List Task) :
    (p.pass tasks).Accounted (p.ledger b tasks) [] := by
  induction tasks generalizing p b with
  | nil => exact h
  | cons t rest ih => exact ih (h.step t)

/-! ### What a gauge has of its own -/

/-- The registrations for single addresses that a gauge was given when it was put up. -/
def ownWords (p : Panel) (m : Mount) : List (WordRegistration Nat) :=
  (p.gaugeAt m).elim [] fun g => Roster.registrations m.firstId g.addresses m.listener

theorem Stands.ownWords (h : p.Stands m g) : p.ownWords m = p.roster.wordsOf m.listener := by
  rw [Panel.ownWords, h.gauge, h.words]
  rfl

/-- A gauge has at least one registration, so that its listener is its own. -/
theorem Stands.listener_ne {n : Mount} {k : Gauge} (hm : p.Stands m g) (hn : p.Stands n k)
    (hmn : m.Apart n) : m.listener ≠ n.listener := by
  intro heq
  cases g with
  | integer g =>
    have hmem : (⟨m.firstId, g.field.address, m.listener⟩ : WordRegistration Nat) ∈
        p.roster.wordsOf m.listener := by
      rw [hm.words]
      exact List.mem_cons_self
    exact hmn _ (hm.owns_of_mem_words hmem) (hn.owns_of_mem_words (heq ▸ hmem))
  | text g =>
    obtain ⟨id, hid⟩ := Option.isSome_iff_exists.mp hm.kind
    have hmem : (⟨id, m.listener⟩ : BoundaryRegistration Nat) ∈
        p.roster.boundariesOf m.listener := by
      rw [hm.boundaries, hid]
      exact List.mem_cons_self
    exact hmn _ (hm.owns_of_mem_boundaries hmem) (hn.owns_of_mem_boundaries (heq ▸ hmem))

theorem Orderly.nodup_listeners (h : p.Orderly loose) :
    ((p.mounts ++ loose).map Mount.listener).Nodup := by
  refine List.pairwise_map.mpr (h.apart.imp_of_mem fun hm hn hmn => ?_)
  obtain ⟨g, hg⟩ := h.stands _ hm
  obtain ⟨k, hk⟩ := h.stands _ hn
  exact hg.listener_ne hk hmn

theorem Accounted.words_perm (h : p.Accounted b []) :
    p.roster.words.Perm (b.words ++ p.mounts.flatMap p.ownWords) := by
  have hown : ∀ m ∈ p.mounts, p.roster.wordsOf m.listener = p.ownWords m := by
    intro m hm
    obtain ⟨g, hg⟩ := h.orderly.stands m (List.mem_append_left _ hm)
    exact hg.ownWords.symm
  have hperm := perm_by_listener (fun e : WordRegistration Nat => e.listener)
    h.orderly.nodup_listeners p.roster.words
  rw [h.words, List.append_nil, List.flatMap_map] at hperm
  rwa [List.flatMap_def, ← List.map_congr_left hown, ← List.flatMap_def]

theorem Accounted.boundaries_perm (h : p.Accounted b []) :
    p.roster.boundaries.Perm (b.boundaries ++ p.mounts.flatMap Mount.ownBoundaries) := by
  have hown : ∀ m ∈ p.mounts, p.roster.boundariesOf m.listener = m.ownBoundaries := by
    intro m hm
    obtain ⟨g, hg⟩ := h.orderly.stands m (List.mem_append_left _ hm)
    exact hg.boundaries
  have hperm := perm_by_listener (fun e : BoundaryRegistration Nat => e.listener)
    h.orderly.nodup_listeners p.roster.boundaries
  rw [h.boundaries, List.append_nil, List.flatMap_map] at hperm
  rwa [List.flatMap_def, ← List.map_congr_left hown, ← List.flatMap_def]

/-- A gauge has one registration for each word of its field, and a text has one for boundaries. -/
structure Keeps (p : Panel) (m : Mount) (g : Gauge) : Prop where
  gauge : p.gaugeAt m = some g
  fits : g.field.Fits
  places : (p.ownWords m).map (·.address.toNat) = g.field.places
  distinct : ((p.ownWords m).map (·.address)).Nodup
  boundaries : m.ownBoundaries.length = if g.hearsBoundaries then 1 else 0

theorem Stands.keeps (h : p.Stands m g) (hp : p.Fitting) : p.Keeps m g := by
  have haddresses : (p.ownWords m).map (·.address) = g.addresses := by
    rw [h.ownWords, h.words, Roster.registrations, List.map_map]
    exact List.zipIdx_map_fst ..
  constructor
  · exact h.gauge
  · exact h.fits hp
  · rw [← Gauge.toNat_addresses (h.fits hp), ← haddresses, List.map_map]
    rfl
  · rw [haddresses]
    exact g.nodup_addresses
  · rw [← h.kind, Mount.ownBoundaries]
    cases m.boundaryId <;> rfl

/-- A gauge that is taken down leaves all registrations but its own, in their order. -/
theorem Stands.roster_unmount (h : p.Stands m g) (hn : p.roster.Numbered) :
    (p.unmount m).roster =
      { p.roster with
        words := p.roster.words.filter (· ∉ p.ownWords m)
        boundaries := p.roster.boundaries.filter (· ∉ m.ownBoundaries) } := by
  have hwords : (p.unmount m).roster.words = p.roster.words.filter (· ∉ p.ownWords m) := by
    rw [h.words_unmount hn, h.ownWords]
    refine List.filter_congr fun e he => ?_
    rw [Bool.eq_iff_iff]
    simp [Roster.wordsOf, he]
  have hboundaries : (p.unmount m).roster.boundaries =
      p.roster.boundaries.filter (· ∉ m.ownBoundaries) := by
    rw [h.boundaries_unmount hn, Mount.ownBoundaries, ← h.boundaries]
    refine List.filter_congr fun e he => ?_
    rw [Bool.eq_iff_iff]
    simp [Roster.boundariesOf, he]
  rw [← hwords, ← hboundaries]
  exact congrArg (Roster.mk _ _) (p.thinned_unmount m).nextId

/-- The command is to put up a gauge for the field, given as it is or in a definition. -/
def PutsUp (name : String) (field : Field) : Command → Prop
  | .follow name' field' _ _ => name' = name ∧ field' = field
  | .attach name' definition => name' = name ∧ Field.parse definition = .ok field
  | _ => False

theorem PutsUp.perform {c : Command} {name : String} {field : Field} (h : PutsUp name field c)
    (p : Panel) : ∃ l attached,
      (∀ q m, p.follow l field attached = (q, .ok m) →
        p.perform c = (q.putUp name m, .nothing)) ∧
      ∀ q cause, p.follow l field attached = (q, .error cause) →
        p.perform c = (q, .refused (.invalidField cause)) := by
  cases c with
  | follow name' field' outspoken script =>
    obtain ⟨rfl, rfl⟩ := h
    refine ⟨{ name := name', outspoken, script }, false, fun q m hq => ?_, fun q cause hq => ?_⟩
    · simp only [Panel.perform, hq]
    · simp only [Panel.perform, hq]
  | attach name' definition =>
    obtain ⟨rfl, hfield⟩ := h
    refine ⟨{ name := name', outspoken := false }, true, fun q m hq => ?_, fun q cause hq => ?_⟩
    · simp only [Panel.perform, hfield, hq]
    · simp only [Panel.perform, hfield, hq]
  | _ => cases h

/-- A gauge is put up for a field that fits, under its name and with numbers from the next one
on. -/
theorem PutsUp.ok {c : Command} {name : String} {field : Field} (h : PutsUp name field c)
    (hfits : field.Fits) (p : Panel) : ∃ q m g, p.perform c = (q, .nothing) ∧
      q.gauges = (name, m) :: p.gauges.filter (·.1 != name) ∧ q.gaugeAt m = some g ∧
      g.field = field ∧ m.firstId = p.roster.nextId := by
  obtain ⟨l, attached, hok, -⟩ := h.perform p
  rcases field.gauge_cases with ⟨g, hg, hfield, -⟩ | ⟨cause, -, hnot⟩
  · have hfollow : p.follow l field attached =
        ((p.mount l g attached).1, .ok (p.mount l g attached).2) := by
      rw [Panel.follow, hg]
    refine ⟨_, (p.mount l g attached).2, g, hok _ _ hfollow, ?_, ?_, hfield, ?_⟩
    · rw [putUp, gauges_takeDown, (enrolled_mount p l g attached).gauges]
    · rw [gaugeAt_eq, listeners_putUp, ← gaugeAt_eq, gaugeAt_mount]
    · cases g <;> rfl
  · exact absurd hfits hnot

theorem PutsUp.refused {c : Command} {name : String} {field : Field} (h : PutsUp name field c)
    (hfits : ¬ field.Fits) (p : Panel) : ∃ cause, field.gauge = .error cause ∧
      p.perform c = (p, .refused (.invalidField cause)) := by
  obtain ⟨l, attached, -, herror⟩ := h.perform p
  rcases field.gauge_cases with ⟨g, -, -, hfield⟩ | ⟨cause, hcause, -⟩
  · exact absurd hfield hfits
  · refine ⟨cause, hcause, herror p cause ?_⟩
    rw [Panel.follow, hcause]

/-! ### The ledger and the gauges make up the roster -/

theorem exists_pass_run (p : Panel) (tasks : List Task) : ∃ more, p.run tasks = p.pass more := by
  induction p, tasks using Panel.run.induct with
  | case1 p => exact ⟨[], run_nil p⟩
  | case2 p t rest done ih =>
    obtain ⟨more, hmore⟩ := ih
    exact ⟨t :: more, (run_cons ..).trans hmore⟩

theorem exists_pass_execute (p : Panel) (c : Command) :
    ∃ more, (p.execute c).1 = p.pass (.act "" c :: more) :=
  exists_pass_run ..

theorem Fitting.pass (h : p.Fitting) (tasks : List Task) : (p.pass tasks).Fitting := by
  induction tasks generalizing p with
  | nil => exact h
  | cons t rest ih => exact ih (h.step t)

theorem field_pass (h : p.gaugeAt m = some g) (tasks : List Task) :
    ∃ k, (p.pass tasks).gaugeAt m = some k ∧ k.field = g.field := by
  induction tasks generalizing p g with
  | nil => exact ⟨g, h, rfl⟩
  | cons t rest ih =>
    obtain ⟨k, hk, hfield⟩ := field_step h t
    obtain ⟨k', hk', hfield'⟩ := ih hk
    exact ⟨k', hk', hfield'.trans hfield⟩

/-- Whatever has been dealt with on a panel, dispatches and what listeners did in them included, its
lists have the registrations of the ledger and those of the gauges that are up, and no others. A
gauge has one for each word of its field, none of them twice or past the end of the addresses, and
one more if it has to hear of boundaries; the field is the one that it was put up for. When it is
taken down, all others stay, in their order. What does not fit is refused, and then nothing has
changed at all, numbers included. -/
theorem registrations_accounted (tasks : List Task) {p : Panel} {b : Ledger}
    (hp : ({} : Panel).pass tasks = p) (hb : ({} : Panel).ledger {} tasks = b) :
    p.roster.Numbered ∧
    p.roster.words.Perm (b.words ++ p.mounts.flatMap p.ownWords) ∧
    p.roster.boundaries.Perm (b.boundaries ++ p.mounts.flatMap Mount.ownBoundaries) ∧
    (∀ m ∈ p.mounts, ∃ g, p.Keeps m g) ∧
    (∀ m g more, p.gaugeAt m = some g →
      ∃ k, (p.pass more).gaugeAt m = some k ∧ k.field = g.field) ∧
    (∀ name m, p.gauges.lookup name = some m →
      ∃ q, p.perform (.drop name) = (q, .flag true) ∧
        p.mounts.Perm (m :: q.mounts) ∧
        q.roster = { p.roster with
          words := p.roster.words.filter (· ∉ p.ownWords m)
          boundaries := p.roster.boundaries.filter (· ∉ m.ownBoundaries) }) ∧
    (∀ c name field, PutsUp name field c →
      (field.Fits → ∃ q m g, p.perform c = (q, .nothing) ∧
        q.gauges = (name, m) :: p.gauges.filter (·.1 != name) ∧ q.gaugeAt m = some g ∧
        g.field = field ∧ m.firstId = p.roster.nextId) ∧
      (¬ field.Fits → ∃ cause, field.gauge = .error cause ∧
        p.perform c = (p, .refused (.invalidField cause)))) ∧
    ∀ c, ∃ more, (p.execute c).1 = p.pass (.act "" c :: more) := by
  subst hp hb
  have h := accounted_new.pass tasks
  have hfitting : (({} : Panel).pass tasks).Fitting :=
    Fitting.pass (fun l hl => absurd hl List.not_mem_nil) tasks
  refine ⟨h.numbered, h.words_perm, h.boundaries_perm, fun m hm => ?_,
    fun m g more hg => field_pass hg more, fun name m hm => ?_,
    fun c name field hc => ⟨(hc.ok · _), (hc.refused · _)⟩, exists_pass_execute _⟩
  · obtain ⟨g, hg⟩ := h.orderly.stands m (List.mem_append_left _ hm)
    exact ⟨g, hg.keeps hfitting⟩
  · have hdown := perm_lookup h.names hm
    obtain ⟨g, hg⟩ := h.orderly.stands m (List.mem_append_left _ (hdown.mem_iff.mpr (by simp)))
    refine ⟨_, Prod.ext rfl ?_, ?_, ?_⟩
    · simp [Panel.perform, hm]
    · simpa [Panel.perform, mounts, gauges_takeDown] using hdown
    · exact (roster_takeDown hm).trans (hg.roster_unmount h.numbered)

/-- A plain listener, a text at the same address and an integer inside the text. The integer is
taken down by the text when its first value is published. -/
def crowded : List Task :=
  [.act "" (.subscribe "plain" 0x0010 []),
    .act "" (.follow "title" (.text ⟨0x0010, 3⟩) true [⟨1, [.drop "count"]⟩]),
    .act "" (.follow "count" (.integer { address := 0x0012 }) true []),
    .call 1 (.word 0x0010 0x0041), .call 1 .boundary, .act "title" (.drop "count")]

theorem registrations_accounted_crowded :
    (({} : Panel).pass crowded).roster.words = [⟨0, 0x0010, 0⟩, ⟨1, 0x0010, 1⟩, ⟨2, 0x0012, 1⟩] ∧
    (({} : Panel).ledger {} crowded).words = [⟨0, 0x0010, 0⟩] ∧
    (∃ g, (({} : Panel).pass crowded).Keeps ⟨1, false, 1, 2, some 3⟩ g) ∧
    (∃ q, (({} : Panel).pass crowded).perform (.drop "title") = (q, .flag true) ∧
      q.roster = ⟨[⟨0, 0x0010, 0⟩], [], 5⟩) ∧
    ∃ cause, (({} : Panel).pass crowded).perform (.follow "past" (.text ⟨0xFFFF, 2⟩) true []) =
      (({} : Panel).pass crowded, .refused (.invalidField cause)) := by
  obtain ⟨-, -, -, hkeeps, -, hdrop, hputs, -⟩ := registrations_accounted crowded rfl rfl
  have hmounts : (({} : Panel).pass crowded).mounts = [⟨1, false, 1, 2, some 3⟩] := rfl
  obtain ⟨q, hq, -, hroster⟩ := hdrop "title" ⟨1, false, 1, 2, some 3⟩ rfl
  obtain ⟨-, hrefused⟩ := hputs (.follow "past" (.text ⟨0xFFFF, 2⟩) true []) "past" _ ⟨rfl, rfl⟩
  obtain ⟨cause, -, hcause⟩ := hrefused (by decide)
  refine ⟨by decide, by decide, hkeeps _ (by simp [hmounts]), ⟨q, hq, ?_⟩, cause, hcause⟩
  rw [hroster]
  decide

end Panel

end WordLink
