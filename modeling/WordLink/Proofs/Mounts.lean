import WordLink.Panel.Run
import WordLink.Proofs.Registrations

/-!
# What a panel keeps for its gauges

Each gauge that is up has its own registrations under its own numbers, and nobody else's numbers
are among them: neither those of another gauge nor those that a command can take back by name. So
whatever commands are carried out, a gauge that stays up keeps exactly its registrations.
-/
namespace WordLink

namespace Roster

def wordsOf (r : Roster Nat) (k : Nat) : List (WordRegistration Nat) :=
  r.words.filter (·.listener == k)

def boundariesOf (r : Roster Nat) (k : Nat) : List (BoundaryRegistration Nat) :=
  r.boundaries.filter (·.listener == k)

theorem filter_of_keep {α : Type} {entries : List α} {mine keep : α → Bool}
    (h : ∀ e ∈ entries.filter mine, keep e = true) :
    (entries.filter keep).filter mine = entries.filter mine := by
  rw [List.filter_filter]
  refine List.filter_congr fun e he => ?_
  cases hm : mine e with
  | false => rfl
  | true => exact h e (List.mem_filter.mpr ⟨he, hm⟩)

variable {r : Roster Nat} {k j : Nat}

theorem wordsOf_subscribeAll_of_ne (addresses : List Address) (h : j ≠ k) :
    (r.subscribeAll addresses j).wordsOf k = r.wordsOf k := by
  have hnone : (registrations r.nextId addresses j).filter (·.listener == k) = [] := by
    refine List.filter_eq_nil_iff.mpr fun e he => ?_
    simp [(mem_registrations he).2.2, h]
  rw [wordsOf, subscribeAll, List.filter_append, hnone, List.append_nil]
  rfl

theorem wordsOf_subscribeAll_self (addresses : List Address) (h : ∀ e ∈ r.words, e.listener ≠ k) :
    (r.subscribeAll addresses k).wordsOf k = registrations r.nextId addresses k := by
  have hold : r.words.filter (·.listener == k) = [] := by
    refine List.filter_eq_nil_iff.mpr fun e he => ?_
    simp [h e he]
  have hnew : (registrations r.nextId addresses k).filter (·.listener == k) =
      registrations r.nextId addresses k := by
    refine List.filter_eq_self.mpr fun e he => ?_
    simp [(mem_registrations he).2.2]
  rw [wordsOf, subscribeAll, List.filter_append, hold, hnew, List.nil_append]

theorem boundariesOf_subscribeBoundary_of_ne (h : j ≠ k) :
    (r.subscribeBoundary j).boundariesOf k = r.boundariesOf k := by
  simp [boundariesOf, subscribeBoundary, h]

theorem boundariesOf_eq_nil (h : ∀ e ∈ r.boundaries, e.listener ≠ k) : r.boundariesOf k = [] := by
  refine List.filter_eq_nil_iff.mpr fun e he => ?_
  simp [h e he]

theorem boundariesOf_subscribeBoundary_self (h : ∀ e ∈ r.boundaries, e.listener ≠ k) :
    (r.subscribeBoundary k).boundariesOf k = [⟨r.nextId, k⟩] := by
  have hold := boundariesOf_eq_nil h
  rw [boundariesOf] at hold
  simp [boundariesOf, subscribeBoundary, hold]

theorem wordsOf_unsubscribe {id : RegistrationId} (h : ∀ e ∈ r.wordsOf k, e.id ≠ id) :
    (r.unsubscribe id).wordsOf k = r.wordsOf k :=
  filter_of_keep fun e he => by simpa using h e he

theorem wordsOf_unsubscribeRun {first count : Nat}
    (h : ∀ e ∈ r.wordsOf k, e.id < first ∨ first + count ≤ e.id) :
    (r.unsubscribeRun first count).wordsOf k = r.wordsOf k :=
  filter_of_keep fun e he => by simpa using h e he

theorem boundariesOf_unsubscribeBoundary {id : RegistrationId}
    (h : ∀ e ∈ r.boundariesOf k, e.id ≠ id) :
    (r.unsubscribeBoundary id).boundariesOf k = r.boundariesOf k :=
  filter_of_keep fun e he => by simpa using h e he

end Roster

theorem TextGauge.field_see (g : TextGauge) (a : Address) (data : Word) :
    (g.see a data).field = g.field := by
  simp only [TextGauge.see]
  split <;> rfl

theorem TextGauge.field_publish (g : TextGauge) : g.publish.field = g.field := by
  simp only [TextGauge.publish]
  split <;> rfl

namespace Gauge

def hearsBoundaries : Gauge → Bool
  | integer _ => false
  | text _ => true

theorem addresses_hear (event : Event) (g : Gauge) : (g.hear event).addresses = g.addresses := by
  cases g with
  | integer g => cases event <;> rfl
  | text g =>
    cases event with
    | word a data => exact congrArg TextField.addresses (g.field_see a data)
    | boundary => exact congrArg TextField.addresses g.field_publish

theorem hearsBoundaries_hear (event : Event) (g : Gauge) :
    (g.hear event).hearsBoundaries = g.hearsBoundaries := by
  cases g <;> cases event <;> rfl

end Gauge

namespace Mount

/-- The number belongs to the mount. -/
def Owns (m : Mount) (id : RegistrationId) : Prop :=
  m.firstId ≤ id ∧ id < m.firstId + m.wordCount ∨ m.boundaryId = some id

def Apart (m n : Mount) : Prop := ∀ id, m.Owns id → ¬ n.Owns id

theorem Apart.symm {m n : Mount} (h : m.Apart n) : n.Apart m := fun id hn hm => h id hm hn

end Mount

def Listener.gauge? (l : Listener) : Option Gauge :=
  match l.role with
  | .gauge g => some g
  | .plain => none

namespace Panel

theorem gaugeAt_eq (p : Panel) (m : Mount) :
    p.gaugeAt m = (p.listeners[m.listener]?).bind Listener.gauge? := by
  unfold gaugeAt
  split
  · rename_i h
    simp [h, Listener.gauge?]
  · rename_i hne
    cases hl : p.listeners[m.listener]? with
    | none => rfl
    | some l =>
      obtain ⟨name, role, outspoken, script⟩ := l
      cases role with
      | plain => rfl
      | gauge g => exact absurd hl (hne _ _ _ _)

/-- The gauge is up: its listener has exactly the registrations that were made for it. -/
structure Stands (p : Panel) (m : Mount) (g : Gauge) : Prop where
  gauge : p.gaugeAt m = some g
  count : m.wordCount = g.addresses.length
  given : ∀ id, m.Owns id → id < p.roster.nextId
  words : p.roster.wordsOf m.listener = Roster.registrations m.firstId g.addresses m.listener
  boundaries : p.roster.boundariesOf m.listener =
    (m.boundaryId.map fun id => ⟨id, m.listener⟩).toList
  kind : m.boundaryId.isSome = g.hearsBoundaries

def mounts (p : Panel) : List Mount := p.gauges.map Prod.snd

/-- Every gauge that is up, under a name or about to get one, stands and has its numbers to
itself. -/
structure Orderly (p : Panel) (loose : List Mount) : Prop where
  words_known : ∀ e ∈ p.roster.words, e.listener < p.listeners.size
  boundaries_known : ∀ e ∈ p.roster.boundaries, e.listener < p.listeners.size
  ids_given : ∀ e ∈ p.ids, e.2 < p.roster.nextId
  stands : ∀ m ∈ p.mounts ++ loose, ∃ g, p.Stands m g
  apart : (p.mounts ++ loose).Pairwise Mount.Apart
  foreign : ∀ m ∈ p.mounts ++ loose, ∀ e ∈ p.ids, ¬ m.Owns e.2

variable {p q : Panel} {m : Mount} {g : Gauge} {loose : List Mount}

theorem lt_size_of_gaugeAt (h : p.gaugeAt m = some g) : m.listener < p.listeners.size := by
  rw [gaugeAt_eq] at h
  obtain ⟨l, hl, -⟩ := Option.bind_eq_some_iff.mp h
  exact (Array.getElem?_eq_some_iff.mp hl).1

theorem Stands.lt_size (h : p.Stands m g) : m.listener < p.listeners.size :=
  lt_size_of_gaugeAt h.gauge

theorem Stands.owns_of_mem_words (h : p.Stands m g) {e : WordRegistration Nat}
    (he : e ∈ p.roster.wordsOf m.listener) : m.Owns e.id := by
  rw [h.words] at he
  obtain ⟨hle, hlt, -⟩ := Roster.mem_registrations he
  exact Or.inl ⟨hle, by rw [h.count]; exact hlt⟩

theorem Stands.owns_of_mem_boundaries (h : p.Stands m g) {e : BoundaryRegistration Nat}
    (he : e ∈ p.roster.boundariesOf m.listener) : m.Owns e.id := by
  rw [h.boundaries, Option.mem_toList, Option.map_eq_some_iff] at he
  obtain ⟨id, hid, rfl⟩ := he
  exact Or.inr hid

/-- A gauge stands on as long as what concerns its listener stays the same. -/
theorem Stands.frame (h : p.Stands m g) (hg : q.gaugeAt m = p.gaugeAt m)
    (hn : p.roster.nextId ≤ q.roster.nextId)
    (hw : q.roster.wordsOf m.listener = p.roster.wordsOf m.listener)
    (hb : q.roster.boundariesOf m.listener = p.roster.boundariesOf m.listener) : q.Stands m g := by
  constructor
  · rw [hg, h.gauge]
  · exact h.count
  · exact fun id hid => Nat.lt_of_lt_of_le (h.given id hid) hn
  · rw [hw, h.words]
  · rw [hb, h.boundaries]
  · exact h.kind

theorem orderly_new : ({} : Panel).Orderly [] := by
  constructor <;> simp [mounts]

/-- What matters of the gauges is which ones are up, be it under a name or about to get one. -/
theorem Orderly.regroup {others : List Mount} (h : p.Orderly loose) (hroster : q.roster = p.roster)
    (hlisteners : q.listeners = p.listeners) (hids : q.ids = p.ids)
    (hperm : (q.mounts ++ others).Perm (p.mounts ++ loose)) : q.Orderly others := by
  constructor
  · rw [hroster, hlisteners]
    exact h.words_known
  · rw [hroster, hlisteners]
    exact h.boundaries_known
  · rw [hroster, hids]
    exact h.ids_given
  · intro n hn
    obtain ⟨g, hg⟩ := h.stands n (hperm.mem_iff.mp hn)
    have hgauge : q.gaugeAt n = p.gaugeAt n := by rw [gaugeAt_eq, gaugeAt_eq, hlisteners]
    refine ⟨g, hg.frame hgauge (Nat.le_of_eq ?_) ?_ ?_⟩
    · rw [hroster]
    · rw [hroster]
    · rw [hroster]
  · exact (hperm.pairwise_iff fun hmn => hmn.symm).mpr h.apart
  · rw [hids]
    exact fun n hn => h.foreign n (hperm.mem_iff.mp hn)

theorem Orderly.perm {others : List Mount} (h : p.Orderly loose) (hp : loose.Perm others) :
    p.Orderly others :=
  h.regroup rfl rfl rfl (hp.append_left p.mounts).symm

/-! ### Registrations are made -/

theorem gaugeAt_push {l : Listener} (hq : q.listeners = p.listeners.push l)
    (hm : m.listener < p.listeners.size) : q.gaugeAt m = p.gaugeAt m := by
  rw [gaugeAt_eq, gaugeAt_eq, hq, Array.getElem?_push_lt hm, Array.getElem?_eq_getElem hm]

/-- A new listener with a new roster disturbs nobody, if the roster only gained entries of its. -/
structure Enrolled (p q : Panel) (l : Listener) : Prop where
  listeners : q.listeners = p.listeners.push l
  gauges : q.gauges = p.gauges
  ids : q.ids = p.ids
  becomes : p.roster.Becomes q.roster
  words : ∀ k, k ≠ p.listeners.size → q.roster.wordsOf k = p.roster.wordsOf k
  boundaries : ∀ k, k ≠ p.listeners.size → q.roster.boundariesOf k = p.roster.boundariesOf k

theorem Enrolled.nextId {l : Listener} (he : p.Enrolled q l) : p.roster.nextId ≤ q.roster.nextId :=
  he.becomes.nextId_le

theorem Enrolled.stands {l : Listener} (he : p.Enrolled q l) (h : p.Stands m g) : q.Stands m g := by
  have hlt := h.lt_size
  exact h.frame (gaugeAt_push he.listeners hlt) he.nextId (he.words _ (Nat.ne_of_lt hlt))
    (he.boundaries _ (Nat.ne_of_lt hlt))

theorem Enrolled.orderly {l : Listener} (he : p.Enrolled q l) (h : p.Orderly loose) :
    q.Orderly loose := by
  have hmounts : q.mounts = p.mounts := by rw [mounts, he.gauges, mounts]
  have hsize : q.listeners.size = p.listeners.size + 1 := by rw [he.listeners, Array.size_push]
  constructor
  · intro e hm
    by_cases hk : e.listener = p.listeners.size
    · omega
    · have hold : e ∈ p.roster.wordsOf e.listener := by
        rw [← he.words _ hk]
        exact List.mem_filter.mpr ⟨hm, by simp⟩
      have := h.words_known e (List.mem_filter.mp hold).1
      omega
  · intro e hm
    by_cases hk : e.listener = p.listeners.size
    · omega
    · have hold : e ∈ p.roster.boundariesOf e.listener := by
        rw [← he.boundaries _ hk]
        exact List.mem_filter.mpr ⟨hm, by simp⟩
      have := h.boundaries_known e (List.mem_filter.mp hold).1
      omega
  · intro e hm
    rw [he.ids] at hm
    exact Nat.lt_of_lt_of_le (h.ids_given e hm) he.nextId
  · intro m hm
    rw [hmounts] at hm
    obtain ⟨g, hg⟩ := h.stands m hm
    exact ⟨g, he.stands hg⟩
  · rw [hmounts]
    exact h.apart
  · rw [hmounts, he.ids]
    exact h.foreign

theorem enrolled_words (p : Panel) (addresses : List Address) (l : Listener) :
    p.Enrolled (({ p with
      roster := p.roster.subscribeAll addresses p.listeners.size } : Panel).addListener l) l := by
  constructor
  · rfl
  · rfl
  · rfl
  · exact Roster.Becomes.same.subscribeAll addresses _
  · exact fun k hk => Roster.wordsOf_subscribeAll_of_ne addresses hk.symm
  · exact fun k hk => rfl

theorem enrolled_boundary (p : Panel) (l : Listener) :
    p.Enrolled (({ p with
      roster := p.roster.subscribeBoundary p.listeners.size } : Panel).addListener l) l := by
  constructor
  · rfl
  · rfl
  · rfl
  · exact Roster.Becomes.same.subscribeBoundary _
  · exact fun k hk => rfl
  · exact fun k hk => Roster.boundariesOf_subscribeBoundary_of_ne hk.symm

theorem enrolled_mount (p : Panel) (l : Listener) (g : Gauge) (attached : Bool) :
    p.Enrolled (p.mount l g attached).1 { l with role := .gauge g } := by
  cases g with
  | integer g => exact enrolled_words p _ _
  | text g =>
    constructor
    · rfl
    · rfl
    · rfl
    · exact (Roster.Becomes.same.subscribeAll _ _).subscribeBoundary _
    · exact fun k hk => Roster.wordsOf_subscribeAll_of_ne _ hk.symm
    · exact fun k hk => Roster.boundariesOf_subscribeBoundary_of_ne hk.symm

theorem gaugeAt_mount (p : Panel) (l : Listener) (g : Gauge) (attached : Bool) :
    (p.mount l g attached).1.gaugeAt (p.mount l g attached).2 = some g := by
  have hk : (p.mount l g attached).2.listener = p.listeners.size := by cases g <;> rfl
  rw [gaugeAt_eq, listeners_mount, hk, Array.getElem?_push_size]
  rfl

/-- The numbers of a new mount are new. -/
theorem owns_mount {l : Listener} {attached : Bool} {id : RegistrationId}
    (h : (p.mount l g attached).2.Owns id) :
    p.roster.nextId ≤ id ∧ id < (p.mount l g attached).1.roster.nextId := by
  cases g with
  | integer g =>
    rcases h with ⟨hle, hlt⟩ | hb
    · exact ⟨hle, hlt⟩
    · cases hb
  | text g =>
    have hnext : (p.mount l (.text g) attached).1.roster.nextId =
        p.roster.nextId + (Gauge.text g).addresses.length + 1 := rfl
    rw [hnext]
    rcases h with ⟨hle, hlt⟩ | hb
    · exact ⟨hle, Nat.lt_succ_of_lt hlt⟩
    · have hb : p.roster.nextId + (Gauge.text g).addresses.length = id := Option.some.inj hb
      rw [← hb]
      exact ⟨Nat.le_add_right _ _, Nat.lt_succ_self _⟩

theorem Orderly.stands_mount (h : p.Orderly loose) (l : Listener) (g : Gauge) (attached : Bool) :
    (p.mount l g attached).1.Stands (p.mount l g attached).2 g := by
  have hw : ∀ e ∈ p.roster.words, e.listener ≠ p.listeners.size :=
    fun e he => Nat.ne_of_lt (h.words_known e he)
  have hb : ∀ e ∈ p.roster.boundaries, e.listener ≠ p.listeners.size :=
    fun e he => Nat.ne_of_lt (h.boundaries_known e he)
  have hg := gaugeAt_mount p l g attached
  have hgiven : ∀ id, (p.mount l g attached).2.Owns id →
      id < (p.mount l g attached).1.roster.nextId := fun id hid => (owns_mount hid).2
  cases g with
  | integer g =>
    exact ⟨hg, rfl, hgiven, Roster.wordsOf_subscribeAll_self _ hw,
      Roster.boundariesOf_eq_nil hb, rfl⟩
  | text g =>
    exact ⟨hg, rfl, hgiven, Roster.wordsOf_subscribeAll_self _ hw,
      Roster.boundariesOf_subscribeBoundary_self hb, rfl⟩

theorem Orderly.mount (h : p.Orderly loose) (l : Listener) (g : Gauge) (attached : Bool) :
    (p.mount l g attached).1.Orderly ((p.mount l g attached).2 :: loose) := by
  have he := enrolled_mount p l g attached
  have hold := he.orderly h
  have hmounts : (p.mount l g attached).1.mounts = p.mounts := by rw [mounts, he.gauges, mounts]
  have hperm : ((p.mount l g attached).1.mounts ++ (p.mount l g attached).2 :: loose).Perm
      ((p.mount l g attached).2 :: ((p.mount l g attached).1.mounts ++ loose)) := List.perm_middle
  constructor
  · exact hold.words_known
  · exact hold.boundaries_known
  · exact hold.ids_given
  · intro m hm
    rcases List.mem_cons.mp (hperm.mem_iff.mp hm) with rfl | hm
    · exact ⟨g, h.stands_mount l g attached⟩
    · exact hold.stands m hm
  · rw [hperm.pairwise_iff fun hmn => hmn.symm, List.pairwise_cons]
    refine ⟨?_, hold.apart⟩
    intro m hm id hnew hid
    rw [hmounts] at hm
    obtain ⟨g', hg'⟩ := h.stands m hm
    exact absurd (hg'.given id hid) (Nat.not_lt_of_le (owns_mount hnew).1)
  · intro m hm e hid
    rcases List.mem_cons.mp (hperm.mem_iff.mp hm) with rfl | hm
    · rw [he.ids] at hid
      exact fun howns => absurd (h.ids_given e hid) (Nat.not_lt_of_le (owns_mount howns).1)
    · exact hold.foreign m hm e hid

/-! ### Registrations are taken back -/

/-- The roster may have lost entries; nobody has come or gone besides. -/
structure Thinned (p q : Panel) : Prop where
  listeners : q.listeners = p.listeners
  ids : q.ids = p.ids
  nextId : q.roster.nextId = p.roster.nextId
  words : ∀ e ∈ q.roster.words, e ∈ p.roster.words
  boundaries : ∀ e ∈ q.roster.boundaries, e ∈ p.roster.boundaries

theorem Thinned.gaugeAt (ht : p.Thinned q) (m : Mount) : q.gaugeAt m = p.gaugeAt m := by
  rw [gaugeAt_eq, gaugeAt_eq, ht.listeners]

/-- Those that are left keep standing if none of their entries is lost. -/
theorem Thinned.orderly {others : List Mount} (ht : p.Thinned q) (h : p.Orderly loose)
    (hsub : (q.mounts ++ others).Sublist (p.mounts ++ loose))
    (hstands : ∀ m ∈ q.mounts ++ others, ∀ g, p.Stands m g → q.Stands m g) : q.Orderly others := by
  constructor
  · intro e he
    rw [ht.listeners]
    exact h.words_known e (ht.words e he)
  · intro e he
    rw [ht.listeners]
    exact h.boundaries_known e (ht.boundaries e he)
  · rw [ht.ids, ht.nextId]
    exact h.ids_given
  · intro m hm
    obtain ⟨g, hg⟩ := h.stands m (hsub.subset hm)
    exact ⟨g, hstands m hm g hg⟩
  · exact h.apart.sublist hsub
  · rw [ht.ids]
    exact fun m hm => h.foreign m (hsub.subset hm)

theorem thinned_unmount (p : Panel) (m : Mount) : p.Thinned (p.unmount m) := by
  unfold unmount
  split
  · constructor
    · rfl
    · rfl
    · rfl
    · exact fun e he => (List.mem_filter.mp he).1
    · exact fun e he => (List.mem_filter.mp he).1
  · constructor
    · rfl
    · rfl
    · rfl
    · exact fun e he => (List.mem_filter.mp he).1
    · exact fun e he => he

theorem Stands.unmount {n : Mount} (h : p.Stands m g) (ha : n.Apart m) :
    (p.unmount n).Stands m g := by
  have ht := thinned_unmount p n
  have hwords : ∀ e ∈ p.roster.wordsOf m.listener,
      e.id < n.firstId ∨ n.firstId + n.wordCount ≤ e.id := by
    intro e he
    have hnot := fun howns => ha e.id howns (h.owns_of_mem_words he)
    by_cases hlt : e.id < n.firstId
    · exact Or.inl hlt
    · refine Or.inr (Nat.le_of_not_lt fun hend => hnot (Or.inl ⟨Nat.le_of_not_lt hlt, hend⟩))
  have hw := Roster.wordsOf_unsubscribeRun hwords
  refine h.frame (ht.gaugeAt m) (Nat.le_of_eq ht.nextId.symm) ?_ ?_
  · unfold Panel.unmount
    split <;> exact hw
  · unfold Panel.unmount
    split
    · rename_i id hid
      refine Roster.boundariesOf_unsubscribeBoundary (r := p.roster.unsubscribeRun _ _)
        fun e he => ?_
      rintro rfl
      exact ha e.id (Or.inr hid) (h.owns_of_mem_boundaries he)
    · rfl

theorem gauges_unmount (p : Panel) (m : Mount) : (p.unmount m).gauges = p.gauges := by
  unfold unmount
  split <;> rfl

theorem mounts_unmount (p : Panel) (m : Mount) : (p.unmount m).mounts = p.mounts := by
  rw [mounts, gauges_unmount, mounts]

theorem Orderly.unmount (h : p.Orderly (m :: loose)) : (p.unmount m).Orderly loose := by
  have hapart := (List.perm_middle.pairwise_iff fun hmn => hmn.symm).mp h.apart
  have hm := (List.pairwise_cons.mp hapart).1
  refine (thinned_unmount p m).orderly h ?_ ?_
  · rw [mounts_unmount]
    exact (List.sublist_cons_self m loose).append_left _
  · intro n hn g hg
    rw [mounts_unmount] at hn
    exact hg.unmount (hm n hn)

theorem Orderly.unmountAll (h : p.Orderly loose) : (loose.foldl Panel.unmount p).Orderly [] := by
  induction loose generalizing p with
  | nil => exact h
  | cons m loose ih => exact ih h.unmount

end Panel

end WordLink
