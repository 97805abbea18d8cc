import WordLink.Proofs.Course

/-!
# What a number stands for

Whatever is done to a new roster, by its owner, by gauges or by anyone else who has it, a number is
handed out once and stands for one registration until that is taken out, then for nothing ever after
(`numbers_identify`). Gauges that are put up or taken down and commands to a panel, with all that
they set off, come to nothing but registrations made and taken out one by one.
-/
namespace WordLink

/-- What has the key is taken out of a list, and nothing else; the answer is whether there was any
such thing. -/
structure TakenOut {ε : Type} (key : ε → Nat) (k : Nat) (entries left : List ε) (found : Bool) :
    Prop where
  found_iff : found = true ↔ ∃ e ∈ entries, key e = k
  one : found = true → ∃ before e after, entries = before ++ e :: after ∧ key e = k ∧
    left = before ++ after
  nothing : found = false → left = entries
  gone : ∀ e ∈ left, key e ≠ k
  shorter : found = true ↔ left.length ≠ entries.length

theorem takenOut_filter {ε : Type} {key : ε → Nat} {entries : List ε}
    (h : entries.Pairwise (key · < key ·)) (k : Nat) :
    TakenOut key k entries (entries.filter (key · != k)) (entries.any (key · == k)) := by
  constructor
  · simp
  · intro hfound
    obtain ⟨e, he, hk⟩ := List.any_eq_true.mp hfound
    obtain rfl := beq_iff_eq.mp hk
    obtain ⟨before, after, rfl⟩ := List.append_of_mem he
    obtain ⟨-, hafter, hbefore⟩ := List.pairwise_append.mp h
    have hlt := (List.pairwise_cons.mp hafter).1
    refine ⟨before, e, after, rfl, rfl, ?_⟩
    rw [List.filter_append, List.filter_cons_of_neg (by simp), List.filter_eq_self.mpr,
      List.filter_eq_self.mpr]
    · intro f hf
      simpa using Nat.ne_of_gt (hlt f hf)
    · intro f hf
      simpa using Nat.ne_of_lt (hbefore f hf e List.mem_cons_self)
  · intro hfound
    exact List.filter_eq_self.mpr (by simpa using hfound)
  · simp
  · rw [Ne, List.length_filter_eq_length_iff]
    simp

/-- A part of a list that goes up by a key is made of the elements whose keys are in the part. -/
theorem filter_key_mem {ε : Type} {key : ε → Nat} {part whole : List ε} (h : part.Sublist whole)
    (hkey : whole.Pairwise (key · < key ·)) :
    whole.filter (fun e => decide (key e ∈ part.map key)) = part := by
  induction h with
  | slnil => rfl
  | @cons part whole e h ih =>
    obtain ⟨hlt, hkey⟩ := List.pairwise_cons.mp hkey
    have hout : key e ∉ part.map key := by
      intro hmem
      obtain ⟨f, hf, heq⟩ := List.mem_map.mp hmem
      exact absurd heq (Nat.ne_of_gt (hlt f (h.subset hf)))
    rw [List.filter_cons_of_neg (by simpa using hout), ih hkey]
  | @cons_cons part whole e h ih =>
    obtain ⟨hlt, hkey⟩ := List.pairwise_cons.mp hkey
    rw [List.filter_cons_of_pos (by simp)]
    conv => rhs; rw [← ih hkey]
    refine congrArg (e :: ·) (List.filter_congr fun f hf => ?_)
    have hne := Nat.ne_of_gt (hlt f hf)
    simp [hne]

/-- What a list holds after a run of steps: what has been there and not been taken, or what has been
made on the way and not been taken since. -/
theorem mem_foldl_iff {σ α ε : Type} {step : σ → α → σ} {items : σ → List ε} {made taken : ε → α}
    {given : σ → ε → Prop}
    (h : ∀ s a e, e ∈ items (step s a) ↔ e ∈ items s ∧ a ≠ taken e ∨ a = made e ∧ given s e)
    (s : σ) (run : List α) (e : ε) :
    e ∈ items (run.foldl step s) ↔ (e ∈ items s ∧ taken e ∉ run) ∨
      ∃ before rest, run = before ++ made e :: rest ∧ given (before.foldl step s) e ∧
        taken e ∉ rest := by
  induction run generalizing s with
  | nil => simp
  | cons a run ih =>
    rw [List.foldl_cons, ih, h]
    constructor
    · rintro (⟨⟨hmem, ha⟩ | ⟨rfl, hgiven⟩, hrun⟩ | ⟨before, rest, rfl, hgiven, hrest⟩)
      · exact Or.inl ⟨hmem, List.not_mem_cons_of_ne_of_not_mem ha.symm hrun⟩
      · exact Or.inr ⟨[], run, rfl, hgiven, hrun⟩
      · exact Or.inr ⟨a :: before, rest, rfl, hgiven, hrest⟩
    · rintro (⟨hmem, hnot⟩ | ⟨before, rest, heq, hgiven, hrest⟩)
      · obtain ⟨ha, hrun⟩ := List.ne_and_not_mem_of_not_mem_cons hnot
        exact Or.inl ⟨Or.inl ⟨hmem, ha.symm⟩, hrun⟩
      · cases before with
        | nil =>
          obtain ⟨rfl, rfl⟩ := List.cons.inj heq
          exact Or.inl ⟨Or.inr ⟨rfl, hgiven⟩, hrest⟩
        | cons c before =>
          obtain ⟨rfl, rfl⟩ := List.cons.inj heq
          exact Or.inr ⟨before, rest, rfl, hgiven, hrest⟩

namespace Roster

/-- What can be done to a roster by anyone who has it. -/
inductive Act (κ : Type) where
  | subscribe (address : Address) (listener : κ)
  | subscribeBoundary (listener : κ)
  | unsubscribe (id : RegistrationId)
  | unsubscribeBoundary (id : RegistrationId)
  deriving DecidableEq

variable {κ : Type} {r q : Roster κ}

def act (r : Roster κ) : Act κ → Roster κ
  | .subscribe address listener => r.subscribe address listener
  | .subscribeBoundary listener => r.subscribeBoundary listener
  | .unsubscribe id => r.unsubscribe id
  | .unsubscribeBoundary id => r.unsubscribeBoundary id

def after (r : Roster κ) (acts : List (Act κ)) : Roster κ := acts.foldl act r

/-- The numbers handed out in the course of the acts. -/
def numbers (r : Roster κ) : List (Act κ) → List RegistrationId
  | [] => []
  | .subscribe a k :: rest => r.nextId :: (r.subscribe a k).numbers rest
  | .subscribeBoundary k :: rest => r.nextId :: (r.subscribeBoundary k).numbers rest
  | .unsubscribe id :: rest => (r.unsubscribe id).numbers rest
  | .unsubscribeBoundary id :: rest => (r.unsubscribeBoundary id).numbers rest

theorem after_cons (r : Roster κ) (a : Act κ) (rest : List (Act κ)) :
    r.after (a :: rest) = (r.act a).after rest := rfl

theorem after_append (r : Roster κ) (acts more : List (Act κ)) :
    r.after (acts ++ more) = (r.after acts).after more := List.foldl_append ..

theorem becomes_after (r : Roster κ) (acts : List (Act κ)) : r.Becomes (r.after acts) := by
  induction acts generalizing r with
  | nil => exact .same
  | cons a rest ih =>
    refine Becomes.trans ?_ (ih (r.act a))
    cases a with
    | subscribe address listener => exact Becomes.same.subscribeAll [address] listener
    | subscribeBoundary listener => exact Becomes.same.subscribeBoundary listener
    | unsubscribe id => exact Becomes.same.thinned (r.thinned_unsubscribe id)
    | unsubscribeBoundary id => exact Becomes.same.thinned (r.thinned_unsubscribeBoundary id)

theorem numbers_eq (r : Roster κ) (acts : List (Act κ)) :
    ∃ n, r.numbers acts = List.range' r.nextId n ∧ (r.after acts).nextId = r.nextId + n := by
  induction acts generalizing r with
  | nil => exact ⟨0, rfl, rfl⟩
  | cons a rest ih =>
    obtain ⟨n, hnumbers, hnext⟩ := ih (r.act a)
    rw [after_cons, hnext]
    cases a with
    | subscribe address listener =>
      refine ⟨n + 1, ?_, (Nat.add_right_comm ..).trans (Nat.add_assoc ..)⟩
      exact congrArg (r.nextId :: ·) hnumbers
    | subscribeBoundary listener =>
      refine ⟨n + 1, ?_, (Nat.add_right_comm ..).trans (Nat.add_assoc ..)⟩
      exact congrArg (r.nextId :: ·) hnumbers
    | unsubscribe id => exact ⟨n, hnumbers, rfl⟩
    | unsubscribeBoundary id => exact ⟨n, hnumbers, rfl⟩

/-! ### What is in the lists -/

theorem mem_words_act (r : Roster κ) (a : Act κ) (e : WordRegistration κ) :
    e ∈ (r.act a).words ↔ e ∈ r.words ∧ a ≠ .unsubscribe e.id ∨
      a = .subscribe e.address e.listener ∧ r.nextId = e.id := by
  obtain ⟨id, address, listener⟩ := e
  cases a with
  | subscribe b k =>
    simp only [act, subscribe, subscribeAll, registrations, List.zipIdx_cons, List.zipIdx_nil,
      List.map_cons, List.map_nil, List.mem_append, List.mem_singleton]
    grind
  | subscribeBoundary k => simp [act, subscribeBoundary]
  | unsubscribe id' =>
    simp only [act, Roster.unsubscribe, List.mem_filter]
    grind
  | unsubscribeBoundary id' => simp [act, Roster.unsubscribeBoundary]

theorem mem_boundaries_act (r : Roster κ) (a : Act κ) (e : BoundaryRegistration κ) :
    e ∈ (r.act a).boundaries ↔ e ∈ r.boundaries ∧ a ≠ .unsubscribeBoundary e.id ∨
      a = .subscribeBoundary e.listener ∧ r.nextId = e.id := by
  obtain ⟨id, listener⟩ := e
  cases a with
  | subscribe b k => simp [act, subscribe, subscribeAll]
  | subscribeBoundary k =>
    simp only [act, Roster.subscribeBoundary, List.mem_append, List.mem_singleton]
    grind
  | unsubscribe id' => simp [act, Roster.unsubscribe]
  | unsubscribeBoundary id' =>
    simp only [act, Roster.unsubscribeBoundary, List.mem_filter]
    grind

/-- The list has what was registered and has not been taken out since. -/
theorem mem_words_after (acts : List (Act κ)) (e : WordRegistration κ) :
    e ∈ (({} : Roster κ).after acts).words ↔
      ∃ before rest, acts = before ++ .subscribe e.address e.listener :: rest ∧
        (({} : Roster κ).after before).nextId = e.id ∧ .unsubscribe e.id ∉ rest := by
  rw [after, mem_foldl_iff mem_words_act]
  exact or_iff_right fun h => List.not_mem_nil h.1

theorem mem_boundaries_after (acts : List (Act κ)) (e : BoundaryRegistration κ) :
    e ∈ (({} : Roster κ).after acts).boundaries ↔
      ∃ before rest, acts = before ++ .subscribeBoundary e.listener :: rest ∧
        (({} : Roster κ).after before).nextId = e.id ∧ .unsubscribeBoundary e.id ∉ rest := by
  rw [after, mem_foldl_iff mem_boundaries_act]
  exact or_iff_right fun h => List.not_mem_nil h.1

/-! ### Numbers tell registrations apart -/

/-- The two lists share no number. -/
def Disjoint (r : Roster κ) : Prop := ∀ e ∈ r.words, ∀ f ∈ r.boundaries, e.id ≠ f.id

theorem Becomes.disjoint (h : r.Becomes q) (hr : r.Numbered) (hd : r.Disjoint) : q.Disjoint := by
  induction h with
  | same => exact hd
  | subscribeAll h addresses listener ih =>
    intro e he f hf
    rcases List.mem_append.mp he with hold | hnew
    · exact ih e hold f hf
    · have hlt := (h.numbered hr).boundaries_given f hf
      exact Nat.ne_of_gt (Nat.lt_of_lt_of_le hlt (mem_registrations hnew).1)
  | subscribeBoundary h listener ih =>
    intro e he f hf
    rcases List.mem_append.mp hf with hold | hnew
    · exact ih e he f hold
    · rw [List.mem_singleton.mp hnew]
      exact Nat.ne_of_lt ((h.numbered hr).words_given e he)
  | thinned h ht ih =>
    exact fun e he f hf => ih e (ht.words.subset he) f (ht.boundaries.subset hf)

variable {id : RegistrationId}

theorem hasWord_iff : r.hasWord id = true ↔ ∃ e ∈ r.words, e.id = id := by simp [hasWord]

theorem hasBoundary_iff : r.hasBoundary id = true ↔ ∃ e ∈ r.boundaries, e.id = id := by
  simp [hasBoundary]

/-- A number that is out of use stays so. -/
theorem Becomes.hasWord_eq_false (h : r.Becomes q) (hlt : id < r.nextId)
    (hid : r.hasWord id = false) : q.hasWord id = false := by
  refine Bool.eq_false_iff.mpr fun hin => ?_
  obtain ⟨e, he, rfl⟩ := hasWord_iff.mp hin
  have hq : (e.id, e.listener) ∈ q.entriesFor (.word e.address 0) :=
    List.mem_map.mpr ⟨e, List.mem_filter.mpr ⟨he, beq_self_eq_true _⟩, rfl⟩
  rcases h.old_or_new hq with hold | hnew
  · obtain ⟨f, hf, heq⟩ := List.mem_map.mp hold
    exact Bool.eq_false_iff.mp hid
      (hasWord_iff.mpr ⟨f, (List.mem_filter.mp hf).1, congrArg Prod.fst heq⟩)
  · exact absurd hlt (Nat.not_lt_of_le hnew)

theorem Becomes.hasBoundary_eq_false (h : r.Becomes q) (hlt : id < r.nextId)
    (hid : r.hasBoundary id = false) : q.hasBoundary id = false := by
  refine Bool.eq_false_iff.mpr fun hin => ?_
  obtain ⟨e, he, rfl⟩ := hasBoundary_iff.mp hin
  have hq : (e.id, e.listener) ∈ q.entriesFor .boundary := List.mem_map.mpr ⟨e, he, rfl⟩
  rcases h.old_or_new hq with hold | hnew
  · obtain ⟨f, hf, heq⟩ := List.mem_map.mp hold
    exact Bool.eq_false_iff.mp hid (hasBoundary_iff.mpr ⟨f, hf, congrArg Prod.fst heq⟩)
  · exact absurd hlt (Nat.not_lt_of_le hnew)

/-! ### Whatever happens comes to single acts -/

theorem after_subscribe_map (r : Roster κ) (addresses : List Address) (k : κ) :
    r.after (addresses.map (.subscribe · k)) = r.subscribeAll addresses k := by
  induction addresses generalizing r with
  | nil => simp [after, subscribeAll, registrations]
  | cons a rest ih =>
    rw [List.map_cons, after_cons, ih]
    simp [act, subscribe, subscribeAll, registrations, Nat.add_assoc, Nat.add_comm 1]

theorem after_unsubscribe_map (r : Roster κ) (ids : List RegistrationId) :
    r.after (ids.map .unsubscribe) = { r with words := r.words.filter (·.id ∉ ids) } := by
  induction ids generalizing r with
  | nil =>
    rw [List.filter_eq_self.mpr (by simp)]
    rfl
  | cons id ids ih =>
    rw [List.map_cons, after_cons, ih]
    exact congrArg (Roster.mk · _ _) (filter_ne_filter_not_mem (fun j => List.mem_cons) _)

theorem after_unsubscribeBoundary_map (r : Roster κ) (ids : List RegistrationId) :
    r.after (ids.map .unsubscribeBoundary) =
      { r with boundaries := r.boundaries.filter (·.id ∉ ids) } := by
  induction ids generalizing r with
  | nil =>
    rw [List.filter_eq_self.mpr (by simp)]
    rfl
  | cons id ids ih =>
    rw [List.map_cons, after_cons, ih]
    exact congrArg (Roster.mk _ · _) (filter_ne_filter_not_mem (fun j => List.mem_cons) _)

/-- A part of a list is what is left once the keys of the rest are taken out. -/
theorem exists_filter_key {ε : Type} {key : ε → RegistrationId} {part whole : List ε}
    (h : part.Sublist whole) (hkey : whole.Pairwise (key · < key ·)) :
    ∃ ids : List RegistrationId, whole.filter (key · ∉ ids) = part := by
  -- the keys of what the part does not have
  refine ⟨(whole.filter (key · ∉ part.map key)).map key, ?_⟩
  conv => rhs; rw [← filter_key_mem h hkey]
  refine List.filter_congr fun e he => ?_
  rw [decide_eq_decide]
  constructor
  · intro hnot
    refine Classical.not_not.mp fun hout => hnot (List.mem_map_of_mem ?_)
    exact List.mem_filter.mpr ⟨he, decide_eq_true hout⟩
  · intro hin hmem
    obtain ⟨f, hf, heq⟩ := List.mem_map.mp hmem
    exact of_decide_eq_true (List.mem_filter.mp hf).2 (heq ▸ hin)

theorem Thinned.exists_after (h : r.Thinned q) (hr : r.Numbered) : ∃ acts, q = r.after acts := by
  obtain ⟨words, hwords⟩ := exists_filter_key h.words hr.words_ascending
  obtain ⟨boundaries, hboundaries⟩ := exists_filter_key h.boundaries hr.boundaries_ascending
  refine ⟨words.map .unsubscribe ++ boundaries.map .unsubscribeBoundary, ?_⟩
  rw [after_append, after_unsubscribe_map, after_unsubscribeBoundary_map, hwords, hboundaries,
    ← h.nextId]

theorem Becomes.exists_after (h : r.Becomes q) (hr : r.Numbered) : ∃ acts, q = r.after acts := by
  induction h with
  | same => exact ⟨[], rfl⟩
  | subscribeAll h addresses listener ih =>
    obtain ⟨acts, rfl⟩ := ih
    exact ⟨acts ++ addresses.map (.subscribe · listener), by
      rw [after_append, after_subscribe_map]⟩
  | subscribeBoundary h listener ih =>
    obtain ⟨acts, rfl⟩ := ih
    exact ⟨acts ++ [.subscribeBoundary listener], by rw [after_append]; rfl⟩
  | thinned h ht ih =>
    obtain ⟨acts, rfl⟩ := ih
    obtain ⟨more, rfl⟩ := ht.exists_after (h.numbered hr)
    exact ⟨acts ++ more, (after_append ..).symm⟩

end Roster

/-- What a gauge that is put up does to the roster. -/
def Gauge.acts (g : Gauge) (listener : Nat) : List (Roster.Act Nat) :=
  g.addresses.map (.subscribe · listener) ++
    if g.hearsBoundaries then [.subscribeBoundary listener] else []

/-- What a gauge that is taken down does to the roster. -/
def Mount.acts (m : Mount) : List (Roster.Act Nat) :=
  (List.range' m.firstId m.wordCount).map .unsubscribe ++
    m.boundaryId.toList.map .unsubscribeBoundary

namespace Panel

theorem roster_mount (p : Panel) (l : Listener) (g : Gauge) (attached : Bool) :
    (p.mount l g attached).1.roster = p.roster.after (g.acts p.listeners.size) := by
  rw [Gauge.acts, Roster.after_append, Roster.after_subscribe_map]
  cases g <;> rfl

theorem roster_unmount (p : Panel) (m : Mount) :
    (p.unmount m).roster = p.roster.after m.acts := by
  have hrun : p.roster.unsubscribeRun m.firstId m.wordCount =
      p.roster.after ((List.range' m.firstId m.wordCount).map .unsubscribe) := by
    rw [Roster.after_unsubscribe_map, Roster.unsubscribeRun]
    refine congrArg (Roster.mk · _ _) (List.filter_congr fun e _ => ?_)
    rw [Bool.eq_iff_iff]
    simp only [Bool.or_eq_true, decide_eq_true_eq, List.mem_range'_1,
      Classical.not_and_iff_not_or_not, Nat.not_le, Nat.not_lt]
  rw [Mount.acts, Roster.after_append, ← hrun, unmount]
  cases m.boundaryId <;> rfl

theorem becomes_run (p : Panel) (tasks : List Task) : p.roster.Becomes (p.run tasks).roster := by
  induction p, tasks using Panel.run.induct with
  | case1 p =>
    rw [run_nil]
    exact .same
  | case2 p t rest done ih =>
    rw [run_cons]
    exact (p.becomes_step t).trans ih

/-- A panel does nothing to its roster but single acts, and answers by what it finds there. -/
structure ActsOn (p : Panel) (r : Roster Nat) : Prop where
  roster : p.roster = r
  mounts : ∀ l g attached, (p.mount l g attached).1.roster = r.after (g.acts p.listeners.size)
  unmounts : ∀ m, (p.unmount m).roster = r.after m.acts
  executes : ∀ c, ∃ acts, (p.execute c).1.roster = r.after acts
  runs : ∀ tasks, ∃ acts, (p.run tasks).roster = r.after acts
  subscribes : ∀ name address script,
    (p.perform (.subscribe name address script)).2 = .id r.nextId
  subscribes_shared : ∀ name addresses script,
    (p.perform (.subscribeShared name addresses script)).2 =
      .ids (List.range' r.nextId addresses.length)
  subscribes_boundary : ∀ name script,
    (p.perform (.subscribeBoundary name script)).2 = .id r.nextId
  unsubscribes : ∀ name id, p.ids.lookup name = some id →
    p.perform (.unsubscribe name) =
      ({ p with roster := r.unsubscribe id }, .flag (r.hasWord id))
  unsubscribes_boundary : ∀ name id, p.ids.lookup name = some id →
    p.perform (.unsubscribeBoundary name) =
      ({ p with roster := r.unsubscribeBoundary id }, .flag (r.hasBoundary id))
  tells : ∀ address, p.perform (.isSubscribed address) = (p, .flag (r.isSubscribed address))

theorem actsOn_roster (p : Panel) (h : p.roster.Numbered) : p.ActsOn p.roster := by
  constructor
  · rfl
  · exact p.roster_mount
  · exact p.roster_unmount
  · intro c
    exact ((p.effect_perform c).becomes.trans (becomes_run ..)).exists_after h
  · exact fun tasks => (p.becomes_run tasks).exists_after h
  · exact fun name address script => rfl
  · exact fun name addresses script => rfl
  · exact fun name script => rfl
  · intro name id hid
    simp [perform, hid]
  · intro name id hid
    simp [perform, hid]
  · exact fun address => rfl

end Panel

namespace Roster

/-- A number stands for one registration. Numbers are handed out in order, none twice, over both
lists together, and each list is in the order of its numbers. A list has what was registered and has
not been taken out since. Taking out by a number takes the one registration that has it out of its
own list and leaves the order of the rest; a number that is out of use stays so, and then nothing is
taken out. All this is so whoever acts, gauges and whole runs of a panel included. -/
theorem numbers_identify (acts : List (Act Nat)) {r : Roster Nat}
    (h : ({} : Roster Nat).after acts = r) :
    ({} : Roster Nat).numbers acts = List.range r.nextId ∧ r.Numbered ∧ r.Disjoint ∧
    (∀ e, e ∈ r.words ↔
      ∃ before rest, acts = before ++ .subscribe e.address e.listener :: rest ∧
        (({} : Roster Nat).after before).nextId = e.id ∧ .unsubscribe e.id ∉ rest) ∧
    (∀ e, e ∈ r.boundaries ↔
      ∃ before rest, acts = before ++ .subscribeBoundary e.listener :: rest ∧
        (({} : Roster Nat).after before).nextId = e.id ∧ .unsubscribeBoundary e.id ∉ rest) ∧
    (∀ a, r.isSubscribed a = true ↔ ∃ e ∈ r.words, e.address = a) ∧
    (∀ id, ∃ words, r.unsubscribe id = { r with words } ∧
      TakenOut (·.id) id r.words words (r.hasWord id)) ∧
    (∀ id, ∃ boundaries, r.unsubscribeBoundary id = { r with boundaries } ∧
      TakenOut (·.id) id r.boundaries boundaries (r.hasBoundary id)) ∧
    (∀ id < r.nextId, ∀ more,
      (r.hasWord id = false → (r.after more).hasWord id = false) ∧
      (r.hasBoundary id = false → (r.after more).hasBoundary id = false)) ∧
    ∀ p : Panel, p.roster = r → p.ActsOn r := by
  obtain ⟨n, hnumbers, hnext⟩ := ({} : Roster Nat).numbers_eq acts
  have hbecomes := ({} : Roster Nat).becomes_after acts
  have hr := hbecomes.numbered numbered_new
  have hd := hbecomes.disjoint numbered_new (by simp [Disjoint])
  have hwords := mem_words_after acts
  have hboundaries := mem_boundaries_after acts
  rw [Nat.zero_add] at hnext
  rw [h] at hnext hr hd hwords hboundaries
  refine ⟨?_, hr, hd, hwords, hboundaries, ?_, fun id => ?_, fun id => ?_, ?_, ?_⟩
  · rw [hnumbers, hnext]
    exact List.range_eq_range'.symm
  · simp [isSubscribed]
  · exact ⟨_, rfl, takenOut_filter hr.words_ascending id⟩
  · exact ⟨_, rfl, takenOut_filter hr.boundaries_ascending id⟩
  · intro id hid more
    have hmore := r.becomes_after more
    exact ⟨hmore.hasWord_eq_false hid, hmore.hasBoundary_eq_false hid⟩
  · rintro p rfl
    exact p.actsOn_roster hr

/-- One listener for two addresses, of which the first is taken out again, and one for
boundaries. -/
def halfShared : Roster Nat where
  words := [⟨1, 0x0012, 0⟩]
  boundaries := [⟨2, 1⟩]
  nextId := 3

/-- The first number is out of use for good, and the third is none of the word list. -/
theorem numbers_identify_half_shared :
    ({} : Roster Nat).after [.subscribe 0x0010 0, .subscribe 0x0012 0, .subscribeBoundary 1,
      .unsubscribe 0] = halfShared ∧
    halfShared.unsubscribe 2 = halfShared ∧
    (∀ more, (halfShared.after more).hasWord 0 = false) ∧
    ({ roster := halfShared } : Panel).ActsOn halfShared := by
  have hmade : ({} : Roster Nat).after [.subscribe 0x0010 0, .subscribe 0x0012 0,
      .subscribeBoundary 1, .unsubscribe 0] = halfShared := by decide
  obtain ⟨-, -, -, -, -, -, hout, -, hstays, hacts⟩ := numbers_identify _ hmade
  refine ⟨hmade, ?_, fun more => (hstays 0 (by decide) more).1 (by decide), hacts _ rfl⟩
  obtain ⟨words, heq, hwords⟩ := hout 2
  rw [heq, hwords.nothing (by decide)]

end Roster

end WordLink
