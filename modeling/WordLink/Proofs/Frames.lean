import WordLink.Memory.Lemmas
import WordLink.Proofs.Feeding

/-!
# Frames

An image records the words that come in: the latest of each address, flagged if it was news when it
came and no boundary has come since. A boundary publishes the record as a frame and takes the flags
down. So at every moment the image is told by the events so far, and the frame by those before the
last boundary (`frames_are_snapshots`).
-/
namespace WordLink

/-- What the event brings for the address. -/
def Event.dataFor? (a : Address) : Event → Option Word
  | .word b data => if b = a then some data else none
  | .boundary => none

/-- The data of the latest word for the address. -/
def latest? (events : List Event) (a : Address) : Option Word :=
  events.reverse.findSome? (Event.dataFor? a)

/-- Behind the last boundary there is a word for the address that was news when it came: the first
one for it, or with other data than the one before. -/
def Altered (events : List Event) (a : Address) : Prop :=
  ∃ before data after, events = before ++ .word a data :: after ∧
    (∀ e ∈ after, e.isBoundary = false) ∧ latest? before a ≠ some data

variable {events : List Event} {a b : Address} {data : Word}

theorem latest?_word : latest? (events ++ [.word b data]) a =
    if b = a then some data else latest? events a := by
  rw [latest?, List.reverse_concat, List.findSome?_cons, Event.dataFor?]
  by_cases h : b = a
  · simp [h]
  · simp [h, latest?]

theorem latest?_boundary : latest? (events ++ [.boundary]) a = latest? events a := by
  rw [latest?, List.reverse_concat]
  rfl

theorem latest?_ne_none_iff : latest? events a ≠ none ↔ ∃ data, .word a data ∈ events := by
  rw [latest?, ne_eq, List.findSome?_eq_none_iff]
  simp only [List.mem_reverse, Classical.not_forall]
  constructor
  · rintro ⟨e, he, hd⟩
    rcases e with ⟨b, data⟩ | -
    · by_cases h : b = a
      · exact ⟨data, h ▸ he⟩
      · simp [Event.dataFor?, h] at hd
    · simp [Event.dataFor?] at hd
  · rintro ⟨data, he⟩
    exact ⟨_, he, by simp [Event.dataFor?]⟩

/-- An element of a list with one more at its end is that one or has it behind. -/
theorem concat_eq_split_iff {α : Type} {xs before after : List α} {x y : α} :
    xs ++ [x] = before ++ y :: after ↔
      xs = before ∧ x = y ∧ after = [] ∨
        ∃ init, after = init ++ [x] ∧ xs = before ++ y :: init := by
  constructor
  · intro h
    rcases List.eq_nil_or_concat after with rfl | ⟨init, last, rfl⟩
    · obtain ⟨hxs, hx⟩ := List.append_inj' h rfl
      obtain ⟨hx, -⟩ := List.cons.inj hx
      exact Or.inl ⟨hxs, hx, rfl⟩
    · rw [List.concat_eq_append, ← List.cons_append, ← List.append_assoc] at h
      obtain ⟨hxs, hx⟩ := List.append_inj' h rfl
      obtain ⟨hx, -⟩ := List.cons.inj hx
      exact Or.inr ⟨init, by rw [List.concat_eq_append, hx], hxs⟩
  · rintro (⟨rfl, rfl, rfl⟩ | ⟨init, rfl, rfl⟩)
    · rfl
    · simp

theorem not_altered_nil : ¬ Altered [] a := by
  rintro ⟨before, data, after, heq, -⟩
  simp at heq

theorem not_altered_boundary : ¬ Altered (events ++ [.boundary]) a := by
  rintro ⟨before, data, after, heq, hafter, -⟩
  rcases concat_eq_split_iff.mp heq with ⟨-, hword, -⟩ | ⟨init, rfl, -⟩
  · cases hword
  · cases hafter .boundary (by simp)

theorem altered_word : Altered (events ++ [.word b data]) a ↔
    Altered events a ∨ b = a ∧ latest? events a ≠ some data := by
  constructor
  · rintro ⟨before, d, after, heq, hafter, hnews⟩
    rcases concat_eq_split_iff.mp heq with ⟨rfl, hword, -⟩ | ⟨init, rfl, hinit⟩
    · cases hword
      exact Or.inr ⟨rfl, hnews⟩
    · exact Or.inl ⟨before, d, init, hinit, fun e he => hafter e (by simp [he]), hnews⟩
  · rintro (⟨before, d, after, rfl, hafter, hnews⟩ | ⟨rfl, hnews⟩)
    · refine ⟨before, d, after ++ [.word b data], by simp, ?_, hnews⟩
      exact List.forall_mem_append.mpr ⟨hafter, List.forall_mem_singleton.mpr rfl⟩
    · exact ⟨events, data, [], rfl, by simp, hnews⟩

namespace Memory

variable {m : Memory}

/-- The memory holds just what the events have brought, flagged where it has altered since the last
boundary. -/
structure Records (m : Memory) (events : List Event) : Prop where
  ascending : m.addresses.Pairwise (· < ·)
  held : ∀ a, a ∈ m.addresses ↔ ∃ data, .word a data ∈ events
  latest : ∀ a, (m.get? a).map Cell.data = latest? events a
  altered : ∀ a, m.Changed a ↔ Altered events a

theorem changed_iff {a : Address} : m.Changed a ↔ (m.get? a).any Cell.dirty = true := by
  rw [Changed]
  rcases m.get? a with _ | ⟨data, dirty⟩ <;> simp

theorem changed_store_iff {a b : Address} {data : Word} :
    (m.store b data).Changed a ↔ m.Changed a ∨ b = a ∧ (m.get? a).map Cell.data ≠ some data := by
  rw [changed_iff, changed_iff, get?_store]
  by_cases h : a = b
  · subst h
    rcases m.get? a with _ | ⟨old, dirty⟩
    · simp [Cell.stored]
    · by_cases hd : old = data
      · simp [Cell.stored, hd]
      · simp [Cell.stored, hd]
  · simp [h, Ne.symm h]

theorem not_changed_settle (a : Address) : ¬ m.settle.Changed a := by
  rw [changed_iff, get?_settle]
  cases m.get? a <;> simp

theorem map_data_settle (a : Address) :
    (m.settle.get? a).map Cell.data = (m.get? a).map Cell.data := by
  rw [get?_settle, Option.map_map]
  rfl

/-- Which words there are follows from which data they have. -/
theorem Records.of_latest (hlatest : ∀ a, (m.get? a).map Cell.data = latest? events a)
    (haltered : ∀ a, m.Changed a ↔ Altered events a) : m.Records events := by
  refine ⟨m.addresses_ascending, fun a => ?_, hlatest, haltered⟩
  rw [mem_addresses_iff, ← latest?_ne_none_iff, ← hlatest, ne_eq, ne_eq, Option.map_eq_none_iff]

theorem records_empty : empty.Records [] := by
  refine .of_latest (fun a => rfl) fun a => iff_of_false ?_ not_altered_nil
  rw [changed_iff, get?_empty]
  simp

theorem Records.store (h : m.Records events) (b : Address) (data : Word) :
    (m.store b data).Records (events ++ [.word b data]) := by
  refine .of_latest (fun a => ?_) fun a => ?_
  · rw [get?_store, latest?_word]
    by_cases hab : a = b
    · simp [hab, data_stored]
    · simpa [hab, Ne.symm hab] using h.latest a
  · rw [changed_store_iff, altered_word, h.altered, h.latest]

theorem Records.settle (h : m.Records events) : m.settle.Records (events ++ [.boundary]) := by
  refine .of_latest (fun a => ?_) fun a => ?_
  · rw [map_data_settle, latest?_boundary, h.latest]
  · exact iff_of_false (not_changed_settle a) not_altered_boundary

end Memory

/-- The image has been told of the events: its memory records them all, and the latest frame is the
record that was there when the last boundary came. -/
structure Image.Follows (i : Image) (events : List Event) : Prop where
  memory : i.memory.Records events
  published : i.published = events.countP Event.isBoundary
  frame : ∀ before after, events = before ++ .boundary :: after →
    (∀ e ∈ after, e.isBoundary = false) → i.frame.Records before
  unpublished : (∀ e ∈ events, e.isBoundary = false) → i.frame = .empty

namespace Image

variable {i : Image}

theorem follows_new : ({} : Image).Follows [] :=
  ⟨Memory.records_empty, rfl, fun before after heq => by simp at heq, fun _ => rfl⟩

theorem Follows.apply (h : i.Follows events) (event : Event) :
    (i.apply event).Follows (events ++ [event]) := by
  cases event with
  | word a data =>
    refine ⟨h.memory.store a data, ?_, fun before after heq hafter => ?_, fun hall => ?_⟩
    · rw [List.countP_append, ← h.published]
      rfl
    · rcases concat_eq_split_iff.mp heq with ⟨-, hword, -⟩ | ⟨init, rfl, hinit⟩
      · cases hword
      · exact h.frame before init hinit fun e he => hafter e (by simp [he])
    · exact h.unpublished fun e he => hall e (by simp [he])
  | boundary =>
    refine ⟨h.memory.settle, ?_, fun before after heq hafter => ?_, fun hall => ?_⟩
    · rw [List.countP_append, ← h.published]
      rfl
    · rcases concat_eq_split_iff.mp heq with ⟨rfl, -, -⟩ | ⟨init, rfl, -⟩
      · exact h.memory
      · cases hafter .boundary (by simp)
    · cases hall .boundary (by simp)

theorem Follows.foldl (h : i.Follows events) (more : List Event) :
    (more.foldl Image.apply i).Follows (events ++ more) := by
  induction more generalizing i events with
  | nil => rwa [List.append_nil]
  | cons event rest ih =>
    have hrest := ih (h.apply event)
    rwa [List.append_assoc] at hrest

theorem frame_foldl {words : List Event} (h : ∀ e ∈ words, e.isBoundary = false) (i : Image) :
    (words.foldl Image.apply i).frame = i.frame := by
  induction words generalizing i with
  | nil => rfl
  | cons event rest ih =>
    obtain ⟨hevent, hrest⟩ := List.forall_mem_cons.mp h
    rw [List.foldl_cons, ih hrest]
    cases event with
    | word a data => rfl
    | boundary => cases hevent

end Image

namespace Session

/-- A session in the middle of a feed, when the first `n` of the events that the bytes make have
been passed on. -/
def during (s : Session) (bytes : List UInt8) (n : Nat) : Session :=
  ((s.receiver.push bytes).2.take n).foldl handle
    { s with
      receiver := (s.receiver.push bytes).1
      counters := { s.counters with bytes := s.counters.bytes + bytes.length } }

theorem during_of_le (s : Session) (bytes : List UInt8) {n : Nat}
    (h : (s.receiver.push bytes).2.length ≤ n) : s.during bytes n = s.feed bytes := by
  rw [during, List.take_of_length_le h]
  rfl

theorem image_during (s : Session) (bytes : List UInt8) (n : Nat) :
    (s.during bytes n).image =
      s.image.map fun i => ((s.receiver.push bytes).2.take n).foldl Image.apply i := by
  rw [during, foldl_handle]

/-- At every moment of a session, in the middle of a feed too, its image holds the latest of each
address that has come in, flagged where it has altered since the last boundary, and the frame last
published is what the image was when that boundary came. Words that come in later leave the frame as
it is. What the listeners do makes no difference. -/
theorem frames_are_snapshots (settings : Receiver.Settings) (readSize : Nat) (panel : Panel)
    (chunks : List (List UInt8)) (bytes : List UInt8) (n : Nat) :
    let s := chunks.foldl feed (opened settings readSize true panel)
    let history := ((Receiver.ofSettings settings).push chunks.flatten).2 ++
      (s.receiver.push bytes).2.take n
    ((s.receiver.push bytes).2.length ≤ n → s.during bytes n = s.feed bytes) ∧
    ∃ image, (s.during bytes n).image = some image ∧
      image.memory.Records history ∧
      image.published = history.countP Event.isBoundary ∧
      (∀ before after, history = before ++ .boundary :: after →
        (∀ e ∈ after, e.isBoundary = false) → image.frame.Records before) ∧
      ((∀ e ∈ history, e.isBoundary = false) → image.frame = .empty) ∧
      ∀ later : List Event, (∀ e ∈ later, e.isBoundary = false) →
        (later.foldl handle (s.during bytes n)).image.map Image.frame = some image.frame := by
  intro s history
  have hstart : s.image =
      some (((Receiver.ofSettings settings).push chunks.flatten).2.foldl Image.apply {}) := by
    rw [show s = _ from foldl_feed .., feed_eq]
    rfl
  have hfollows := (Image.follows_new.foldl
    ((Receiver.ofSettings settings).push chunks.flatten).2).foldl
      ((s.receiver.push bytes).2.take n)
  have himage := s.image_during bytes n
  rw [hstart, Option.map_some] at himage
  refine ⟨s.during_of_le bytes, _, himage, hfollows.memory, hfollows.published, hfollows.frame,
    hfollows.unpublished, fun later hlater => ?_⟩
  rw [foldl_handle, himage, Option.map_some, Option.map_some, Image.frame_foldl hlater]

/-- Since the second boundary a word has changed and changed back: it is flagged in the image, and
the frame has it as it was. -/
theorem frames_are_snapshots_changed_back : ∃ image : Image,
    (([[0x55, 0x55, 0x55, 0x55, 0x10, 0x00, 0x02, 0x00, 0x07, 0x00],
        [0x55, 0x55, 0x55, 0x55, 0x10, 0x00]].foldl feed (opened {} 1 true {})).feed
          [0x02, 0x00, 0x08, 0x00, 0x10, 0x00, 0x02, 0x00, 0x07, 0x00]).image = some image ∧
    image.memory.Changed 0x0010 ∧ (image.memory.get? 0x0010).map Cell.data = some 7 ∧
    image.frame.Records [.boundary, .word 0x0010 7] := by
  obtain ⟨hend, image, himage, hmemory, -, hframe, -, -⟩ := frames_are_snapshots {} 1 {}
    [[0x55, 0x55, 0x55, 0x55, 0x10, 0x00, 0x02, 0x00, 0x07, 0x00],
      [0x55, 0x55, 0x55, 0x55, 0x10, 0x00]]
    [0x02, 0x00, 0x08, 0x00, 0x10, 0x00, 0x02, 0x00, 0x07, 0x00] 2
  rw [hend (by decide)] at himage
  refine ⟨image, himage, ?_, ?_, hframe _ [.word 0x0010 8, .word 0x0010 7] (by decide) (by decide)⟩
  · refine (hmemory.altered 0x0010).mpr
      ⟨[.boundary, .word 0x0010 7, .boundary], 8, [.word 0x0010 7], ?_, ?_, ?_⟩ <;> decide
  · rw [hmemory.latest]
    decide

end Session

end WordLink
