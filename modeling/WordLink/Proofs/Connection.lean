import WordLink.Proofs.UpdateContent
import WordLink.Receiver

/-!
# Connections

A connection has a memory that is edited and sent at one end, and a receiver with a mirror of that
memory at the other. It acts by edits and by updates, in any order. Edits add words and flag what
they change; so where nothing is flagged nothing has happened since the flags were cleared.
-/
namespace WordLink

namespace Memory

/-- No word is lost, and one without a flag is as it was, without a flag then too. -/
structure Onward (m n : Memory) : Prop where
  stored : ∀ a, n.get? a = none → m.get? a = none
  clean : ∀ a, ¬ n.Changed a → ¬ m.Changed a ∧ n.word a = m.word a

theorem Onward.refl (m : Memory) : m.Onward m := ⟨fun _ h => h, fun _ h => ⟨h, rfl⟩⟩

theorem Onward.trans {m n o : Memory} (h : m.Onward n) (h' : n.Onward o) : m.Onward o := by
  constructor
  · intro a ha
    exact h.stored a (h'.stored a ha)
  · intro a ha
    obtain ⟨hn, hw⟩ := h'.clean a ha
    obtain ⟨hm, hv⟩ := h.clean a hn
    exact ⟨hm, hw.trans hv⟩

theorem onward_mark (m : Memory) (a : Address) : m.Onward (m.mark a) := by
  constructor
  · intro b hb
    rw [get?_mark] at hb
    split at hb
    · cases hb
    · exact hb
  · intro b hb
    refine ⟨?_, word_mark ..⟩
    rintro ⟨data, hd⟩
    apply hb
    by_cases h : b = a
    · exact ⟨m.word a, by rw [get?_mark, if_pos h]⟩
    · exact ⟨data, by rw [get?_mark, if_neg h, hd]⟩

theorem onward_store (m : Memory) (a : Address) (data : Word) : m.Onward (m.store a data) := by
  constructor
  · intro b hb
    rw [get?_store] at hb
    split at hb
    · cases hb
    · exact hb
  · intro b hb
    rw [word_store]
    unfold Changed at hb ⊢
    rw [get?_store] at hb
    by_cases h : b = a
    · subst h
      rw [if_pos rfl] at hb ⊢
      cases hc : m.get? b with
      | none => exact absurd ⟨data, by rw [hc]; rfl⟩ hb
      | some cell =>
        by_cases hd : cell.data = data
        · simp only [hc, Cell.stored, if_pos hd] at hb
          exact ⟨hb, by rw [word, hc]; exact hd.symm⟩
        · exact absurd ⟨data, by simp [hc, Cell.stored, hd]⟩ hb
    · rw [if_neg h] at hb ⊢
      exact ⟨hb, rfl⟩

theorem onward_storeBytes (m : Memory) (a : Address) (bytes : List UInt8) :
    m.Onward (m.storeBytes a bytes) := by
  fun_induction storeBytes m a bytes with
  | case1 => exact .refl _
  | case2 => exact onward_store ..
  | case3 m a low high rest ih => exact (onward_store ..).trans ih

theorem onward_setInteger {m n : Memory} {f : IntegerField} {value : Word}
    (h : m.setInteger f value = .ok n) : m.Onward n := by
  unfold setInteger at h
  split at h
  · cases h
  · split at h
    · cases h
    · cases h
      exact onward_store ..

end Memory

/-- What may be done to a memory between two updates. -/
inductive Edit where
  | store (address : Address) (data : Word)
  | mark (address : Address)
  | setInteger (field : IntegerField) (value : Word)
  | setText (field : TextField) (value : List UInt8)

/-- The memory after an edit; a value that is refused changes nothing. -/
def Edit.apply (m : Memory) : Edit → Memory
  | store a data => m.store a data
  | mark a => m.mark a
  | setInteger f value =>
    match m.setInteger f value with
    | .ok n => n
    | .error _ => m
  | setText f value => m.setText f value

theorem Edit.onward (m : Memory) (e : Edit) : m.Onward (e.apply m) := by
  cases e with
  | store a data => exact Memory.onward_store ..
  | mark a => exact Memory.onward_mark ..
  | setInteger f value =>
    rw [apply]
    split
    · rename_i h
      exact Memory.onward_setInteger h
    · exact .refl m
  | setText f value => exact Memory.onward_storeBytes ..

structure Connection where
  sender : Sender
  source : Memory := {}
  receiver : Receiver := {}
  mirror : Memory := {}

inductive Action where
  | edit (e : Edit)
  | update

namespace Connection

def start (s : Sender) : Connection := { sender := s }

def update (c : Connection) : Sender.Update := c.sender.update c.source

/-- What the receiver reports of the update. -/
def events (c : Connection) : List Event := (c.receiver.push c.update.bytes).2

def act (c : Connection) : Action → Connection
  | .edit e => { c with source := e.apply c.source }
  | .update =>
    { sender := c.update.sender
      source := c.update.memory
      receiver := (c.receiver.push c.update.bytes).1
      mirror := c.events.foldl Memory.apply c.mirror }

def run (c : Connection) (history : List Action) : Connection := history.foldl act c

/-- The updates of a history that are not empty, as they are sent. -/
def streams (c : Connection) : List Action → List (List UInt8)
  | [] => []
  | .edit e :: rest => (c.act (.edit e)).streams rest
  | .update :: rest =>
    if c.update.bytes = [] then (c.act .update).streams rest
    else c.update.bytes :: (c.act .update).streams rest

theorem run_cons (c : Connection) (action : Action) (rest : List Action) :
    c.run (action :: rest) = (c.act action).run rest := rfl

theorem receiver_update (c : Connection) :
    (c.act .update).receiver = (c.receiver.push c.update.bytes).1 := rfl

theorem mirror_update (c : Connection) :
    (c.act .update).mirror = c.events.foldl Memory.apply c.mirror := rfl

theorem word_update (c : Connection) (a : Address) :
    (c.act .update).source.word a = c.source.word a := Sender.word_update ..

end Connection

end WordLink
