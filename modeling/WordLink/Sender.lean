import WordLink.Layout

/-!
# Sending updates

Each update is a sync sequence and the blocks that carry the changed words. Before that the
sender flags the word that ends an update and, in turn, some of the other words, so that a
receiver that joins late comes to hold the whole memory. With nothing to send an update is empty.
-/
namespace WordLink

namespace Sender

structure Settings where
  /-- Words sent again in each update, changed or not, taking turns through the memory. -/
  refreshCount : Nat := 5
  /-- The greatest distance between two changed words that share a block. -/
  mergeGap : Word := 6
  /-- A word sent in every update. -/
  endAddress : Option Address := some endOfUpdateAddress
  deriving DecidableEq, Repr

def Settings.minimal : Settings := { refreshCount := 0, endAddress := none }

end Sender

structure Sender where
  settings : Sender.Settings := {}
  /-- The position in the memory whose turn it is to be sent again. -/
  cursor : Nat := 0
  deriving DecidableEq, Repr

namespace Sender

def start (s : Sender) (size : Nat) : Nat := if s.cursor < size then s.cursor else 0

def turns (s : Sender) (size : Nat) : Nat := min s.settings.refreshCount size

def positions (s : Sender) (size : Nat) : List Nat :=
  (List.range (s.turns size)).map fun i => (s.start size + i) % size

/-- Moves on past the positions; in an empty memory there is no turn to take. -/
def takeTurns (s : Sender) (size : Nat) : Sender :=
  if size = 0 then s else { s with cursor := (s.start size + s.turns size) % size }

def markEnd (s : Sender) (m : Memory) : Memory :=
  match s.settings.endAddress with
  | some a => m.mark a
  | none => m

/-- The memory with everything flagged that this update is to carry. -/
def prepare (s : Sender) (m : Memory) : Memory :=
  let marked := s.markEnd m
  (s.positions marked.size).foldl Memory.markAt marked

def stream (s : Sender) (m : Memory) : List UInt8 :=
  match m.dirtyBlocks s.settings.mergeGap with
  | [] => []
  | blocks => syncSequence ++ blocks.flatMap Block.encode

structure Update where
  bytes : List UInt8
  sender : Sender
  memory : Memory

def update (s : Sender) (m : Memory) : Update :=
  let prepared := s.prepare m
  { bytes := s.stream prepared
    sender := s.takeTurns prepared.size
    memory := prepared.settle }

end Sender

end WordLink
