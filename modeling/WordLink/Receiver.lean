import WordLink.Event
import WordLink.Wire

/-!
# Receiving a stream

A receiver takes the stream byte by byte. Each byte goes first through the parser of blocks
(`consume`) and then past a monitor that counts sync bytes in a row (`watch`); the fourth one
abandons whatever was being parsed and starts over at a block address. Nothing in a stream is
an error: damaged input is dropped up to the next sync run.

`push` takes a whole list of bytes; `push_append` says that it may be cut anywhere.
-/
namespace WordLink

namespace Receiver

inductive Phase where
  | awaitSync
  | addressLow
  | addressHigh
  | countLow
  | countHigh
  | dataLow
  | dataHigh
  deriving DecidableEq, Repr

def Phase.label : Phase → String
  | awaitSync => "WaitForSync"
  | addressLow => "AddressLow"
  | addressHigh => "AddressHigh"
  | countLow => "CountLow"
  | countHigh => "CountHigh"
  | dataLow => "DataLow"
  | dataHigh => "DataHigh"

structure Settings where
  /-- Whether an address field that reads as the marker is reported as a boundary. -/
  markerBoundary : Bool := false
  /-- A word at this address makes the end of its block a boundary. -/
  endAddress : Option Address := none
  deriving DecidableEq, Repr

end Receiver

structure Receiver where
  settings : Receiver.Settings := {}
  phase : Receiver.Phase := .awaitSync
  /-- Where the next word goes. -/
  address : Address := 0
  /-- Data bytes left in the block. -/
  remaining : Word := 0
  lowByte : UInt8 := 0
  /-- Sync bytes in a row, counted from the last sync run. -/
  syncRun : Nat := 0
  /-- The marker has already reported the boundary of the sync bytes under way. -/
  reported : Bool := false
  /-- The end word was seen in the block under way. -/
  endPending : Bool := false
  deriving DecidableEq, Repr

namespace Receiver

def ofSettings (settings : Settings) : Receiver := { settings }

def reset (r : Receiver) : Receiver := ofSettings r.settings

/-- The second byte of an address: a block starts there, unless it is the marker. -/
def openBlock (r : Receiver) (byte : UInt8) : Receiver × List Event :=
  let address := Word.withHigh r.address byte
  if address ≠ markerAddress then
    ({ r with address, phase := .countLow }, [])
  else if !r.settings.markerBoundary then
    ({ r with address, phase := .awaitSync }, [])
  else if r.reported then
    ({ r with address, phase := .addressLow }, [])
  else
    ({ r with address, phase := .addressLow, reported := true }, [.boundary])

/-- The second byte of a word: the word is complete, and with it perhaps the block. -/
def finishWord (r : Receiver) (byte : UInt8) : Receiver × List Event :=
  let remaining := r.remaining - 1
  let pending := r.endPending || r.settings.endAddress == some r.address
  let closed := remaining == 0
  let word := Event.word r.address (Word.ofBytes r.lowByte byte)
  ({ r with
      address := r.address + wordStride
      remaining
      phase := if closed then .addressLow else .dataLow
      endPending := pending && !closed },
    if closed && pending then [word, .boundary] else [word])

def consume (r : Receiver) (byte : UInt8) : Receiver × List Event :=
  match r.phase with
  | .awaitSync => (r, [])
  | .addressLow => ({ r with address := Word.withLow r.address byte, phase := .addressHigh }, [])
  | .addressHigh => r.openBlock byte
  | .countLow => ({ r with remaining := r.remaining.withLow byte, phase := .countHigh }, [])
  | .countHigh => ({ r with remaining := r.remaining.withHigh byte, phase := .dataLow }, [])
  | .dataLow => ({ r with lowByte := byte, remaining := r.remaining - 1, phase := .dataHigh }, [])
  | .dataHigh => r.finishWord byte

/-- The monitor of sync runs. A run reports its boundary unless the marker inside it has. -/
def watch (r : Receiver) (byte : UInt8) : Receiver × List Event :=
  if byte ≠ syncByte then
    ({ r with syncRun := 0, reported := false }, [])
  else if r.syncRun + 1 ≠ syncRunLength then
    ({ r with syncRun := r.syncRun + 1 }, [])
  else
    ({ r with phase := .addressLow, syncRun := 0, endPending := false, reported := false },
      if r.reported then [] else [.boundary])

def step (r : Receiver) (byte : UInt8) : Receiver × List Event :=
  let (parsed, events) := r.consume byte
  let (next, boundaries) := parsed.watch byte
  (next, events ++ boundaries)

/-- The receiver after all the bytes, with everything they reported. -/
def push (r : Receiver) (bytes : List UInt8) : Receiver × List Event :=
  let (last, events) := bytes.foldl
    (fun (state, events) byte =>
      let (next, new) := state.step byte
      (next, events ++ new))
    (r, (#[] : Array Event))
  (last, events.toList)

private theorem foldl_step (bytes : List UInt8) : ∀ (r : Receiver) (seen : Array Event),
    bytes.foldl (fun (p : Receiver × Array Event) byte =>
        ((p.1.step byte).1, p.2 ++ (p.1.step byte).2)) (r, seen) =
      let p := bytes.foldl (fun (p : Receiver × Array Event) byte =>
        ((p.1.step byte).1, p.2 ++ (p.1.step byte).2)) (r, #[])
      (p.1, seen ++ p.2) := by
  induction bytes with
  | nil => simp
  | cons b bytes ih =>
    intro r seen
    simp only [List.foldl_cons]
    rw [ih, ih (r.step b).1 (#[] ++ (r.step b).2)]
    refine Prod.ext rfl (Array.ext' ?_)
    simp

@[simp] theorem push_nil (r : Receiver) : r.push [] = (r, []) := rfl

theorem push_cons (r : Receiver) (b : UInt8) (bytes : List UInt8) :
    r.push (b :: bytes) =
      (((r.step b).1.push bytes).1, (r.step b).2 ++ ((r.step b).1.push bytes).2) := by
  simp only [push, List.foldl_cons]
  rw [foldl_step]
  simp

theorem push_append (r : Receiver) (xs ys : List UInt8) :
    r.push (xs ++ ys) =
      (((r.push xs).1.push ys).1, (r.push xs).2 ++ ((r.push xs).1.push ys).2) := by
  induction xs generalizing r with
  | nil => simp
  | cons x xs ih => simp [push_cons, ih]

end Receiver

end WordLink
