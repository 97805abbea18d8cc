import WordLink.Line
import WordLink.Memory
import WordLink.Source

/-!
# Sessions

A session is one connection: a receiver, a panel, counters and, if asked for, an image of the
memory at the other end. At each boundary a copy of the image is published as a frame; the words
flagged in it are those that changed since the boundary before.
-/
namespace WordLink

structure Counters where
  bytes : Nat := 0
  words : Nat := 0
  boundaries : Nat := 0
  deriving DecidableEq, Repr

/-- The memory as known so far, and the latest frame with the number of frames published. -/
structure Image where
  memory : Memory := {}
  frame : Memory := {}
  published : Nat := 0
  deriving DecidableEq

namespace Image

def apply (i : Image) : Event → Image
  | .word address data => { i with memory := i.memory.store address data }
  | .boundary =>
    { memory := i.memory.settle, frame := i.memory, published := i.published + 1 }

end Image

def Session.defaultReadSize : Nat := 65536

structure Session where
  receiver : Receiver := {}
  panel : Panel := {}
  image : Option Image := none
  counters : Counters := {}
  /-- The most bytes that one read asks for. -/
  readSize : Nat := Session.defaultReadSize

namespace Counters

def apply (c : Counters) : Event → Counters
  | .word _ _ => { c with words := c.words + 1 }
  | .boundary => { c with boundaries := c.boundaries + 1 }

end Counters

namespace Session

def build (settings : Receiver.Settings) (readSize : Nat) (withImage : Bool) : Session :=
  { receiver := .ofSettings settings
    image := if withImage then some {} else none
    readSize := max readSize 1 }

/-- Passes on what the receiver reports: to the counters, the image and the listeners. -/
def handle (s : Session) (event : Event) : Session :=
  { s with
    counters := s.counters.apply event
    image := s.image.map (Image.apply · event)
    panel := s.panel.dispatch event }

def feed (s : Session) (bytes : List UInt8) : Session :=
  let (receiver, events) := s.receiver.push bytes
  let counters := { s.counters with bytes := s.counters.bytes + bytes.length }
  events.foldl handle { s with receiver, counters }

structure Outcome where
  result : Except Error Unit
  sizes : List Nat

/-- Takes in what the reads get; the sizes so far come in reverse. -/
def take (s : Session) (sizes : List Nat) : List Reading → Session × Outcome
  | [] => (s, ⟨.ok (), sizes.reverse⟩)
  | .ended :: _ => (s, ⟨.ok (), (0 :: sizes).reverse⟩)
  | .failed message :: _ => (s, ⟨.error (.read message), sizes.reverse⟩)
  | .bytes data :: rest => (s.feed data).take (data.length :: sizes) rest

def run (s : Session) (source : List Offer) : Session × Outcome :=
  s.take [] (Reading.ofOffers s.readSize source)

end Session

/-- Somebody who looks at the frames from time to time, with the number of frames known to them. -/
structure Watcher where
  known : Nat
  deriving DecidableEq, Repr

namespace Session

def watch (s : Session) : Option Watcher := s.image.map fun i => ⟨i.published⟩

/-- The latest frame and whether it has been published since the watcher last looked. -/
def look (s : Session) (w : Watcher) : Option (Bool × Memory × Watcher) :=
  s.image.map fun i => (decide (w.known < i.published), i.frame, ⟨i.published⟩)

open Description in
def describe (s : Session) : String :=
  parts "Session"
    [("state", s.receiver.phase.label), ("dispatcher", s.panel.roster.describe),
      ("mirror", flag s.image.isSome),
      ("stats", parts "SessionStatsSnapshot"
        [("bytes", natural s.counters.bytes), ("word_updates", natural s.counters.words),
          ("frame_boundaries", natural s.counters.boundaries)])]

end Session

end WordLink
