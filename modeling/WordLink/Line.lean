import WordLink.Panel.Run
import WordLink.Receiver

/-!
# A receiver wired to a panel

The plainest use of a receiver: whatever it reports goes straight to the listeners of a panel.
-/
namespace WordLink

structure Line where
  receiver : Receiver := {}
  panel : Panel := {}

namespace Line

def ofSettings (settings : Receiver.Settings) : Line := { receiver := .ofSettings settings }

def feed (l : Line) (bytes : List UInt8) : Line :=
  let (receiver, events) := l.receiver.push bytes
  { receiver, panel := events.foldl Panel.dispatch l.panel }

/-- Lets the receiver start afresh; the panel stays as it is. -/
def reset (l : Line) : Line := { l with receiver := l.receiver.reset }

end Line

end WordLink
