import WordLink.Word

/-!
# Events

What a receiver reports: a word that has arrived at its address, or a boundary between frames.
-/
namespace WordLink

inductive Event where
  | word (address : Address) (data : Word)
  | boundary
  deriving DecidableEq, Repr

namespace Event

def isBoundary : Event → Bool
  | boundary => true
  | word .. => false

def address? : Event → Option Address
  | word address _ => some address
  | boundary => none

@[simp] theorem address?_word (a : Address) (data : Word) : (word a data).address? = some a := rfl

end Event

end WordLink
