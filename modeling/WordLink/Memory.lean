import WordLink.AddressMap
import WordLink.Event
import WordLink.Field
import WordLink.Wire

/-!
# The memory image

A memory holds a word at some of the addresses, each with a flag that says whether it has changed
since the flags were last cleared. An address without a word reads as 0.
-/
namespace WordLink

structure Cell where
  data : Word
  dirty : Bool
  deriving DecidableEq, Repr

namespace Cell

/-- A cell after a word has been stored; it counts as changed if it is new or was different. -/
def stored (data : Word) : Option Cell → Cell
  | some cell => if cell.data = data then cell else ⟨data, true⟩
  | none => ⟨data, true⟩

/-- A cell flagged as changed; an absent one comes into being as 0. -/
def marked : Option Cell → Cell
  | some cell => { cell with dirty := true }
  | none => ⟨0, true⟩

end Cell

structure Memory where
  cells : AddressMap Cell := AddressMap.empty
  deriving DecidableEq

namespace Memory

def empty : Memory := {}

instance : Inhabited Memory := ⟨empty⟩

def toList (m : Memory) : List (Address × Cell) := m.cells.toList

def addresses (m : Memory) : List Address := m.toList.map Prod.fst

def size (m : Memory) : Nat := m.cells.size

def isEmpty (m : Memory) : Bool := m.size == 0

def get? (m : Memory) (a : Address) : Option Cell := m.cells.get? a

def word (m : Memory) (a : Address) : Word := (m.get? a).elim 0 Cell.data

def Changed (m : Memory) (a : Address) : Prop := ∃ data, m.get? a = some ⟨data, true⟩

def dirtyAddresses (m : Memory) : List Address := (m.toList.filter (·.2.dirty)).map Prod.fst

def dirtyCount (m : Memory) : Nat := m.toList.countP (·.2.dirty)

def store (m : Memory) (a : Address) (data : Word) : Memory :=
  ⟨m.cells.alter a (Cell.stored data)⟩

def mark (m : Memory) (a : Address) : Memory := ⟨m.cells.alter a Cell.marked⟩

/-- Flags the word at a position in the order of addresses. -/
def markAt (m : Memory) (i : Nat) : Memory :=
  ⟨m.cells.modifyAt i fun cell => { cell with dirty := true }⟩

def settle (m : Memory) : Memory := ⟨m.cells.map fun cell => { cell with dirty := false }⟩

/-- Whether two memories hold the same words, whatever has changed. -/
def sameWords (m n : Memory) : Bool := m.settle = n.settle

def integer (m : Memory) (f : IntegerField) : Word := f.extract (m.word f.address)

/-- Writes an integer into its bits and leaves the others; refuses a value that does not fit. -/
def setInteger (m : Memory) (f : IntegerField) (value : Word) : Except FieldError Memory :=
  match f.check with
  | .error cause => .error cause
  | .ok () =>
    if value > f.greatest then
      .error (.valueTooLarge value f.greatest f.address)
    else
      .ok (m.store f.address (f.insert (m.word f.address) value))

/-- The text in a field, up to its first zero byte. -/
def text (m : Memory) (f : TextField) : List UInt8 :=
  TextField.terminated ((f.addresses.flatMap fun a => (m.word a).bytes).take f.length.toNat)

/-- Writes bytes from an address on; half a word at the end leaves the other half alone. -/
def storeBytes (m : Memory) (a : Address) : List UInt8 → Memory
  | [] => m
  | [low] => m.store a ((m.word a).withLow low)
  | low :: high :: rest => (m.store a (Word.ofBytes low high)).storeBytes (a + wordStride) rest

/-- Writes a text, cut to the length of the field or filled up with spaces. -/
def setText (m : Memory) (f : TextField) (value : List UInt8) : Memory :=
  let cut := value.take f.length.toNat
  m.storeBytes f.address (cut ++ List.replicate (f.length.toNat - cut.length) 0x20)

/-- Takes over what a receiver reports; boundaries leave the memory alone. -/
def apply (m : Memory) : Event → Memory
  | .word a data => m.store a data
  | .boundary => m

end Memory

end WordLink
