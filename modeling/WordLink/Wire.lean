import WordLink.Word

/-!
# The wire format

A stream is a sync run of four sync bytes, then blocks. A block is a header of four bytes, the
address of its first word and the number of its data bytes, followed by the words. An address
field that reads as two sync bytes is not an address: it is the inside of a sync run.
-/
namespace WordLink

def syncByte : UInt8 := 0x55

def syncRunLength : Nat := 4

def syncSequence : List UInt8 := List.replicate syncRunLength syncByte

def syncWord : Word := 0x5555

/-- The address whose two bytes are sync bytes; no block may start there. -/
def markerAddress : Address := 0x5555

def wordStride : Address := 2

/-- Where a sender writes last in each update unless told otherwise. -/
def endOfUpdateAddress : Address := 0xFFFE

structure Header where
  address : Address
  byteCount : Word
  deriving DecidableEq, Repr

namespace Header

def size : Nat := 4

/-- The header of a block of `count` words; the count field keeps its low 16 bits. -/
def forWords (address : Address) (count : Nat) : Header :=
  ⟨address, UInt16.ofNat (2 * count)⟩

def wordCount (h : Header) : Nat := h.byteCount.toNat / 2

def isMarker (h : Header) : Bool := h.address == markerAddress

def encode (h : Header) : List UInt8 := Word.bytes h.address ++ Word.bytes h.byteCount

/-- Reads the first four bytes; further bytes are left alone. -/
def decode? : List UInt8 → Option Header
  | a :: b :: c :: d :: _ => some ⟨Word.ofBytes a b, Word.ofBytes c d⟩
  | _ => none

theorem decode?_encode_append (h : Header) (rest : List UInt8) :
    decode? (h.encode ++ rest) = some h := by
  simp [encode, Word.bytes, decode?]

end Header

/-- Words at consecutive addresses that travel under one header. -/
structure Block where
  address : Address
  words : List Word
  deriving DecidableEq, Repr

namespace Block

def header (b : Block) : Header := Header.forWords b.address b.words.length

def encode (b : Block) : List UInt8 := b.header.encode ++ b.words.flatMap Word.bytes

end Block

end WordLink
