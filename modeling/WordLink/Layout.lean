import WordLink.Memory

/-!
# Laying out an update

The changed words of a memory are covered by spans, runs of words at even distances that each
travel as one block. A changed word joins the span before it if it is near enough, leaves the
block short enough and brings no sync word into the middle of it; the words in between are then
sent along.
-/
namespace WordLink

/-- The most words a block carries: the high byte of its count stays below the sync byte. -/
def maxBlockWords : Nat := syncByte.toNat * 256 / 2 - 1

/-- Words at every second address from one on. -/
structure Span where
  address : Address
  count : Nat
  deriving DecidableEq, Repr

namespace Span

def single (a : Address) : Span := ⟨a, 1⟩

def wordAddress (s : Span) (i : Nat) : Address := s.address + UInt16.ofNat (2 * i)

def addresses (s : Span) : List Address := (List.range s.count).map s.wordAddress

def last (s : Span) : Address := s.wordAddress (s.count - 1)

def gapTo (s : Span) (a : Address) : Nat := a.toNat - s.last.toNat

def upTo (s : Span) (a : Address) : Span := { s with count := s.count + s.gapTo a / 2 }

/-- The words by which stretching the span up to an address would lengthen it. -/
def fill (s : Span) (m : Memory) (a : Address) : List Word :=
  (List.range (s.gapTo a / 2)).map fun i => m.word (s.wordAddress (s.count + i))

def joins (s : Span) (m : Memory) (mergeGap : Word) (a : Address) : Bool :=
  s.gapTo a % 2 == 0 && s.gapTo a ≤ mergeGap.toNat &&
    s.count + s.gapTo a / 2 ≤ maxBlockWords && !(s.fill m a).contains syncWord

def block (s : Span) (m : Memory) : Block := ⟨s.address, s.addresses.map m.word⟩

/-- The finished spans and the one under way, after one more changed word. -/
def place (m : Memory) (mergeGap : Word) (laid : Array Span × Span) (a : Address) :
    Array Span × Span :=
  if laid.2.joins m mergeGap a then (laid.1, laid.2.upTo a) else (laid.1.push laid.2, single a)

end Span

namespace Memory

/-- Spans that cover the given addresses, which are in order. -/
def spans (m : Memory) (mergeGap : Word) : List Address → List Span
  | [] => []
  | a :: rest =>
    let (done, last) := rest.foldl (Span.place m mergeGap) (#[], Span.single a)
    (done.push last).toList

def dirtyBlocks (m : Memory) (mergeGap : Word) : List Block :=
  (m.spans mergeGap m.dirtyAddresses).map fun s => s.block m

end Memory

end WordLink
