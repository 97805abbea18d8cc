/-!
# Sources of a stream

A source stands for the other end of a connection: what it hands over piece by piece until it has
no more or fails. Each read asks for at most so many bytes; what a piece holds beyond that is left
for the reads after it. An empty piece is the end, as is the end of the source.
-/
namespace WordLink

inductive Offer where
  | bytes (data : List UInt8)
  | failure (message : String)
  /-- Nothing yet; the source has to be asked once more. -/
  | notReady

inductive Reading where
  | bytes (data : List UInt8)
  | ended
  | failed (message : String)
  deriving DecidableEq, Repr

namespace Reading

/-- Cuts the data up behind the pieces done so far, which come in reverse. -/
def cut (size : Nat) (done : List (List UInt8)) (data : List UInt8) : List (List UInt8) :=
  if size = 0 ∨ (data.drop size).isEmpty then
    (data :: done).reverse
  else
    cut size (data.take size :: done) (data.drop size)
termination_by data.length
decreasing_by
  rename_i h
  simp only [not_or, List.isEmpty_iff, List.drop_eq_nil_iff, Nat.not_le] at h
  simp only [List.length_drop]
  omega

/-- The pieces of at most `size` bytes in which some bytes are read. -/
def pieces (size : Nat) (data : List UInt8) : List (List UInt8) := cut size [] data

/-- What the reads of at most `size` bytes get from a source, up to the first that is no data. -/
def ofOffers (size : Nat) : List Offer → List Reading
  | [] => [ended]
  | .notReady :: rest => ofOffers size rest
  | .failure message :: _ => [failed message]
  | .bytes [] :: _ => [ended]
  | .bytes data :: rest => (pieces size data).map bytes ++ ofOffers size rest

end Reading

end WordLink
