import WordLink.Word

/-!
# Hexadecimal text

Bytes as pairs of lowercase digits, and addresses as four digits after 0x.
-/
namespace WordLink.Hex

def digit (n : Nat) : Char := if n < 10 then Char.ofNat (48 + n) else Char.ofNat (87 + n)

def digitValue? (c : Char) : Option Nat :=
  if '0' ≤ c ∧ c ≤ '9' then some (c.toNat - 48)
  else if 'a' ≤ c ∧ c ≤ 'f' then some (c.toNat - 87)
  else if 'A' ≤ c ∧ c ≤ 'F' then some (c.toNat - 55)
  else none

def byte (b : UInt8) : List Char := [digit (b.toNat / 16), digit (b.toNat % 16)]

def ofBytes (bytes : List UInt8) : String := String.ofList (bytes.flatMap byte)

def ofAddress (a : Address) : String :=
  String.ofList ('0' :: 'x' :: (byte (Word.high a) ++ byte (Word.low a)))

/-- The bytes read so far come in reverse. -/
def readPairs (done : List UInt8) : List Char → Option (List UInt8)
  | [] => some done.reverse
  | [_] => none
  | c :: d :: rest =>
    match digitValue? c, digitValue? d with
    | some high, some low => readPairs (UInt8.ofNat (16 * high + low) :: done) rest
    | _, _ => none

def toBytes? (s : String) : Option (List UInt8) := readPairs [] s.toList

end WordLink.Hex
