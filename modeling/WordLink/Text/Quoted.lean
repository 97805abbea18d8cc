import WordLink.Text.Hex

/-!
# Quoted bytes

Bytes between quotation marks after a `b`: printable characters stand for themselves, the
common control characters have short escapes, all other bytes are written in hexadecimal.
-/
namespace WordLink.Quoted

def byte (b : UInt8) : List Char :=
  if b = 0x00 then ['\\', '0']
  else if b = 0x09 then ['\\', 't']
  else if b = 0x0A then ['\\', 'n']
  else if b = 0x0D then ['\\', 'r']
  else if b = 0x22 then ['\\', '\"']
  else if b = 0x5C then ['\\', '\\']
  else if 0x20 ≤ b ∧ b < 0x7F then [Char.ofNat b.toNat]
  else '\\' :: 'x' :: Hex.byte b

def ofBytes (bytes : List UInt8) : String :=
  String.ofList ('b' :: '\"' :: (bytes.flatMap byte ++ ['\"']))

end WordLink.Quoted
