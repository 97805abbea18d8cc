/-!
# Text from bytes that may be damaged

Bytes are read as UTF-8. Where they stop being a beginning of a well-formed character, the part
read so far is replaced by one U+FFFD and reading starts afresh at the offending byte.
-/
namespace WordLink.Utf8

/-- A character under way: its bits so far, the bytes it still needs and the range of the next. -/
structure Partial where
  bits : Nat
  missing : Nat
  least : UInt8
  greatest : UInt8
  deriving DecidableEq, Repr

def replacement : Char := Char.ofNat 0xFFFD

def lead (b : UInt8) : Option Partial × List Char :=
  if b < 0x80 then (none, [Char.ofNat b.toNat])
  else if b < 0xC2 then (none, [replacement])
  else if b < 0xE0 then (some ⟨b.toNat - 0xC0, 1, 0x80, 0xBF⟩, [])
  else if b = 0xE0 then (some ⟨0, 2, 0xA0, 0xBF⟩, [])
  else if b = 0xED then (some ⟨0xD, 2, 0x80, 0x9F⟩, [])
  else if b < 0xF0 then (some ⟨b.toNat - 0xE0, 2, 0x80, 0xBF⟩, [])
  else if b = 0xF0 then (some ⟨0, 3, 0x90, 0xBF⟩, [])
  else if b < 0xF4 then (some ⟨b.toNat - 0xF0, 3, 0x80, 0xBF⟩, [])
  else if b = 0xF4 then (some ⟨4, 3, 0x80, 0x8F⟩, [])
  else (none, [replacement])

def next (pending : Option Partial) (b : UInt8) : Option Partial × List Char :=
  match pending with
  | none => lead b
  | some p =>
    if p.least ≤ b ∧ b ≤ p.greatest then
      let bits := 64 * p.bits + (b.toNat - 0x80)
      if p.missing ≤ 1 then (none, [Char.ofNat bits])
      else (some ⟨bits, p.missing - 1, 0x80, 0xBF⟩, [])
    else
      let (pending, chars) := lead b
      (pending, replacement :: chars)

def decodeLossy (bytes : List UInt8) : String :=
  let (pending, chars) := bytes.foldl
    (fun (pending, chars) b =>
      let (pending, new) := next pending b
      (pending, chars ++ new))
    (none, (#[] : Array Char))
  String.ofList (if pending.isSome then chars.push replacement else chars).toList

end WordLink.Utf8
