import WordLink.Error

/-!
# Fields

A field is a place in the memory where a value lives: some bits of one word, or a text spread
over the words from an address on.
-/
namespace WordLink

def wholeWord : Word := 0xFFFF

/-- An integer in the masked bits of one word, shifted down. -/
structure IntegerField where
  address : Address
  mask : Word := wholeWord
  shift : UInt8 := 0
  deriving DecidableEq, Repr

namespace IntegerField

def check (f : IntegerField) : Except FieldError Unit :=
  if f.shift < 16 then .ok () else .error (.shiftOutOfRange f.shift f.address)

/-- The value of the field when its word is `raw`; 0 if the shift leaves the word. -/
def extract (f : IntegerField) (raw : Word) : Word :=
  if f.shift < 16 then (raw &&& f.mask) >>> f.shift.toUInt16 else 0

def greatest (f : IntegerField) : Word := f.extract wholeWord

def insert (f : IntegerField) (raw value : Word) : Word :=
  (raw &&& ~~~f.mask) ||| ((value <<< f.shift.toUInt16) &&& f.mask)

end IntegerField

/-- A text of at most `length` bytes, two in a word, ended early by a zero byte. -/
structure TextField where
  address : Address
  length : Word
  deriving DecidableEq, Repr

namespace TextField

def check (f : TextField) : Except FieldError Unit :=
  if f.length = 0 then .error (.emptyText f.address)
  else if f.address.toNat + f.length.toNat > 0x10000 then .error (.textPastEnd f.address f.length)
  else .ok ()

/-- The number of words that hold the text; the last one may be used by half. -/
def wordCount (f : TextField) : Nat := (f.length.toNat + 1) / 2

/-- The addresses of the words in order; they wrap at the end of the address space. -/
def addresses (f : TextField) : List Address :=
  (List.range f.wordCount).map fun i => f.address + UInt16.ofNat (2 * i)

def terminated (bytes : List UInt8) : List UInt8 := bytes.takeWhile (· != 0)

end TextField

inductive Field where
  | integer (field : IntegerField)
  | text (field : TextField)
  deriving DecidableEq, Repr

namespace Field

def address : Field → Address
  | integer f => f.address
  | text f => f.address

end Field

end WordLink
