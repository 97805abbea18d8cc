import WordLink.Json.Number

/-!
# Tokens of JSON texts

The characters of a text pass one by one through a scanner, which emits a token when one is
complete. Strings come out as UTF-16 units, since an escape may write one half of a surrogate
pair without the other. A number ends at the character that cannot continue it.
-/
namespace WordLink.Json

/-- The UTF-16 units of a string. -/
abbrev Units := List UInt16

inductive Token where
  | openArray
  | closeArray
  | openObject
  | closeObject
  | comma
  | colon
  | null
  | bool (value : Bool)
  | number (value : Number)
  | string (units : Units)
  deriving DecidableEq, Repr

def unitsOf (c : Char) : Units :=
  if c.toNat < 0x10000 then [UInt16.ofNat c.toNat]
  else
    let offset := c.toNat - 0x10000
    [UInt16.ofNat (0xD800 + offset / 0x400), UInt16.ofNat (0xDC00 + offset % 0x400)]

inductive Stage where
  /-- After a minus sign. -/
  | sign
  /-- After a leading zero, which stands alone. -/
  | zero
  | whole
  | point
  | fraction
  /-- After the letter of the exponent. -/
  | letter
  | exponentSign
  | exponent
  deriving DecidableEq, Repr

namespace Stage

def complete : Stage → Bool
  | zero | whole | fraction | exponent => true
  | sign | point | letter | exponentSign => false

end Stage

/-- What a scanner is in the middle of. Digits and units are kept in reverse. -/
inductive Scanner where
  | between
  | word (rest : List Char) (token : Token)
  | number (stage : Stage) (value : Number)
  | string (units : Units)
  | escape (units : Units)
  | unicode (units : Units) (missing : Nat) (value : Nat)
  deriving DecidableEq, Repr

namespace Scanner

def isBlank (c : Char) : Bool := c = ' ' || c = '\t' || c = '\n' || c = '\r'

def digit? (c : Char) : Option Nat :=
  if '0' ≤ c ∧ c ≤ '9' then some (c.toNat - 48) else none

def hexDigit? (c : Char) : Option Nat :=
  if '0' ≤ c ∧ c ≤ '9' then some (c.toNat - 48)
  else if 'a' ≤ c ∧ c ≤ 'f' then some (c.toNat - 87)
  else if 'A' ≤ c ∧ c ≤ 'F' then some (c.toNat - 55)
  else none

def escaped? : Char → Option UInt16
  | '\"' => some 0x22
  | '\\' => some 0x5C
  | '/' => some 0x2F
  | 'b' => some 0x08
  | 'f' => some 0x0C
  | 'n' => some 0x0A
  | 'r' => some 0x0D
  | 't' => some 0x09
  | _ => none

def addWhole (n : Number) (d : Nat) : Number := { n with whole := d :: n.whole }

def addFraction (n : Number) (d : Nat) : Number := { n with fraction := d :: n.fraction }

def addExponent (n : Number) (d : Nat) : Number :=
  { n with exponent := n.exponent.map fun e => { e with digits := d :: e.digits } }

def setExponent (n : Number) (negative : Bool) : Number :=
  { n with exponent := some ⟨negative, []⟩ }

def written (n : Number) : Number :=
  { n with
    whole := n.whole.reverse
    fraction := n.fraction.reverse
    exponent := n.exponent.map fun e => { e with digits := e.digits.reverse } }

def isExponentLetter (c : Char) : Bool := c = 'e' || c = 'E'

def extend (stage : Stage) (n : Number) (c : Char) : Option (Stage × Number) :=
  match stage, digit? c with
  | .sign, some d => some (if d = 0 then .zero else .whole, addWhole n d)
  | .whole, some d => some (.whole, addWhole n d)
  | .point, some d => some (.fraction, addFraction n d)
  | .fraction, some d => some (.fraction, addFraction n d)
  | .letter, some d => some (.exponent, addExponent n d)
  | .exponentSign, some d => some (.exponent, addExponent n d)
  | .exponent, some d => some (.exponent, addExponent n d)
  | .zero, none =>
    if c = '.' then some (.point, n)
    else if isExponentLetter c then some (.letter, setExponent n false)
    else none
  | .whole, none =>
    if c = '.' then some (.point, n)
    else if isExponentLetter c then some (.letter, setExponent n false)
    else none
  | .fraction, none => if isExponentLetter c then some (.letter, setExponent n false) else none
  | .letter, none =>
    if c = '+' then some (.exponentSign, n)
    else if c = '-' then some (.exponentSign, setExponent n true)
    else none
  | _, _ => none

def start (c : Char) : Option (Scanner × List Token) :=
  if isBlank c then some (between, [])
  else match c with
    | '[' => some (between, [.openArray])
    | ']' => some (between, [.closeArray])
    | '\x7b' => some (between, [.openObject])
    | '\x7d' => some (between, [.closeObject])
    | ',' => some (between, [.comma])
    | ':' => some (between, [.colon])
    | '\"' => some (string [], [])
    | 'n' => some (word ['u', 'l', 'l'] .null, [])
    | 't' => some (word ['r', 'u', 'e'] (.bool true), [])
    | 'f' => some (word ['a', 'l', 's', 'e'] (.bool false), [])
    | '-' => some (number .sign ⟨true, [], [], none⟩, [])
    | c => (extend .sign ⟨false, [], [], none⟩ c).map fun (stage, n) => (number stage n, [])

def step (s : Scanner) (c : Char) : Option (Scanner × List Token) :=
  match s with
  | between => start c
  | word [] _ => none
  | word [last] token => if c = last then some (between, [token]) else none
  | word (first :: rest) token => if c = first then some (word rest token, []) else none
  | number stage n =>
    match extend stage n c with
    | some (stage, n) => some (number stage n, [])
    | none =>
      if stage.complete then
        (start c).map fun (s, tokens) => (s, .number (written n) :: tokens)
      else none
  | string units =>
    if c = '\"' then some (between, [.string units.reverse])
    else if c = '\\' then some (escape units, [])
    else if c.toNat < 0x20 then none
    else some (string ((unitsOf c).reverse ++ units), [])
  | escape units =>
    if c = 'u' then some (unicode units 4 0, [])
    else (escaped? c).map fun unit => (string (unit :: units), [])
  | unicode units missing value =>
    (hexDigit? c).map fun d =>
      if missing ≤ 1 then (string (UInt16.ofNat (16 * value + d) :: units), [])
      else (unicode units (missing - 1) (16 * value + d), [])

def finish : Scanner → Option (List Token)
  | between => some []
  | number stage n => if stage.complete then some [.number (written n)] else none
  | _ => none

def run (s : Scanner) (done : Array Token) : List Char → Option (List Token)
  | [] => s.finish.map fun last => done.toList ++ last
  | c :: rest =>
    match s.step c with
    | some (s, tokens) => run s (done ++ tokens) rest
    | none => none

end Scanner

def tokens? (text : List Char) : Option (List Token) := Scanner.between.run #[] text

end WordLink.Json
