import WordLink.Json.Token

/-!
# JSON values

Tokens are put together by a machine with a stack of the arrays and objects still open, so that
values may be nested to any depth. Members keep their order and may repeat a name.

`readable` tells the values that can be taken in as a whole: not nested too deeply, all numbers
in range and all strings proper text.
-/
namespace WordLink.Json

inductive Value where
  | null
  | bool (value : Bool)
  | number (value : Number)
  | string (units : Units)
  | array (items : List Value)
  | object (members : List (Units × Value))

/-- An array or object that is still open; what it holds so far comes in reverse. -/
inductive Frame where
  | array (items : List Value)
  | object (members : List (Units × Value)) (name : Units)

inductive Builder where
  | value (stack : List Frame)
  /-- The first item of an array, or its end. -/
  | firstItem (stack : List Frame)
  /-- The first member of an object, or its end. -/
  | firstMember (stack : List Frame)
  | memberName (stack : List Frame) (done : List (Units × Value))
  | colon (stack : List Frame) (done : List (Units × Value)) (name : Units)
  | follow (stack : List Frame) (complete : Value)

namespace Builder

def start (stack : List Frame) : Token → Option Builder
  | .null => some (follow stack .null)
  | .bool b => some (follow stack (.bool b))
  | .number n => some (follow stack (.number n))
  | .string units => some (follow stack (.string units))
  | .openArray => some (firstItem stack)
  | .openObject => some (firstMember stack)
  | .closeArray | .closeObject | .comma | .colon => none

def step : Builder → Token → Option Builder
  | value stack, token => start stack token
  | firstItem stack, .closeArray => some (follow stack (.array []))
  | firstItem stack, token => start (.array [] :: stack) token
  | firstMember stack, .closeObject => some (follow stack (.object []))
  | firstMember stack, .string name => some (colon stack [] name)
  | memberName stack done, .string name => some (colon stack done name)
  | colon stack done name, .colon => some (value (.object done name :: stack))
  | follow (.array done :: stack) v, .comma => some (value (.array (v :: done) :: stack))
  | follow (.array done :: stack) v, .closeArray =>
    some (follow stack (.array (v :: done).reverse))
  | follow (.object done name :: stack) v, .comma =>
    some (memberName stack ((name, v) :: done))
  | follow (.object done name :: stack) v, .closeObject =>
    some (follow stack (.object ((name, v) :: done).reverse))
  | _, _ => none

def finish : Builder → Option Value
  | follow [] v => some v
  | _ => none

def run (b : Builder) : List Token → Option Value
  | [] => b.finish
  | token :: rest =>
    match b.step token with
    | some b => b.run rest
    | none => none

end Builder

/-- The characters of the units, unless half of a surrogate pair stands alone. -/
def charsOf? (done : List Char) : Units → Option (List Char)
  | [] => some done.reverse
  | [u] =>
    if u.toNat < 0xD800 ∨ 0xDFFF < u.toNat then some ((Char.ofNat u.toNat :: done).reverse)
    else none
  | u :: v :: rest =>
    if u.toNat < 0xD800 ∨ 0xDFFF < u.toNat then
      charsOf? (Char.ofNat u.toNat :: done) (v :: rest)
    else if u.toNat < 0xDC00 ∧ 0xDC00 ≤ v.toNat ∧ v.toNat ≤ 0xDFFF then
      charsOf? (Char.ofNat (0x10000 + 0x400 * (u.toNat - 0xD800) + (v.toNat - 0xDC00)) :: done) rest
    else none

def text? (units : Units) : Option String := (charsOf? [] units).map String.ofList

namespace Value

def parse? (text : String) : Option Value := do
  let tokens ← tokens? text.toList
  (Builder.value []).run tokens

/-- How many arrays and objects may lie within one another in a value taken in as a whole. -/
def nestingLimit : Nat := 127

/-- Whether the value has at most so many levels, all numbers in range and all strings text. -/
def readable : Nat → Value → Bool
  | _, null => true
  | _, bool _ => true
  | _, number n => n.inRange
  | _, string units => (text? units).isSome
  | 0, array _ => false
  | 0, object _ => false
  | levels + 1, array items => items.all (readable levels)
  | levels + 1, object members =>
    members.all fun member => (text? member.1).isSome && readable levels member.2

end Value

end WordLink.Json
