import WordLink.Text.Hex

/-!
# Errors

What can go wrong, each with its cause, and the message for it.
-/
namespace WordLink

inductive FieldError where
  | shiftOutOfRange (shift : UInt8) (address : Address)
  | valueTooLarge (value greatest : Word) (address : Address)
  | emptyText (address : Address)
  | textPastEnd (address : Address) (length : Word)
  deriving DecidableEq, Repr

def FieldError.reason : FieldError → String
  | shiftOutOfRange shift address =>
    "Shift " ++ toString shift.toNat ++ " out of range for integer at " ++ Hex.ofAddress address
  | valueTooLarge value greatest address =>
    "Value " ++ toString value.toNat ++ " exceeds maximum " ++ toString greatest.toNat ++
      " for integer at " ++ Hex.ofAddress address
  | emptyText address => "String at " ++ Hex.ofAddress address ++ " has zero length"
  | textPastEnd address length =>
    "String at " ++ Hex.ofAddress address ++ " with length " ++ toString length.toNat ++
      " runs past the address space"

inductive Error where
  /-- A JSON text does not describe what was asked for. -/
  | json
  | invalidField (cause : FieldError)
  /-- The source of a stream failed, with its own message. -/
  | read (message : String)
  deriving DecidableEq, Repr

def Error.message : Error → String
  | json => "JSON error"
  | invalidField cause => "Invalid output: " ++ cause.reason
  | read message => "I/O error: " ++ message

end WordLink
