/-!
# Numbers in JSON texts

A number is kept as it is written, digit by digit. What can be asked of it is whether it is a
plain natural number, and whether it stays below the largest double-precision value.

The second question is settled in exact arithmetic. The number is taken as `significand` times a
power of ten, both are rounded to double precision, and their product must not round to infinity.
-/
namespace WordLink.Json

structure Exponent where
  negative : Bool
  digits : List Nat
  deriving DecidableEq, Repr

structure Number where
  negative : Bool
  whole : List Nat
  /-- The digits after the point; without a point there are none. -/
  fraction : List Nat
  exponent : Option Exponent
  deriving DecidableEq, Repr

namespace Number

def valueOf (digits : List Nat) : Nat := digits.foldl (fun n d => 10 * n + d) 0

def natural? (n : Number) : Option Nat :=
  if n.negative || !n.fraction.isEmpty || n.exponent.isSome then none else some (valueOf n.whole)

/-- What a significand stays below: 2 ^ 64. -/
def significandBound : Nat := 0x10000000000000000

/-- Takes in digits as long as the value stays in bounds; the rest of them is left over. -/
def accumulate (value : Nat) : List Nat → Nat × List Nat
  | [] => (value, [])
  | d :: rest =>
    if 10 * value + d < significandBound then accumulate (10 * value + d) rest
    else (value, d :: rest)

/-- The leading digits, as many as stay in bounds, and the power of ten they are taken by.
Once a digit after the point does not fit, the digits behind it are of no account. -/
def significand (n : Number) : Nat × Int :=
  let (whole, long) := accumulate 0 n.whole
  let (value, unread) := accumulate whole n.fraction
  (value, (long.length : Int) - (n.fraction.length - unread.length : Int))

/-- A power of ten above which no significand but 0 is left in range. -/
def greatestPower : Nat := 308

/-- The exponent's digits stop counting at the range of a signed 32-bit integer. -/
def exponentLimit : Nat := 2147483647

def saturate (e : Int) : Int := max (-2147483648) (min 2147483647 e)

/-- Rounds to 53 significant bits, a half to the even neighbour. -/
def roundDouble (n : Nat) : Nat :=
  let excess := n.log2 - 52
  let kept := n >>> excess
  let half := 1 <<< excess
  let rest := 2 * (n - kept <<< excess)
  if half < rest ∨ (half = rest ∧ 0 < excess ∧ kept % 2 = 1) then (kept + 1) <<< excess
  else kept <<< excess

/-- The least product that rounds to infinity: (2 ^ 54 - 1) * 2 ^ 970. -/
def overflowBound : Nat := 0x3FFFFFFFFFFFFF <<< 970

def fits (significand : Nat) (power : Int) : Bool :=
  match power with
  | .negSucc _ => true
  | .ofNat p =>
    significand == 0 ||
      (p ≤ greatestPower && roundDouble significand * roundDouble (Nat.pow 10 p) < overflowBound)

def inRange (n : Number) : Bool :=
  let (significand, power) := n.significand
  match n.exponent with
  | none => fits significand power
  | some e =>
    let size := valueOf e.digits
    if size > exponentLimit then significand == 0 || e.negative
    else if e.negative then fits significand (saturate (power - size))
    else fits significand (saturate (power + size))

end Number

end WordLink.Json
