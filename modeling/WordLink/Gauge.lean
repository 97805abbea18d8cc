import WordLink.Event
import WordLink.Field

/-!
# Gauges

A gauge follows one field live. An integer is good as soon as its word has arrived. The words of a
text may arrive in any order, so a text gauge only collects them and shows a new text at the next
boundary.
-/
namespace WordLink

structure IntegerGauge where
  field : IntegerField
  raw : Option Word := none
  deriving DecidableEq, Repr

namespace IntegerGauge

def value (g : IntegerGauge) : Option Word := g.raw.map g.field.extract

def hasValue (g : IntegerGauge) : Bool := g.raw.isSome

def see (g : IntegerGauge) (data : Word) : IntegerGauge := { g with raw := some data }

end IntegerGauge

structure TextGauge where
  field : TextField
  /-- One byte for each place of the text. -/
  slots : Array UInt8
  /-- A word has arrived since the last boundary. -/
  pending : Bool := false
  shown : Option (List UInt8) := none
  deriving DecidableEq, Repr

namespace TextGauge

def ofField (field : TextField) : TextGauge :=
  { field, slots := Array.replicate field.length.toNat 0 }

def hasValue (g : TextGauge) : Bool := g.shown.isSome

/-- Collects a word; one that is not part of the text changes nothing. -/
def see (g : TextGauge) (address : Address) (data : Word) : TextGauge :=
  let offset := (address - g.field.address).toNat
  if offset < g.field.length.toNat then
    { g with
      slots := (g.slots.setIfInBounds offset data.low).setIfInBounds (offset + 1) data.high
      pending := true }
  else g

def collected (g : TextGauge) : List UInt8 := TextField.terminated g.slots.toList

def publish (g : TextGauge) : TextGauge :=
  if g.pending then { g with pending := false, shown := some g.collected } else g

end TextGauge

inductive Gauge where
  | integer (gauge : IntegerGauge)
  | text (gauge : TextGauge)
  deriving DecidableEq, Repr

namespace Gauge

def addresses : Gauge → List Address
  | integer g => [g.field.address]
  | text g => g.field.addresses

def hasValue : Gauge → Bool
  | integer g => g.hasValue
  | text g => g.hasValue

def see (address : Address) (data : Word) : Gauge → Gauge
  | integer g => integer (g.see data)
  | text g => text (g.see address data)

def publish : Gauge → Gauge
  | integer g => integer g
  | text g => text g.publish

def hear (event : Event) (g : Gauge) : Gauge :=
  match event with
  | .word address data => g.see address data
  | .boundary => g.publish

end Gauge

namespace Field

def gauge : Field → Except FieldError Gauge
  | integer f =>
    match f.check with
    | .ok () => .ok (.integer { field := f })
    | .error cause => .error cause
  | text f =>
    match f.check with
    | .ok () => .ok (.text (.ofField f))
    | .error cause => .error cause

end Field

end WordLink
