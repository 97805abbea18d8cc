import WordLink.Json.Value

/-!
# Records in JSON

A record is written as an object, its fields in any order and among members that do not belong to
it, or as an array of its fields in their own order, where fields may be missing at the end. A
field may go by several names, but only once.
-/
namespace WordLink.Json

/-- The value under any of the names; an inner `none` if there is none, an outer one if there are
several. -/
def member? (names : List String) (members : List (String × Value)) : Option (Option Value) :=
  match members.filter fun member => names.contains member.1 with
  | [] => some none
  | [(_, value)] => some (some value)
  | _ => none

def named? (members : List (Units × Value)) : Option (List (String × Value)) :=
  members.mapM fun member => (text? member.1).map fun name => (name, member.2)

/-- The values given for the fields of a record, in the order of the fields. -/
def arguments? (fields : List (List String)) : Value → Option (List (Option Value))
  | .object members => do
    let members ← named? members
    fields.mapM fun names => member? names members
  | .array items =>
    if items.length ≤ fields.length then
      some (items.map some ++ List.replicate (fields.length - items.length) none)
    else none
  | _ => none

namespace Value

def bool? : Value → Option Bool
  | bool b => some b
  | _ => none

def naturalBelow? (bound : Nat) : Value → Option Nat
  | number n => n.natural?.filter fun value => value < bound
  | _ => none

def word? (v : Value) : Option UInt16 := (v.naturalBelow? 0x10000).map UInt16.ofNat

def byte? (v : Value) : Option UInt8 := (v.naturalBelow? 0x100).map UInt8.ofNat

def count? (v : Value) : Option Nat := v.naturalBelow? 0x10000000000000000

/-- Either nothing, written as null, or what `read` takes. -/
def nullOr? {α : Type} (read : Value → Option α) : Value → Option (Option α)
  | null => some none
  | v => (read v).map some

end Value

/-- The name of the kind, and the values for the fields of a record of that kind. -/
def ofKind? (kinds : List (String × List (List String))) (tag : Units) (v : Value) :
    Option (String × List (Option Value)) := do
  let kind ← text? tag
  let fields ← kinds.lookup kind
  let given ← arguments? fields v
  return (kind, given)

/-- A record that tells its kind: an object under a name of its own, an array as its first item. -/
def tagged? (tagName : String) (kinds : List (String × List (List String))) :
    Value → Option (String × List (Option Value))
  | .object members => do
    match ← member? [tagName] (← named? members) with
    | some (.string tag) => ofKind? kinds tag (.object members)
    | _ => none
  | .array (.string tag :: items) => ofKind? kinds tag (.array items)
  | _ => none

def taggedList? (tagName : String) (kinds : List (String × List (List String))) :
    Value → Option (List (String × List (Option Value)))
  | .array items => items.mapM (tagged? tagName kinds)
  | _ => none

end WordLink.Json
