import WordLink.Gauge
import WordLink.Roster
import WordLink.Text.Quoted
import WordLink.Text.Utf8

/-!
# Descriptions

Values written on one line: a name, then the parts with their names between braces.
-/
namespace WordLink

namespace Description

def parts (name : String) (members : List (String × String)) : String :=
  name ++ " \x7b " ++ ", ".intercalate (members.map fun (label, text) => label ++ ": " ++ text) ++
    " \x7d"

def wrapped (name text : String) : String := name ++ "(" ++ text ++ ")"

def optional : Option String → String
  | some text => wrapped "Some" text
  | none => "None"

def natural (n : Nat) : String := toString n

def flag (b : Bool) : String := if b then "true" else "false"

end Description

open Description

def IntegerField.describe (f : IntegerField) : String :=
  parts "IntegerOutput"
    [("address", natural f.address.toNat), ("mask", natural f.mask.toNat),
      ("shift", natural f.shift.toNat)]

def TextField.describe (f : TextField) : String :=
  parts "StringOutput"
    [("address", natural f.address.toNat), ("max_length", natural f.length.toNat)]

def Gauge.describe : Gauge → String
  | integer g =>
    parts "IntegerView"
      [("output", g.field.describe), ("value", optional (g.value.map fun v => natural v.toNat))]
  | text g =>
    parts "StringView"
      [("output", g.field.describe), ("value", optional (g.shown.map Quoted.ofBytes))]

def Gauge.describeWithKind (g : Gauge) : String :=
  match g with
  | integer _ => wrapped "Integer" g.describe
  | text _ => wrapped "String" g.describe

def Gauge.display : Gauge → Option String
  | integer g => g.value.map fun v => natural v.toNat
  | text g => g.shown.map Utf8.decodeLossy

def Roster.describe {κ : Type} (r : Roster κ) : String :=
  parts "UpdateDispatcher"
    [("word_listeners", natural r.words.length),
      ("boundary_listeners", natural r.boundaries.length)]

end WordLink
