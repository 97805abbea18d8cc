import WordLink.Error

/-!
# Readers of records

A reader takes texts apart. For each field of a record, which may go by several names, it tells what
a text gives; what is made of it, and what stands for a field that is not given, is up to the
record. So records are defined without regard to how they are written.
-/
namespace WordLink

/-- Takes texts apart; `γ` is what a text may give for one field. -/
structure Reader (γ : Type) where
  flag? : γ → Option Bool
  byte? : γ → Option UInt8
  word? : γ → Option Word
  count? : γ → Option Nat
  wordOrNone? : γ → Option (Option Word)
  /-- What a text gives for the fields with these names, in their order. -/
  record? : List (List String) → String → Option (List (Option γ))
  /-- As `record?`, for a record of one of several kinds; the kind is told under a name of its
  own. -/
  tagged? : String → List (String × List (List String)) → String →
    Option (String × List (Option γ))
  taggedList? : String → List (String × List (List String)) → String →
    Option (List (String × List (Option γ)))

/-- A field of a record: the names that it goes by, and what it is if it is not given. -/
structure Slot (α : Type) where
  names : List String
  fallback : Option α

def Slot.make? {α γ : Type} (slot : Slot α) (read : γ → Option α) : Option γ → Option α
  | none => slot.fallback
  | some given => read given

/-- How a record is made from what a text gives for its fields. -/
structure Schema (γ α : Type) where
  names : List (List String)
  make? : List (Option γ) → Option α

namespace Schema

variable {γ α β : Type}

def map (f : α → β) (s : Schema γ α) : Schema γ β :=
  { names := s.names, make? := fun given => (s.make? given).map f }

/-- The names of the kinds with those of their fields. -/
def kindNames (kinds : List (String × Schema γ α)) : List (String × List (List String)) :=
  kinds.map fun kind => (kind.1, kind.2.names)

def makeTagged? (kinds : List (String × Schema γ α)) (given : String × List (Option γ)) :
    Option α :=
  (kinds.lookup given.1).bind fun s => s.make? given.2

end Schema

namespace Reader

variable {γ α : Type}

def orJson : Option α → Except Error α
  | some a => .ok a
  | none => .error .json

def parse (r : Reader γ) (s : Schema γ α) (text : String) : Except Error α :=
  orJson ((r.record? s.names text).bind s.make?)

def parseTagged (r : Reader γ) (tagName : String) (kinds : List (String × Schema γ α))
    (text : String) : Except Error α :=
  orJson ((r.tagged? tagName (Schema.kindNames kinds) text).bind (Schema.makeTagged? kinds))

def parseTaggedList (r : Reader γ) (tagName : String) (kinds : List (String × Schema γ α))
    (text : String) : Except Error (List α) :=
  orJson ((r.taggedList? tagName (Schema.kindNames kinds) text).bind
    (List.mapM (Schema.makeTagged? kinds)))

end Reader

end WordLink
