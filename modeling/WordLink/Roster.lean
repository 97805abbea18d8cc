import WordLink.Word

/-!
# Registrations

A roster holds the registrations for single addresses and those for boundaries, each in the order
in which they were made. Numbers are given out once, over both kinds together. What a
registration stands for is left open: `κ` is whatever the owner of the roster uses to find its
listener. The listeners for an event are read off as a list, so that whatever they do to the
roster meanwhile cannot change who is called.
-/
namespace WordLink

abbrev RegistrationId := Nat

structure WordRegistration (κ : Type) where
  id : RegistrationId
  address : Address
  listener : κ
  deriving DecidableEq, Repr

structure BoundaryRegistration (κ : Type) where
  id : RegistrationId
  listener : κ
  deriving DecidableEq, Repr

structure Roster (κ : Type) where
  words : List (WordRegistration κ) := []
  boundaries : List (BoundaryRegistration κ) := []
  nextId : RegistrationId := 0
  deriving DecidableEq, Repr

namespace Roster

variable {κ : Type}

/-- One registration for each of the addresses, under consecutive numbers. -/
def registrations (first : RegistrationId) (addresses : List Address) (listener : κ) :
    List (WordRegistration κ) :=
  (addresses.zipIdx first).map fun (address, id) => { id, address, listener }

def subscribeAll (r : Roster κ) (addresses : List Address) (listener : κ) : Roster κ :=
  { r with
    words := r.words ++ registrations r.nextId addresses listener
    nextId := r.nextId + addresses.length }

def subscribe (r : Roster κ) (address : Address) (listener : κ) : Roster κ :=
  r.subscribeAll [address] listener

def subscribeBoundary (r : Roster κ) (listener : κ) : Roster κ :=
  { r with
    boundaries := r.boundaries ++ [{ id := r.nextId, listener }]
    nextId := r.nextId + 1 }

def hasWord (r : Roster κ) (id : RegistrationId) : Bool := r.words.any (·.id == id)

def hasBoundary (r : Roster κ) (id : RegistrationId) : Bool := r.boundaries.any (·.id == id)

def unsubscribe (r : Roster κ) (id : RegistrationId) : Roster κ :=
  { r with words := r.words.filter (·.id != id) }

def unsubscribeBoundary (r : Roster κ) (id : RegistrationId) : Roster κ :=
  { r with boundaries := r.boundaries.filter (·.id != id) }

/-- Takes out the registrations for addresses that have `count` numbers from `first` on. -/
def unsubscribeRun (r : Roster κ) (first count : Nat) : Roster κ :=
  { r with words := r.words.filter fun entry => entry.id < first || first + count ≤ entry.id }

def wordListeners (r : Roster κ) (address : Address) : List κ :=
  (r.words.filter (·.address == address)).map (·.listener)

def boundaryListeners (r : Roster κ) : List κ := r.boundaries.map (·.listener)

def isSubscribed (r : Roster κ) (address : Address) : Bool := r.words.any (·.address == address)

end Roster

end WordLink
