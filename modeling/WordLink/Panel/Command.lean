import WordLink.Event
import WordLink.Gauge
import WordLink.Roster

/-!
# Commands to a panel

What can be asked of a panel, what it answers, and what its listeners write into the log. A
listener may carry a script: the commands that it gives when it is called for the first time, for
the second time, and so on, where calls in a row that lead to the same commands are written as one
stretch. Scripts nest, but each of them is finite, and `Command.weight` bounds what it can set off.
-/
namespace WordLink

structure Stretch (α : Type) where
  times : Nat
  commands : List α

inductive Command where
  | subscribe (name : String) (address : Address) (script : List (Stretch Command))
  /-- One listener for several addresses; the registrations are named by name and position. -/
  | subscribeShared (name : String) (addresses : List Address) (script : List (Stretch Command))
  | subscribeBoundary (name : String) (script : List (Stretch Command))
  | unsubscribe (name : String)
  | unsubscribeBoundary (name : String)
  | compareIds (name other : String)
  | isSubscribed (address : Address)
  | dispatch (event : Event)
  /-- Puts up a gauge; one that is not outspoken leaves no trace in the log. -/
  | follow (name : String) (field : Field) (outspoken : Bool) (script : List (Stretch Command))
  /-- Puts up a gauge for a definition in JSON. -/
  | attach (name : String) (definition : String)
  /-- Puts up gauges for an array of definitions, all or none. -/
  | attachAll (name : String) (definitions : String)
  | drop (name : String)
  | query (name : String)
  | describeGauge (name : String)
  | describeRoster

inductive Reply where
  | nothing
  | id (id : RegistrationId)
  | ids (ids : List RegistrationId)
  | flag (value : Bool)
  | order (value : Ordering)
  | count (value : Nat)
  | refused (error : Error)
  /-- A gauge as it stands, and whether it was put up from a definition. -/
  | gauge (gauge : Gauge) (attached : Bool)
  | text (value : String)

inductive Entry where
  | word (name : String) (address : Address) (data : Word)
  | boundary (name : String)
  | integer (name : String) (value : Word)
  | text (name : String) (value : List UInt8)
  /-- The answer to a command of the listener's script. -/
  | reply (name : String) (reply : Reply)

mutual

/-- A bound on how many commands can come of one, itself included. -/
def Command.weight : Command → Nat
  | .subscribe _ _ script => 1 + Command.scriptWeight script
  | .subscribeShared _ _ script => 1 + Command.scriptWeight script
  | .subscribeBoundary _ script => 1 + Command.scriptWeight script
  | .follow _ _ _ script => 1 + Command.scriptWeight script
  | .unsubscribe _ => 1
  | .unsubscribeBoundary _ => 1
  | .compareIds _ _ => 1
  | .isSubscribed _ => 1
  | .dispatch _ => 1
  | .attach _ _ => 1
  | .attachAll _ _ => 1
  | .drop _ => 1
  | .query _ => 1
  | .describeGauge _ => 1
  | .describeRoster => 1

def Command.scriptWeight : List (Stretch Command) → Nat
  | [] => 0
  | stretch :: rest => stretch.weight + Command.scriptWeight rest

/-- Each call counts for one more than the commands it leads to. -/
def Stretch.weight : Stretch Command → Nat
  | ⟨times, commands⟩ => times * (1 + Command.weights commands)

def Command.weights : List Command → Nat
  | [] => 0
  | c :: rest => c.weight + Command.weights rest

end

namespace Stretch

def current {α : Type} : List (Stretch α) → List α
  | [] => []
  | ⟨0, _⟩ :: rest => current rest
  | ⟨_ + 1, commands⟩ :: _ => commands

def spend {α : Type} : List (Stretch α) → List (Stretch α)
  | [] => []
  | ⟨0, _⟩ :: rest => spend rest
  | ⟨n + 1, commands⟩ :: rest => ⟨n, commands⟩ :: rest

/-- The commands of a call weigh less than what it uses up of the script, unless it is over. -/
theorem weight_spend (script : List (Stretch Command)) :
    Command.scriptWeight (spend script) + Command.weights (current script) <
        Command.scriptWeight script ∨
      Command.scriptWeight (spend script) = Command.scriptWeight script ∧
        current script = [] := by
  induction script with
  | nil => exact .inr ⟨rfl, rfl⟩
  | cons stretch rest ih =>
    obtain ⟨times, commands⟩ := stretch
    cases times with
    | zero => simpa [spend, current, Command.scriptWeight, Stretch.weight] using ih
    | succ n =>
      refine .inl ?_
      simp only [spend, current, Command.scriptWeight, Stretch.weight, Nat.succ_mul]
      omega

end Stretch

theorem Command.weight_pos (c : Command) : 0 < c.weight := by
  cases c <;> simp only [Command.weight] <;> omega

end WordLink
