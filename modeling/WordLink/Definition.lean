import WordLink.Reader
import WordLink.Receiver
import WordLink.Sender

/-!
# Definitions

What fields and settings are made from: the names of their parts, and what stands for a part that is
not given. A definition of a field of either kind carries a tag that names the kind.
-/
namespace WordLink

variable {γ : Type}

namespace IntegerField

def addressSlot : Slot Address := ⟨["address"], none⟩

def maskSlot : Slot Word := ⟨["mask"], some wholeWord⟩

def shiftSlot : Slot UInt8 := ⟨["shift", "shift_by"], some 0⟩

def schema (r : Reader γ) : Schema γ IntegerField where
  names := [addressSlot.names, maskSlot.names, shiftSlot.names]
  make?
    | [address, mask, shift] => do
      let address ← addressSlot.make? r.word? address
      let mask ← maskSlot.make? r.word? mask
      let shift ← shiftSlot.make? r.byte? shift
      return { address, mask, shift }
    | _ => none

end IntegerField

namespace TextField

def addressSlot : Slot Address := ⟨["address", "base_address"], none⟩

def lengthSlot : Slot Word := ⟨["max_length"], none⟩

def schema (r : Reader γ) : Schema γ TextField where
  names := [addressSlot.names, lengthSlot.names]
  make?
    | [address, length] => do
      let address ← addressSlot.make? r.word? address
      let length ← lengthSlot.make? r.word? length
      return { address, length }
    | _ => none

end TextField

namespace Field

def tagName : String := "type"

def kinds (r : Reader γ) : List (String × Schema γ Field) :=
  [("integer", (IntegerField.schema r).map integer), ("string", (TextField.schema r).map text)]

end Field

namespace Receiver.Settings

def markerSlot : Slot Bool :=
  ⟨["embedded_sync_emits_boundary"], some ({} : Settings).markerBoundary⟩

def endSlot : Slot (Option Address) := ⟨["end_of_update_address"], some ({} : Settings).endAddress⟩

def schema (r : Reader γ) : Schema γ Settings where
  names := [markerSlot.names, endSlot.names]
  make?
    | [marker, address] => do
      let markerBoundary ← markerSlot.make? r.flag? marker
      let endAddress ← endSlot.make? r.wordOrNone? address
      return { markerBoundary, endAddress }
    | _ => none

end Receiver.Settings

namespace Sender.Settings

def refreshSlot : Slot Nat := ⟨["autosync_per_update"], some ({} : Settings).refreshCount⟩

def gapSlot : Slot Word := ⟨["merge_gap"], some ({} : Settings).mergeGap⟩

def endSlot : Slot (Option Address) := ⟨["end_of_update_address"], some ({} : Settings).endAddress⟩

def schema (r : Reader γ) : Schema γ Settings where
  names := [refreshSlot.names, gapSlot.names, endSlot.names]
  make?
    | [refresh, gap, address] => do
      let refreshCount ← refreshSlot.make? r.count? refresh
      let mergeGap ← gapSlot.make? r.word? gap
      let endAddress ← endSlot.make? r.wordOrNone? address
      return { refreshCount, mergeGap, endAddress }
    | _ => none

end Sender.Settings

end WordLink
