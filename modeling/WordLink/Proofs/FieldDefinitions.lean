import WordLink.Json.Reader
import WordLink.Proofs.JsonRecords

/-!
# Fields defined in JSON

A field is defined by an object with a tag for its kind and with its numbers, some of which may go
by another name or be left out. Nothing else matters: neither the order of the members nor how the
object is written, nor what else is in it under names that the kind does not know. But a tag or a
number that has to be there and is not, and anything known that is there twice, under whichever of
its names, leave no field to be read (`definition_read`).
-/
namespace WordLink.Field

open Json

def tag : Field → String
  | integer _ => "integer"
  | text _ => "string"

def numbers : Field → List NamedNumber
  | integer f =>
    [⟨["address"], none, f.address.toNat⟩, ⟨["mask"], some 0xFFFF, f.mask.toNat⟩,
      ⟨["shift", "shift_by"], some 0, f.shift.toNat⟩]
  | text f =>
    [⟨["address", "base_address"], none, f.address.toNat⟩, ⟨["max_length"], none, f.length.toNat⟩]

def knownNames (f : Field) : List String := "type" :: f.numbers.flatMap NamedNumber.names

/-- The members of an object that defines the field: in any order the tag, the numbers, and others
under names that the kind of field does not know, with values that are readable with so many
levels. -/
inductive DefinedBy (f : Field) (levels : Nat) : List Member → Prop where
  | intro {own foreign members} : NumbersGivenBy f.numbers own →
      (∀ m ∈ foreign, m.1 ∉ f.knownNames ∧ m.2.readable levels = true) →
      members.Perm (("type", .ofText f.tag) :: (own ++ foreign)) → f.DefinedBy levels members

/-- There is no tag, there are two, or there is one and something that a field of its kind must have
is not there, or something it knows is there twice. The numbers of the field are of no account. -/
inductive Faulty (members : List Member) : Prop where
  | untagged : membersUnder ["type"] members = [] → Faulty members
  | taggedTwice : 2 ≤ (membersUnder ["type"] members).length → Faulty members
  | missing {f : Field} {n} : ("type", .ofText f.tag) ∈ members → n ∈ f.numbers →
      n.fallback = none → membersUnder n.names members = [] → Faulty members
  | twice {f : Field} {n} : ("type", .ofText f.tag) ∈ members → n ∈ f.numbers →
      2 ≤ (membersUnder n.names members).length → Faulty members

variable {f : Field} {members : List Member} {levels : Nat} {n : NamedNumber}

/-! ### The numbers of a field -/

theorem apart_numbers (f : Field) : Apart f.numbers := by
  cases f <;> simp [Apart, numbers]

theorem number_lt (f : Field) : ∀ n ∈ f.numbers, n.number < 0x10000 := by
  cases f with
  | integer f =>
    have hshift : f.shift.toNat < 0x10000 := Nat.lt_trans f.shift.toNat_lt (by decide)
    simp [numbers, f.address.toNat_lt, f.mask.toNat_lt, hshift]
  | text f => simp [numbers, f.address.toNat_lt, f.length.toNat_lt]

theorem type_not_mem (f : Field) : ∀ n ∈ f.numbers, "type" ∉ n.names := by
  cases f <;> simp [numbers]

theorem mem_knownNames (hn : n ∈ f.numbers) {name : String} (h : name ∈ n.names) :
    name ∈ f.knownNames :=
  List.mem_cons_of_mem _ (List.mem_flatMap.mpr ⟨n, hn, h⟩)

namespace DefinedBy

theorem givenBy (h : f.DefinedBy levels members) (hn : n ∈ f.numbers) :
    n.GivenBy (membersUnder n.names members) := by
  obtain @⟨own, foreign, _, hown, hforeign, hperm⟩ := h
  have htag : membersUnder n.names [("type", .ofText f.tag)] = [] :=
    membersUnder_eq_nil (by simpa using f.type_not_mem n hn)
  have hunknown : membersUnder n.names foreign = [] :=
    membersUnder_eq_nil fun m hm hname => (hforeign m hm).1 (mem_knownNames hn hname)
  have hall := perm_membersUnder hperm n.names
  rw [htag, hunknown, List.nil_append, List.append_nil] at hall
  exact (hown.givenBy_under f.apart_numbers hn).perm hall

theorem tagged (h : f.DefinedBy levels members) :
    membersUnder ["type"] members = [("type", .ofText f.tag)] := by
  obtain @⟨own, foreign, _, hown, hforeign, hperm⟩ := h
  have hnone : membersUnder ["type"] own = [] := by
    refine membersUnder_eq_nil fun m hm hname => ?_
    obtain ⟨n, hn, hmem, -⟩ := hown.exists_number m hm
    exact f.type_not_mem n hn (List.mem_singleton.mp hname ▸ hmem)
  have hunknown : membersUnder ["type"] foreign = [] := by
    refine membersUnder_eq_nil fun m hm hname => (hforeign m hm).1 ?_
    exact List.mem_singleton.mp hname ▸ List.mem_cons_self
  have hall := perm_membersUnder hperm ["type"]
  rw [hnone, hunknown] at hall
  exact List.perm_singleton.mp hall

theorem readable (h : f.DefinedBy levels members) :
    (Value.ofMembers members).readable (levels + 1) = true := by
  obtain @⟨own, foreign, _, hown, hforeign, hperm⟩ := h
  refine (Value.readable_ofMembers members levels).mpr fun m hm => ?_
  rcases List.mem_cons.mp (hperm.mem_iff.mp hm) with rfl | hm
  · exact Value.readable_ofText f.tag levels
  rcases List.mem_append.mp hm with hm | hm
  · obtain ⟨n, hn, -, hnatural⟩ := hown.exists_number m hm
    exact hnatural.readable (f.number_lt n hn) levels
  · exact (hforeign m hm).2

end DefinedBy

/-! ### What is read -/

/-- The field that a value defines, however deep the value is. -/
def made? (v : Value) : Option Field :=
  (tagged? tagName (Schema.kindNames (kinds reader)) v).bind (Schema.makeTagged? (kinds reader))

theorem makeTagged?_integer (f : IntegerField) (given : List (Option Value)) :
    Schema.makeTagged? (kinds reader) ((integer f).tag, given) =
      ((IntegerField.schema reader).make? given).map integer := rfl

theorem makeTagged?_text (f : TextField) (given : List (Option Value)) :
    Schema.makeTagged? (kinds reader) ((text f).tag, given) =
      ((TextField.schema reader).make? given).map text := rfl

theorem ofKind?_tag (f : Field) (v : Value) :
    ofKind? (Schema.kindNames (kinds reader)) (utf16 f.tag) v =
      (arguments? (f.numbers.map NamedNumber.names) v).map fun given => (f.tag, given) := by
  have hlookup : (Schema.kindNames (kinds reader)).lookup f.tag =
      some (f.numbers.map NamedNumber.names) := by
    cases f with
    | integer f => rfl
    | text f => rfl
  rw [ofKind?, text?_utf16]
  simp only [Option.bind_eq_bind, Option.bind_some, hlookup]
  cases arguments? (f.numbers.map NamedNumber.names) v <;> rfl

/-- Once the tag is known, what is made depends on the numbers that are given. -/
theorem made?_tagged (h : membersUnder ["type"] members = [("type", .ofText f.tag)]) :
    made? (.ofMembers members) =
      ((f.numbers.map NamedNumber.names).mapM (member? · members)).bind
        fun given => Schema.makeTagged? (kinds reader) (f.tag, given) := by
  have htag : member? [tagName] members = some (some (.string (utf16 f.tag))) :=
    member?_of_singleton h
  have hkind : tagged? tagName (Schema.kindNames (kinds reader)) (.ofMembers members) =
      ofKind? (Schema.kindNames (kinds reader)) (utf16 f.tag) (.ofMembers members) := by
    rw [Value.ofMembers, tagged?, named?_members]
    simp [htag]
  rw [made?, hkind, ofKind?_tag, arguments?_ofMembers, Option.bind_map]
  rfl

theorem made?_of_not_tagged {given : Option (Option Value)}
    (h : member? [tagName] members = given) (hgiven : given = none ∨ given = some none) :
    made? (.ofMembers members) = none := by
  rw [made?, Value.ofMembers, tagged?, named?_members]
  rcases hgiven with rfl | rfl <;> simp [h]

namespace DefinedBy

theorem made?_integer {f : IntegerField} (h : (integer f).DefinedBy levels members) :
    made? (.ofMembers members) = some (integer f) := by
  obtain ⟨address, haddress, hreadAddress⟩ := (h.givenBy (.head _)).make IntegerField.addressSlot
    nofun fun v hv => hv.word?
  obtain ⟨mask, hmask, hreadMask⟩ := (h.givenBy (.tail _ (.head _))).make IntegerField.maskSlot
    (fun h => congrArg some (UInt16.toNat_inj.mp (Option.some.inj h))) fun v hv => hv.word?
  obtain ⟨shift, hshift, hreadShift⟩ := (h.givenBy (.tail _ (.tail _ (.head _)))).make
    IntegerField.shiftSlot
    (fun h => congrArg some (UInt8.toNat_inj.mp (Option.some.inj h))) fun v hv => hv.byte?
  have hgiven : ((integer f).numbers.map NamedNumber.names).mapM (member? · members) =
      some [address, mask, shift] := by
    change [IntegerField.addressSlot.names, IntegerField.maskSlot.names,
      IntegerField.shiftSlot.names].mapM (member? · members) = _
    simp [haddress, hmask, hshift]
  rw [made?_tagged h.tagged, hgiven, Option.bind_some, makeTagged?_integer]
  simp [IntegerField.schema, reader, hreadAddress, hreadMask, hreadShift]

theorem made?_text {f : TextField} (h : (text f).DefinedBy levels members) :
    made? (.ofMembers members) = some (text f) := by
  obtain ⟨address, haddress, hreadAddress⟩ := (h.givenBy (.head _)).make TextField.addressSlot
    nofun fun v hv => hv.word?
  obtain ⟨length, hlength, hreadLength⟩ := (h.givenBy (.tail _ (.head _))).make
    TextField.lengthSlot nofun fun v hv => hv.word?
  have hgiven : ((text f).numbers.map NamedNumber.names).mapM (member? · members) =
      some [address, length] := by
    change [TextField.addressSlot.names, TextField.lengthSlot.names].mapM (member? · members) = _
    simp [haddress, hlength]
  rw [made?_tagged h.tagged, hgiven, Option.bind_some, makeTagged?_text]
  simp [TextField.schema, reader, hreadAddress, hreadLength]

theorem made? (h : f.DefinedBy levels members) : Field.made? (.ofMembers members) = some f := by
  cases f with
  | integer f => exact h.made?_integer
  | text f => exact h.made?_text

end DefinedBy

theorem mapM_made? {definitions : List (Field × List Member)}
    (h : ∀ d ∈ definitions, d.1.DefinedBy levels d.2) :
    (definitions.map fun d => Value.ofMembers d.2).mapM made? =
      some (definitions.map Prod.fst) := by
  induction definitions with
  | nil => rfl
  | cons d rest ih =>
    have hfirst := (h d List.mem_cons_self).made?
    have hrest := ih fun e he => h e (List.mem_cons_of_mem _ he)
    simp [hfirst, hrest]

/-! ### What is not read -/

theorem not_made_of_missing (hn : n ∈ f.numbers) (hnone : n.fallback = none)
    (h : membersUnder n.names members = []) :
    ((f.numbers.map NamedNumber.names).mapM (member? · members)).bind
      (fun given => Schema.makeTagged? (kinds reader) (f.tag, given)) = none := by
  have hmember := member?_of_nil h
  -- Every name is looked up before a number is required, so a lookup may fail before that.
  cases f with
  | integer f =>
    simp only [makeTagged?_integer, numbers, List.mem_cons, List.not_mem_nil, or_false] at hn ⊢
    rcases hn with rfl | rfl | rfl
    · cases hmask : member? ["mask"] members <;>
        cases hshift : member? ["shift", "shift_by"] members <;>
        simp [IntegerField.schema, IntegerField.addressSlot, Slot.make?, hmember, hmask, hshift]
    · cases hnone
    · cases hnone
  | text f =>
    simp only [makeTagged?_text, numbers, List.mem_cons, List.not_mem_nil, or_false] at hn ⊢
    rcases hn with rfl | rfl
    · cases hlength : member? ["max_length"] members <;>
        simp [TextField.schema, TextField.addressSlot, Slot.make?, hmember, hlength]
    · cases haddress : member? ["address", "base_address"] members <;>
        simp [TextField.schema, TextField.lengthSlot, Slot.make?, hmember, haddress]

theorem made?_eq_none (hmem : ("type", .ofText f.tag) ∈ members)
    (hnone : ((f.numbers.map NamedNumber.names).mapM (member? · members)).bind
      (fun given => Schema.makeTagged? (kinds reader) (f.tag, given)) = none) :
    made? (.ofMembers members) = none := by
  rcases membersUnder_eq_singleton hmem (List.mem_singleton_self "type") with hone | htwice
  · rw [made?_tagged hone, hnone]
  · exact made?_of_not_tagged (member?_of_several htwice) (.inl rfl)

theorem Faulty.made? (h : Faulty members) : Field.made? (.ofMembers members) = none := by
  cases h with
  | untagged h => exact made?_of_not_tagged (member?_of_nil h) (.inr rfl)
  | taggedTwice h => exact made?_of_not_tagged (member?_of_several h) (.inl rfl)
  | missing hmem hn hnone h => exact made?_eq_none hmem (not_made_of_missing hn hnone h)
  | @twice f n hmem hn h =>
    have hnone : (f.numbers.map NamedNumber.names).mapM (member? · members) = none := by
      rw [← arguments?_ofMembers]
      exact arguments?_of_several (List.mem_map_of_mem hn) h
    refine made?_eq_none hmem ?_
    rw [hnone]
    rfl

/-! ### Whole texts -/

theorem mapM_bind_mapM {α β γ : Type} (f : α → Option β) (g : β → Option γ) (items : List α) :
    (items.mapM f).bind (List.mapM g) = items.mapM fun a => (f a).bind g := by
  induction items with
  | nil => rfl
  | cons a rest ih =>
    cases hf : f a with
    | none => simp [hf]
    | some b =>
      cases hrest : rest.mapM f with
      | none => rw [hrest] at ih; simp [hf, hrest, ← ih]
      | some bs => rw [hrest] at ih; simp [hf, hrest, ← ih]

theorem parse_of_writtenAs {v : Value} {text : String} (h : v.WrittenAs text.toList) :
    Field.parse text =
      Reader.orJson (if v.readable Value.nestingLimit then made? v else none) := by
  have hread : reader.tagged? tagName (Schema.kindNames (kinds reader)) text =
      (parseReadable? text).bind (tagged? tagName (Schema.kindNames (kinds reader))) := rfl
  rw [Field.parse, Reader.parseTagged, hread, parseReadable?, parse?_of_writtenAs h,
    Option.filter_some]
  split <;> rfl

theorem parseList_of_writtenAs {items : List Value} {text : String}
    (h : (Value.array items).WrittenAs text.toList) :
    Field.parseList text =
      Reader.orJson (if (Value.array items).readable Value.nestingLimit then items.mapM made?
        else none) := by
  have hread : reader.taggedList? tagName (Schema.kindNames (kinds reader)) text =
      (parseReadable? text).bind (taggedList? tagName (Schema.kindNames (kinds reader))) := rfl
  rw [Field.parseList, Reader.parseTaggedList, hread, parseReadable?, parse?_of_writtenAs h,
    Option.filter_some]
  split
  · exact congrArg Reader.orJson (mapM_bind_mapM _ _ items)
  · rfl

/-- Any text of an object that defines a field is read as that field, and any text of a list of such
objects as the list of their fields. An object may have its members in any order and under any of
their names, and others among them whose names the kind does not know, as long as their values are
readable so deep in the text. Any text of an object is refused in which the tag or a number that has
to be given is not there, or something that the kind knows is there twice, be it under two of its
names. -/
theorem definition_read :
    (∀ (f : Field) (members : List Member) (text : String),
      (Value.ofMembers members).WrittenAs text.toList →
      f.DefinedBy (Value.nestingLimit - 1) members → Field.parse text = .ok f) ∧
    (∀ (definitions : List (Field × List Member)) (text : String),
      (Value.array (definitions.map fun d => .ofMembers d.2)).WrittenAs text.toList →
      (∀ d ∈ definitions, d.1.DefinedBy (Value.nestingLimit - 2) d.2) →
      Field.parseList text = .ok (definitions.map Prod.fst)) ∧
    (∀ (members : List Member) (text : String),
      (Value.ofMembers members).WrittenAs text.toList → Faulty members →
      Field.parse text = .error .json) := by
  refine ⟨fun f members text hwritten hdefined => ?_, fun definitions text hwritten hdefined => ?_,
    fun members text hwritten hfaulty => ?_⟩
  · have hreadable : (Value.ofMembers members).readable Value.nestingLimit = true :=
      hdefined.readable
    rw [parse_of_writtenAs hwritten, if_pos hreadable, hdefined.made?, Reader.orJson]
  · have hreadable : (Value.array (definitions.map fun d => .ofMembers d.2)).readable
        Value.nestingLimit = true := by
      refine (Value.readable_array _ (Value.nestingLimit - 2 + 1)).mpr fun v hv => ?_
      obtain ⟨d, hd, rfl⟩ := List.mem_map.mp hv
      exact (hdefined d hd).readable
    rw [parseList_of_writtenAs hwritten, if_pos hreadable, mapM_made? hdefined, Reader.orJson]
  · rw [parse_of_writtenAs hwritten, hfaulty.made?, ite_self, Reader.orJson]

example : (Field.parse
    "\x7b\"shift_by\": 4,\"x\":null,\"type\":\"\\u0069nteger\",\"address\":16\x7d").toOption =
    some (.integer ⟨0x0010, 0xFFFF, 4⟩) := by decide +kernel

end WordLink.Field
