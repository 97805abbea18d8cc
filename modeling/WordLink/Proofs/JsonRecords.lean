import WordLink.Json.Record
import WordLink.Reader
import WordLink.Proofs.JsonReading

/-!
# Records in JSON objects

An object gives the numbers of a record, each under one of the names that it goes by, or under none
where it is the number that need not be given. No two numbers share a name, so what stands under the
names of one is there for it alone, wherever it stands in the object and whatever else is in it
(`NumbersGivenBy.givenBy_under`).
-/
namespace WordLink.Json

/-- A member of an object, under a name that is text. -/
abbrev Member := String × Value

namespace Value

def ofText (s : String) : Value := .string (utf16 s)

def ofMembers (members : List Member) : Value := .object (members.map fun m => (utf16 m.1, m.2))

/-- A number that is written with nothing but the digits of `n`. -/
inductive IsNatural (n : Nat) : Value → Prop where
  | digits {digits} : Number.valueOf digits = n → IsNatural n (.number ⟨false, digits, [], none⟩)

end Value

structure NamedNumber where
  names : List String
  /-- The number that need not be given. -/
  fallback : Option Nat
  number : Nat

/-- Once under one of the names, or not at all. -/
inductive NamedNumber.GivenBy (n : NamedNumber) : List Member → Prop where
  | once {name v} : name ∈ n.names → v.IsNatural n.number → n.GivenBy [(name, v)]
  | omitted : n.fallback = some n.number → n.GivenBy []

inductive NumbersGivenBy : List NamedNumber → List Member → Prop where
  | nil : NumbersGivenBy [] []
  | cons {n rest part others} : NamedNumber.GivenBy n part → NumbersGivenBy rest others →
      NumbersGivenBy (n :: rest) (part ++ others)

def membersUnder (names : List String) (members : List Member) : List Member :=
  members.filter fun m => names.contains m.1

/-! ### Numbers in range -/

namespace Number

theorem le_foldl (digits : List Nat) (value : Nat) :
    value ≤ digits.foldl (fun n d => 10 * n + d) value := by
  induction digits generalizing value with
  | nil => exact Nat.le_refl _
  | cons d rest ih =>
    have hrest := ih (10 * value + d)
    rw [List.foldl_cons]
    omega

theorem accumulate_eq (digits : List Nat) (value : Nat)
    (h : digits.foldl (fun n d => 10 * n + d) value < significandBound) :
    accumulate value digits = (digits.foldl (fun n d => 10 * n + d) value, []) := by
  induction digits generalizing value with
  | nil => rfl
  | cons d rest ih =>
    have hle := le_foldl rest (10 * value + d)
    rw [List.foldl_cons] at h ⊢
    rw [accumulate, if_pos (Nat.lt_of_le_of_lt hle h), ih _ h]

theorem roundDouble_of_lt {n : Nat} (h : n < 0x10000) : roundDouble n = n := by
  have hlog : n.log2 - 52 = 0 := by
    rcases Nat.eq_zero_or_pos n with rfl | hpos
    · rfl
    · have hsmall : n.log2 < 16 := (Nat.log2_lt (Nat.ne_of_gt hpos)).mpr h
      omega
  simp [roundDouble, hlog]

theorem fits_of_lt {n : Nat} (h : n < 0x10000) : fits n 0 = true := by
  have hone : roundDouble (Nat.pow 10 0) = 1 := by decide
  have hbound : n < overflowBound := Nat.lt_of_lt_of_le h (by decide)
  change (n == 0 || (decide (0 ≤ greatestPower) &&
    decide (roundDouble n * roundDouble (Nat.pow 10 0) < overflowBound))) = true
  rw [roundDouble_of_lt h, hone, Nat.mul_one]
  simp [hbound]

theorem inRange_natural {digits : List Nat} (h : valueOf digits < 0x10000) :
    inRange ⟨false, digits, [], none⟩ = true := by
  have hbound : valueOf digits < significandBound := Nat.lt_trans h (by decide)
  have hsignificand : significand ⟨false, digits, [], none⟩ = (valueOf digits, 0) := by
    rw [significand]
    simp only [accumulate_eq digits 0 hbound, accumulate]
    rfl
  rw [inRange, hsignificand]
  exact fits_of_lt h

end Number

namespace Value

variable {v : Value} {n : Nat}

theorem IsNatural.naturalBelow? (h : v.IsNatural n) {bound : Nat} (hn : n < bound) :
    v.naturalBelow? bound = some n := by
  obtain ⟨rfl⟩ := h
  simp [Value.naturalBelow?, Number.natural?, hn]

theorem IsNatural.word? {w : UInt16} (h : v.IsNatural w.toNat) : v.word? = some w := by
  rw [Value.word?, h.naturalBelow? w.toNat_lt, Option.map_some, UInt16.ofNat_toNat]

theorem IsNatural.byte? {b : UInt8} (h : v.IsNatural b.toNat) : v.byte? = some b := by
  rw [Value.byte?, h.naturalBelow? b.toNat_lt, Option.map_some, UInt8.ofNat_toNat]

theorem IsNatural.readable (h : v.IsNatural n) (hn : n < 0x10000) (levels : Nat) :
    v.readable levels = true := by
  obtain ⟨rfl⟩ := h
  rw [Value.readable]
  exact Number.inRange_natural hn

theorem readable_ofText (s : String) (levels : Nat) : (ofText s).readable levels = true := by
  rw [ofText, Value.readable, text?_utf16]
  rfl

theorem readable_array (items : List Value) (levels : Nat) :
    (array items).readable (levels + 1) = true ↔ ∀ v ∈ items, v.readable levels = true := by
  simp [Value.readable]

theorem readable_ofMembers (members : List Member) (levels : Nat) :
    (ofMembers members).readable (levels + 1) = true ↔
      ∀ m ∈ members, m.2.readable levels = true := by
  simp [ofMembers, Value.readable, text?_utf16]

end Value

/-! ### Members under a name -/

section Members

variable {members members' : List Member} {names : List String} {n : NamedNumber}

theorem named?_members (members : List Member) :
    named? (members.map fun m => (utf16 m.1, m.2)) = some members := by
  induction members with
  | nil => rfl
  | cons m rest ih =>
    rw [named?] at ih ⊢
    simp [ih, text?_utf16]

theorem arguments?_ofMembers (fields : List (List String)) (members : List Member) :
    arguments? fields (.ofMembers members) = fields.mapM fun names => member? names members := by
  rw [Value.ofMembers, arguments?, named?_members]
  rfl

theorem member?_of_nil (h : membersUnder names members = []) :
    member? names members = some none := by
  rw [membersUnder] at h
  rw [member?, h]

theorem member?_of_singleton {m : Member} (h : membersUnder names members = [m]) :
    member? names members = some (some m.2) := by
  rw [membersUnder] at h
  rw [member?, h]

theorem member?_of_several (h : 2 ≤ (membersUnder names members).length) :
    member? names members = none := by
  rw [membersUnder] at h
  rw [member?]
  split
  · rename_i hnil
    rw [hnil] at h
    exact absurd h (by decide)
  · rename_i hone
    rw [hone] at h
    exact absurd h (by simp)
  · rfl

theorem arguments?_of_several {fields : List (List String)} (hnames : names ∈ fields)
    (h : 2 ≤ (membersUnder names members).length) :
    arguments? fields (.ofMembers members) = none := by
  rw [arguments?_ofMembers]
  induction fields with
  | nil => cases hnames
  | cons first rest ih =>
    rcases List.mem_cons.mp hnames with rfl | hrest
    · simp [member?_of_several h]
    · cases hfirst : member? first members <;> simp [hfirst, ih hrest]

theorem membersUnder_append :
    membersUnder names (members ++ members') =
      membersUnder names members ++ membersUnder names members' :=
  List.filter_append ..

theorem membersUnder_eq_nil (h : ∀ m ∈ members, m.1 ∉ names) : membersUnder names members = [] := by
  simpa [membersUnder] using h

theorem membersUnder_eq_self (h : ∀ m ∈ members, m.1 ∈ names) :
    membersUnder names members = members := by
  simpa [membersUnder] using h

theorem perm_membersUnder {m : Member} {own foreign : List Member}
    (h : members.Perm (m :: (own ++ foreign))) (names : List String) :
    (membersUnder names members).Perm
      (membersUnder names [m] ++ (membersUnder names own ++ membersUnder names foreign)) := by
  rw [← membersUnder_append, ← membersUnder_append]
  exact h.filter _

/-- One member is there alone or is one of several. -/
theorem membersUnder_eq_singleton {m : Member} (hmem : m ∈ members) (hname : m.1 ∈ names) :
    membersUnder names members = [m] ∨ 2 ≤ (membersUnder names members).length := by
  have hunder : m ∈ membersUnder names members :=
    List.mem_filter.mpr ⟨hmem, by simpa using hname⟩
  rcases hlist : membersUnder names members with _ | ⟨first, _ | ⟨second, rest⟩⟩
  · rw [hlist] at hunder
    cases hunder
  · rw [hlist] at hunder
    rw [List.mem_singleton.mp hunder]
    exact .inl rfl
  · exact .inr (by simp)

/-! ### Named numbers -/

/-- There is at most one member for an entry, so their order is no matter. -/
theorem NamedNumber.GivenBy.perm (h : n.GivenBy members) (hperm : members'.Perm members) :
    n.GivenBy members' := by
  cases h with
  | once hname hv =>
    rw [List.perm_singleton.mp hperm]
    exact .once hname hv
  | omitted hfallback =>
    rw [hperm.eq_nil]
    exact .omitted hfallback

theorem NamedNumber.GivenBy.of_mem (h : n.GivenBy members) :
    ∀ m ∈ members, m.1 ∈ n.names ∧ m.2.IsNatural n.number := by
  cases h with
  | once hname hv => simp [hname, hv]
  | omitted hfallback => simp

/-- A field of the record is made from the one number under its names, or without any. -/
theorem NamedNumber.GivenBy.make {α : Type} {read : Value → Option α} {a : α} (slot : Slot α)
    (h : n.GivenBy (membersUnder slot.names members))
    (hfallback : n.fallback = some n.number → slot.fallback = some a)
    (hread : ∀ v, v.IsNatural n.number → read v = some a) :
    ∃ given, member? slot.names members = some given ∧ slot.make? read given = some a := by
  generalize hunder : membersUnder slot.names members = under at h
  cases h with
  | once _ hv => exact ⟨_, member?_of_singleton hunder, hread _ hv⟩
  | omitted h => exact ⟨_, member?_of_nil hunder, hfallback h⟩

theorem NumbersGivenBy.exists_number {numbers : List NamedNumber}
    (h : NumbersGivenBy numbers members) :
    ∀ m ∈ members, ∃ n ∈ numbers, m.1 ∈ n.names ∧ m.2.IsNatural n.number := by
  induction h with
  | nil => simp
  | @cons n rest part others hpart _ ih =>
    intro m hm
    rcases List.mem_append.mp hm with hm | hm
    · exact ⟨n, List.mem_cons_self, hpart.of_mem m hm⟩
    · obtain ⟨n', hn', hnumber⟩ := ih m hm
      exact ⟨n', List.mem_cons_of_mem _ hn', hnumber⟩

/-- No two numbers share a name. -/
def Apart (numbers : List NamedNumber) : Prop :=
  numbers.Pairwise fun n n' => ∀ name ∈ n.names, name ∉ n'.names

theorem NumbersGivenBy.givenBy_under {numbers : List NamedNumber}
    (h : NumbersGivenBy numbers members) (hapart : Apart numbers) (hn : n ∈ numbers) :
    n.GivenBy (membersUnder n.names members) := by
  induction h with
  | nil => cases hn
  | @cons first rest part others hpart hothers ih =>
    obtain ⟨hfirst, hrest⟩ := List.pairwise_cons.mp hapart
    rw [membersUnder_append]
    rcases List.mem_cons.mp hn with rfl | hn
    · have hnone : membersUnder n.names others = [] := by
        refine membersUnder_eq_nil fun m hm hname => ?_
        obtain ⟨n', hn', hname', -⟩ := hothers.exists_number m hm
        exact hfirst n' hn' _ hname hname'
      rw [hnone, List.append_nil, membersUnder_eq_self fun m hm => (hpart.of_mem m hm).1]
      exact hpart
    · have hnone : membersUnder n.names part = [] :=
        membersUnder_eq_nil fun m hm => hfirst n hn _ (hpart.of_mem m hm).1
      rw [hnone, List.nil_append]
      exact ih hrest hn

end Members

end WordLink.Json
