import WordLink.Word

/-!
# Maps from addresses

A map keeps its entries in one array, in strictly increasing order of address, so that it has
one representation and equality of maps is equality of entries. `rank` finds by bisection how
many entries lie below an address, which is where that address is or belongs (`rank_eq`).
-/
namespace WordLink

def Ascending {α : Type} (entries : List (Address × α)) : Prop :=
  entries.Pairwise fun d e => d.1 < e.1

instance {α : Type} (entries : List (Address × α)) : Decidable (Ascending entries) :=
  inferInstanceAs (Decidable (entries.Pairwise _))

namespace Ascending

variable {α β : Type} {entries : List (Address × α)}

theorem map (h : Ascending entries) (f : Address × α → Address × β) (hf : ∀ e, (f e).1 = e.1) :
    Ascending (entries.map f) :=
  List.pairwise_map.mpr (h.imp fun hlt => by simpa [hf] using hlt)

theorem of_fst {other : List (Address × β)} (h : Ascending entries)
    (hk : other.map Prod.fst = entries.map Prod.fst) : Ascending other := by
  have := List.pairwise_map.mpr h
  exact List.pairwise_map.mp (hk ▸ this)

/-- In an ascending list the entries below an address come first. -/
theorem le_of_mem_dropWhile {a : Address} (h : Ascending entries) :
    ∀ e ∈ entries.dropWhile (fun e => decide (e.1 < a)), a ≤ e.1 := by
  induction entries with
  | nil => simp
  | cons d rest ih =>
    intro e he
    rw [List.dropWhile_cons] at he
    split at he
    · exact ih h.tail e he
    · rename_i hd
      have hd : a ≤ d.1 := by simpa [UInt16.not_lt] using hd
      rcases List.mem_cons.mp he with rfl | he
      · exact hd
      · exact UInt16.le_trans hd (UInt16.le_of_lt (List.rel_of_pairwise_cons h he))

theorem below_iff {a : Address} (h : Ascending entries) (j : Nat) :
    (entries[j]?.any fun e => decide (e.1 < a)) =
      decide (j < (entries.takeWhile fun e => decide (e.1 < a)).length) := by
  induction entries generalizing j with
  | nil => simp
  | cons d rest ih =>
    rw [List.takeWhile_cons]
    cases j with
    | zero => by_cases hd : d.1 < a <;> simp [hd]
    | succ j =>
      by_cases hd : d.1 < a
      · simpa [hd] using ih h.tail j
      · have hge : ∀ e ∈ rest, ¬ e.1 < a := fun e he hlt =>
          hd (UInt16.lt_trans (List.rel_of_pairwise_cons h he) hlt)
        have : (rest[j]?.any fun e => decide (e.1 < a)) = false := by
          cases hr : rest[j]? with
          | none => rfl
          | some e => simpa using hge e (List.mem_of_getElem? hr)
        simp [hd, this]

end Ascending

structure AddressMap (α : Type) where
  entries : Array (Address × α)
  ascending : Ascending entries.toList
  deriving DecidableEq

namespace AddressMap

variable {α : Type}

def empty : AddressMap α := ⟨#[], List.Pairwise.nil⟩

instance : Inhabited (AddressMap α) := ⟨empty⟩

def toList (m : AddressMap α) : List (Address × α) := m.entries.toList

def size (m : AddressMap α) : Nat := m.entries.size

/-- Passes 2 ^ k entries at a time, for falling k, as long as the last of them lies below. -/
def advance (entries : Array (Address × α)) (a : Address) : Nat → Nat → Nat
  | 0, passed => passed
  | k + 1, passed =>
    let next := passed + 1 <<< k
    if entries[next - 1]?.any (fun e => e.1 < a) then
      advance entries a k next
    else
      advance entries a k passed

/-- How many entries lie below the address. -/
def rank (m : AddressMap α) (a : Address) : Nat := advance m.entries a (m.size.log2 + 1) 0

theorem advance_eq {entries : Array (Address × α)} (a : Address)
    (h : Ascending entries.toList) (k passed : Nat)
    (hl : passed ≤ (entries.toList.takeWhile fun e => decide (e.1 < a)).length)
    (hu : (entries.toList.takeWhile fun e => decide (e.1 < a)).length < passed + 1 <<< k) :
    advance entries a k passed =
      (entries.toList.takeWhile fun e => decide (e.1 < a)).length := by
  induction k generalizing passed with
  | zero => simp only [advance]; omega
  | succ k ih =>
    have hp : 1 <<< (k + 1) = 1 <<< k + 1 <<< k := by
      simp only [Nat.one_shiftLeft, Nat.pow_succ]
      omega
    have hpos : 0 < 1 <<< k := by
      rw [Nat.one_shiftLeft]
      exact Nat.two_pow_pos k
    simp only [advance]
    rw [← Array.getElem?_toList, h.below_iff]
    split
    · rename_i hb
      simp only [decide_eq_true_eq] at hb
      exact ih _ (by omega) (by omega)
    · rename_i hb
      simp only [decide_eq_true_eq] at hb
      exact ih _ hl (by omega)

theorem rank_eq (m : AddressMap α) (a : Address) :
    m.rank a = (m.toList.takeWhile fun e => decide (e.1 < a)).length := by
  refine advance_eq a m.ascending _ _ (Nat.zero_le _) ?_
  have h : (m.toList.takeWhile fun e => decide (e.1 < a)).length ≤ m.size := by
    simpa [toList, size] using
      (List.takeWhile_sublist (l := m.toList) fun e => decide (e.1 < a)).length_le
  have := Nat.lt_log2_self (n := m.size)
  rw [← Nat.one_shiftLeft] at this
  simp only [toList] at h
  omega

theorem take_rank (m : AddressMap α) (a : Address) :
    m.toList.take (m.rank a) = m.toList.takeWhile fun e => decide (e.1 < a) := by
  rw [rank_eq]
  exact (List.prefix_iff_eq_take.mp (List.takeWhile_prefix _)).symm

theorem drop_rank (m : AddressMap α) (a : Address) :
    m.toList.drop (m.rank a) = m.toList.dropWhile fun e => decide (e.1 < a) := by
  have h := List.takeWhile_append_dropWhile (p := fun e => decide (e.1 < a)) (l := m.toList)
  rw [← take_rank] at h
  conv at h => rhs; rw [← List.take_append_drop (m.rank a) m.toList]
  exact (List.append_cancel_left h).symm

theorem rank_le_size (m : AddressMap α) (a : Address) : m.rank a ≤ m.entries.size := by
  rw [rank_eq]
  simpa [toList] using
    (List.takeWhile_sublist (l := m.toList) fun e => decide (e.1 < a)).length_le

/-- The entry at the rank of the address, if it is the address's own. -/
def get? (m : AddressMap α) (a : Address) : Option α :=
  match m.entries[m.rank a]? with
  | some (b, x) => if b = a then some x else none
  | none => none

theorem lt_of_mem_take_rank (m : AddressMap α) {a : Address} {e : Address × α}
    (he : e ∈ m.toList.take (m.rank a)) : e.1 < a := by
  rw [take_rank] at he
  simpa using List.all_eq_true.mp List.all_takeWhile e he

theorem le_of_mem_drop_rank (m : AddressMap α) {a : Address} {e : Address × α}
    (he : e ∈ m.toList.drop (m.rank a)) : a ≤ e.1 := by
  rw [drop_rank] at he
  exact m.ascending.le_of_mem_dropWhile e he

theorem ascending_set (m : AddressMap α) {a : Address} {x : α} (y : α)
    (hi : m.entries[m.rank a]? = some (a, x)) :
    Ascending (m.entries.setIfInBounds (m.rank a) (a, y)).toList := by
  refine m.ascending.of_fst (List.ext_getElem? fun j => ?_)
  rw [← Array.getElem?_toList] at hi
  simp only [Array.toList_setIfInBounds, List.getElem?_map, List.getElem?_set]
  split
  · rename_i hj
    subst hj
    obtain ⟨hlt, -⟩ := List.getElem?_eq_some_iff.mp hi
    simpa [hi] using hlt
  · rfl

theorem insertIdx_eq {β : Type} (x : β) (l : List β) (i : Nat) (hi : i ≤ l.length) :
    l.insertIdx i x = l.take i ++ x :: l.drop i := by
  induction l generalizing i with
  | nil => simp_all
  | cons y l ih =>
    cases i with
    | zero => rfl
    | succ i => simpa using ih i (by simpa using hi)

theorem ascending_insertIdx (m : AddressMap α) {a : Address} (y : α)
    (hi : ∀ x, m.entries[m.rank a]? ≠ some (a, x)) :
    Ascending (m.entries.insertIdx (m.rank a) (a, y) (m.rank_le_size a)).toList := by
  have hdrop : ∀ e ∈ m.toList.drop (m.rank a), a < e.1 := by
    cases hd : m.toList.drop (m.rank a) with
    | nil => simp
    | cons d rest =>
      have hrank : m.entries[m.rank a]? = some d := by
        have := congrArg List.head? hd
        rwa [List.head?_drop, toList, Array.getElem?_toList] at this
      have hlt : a < d.1 := by
        refine UInt16.lt_of_le_of_ne (m.le_of_mem_drop_rank (by simp [hd])) fun heq => ?_
        exact hi d.2 (by rw [hrank, heq])
      have hasc : Ascending (d :: rest) := hd ▸ m.ascending.sublist (List.drop_sublist _ _)
      intro e he
      rcases List.mem_cons.mp he with rfl | he
      · exact hlt
      · exact UInt16.lt_trans hlt (List.rel_of_pairwise_cons hasc he)
  rw [Array.toList_insertIdx, insertIdx_eq _ _ _ (by simpa using m.rank_le_size a)]
  refine List.pairwise_append.mpr ⟨m.ascending.sublist (List.take_sublist _ _),
    List.pairwise_cons.mpr ⟨hdrop, m.ascending.sublist (List.drop_sublist _ _)⟩, ?_⟩
  intro d hd e he
  have hda := m.lt_of_mem_take_rank hd
  rcases List.mem_cons.mp he with rfl | he
  · exact hda
  · exact UInt16.lt_trans hda (hdrop e he)

/-- Gives the address the value that `f` makes of its present one. -/
def alter (m : AddressMap α) (a : Address) (f : Option α → α) : AddressMap α :=
  match hi : m.entries[m.rank a]? with
  | some (b, x) =>
    if hb : b = a then
      ⟨m.entries.setIfInBounds (m.rank a) (a, f (some x)), m.ascending_set _ (hb ▸ hi)⟩
    else
      ⟨m.entries.insertIdx (m.rank a) (a, f none) (m.rank_le_size a),
        m.ascending_insertIdx _ fun y h => hb (by simp_all)⟩
  | none =>
    ⟨m.entries.insertIdx (m.rank a) (a, f none) (m.rank_le_size a),
      m.ascending_insertIdx _ fun y h => by simp_all⟩

def map {β : Type} (f : α → β) (m : AddressMap α) : AddressMap β :=
  ⟨m.entries.map fun e => (e.1, f e.2), by
    simpa using m.ascending.map (fun e => (e.1, f e.2)) fun _ => rfl⟩

/-- Applies `f` to the value of the entry at a position; beyond the last entry nothing changes. -/
def modifyAt (m : AddressMap α) (i : Nat) (f : α → α) : AddressMap α :=
  ⟨m.entries.modify i fun e => (e.1, f e.2), by
    refine m.ascending.of_fst (List.ext_getElem? fun j => ?_)
    simp only [List.getElem?_map, Array.getElem?_toList, Array.getElem?_modify]
    split
    · cases m.entries[j]? <;> rfl
    · rfl⟩

end AddressMap

end WordLink
