import WordLink.Session

/-!
# Feeding a session

What becomes of a session depends on the bytes it gets and on their order. The pieces in which they
come, how many of them a read asks for, and the sources that end or fail in between make no
difference (`turns_are_one_feed`).
-/
namespace WordLink

theorem Counters.foldl_apply (c : Counters) (events : List Event) :
    events.foldl apply c =
      ⟨c.bytes, c.words + events.countP (!·.isBoundary),
        c.boundaries + events.countP Event.isBoundary⟩ := by
  induction events generalizing c with
  | nil => rfl
  | cons event rest ih =>
    rw [List.foldl_cons, ih]
    cases event <;>
      simp [apply, Event.isBoundary, List.countP_cons, Nat.add_assoc, Nat.add_comm 1]

namespace Session

theorem foldl_handle (s : Session) (events : List Event) :
    events.foldl handle s =
      { s with
        panel := events.foldl Panel.dispatch s.panel
        image := s.image.map fun i => events.foldl Image.apply i
        counters := events.foldl Counters.apply s.counters } := by
  induction events generalizing s with
  | nil => simp
  | cons event rest ih =>
    rw [List.foldl_cons, ih]
    simp [handle, Function.comp_def]

/-- Everything in a session that bytes can change is changed by what the receiver makes of them. -/
theorem feed_eq (s : Session) (bytes : List UInt8) :
    s.feed bytes =
      { s with
        receiver := (s.receiver.push bytes).1
        panel := (s.receiver.push bytes).2.foldl Panel.dispatch s.panel
        image := s.image.map fun i => (s.receiver.push bytes).2.foldl Image.apply i
        counters := (s.receiver.push bytes).2.foldl Counters.apply
          { s.counters with bytes := s.counters.bytes + bytes.length } } :=
  foldl_handle _ _

theorem feed_nil (s : Session) : s.feed [] = s := by
  simp [feed_eq]

theorem feed_append (s : Session) (xs ys : List UInt8) :
    s.feed (xs ++ ys) = (s.feed xs).feed ys := by
  simp only [feed_eq, Receiver.push_append, List.foldl_append, Option.map_map, Function.comp_def,
    Counters.foldl_apply, List.length_append, Nat.add_assoc]

theorem foldl_feed (s : Session) (chunks : List (List UInt8)) :
    chunks.foldl feed s = s.feed chunks.flatten := by
  induction chunks generalizing s with
  | nil => exact s.feed_nil.symm
  | cons bytes rest ih => rw [List.foldl_cons, ih, List.flatten_cons, feed_append]

end Session

/-! ### What a source hands over -/

namespace Reading

variable {size : Nat}

theorem flatten_cut (size : Nat) (done : List (List UInt8)) (data : List UInt8) :
    (cut size done data).flatten = done.reverse.flatten ++ data := by
  induction done, data using cut.induct size with
  | case1 done data h =>
    rw [cut, if_pos h]
    simp
  | case2 done data h ih =>
    rw [cut, if_neg h, ih]
    simp

theorem cut_bounded (hsize : 0 < size) {done : List (List UInt8)} {data : List UInt8}
    (hdata : data ≠ []) (hdone : ∀ c ∈ done, c ≠ [] ∧ c.length ≤ size) :
    ∀ c ∈ cut size done data, c ≠ [] ∧ c.length ≤ size := by
  induction done, data using cut.induct size with
  | case1 done data h =>
    have hshort : data.length ≤ size := by
      rcases h with h | h
      · omega
      · simpa using h
    rw [cut, if_pos h]
    intro c hc
    rcases List.mem_cons.mp (List.mem_reverse.mp hc) with rfl | hc
    · exact ⟨hdata, hshort⟩
    · exact hdone c hc
  | case2 done data h ih =>
    rw [cut, if_neg h]
    have hlong : data.drop size ≠ [] := fun hnil => h (Or.inr (by simp [hnil]))
    have hfull : data.take size ≠ [] := by
      simp only [ne_eq, List.take_eq_nil_iff, hdata, or_false]
      omega
    exact ih hlong (List.forall_mem_cons.mpr ⟨⟨hfull, List.length_take_le ..⟩, hdone⟩)

theorem ofOffers_bytes {data : List UInt8} (hdata : data ≠ []) (rest : List Offer) :
    ofOffers size (.bytes data :: rest) = (pieces size data).map bytes ++ ofOffers size rest := by
  cases data with
  | nil => exact absurd rfl hdata
  | cons b data => rfl

end Reading

namespace Offer

def data : Offer → List UInt8
  | bytes data => data
  | failure _ => []
  | notReady => []

/-- Whether a run goes on behind the offer. -/
def goesOn : Offer → Bool
  | bytes data => !data.isEmpty
  | failure _ => false
  | notReady => true

/-- The bytes that a source hands over before it ends or fails. -/
def handed (source : List Offer) : List UInt8 := (source.takeWhile goesOn).flatMap data

/-- The failure of a source, if it does not end before. -/
def failure? (source : List Offer) : Option String :=
  match source.find? (!·.goesOn) with
  | some (failure message) => some message
  | _ => none

/-- A source is read in pieces, none of them empty or more than was asked for, up to a read that
brings no data. -/
theorem exists_readings {size : Nat} (hsize : 0 < size) (source : List Offer) :
    ∃ chunks : List (List UInt8), chunks.flatten = handed source ∧
      (∀ c ∈ chunks, c ≠ [] ∧ c.length ≤ size) ∧
      Reading.ofOffers size source =
        chunks.map Reading.bytes ++ [(failure? source).elim .ended .failed] := by
  induction source with
  | nil => exact ⟨[], rfl, by simp, rfl⟩
  | cons offer rest ih =>
    obtain ⟨chunks, hflatten, hbounded, hreadings⟩ := ih
    cases offer with
    | notReady => exact ⟨chunks, hflatten, hbounded, hreadings⟩
    | failure message => exact ⟨[], rfl, by simp, rfl⟩
    | bytes data =>
      cases data with
      | nil => exact ⟨[], rfl, by simp, rfl⟩
      | cons b data =>
        have hdata : b :: data ≠ [] := List.cons_ne_nil b data
        refine ⟨Reading.pieces size (b :: data) ++ chunks, ?_, fun c hc => ?_, ?_⟩
        · rw [List.flatten_append, Reading.pieces, Reading.flatten_cut, hflatten]
          rfl
        · rcases List.mem_append.mp hc with hc | hc
          · exact Reading.cut_bounded hsize hdata (by simp) c hc
          · exact hbounded c hc
        · rw [Reading.ofOffers_bytes hdata, hreadings, List.map_append, List.append_assoc]
          rfl

end Offer

/-! ### Turns -/

/-- What is done with a session: it is fed some bytes or run on a source. -/
inductive Turn where
  | feed (bytes : List UInt8)
  | run (source : List Offer)

def Turn.bytes : Turn → List UInt8
  | feed bytes => bytes
  | run source => Offer.handed source

namespace Session

def turn (s : Session) : Turn → Session
  | .feed bytes => s.feed bytes
  | .run source => (s.run source).1

/-- How a run on the source ends if the pieces are what it reads. -/
def Outcome.of (source : List Offer) (chunks : List (List UInt8)) : Outcome :=
  match Offer.failure? source with
  | some message => ⟨.error (.read message), chunks.map List.length⟩
  | none => ⟨.ok (), chunks.map List.length ++ [0]⟩

theorem take_bytes (s : Session) (sizes : List Nat) (chunks : List (List UInt8))
    (rest : List Reading) :
    s.take sizes (chunks.map Reading.bytes ++ rest) =
      (s.feed chunks.flatten).take ((chunks.map List.length).reverse ++ sizes) rest := by
  induction chunks generalizing s sizes with
  | nil => rw [List.flatten_nil, feed_nil]; rfl
  | cons data chunks ih =>
    rw [List.map_cons, List.cons_append, take, ih, List.flatten_cons, feed_append]
    simp

theorem exists_run_eq (s : Session) (hsize : 0 < s.readSize) (source : List Offer) :
    ∃ chunks : List (List UInt8), chunks.flatten = Offer.handed source ∧
      (∀ c ∈ chunks, c ≠ [] ∧ c.length ≤ s.readSize) ∧
      s.run source = (s.feed (Offer.handed source), .of source chunks) := by
  obtain ⟨chunks, hflatten, hbounded, hreadings⟩ := Offer.exists_readings hsize source
  refine ⟨chunks, hflatten, hbounded, ?_⟩
  rw [run, hreadings, take_bytes, hflatten, Outcome.of]
  cases Offer.failure? source with
  | none => simp [take]
  | some message => simp [take]

theorem foldl_turn (s : Session) (hsize : 0 < s.readSize) (turns : List Turn) :
    turns.foldl turn s = s.feed (turns.flatMap Turn.bytes) := by
  induction turns generalizing s with
  | nil => exact s.feed_nil.symm
  | cons t rest ih =>
    have hturn : s.turn t = s.feed t.bytes := by
      cases t with
      | feed bytes => rfl
      | run source =>
        obtain ⟨chunks, -, -, hrun⟩ := s.exists_run_eq hsize source
        rw [turn, hrun]
        rfl
    rw [List.foldl_cons, hturn, ih _ (by rwa [feed_eq]), List.flatMap_cons, feed_append]

/-- A new session with listeners. -/
def opened (settings : Receiver.Settings) (readSize : Nat) (withImage : Bool) (panel : Panel) :
    Session :=
  { build settings readSize withImage with panel }

/-- Whatever a session is fed and whatever sources it is run on, and however many bytes a read asks
for, it ends up as if all the bytes had been fed to it at once. Its listeners are told, in order, of
what a receiver reports of these bytes, and the counters count just that. A run ends well at the
first read that gets nothing or with the error of the first that fails; all bytes read before count,
and the session can go on. -/
theorem turns_are_one_feed (settings : Receiver.Settings) (readSize : Nat) (withImage : Bool)
    (panel : Panel) (turns : List Turn) :
    let s := turns.foldl turn (opened settings readSize withImage panel)
    let bytes := turns.flatMap Turn.bytes
    let events := ((Receiver.ofSettings settings).push bytes).2
    s = (opened settings readSize withImage panel).feed bytes ∧
    (∀ otherSize, s = { (opened settings otherSize withImage panel).feed bytes with
      readSize := max readSize 1 }) ∧
    s.panel = events.foldl Panel.dispatch panel ∧
    s.counters =
      ⟨bytes.length, events.countP (!·.isBoundary), events.countP Event.isBoundary⟩ ∧
    ∀ source, ∃ chunks : List (List UInt8), chunks.flatten = Offer.handed source ∧
      (∀ c ∈ chunks, c ≠ [] ∧ c.length ≤ max readSize 1) ∧
      s.run source =
        ((opened settings readSize withImage panel).feed (bytes ++ Offer.handed source),
          .of source chunks) := by
  intro s bytes events
  have hsize : 0 < (opened settings readSize withImage panel).readSize :=
    Nat.lt_of_lt_of_le Nat.zero_lt_one (Nat.le_max_right ..)
  have hs : s = (opened settings readSize withImage panel).feed bytes := foldl_turn _ hsize turns
  have hreadSize : s.readSize = max readSize 1 := by
    rw [hs, feed_eq]
    rfl
  refine ⟨hs, ?_, ?_, ?_, ?_⟩
  · intro otherSize
    rw [hs, feed_eq, feed_eq]
    rfl
  · rw [hs, feed_eq]
    rfl
  · rw [hs, feed_eq, Counters.foldl_apply]
    simp [opened, build, events]
  · intro source
    rw [feed_append, ← hs, ← hreadSize]
    exact s.exists_run_eq (by rw [hreadSize]; exact hsize) source

end Session

end WordLink
