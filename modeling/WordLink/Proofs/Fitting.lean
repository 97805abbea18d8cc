import WordLink.Proofs.Agreement

/-!
# Fields that fit

A gauge is put up for a field that passes its check and for no other. So the words of every gauge on
a panel lie within the address space, however many gauges have come and gone.
-/
namespace WordLink

namespace Field

/-- The shift stays inside the word; a text is not empty and ends where the addresses end, at the
latest. -/
def Fits : Field → Prop
  | integer f => f.shift < 16
  | text f => f.length ≠ 0 ∧ f.address.toNat + f.length.toNat ≤ 0x10000

instance : (field : Field) → Decidable field.Fits
  | integer f => inferInstanceAs (Decidable (f.shift < 16))
  | text f =>
    inferInstanceAs (Decidable (f.length ≠ 0 ∧ f.address.toNat + f.length.toNat ≤ 0x10000))

/-- Where the words of the field are, on a line that does not wrap. -/
def places : Field → List Nat
  | integer f => [f.address.toNat]
  | text f => (List.range ((f.length.toNat + 1) / 2)).map (f.address.toNat + 2 * ·)

theorem gauge_cases (field : Field) :
    (∃ g, field.gauge = .ok g ∧ g.field = field ∧ field.Fits) ∨
      ∃ cause, field.gauge = .error cause ∧ ¬ field.Fits := by
  cases field with
  | integer f =>
    by_cases hshift : f.shift < 16
    · refine .inl ⟨.integer { field := f }, ?_, rfl, hshift⟩
      simp only [gauge, IntegerField.check, if_pos hshift]
    · refine .inr ⟨.shiftOutOfRange f.shift f.address, ?_, hshift⟩
      simp only [gauge, IntegerField.check, if_neg hshift]
  | text f =>
    by_cases hlength : f.length = 0
    · refine .inr ⟨.emptyText f.address, ?_, fun h => h.1 hlength⟩
      simp only [gauge, TextField.check, if_pos hlength]
    by_cases hend : f.address.toNat + f.length.toNat > 0x10000
    · refine .inr ⟨.textPastEnd f.address f.length, ?_, fun h => absurd h.2 (Nat.not_le_of_lt hend)⟩
      simp only [gauge, TextField.check, if_neg hlength, if_pos hend]
    · refine .inl ⟨.text (.ofField f), ?_, rfl, hlength, Nat.le_of_not_lt hend⟩
      simp only [gauge, TextField.check, if_neg hlength, if_neg hend]

theorem gauge_ok {field : Field} {g : Gauge} (h : field.gauge = .ok g) :
    g.field = field ∧ field.Fits := by
  rcases field.gauge_cases with ⟨g', hg', hfield, hfits⟩ | ⟨cause, hcause, -⟩
  · obtain rfl := Except.ok.inj (hg'.symm.trans h)
    exact ⟨hfield, hfits⟩
  · cases hcause.symm.trans h

end Field

namespace Gauge

theorem field_hear (event : Event) (g : Gauge) : (g.hear event).field = g.field := by
  cases g with
  | integer g => cases event <;> rfl
  | text g =>
    cases event with
    | word a data => exact congrArg Field.text (g.field_see a data)
    | boundary => exact congrArg Field.text g.field_publish

/-- The addresses of a gauge do not wrap. -/
theorem toNat_addresses {g : Gauge} (h : g.field.Fits) :
    g.addresses.map UInt16.toNat = g.field.places := by
  cases g with
  | integer g => rfl
  | text g =>
    obtain ⟨-, hend⟩ := h
    rw [addresses, TextField.addresses, List.map_map]
    refine List.map_congr_left fun i hi => ?_
    have hi : i < (g.field.length.toNat + 1) / 2 := List.mem_range.mp hi
    have hlt : g.field.address.toNat + 2 * i < 65536 := by omega
    simp only [Function.comp_apply, UInt16.toNat_add, UInt16.toNat_ofNat']
    omega

end Gauge

namespace Panel

variable {p : Panel} {m : Mount} {g : Gauge}

/-- Every gauge there has been follows a field that fits. -/
def Fitting (p : Panel) : Prop :=
  ∀ l ∈ p.listeners.toList, ∀ g, l.gauge? = some g → g.field.Fits

theorem Fitting.step (h : p.Fitting) (t : Task) : (p.step t).1.Fitting := by
  cases t with
  | call k event =>
    refine forall_call h (fun l hl g hg => ?_) k
    obtain ⟨name, role, outspoken, script⟩ := l
    cases role with
    | plain => cases hg
    | gauge g' =>
      obtain rfl := Option.some.inj hg
      rw [Gauge.field_hear]
      exact hl g' rfl
  | act name command =>
    refine (p.effect_perform command).enlists.forall_listeners h fun l _ hnew g hg => ?_
    obtain ⟨field, hok⟩ := hnew g hg
    obtain ⟨hfield, hfits⟩ := Field.gauge_ok hok
    exact hfield ▸ hfits
  | note name reply => exact h

/-- A gauge follows the same field for good, be it up or not. -/
theorem field_step (h : p.gaugeAt m = some g) (t : Task) :
    ∃ k, (p.step t).1.gaugeAt m = some k ∧ k.field = g.field := by
  cases t with
  | call k event =>
    rw [Panel.step, gaugeAt_call, h]
    split
    · exact ⟨g.hear event, rfl, g.field_hear event⟩
    · exact ⟨g, rfl, rfl⟩
  | act name command =>
    have hsame := (p.effect_perform command).enlists.gaugeAt (lt_size_of_gaugeAt h)
    exact ⟨g, hsame.trans h, rfl⟩
  | note name reply => exact ⟨g, h, rfl⟩

theorem Stands.fits (h : p.Stands m g) (hp : p.Fitting) : g.field.Fits := by
  have hg := h.gauge
  rw [gaugeAt_eq] at hg
  obtain ⟨l, hl, hg⟩ := Option.bind_eq_some_iff.mp hg
  exact hp l (List.mem_of_getElem? (by rwa [Array.getElem?_toList])) g hg

end Panel

end WordLink
