import WordLink.Proofs.JsonText

/-!
# Reading JSON texts

The scanner takes every text of a value apart into the same tokens, and the builder puts a value
together again from its tokens, whatever is still open around it. So every text of a value is read
as that value (`parse?_of_writtenAs`).
-/
namespace WordLink.Json

/-! ### The tokens of a value -/

mutual

def Value.tokens : Value → List Token
  | .null => [.null]
  | .bool b => [.bool b]
  | .number n => [.number n]
  | .string units => [.string units]
  | .array [] => [.openArray, .closeArray]
  | .array (v :: rest) => .openArray :: (v.tokens ++ furtherItems rest)
  | .object [] => [.openObject, .closeObject]
  | .object ((name, v) :: rest) =>
    .openObject :: .string name :: .colon :: (v.tokens ++ furtherMembers rest)

/-- The items behind the first one, and the end of the array. -/
def furtherItems : List Value → List Token
  | [] => [.closeArray]
  | v :: rest => .comma :: (v.tokens ++ furtherItems rest)

/-- The members behind the first one, and the end of the object. -/
def furtherMembers : List (Units × Value) → List Token
  | [] => [.closeObject]
  | (name, v) :: rest => .comma :: .string name :: .colon :: (v.tokens ++ furtherMembers rest)

end

/-! ### The builder -/

namespace Builder

/-- No value begins with the end of an array. -/
theorem run_firstItem (v : Value) (stack : List Frame) (rest : List Token) :
    (firstItem stack).run (v.tokens ++ rest) =
      (value (.array [] :: stack)).run (v.tokens ++ rest) := by
  rcases v with _ | _ | _ | _ | (_ | _) | (_ | ⟨⟨_, _⟩, _⟩) <;> rfl

mutual

theorem run_tokens : ∀ (v : Value) (stack : List Frame) (rest : List Token),
    (value stack).run (v.tokens ++ rest) = (follow stack v).run rest
  | .null, _, _ => rfl
  | .bool _, _, _ => rfl
  | .number _, _, _ => rfl
  | .string _, _, _ => rfl
  | .array [], _, _ => rfl
  | .object [], _, _ => rfl
  | .array (v :: items), stack, rest => by
    calc (value stack).run ((Value.array (v :: items)).tokens ++ rest)
        = (firstItem stack).run (v.tokens ++ (furtherItems items ++ rest)) := by
          rw [Value.tokens, List.cons_append, List.append_assoc]
          rfl
      _ = (follow (.array [] :: stack) v).run (furtherItems items ++ rest) := by
          rw [run_firstItem, run_tokens v]
      _ = (follow stack (.array (v :: items))).run rest := run_furtherItems items v [] stack rest
  | .object ((name, v) :: members), stack, rest => by
    calc (value stack).run ((Value.object ((name, v) :: members)).tokens ++ rest)
        = (value (.object [] name :: stack)).run
            (v.tokens ++ (furtherMembers members ++ rest)) := by
          rw [Value.tokens, List.cons_append, List.cons_append, List.cons_append, List.append_assoc]
          rfl
      _ = (follow (.object [] name :: stack) v).run (furtherMembers members ++ rest) :=
          run_tokens v _ _
      _ = (follow stack (.object ((name, v) :: members))).run rest :=
          run_furtherMembers members name v [] stack rest

theorem run_furtherItems : ∀ (items : List Value) (v : Value) (done : List Value)
    (stack : List Frame) (rest : List Token),
    (follow (.array done :: stack) v).run (furtherItems items ++ rest) =
      (follow stack (.array (done.reverse ++ v :: items))).run rest
  | [], v, done, stack, rest => by
    rw [← List.reverse_cons]
    rfl
  | w :: items, v, done, stack, rest => by
    calc (follow (.array done :: stack) v).run (furtherItems (w :: items) ++ rest)
        = (value (.array (v :: done) :: stack)).run (w.tokens ++ (furtherItems items ++ rest)) := by
          rw [furtherItems, List.cons_append, List.append_assoc]
          rfl
      _ = (follow (.array (v :: done) :: stack) w).run (furtherItems items ++ rest) :=
          run_tokens w _ _
      _ = (follow stack (.array ((v :: done).reverse ++ w :: items))).run rest :=
          run_furtherItems items w _ _ _
      _ = (follow stack (.array (done.reverse ++ v :: w :: items))).run rest := by
          rw [List.reverse_cons, List.append_assoc]
          rfl

theorem run_furtherMembers : ∀ (members : List (Units × Value)) (name : Units) (v : Value)
    (done : List (Units × Value)) (stack : List Frame) (rest : List Token),
    (follow (.object done name :: stack) v).run (furtherMembers members ++ rest) =
      (follow stack (.object (done.reverse ++ (name, v) :: members))).run rest
  | [], name, v, done, stack, rest => by
    rw [← List.reverse_cons]
    rfl
  | (name', w) :: members, name, v, done, stack, rest => by
    calc (follow (.object done name :: stack) v).run
          (furtherMembers ((name', w) :: members) ++ rest)
        = (value (.object ((name, v) :: done) name' :: stack)).run
            (w.tokens ++ (furtherMembers members ++ rest)) := by
          rw [furtherMembers, List.cons_append, List.cons_append, List.cons_append,
            List.append_assoc]
          rfl
      _ = (follow (.object ((name, v) :: done) name' :: stack) w).run
            (furtherMembers members ++ rest) := run_tokens w _ _
      _ = (follow stack (.object (((name, v) :: done).reverse ++ (name', w) :: members))).run
          rest :=
          run_furtherMembers members name' w _ _ _
      _ = (follow stack (.object (done.reverse ++ (name, v) :: (name', w) :: members))).run
          rest := by
          rw [List.reverse_cons, List.append_assoc]
          rfl

end

end Builder

/-! ### The scanner -/

namespace Scanner

/-- What may stand right behind a value or a name. -/
def enders : List Char := [' ', '\t', '\n', '\r', ',', ':', ']', '\x7d']

def Ends (text : List Char) : Prop := ∀ c ∈ text.head?, c ∈ enders

/-- The text is taken apart into the tokens, if what is behind it does not run on. -/
def Scans (text : List Char) (tokens : List Token) : Prop :=
  ∀ rest, Ends rest → between.run #[] (text ++ rest) = (between.run #[] rest).map (tokens ++ ·)

/-- The scanner gets over the text and emits nothing. -/
def Passes (s : Scanner) (text : List Char) (s' : Scanner) : Prop :=
  ∀ rest, s.run #[] (text ++ rest) = s'.run #[] rest

theorem run_eq (s : Scanner) (done : Array Token) (text : List Char) :
    s.run done text = (s.run #[] text).map (done.toList ++ ·) := by
  induction text generalizing s done with
  | nil => simp [run]
  | cons c rest ih =>
    rw [run, run]
    cases s.step c with
    | none => rfl
    | some next =>
      obtain ⟨s', tokens⟩ := next
      simp only
      rw [ih s' (done ++ tokens), ih s' (#[] ++ tokens)]
      simp [Function.comp_def]

theorem run_step {s s' : Scanner} {c : Char} {tokens : List Token}
    (h : s.step c = some (s', tokens))
    (rest : List Char) : s.run #[] (c :: rest) = (s'.run #[] rest).map (tokens ++ ·) := by
  rw [run, h]
  simp only
  rw [run_eq]
  simp

theorem passes_step {s s' : Scanner} {c : Char} (h : s.step c = some (s', [])) :
    Passes s [c] s' := by
  intro rest
  rw [List.singleton_append, run_step h]
  simp

theorem Passes.trans {s s' s'' : Scanner} {text more : List Char} (h : Passes s text s')
    (h' : Passes s' more s'') : Passes s (text ++ more) s'' := by
  intro rest
  rw [List.append_assoc, h, h']

theorem ends_append {text rest : List Char} (h : Ends text) (hrest : Ends rest) :
    Ends (text ++ rest) := by
  cases text with
  | nil => exact hrest
  | cons c text => exact h

theorem ends_cons {c : Char} {text : List Char} (h : c ∈ enders) : Ends (c :: text) := by
  rintro d ⟨⟩
  exact h

theorem scans_nil : Scans [] [] := by
  intro rest _
  simp

theorem Scans.cons {c : Char} {text : List Char} {first tokens : List Token}
    (hc : start c = some (between, first)) (h : Scans text tokens) :
    Scans (c :: text) (first ++ tokens) := by
  intro rest hrest
  have hstep : between.step c = some (between, first) := hc
  rw [List.cons_append, run_step hstep, h rest hrest]
  simp [Function.comp_def]

theorem Scans.append {text more : List Char} {tokens further : List Token} (h : Scans text tokens)
    (h' : Scans more further) (hmore : Ends more) : Scans (text ++ more) (tokens ++ further) := by
  intro rest hrest
  rw [List.append_assoc, h _ (ends_append hmore hrest), h' rest hrest]
  simp [Function.comp_def]

theorem scans_of_run {text : List Char} {tokens : List Token}
    (h : ∀ rest, between.run #[] (text ++ rest) = between.run tokens.toArray rest) :
    Scans text tokens := by
  intro rest _
  rw [h, run_eq]

/-! #### Blanks -/

theorem scans_blank_append {blank text : List Char} {tokens : List Token} (hblank : Blank blank)
    (h : Scans text tokens) : Scans (blank ++ text) tokens := by
  induction blank with
  | nil => exact h
  | cons c rest ih =>
    have hc : start c = some (between, []) := by
      rcases hblank c List.mem_cons_self with rfl | rfl | rfl | rfl <;> rfl
    exact (ih fun d hd => hblank d (List.mem_cons_of_mem _ hd)).cons hc

theorem ends_blank {blank : List Char} (h : Blank blank) : Ends blank := by
  intro c hc
  rcases h c (List.mem_of_mem_head? hc) with rfl | rfl | rfl | rfl <;> decide

/-! #### Strings -/

theorem escaped?_of_mem {letter : Char} {unit : UInt16} (h : (letter, unit) ∈ escapes) :
    letter ≠ 'u' ∧ escaped? letter = some unit := by
  have hall : ∀ e ∈ escapes, e.1 ≠ 'u' ∧ escaped? e.1 = some e.2 := by decide
  exact hall _ h

theorem hexDigit?_of_mem {c : Char} {d : Nat} (h : (c, d) ∈ hexDigits) : hexDigit? c = some d := by
  have hall : ∀ e ∈ hexDigits, hexDigit? e.1 = some e.2 := by decide
  exact hall _ h

theorem passes_characters {units : Units} {text : List Char} (h : Characters units text)
    (before : Units) : Passes (string before) text (string (units.reverse ++ before)) := by
  induction h generalizing before with
  | none => exact fun rest => rfl
  | @plain c units text hplain _ ih =>
    obtain ⟨hquote, hslash, hcontrol⟩ := of_decide_eq_true hplain
    have hstep : (string before).step c = some (string ((unitsOf c).reverse ++ before), []) := by
      simp [step, hquote, hslash, Nat.not_lt.mpr hcontrol]
    rw [List.reverse_append, List.append_assoc]
    exact (passes_step hstep).trans (ih _)
  | @escaped letter unit units text hletter _ ih =>
    obtain ⟨hu, hunit⟩ := escaped?_of_mem hletter
    have hstep : (escape before).step letter = some (string (unit :: before), []) := by
      simp [step, hu, hunit]
    have hslash : (string before).step '\\' = some (escape before, []) := rfl
    rw [List.reverse_cons, List.append_assoc]
    exact (passes_step hslash).trans ((passes_step hstep).trans (ih _))
  | @hex a b c d i j k l units text ha hb hc hd _ ih =>
    have hslash : (string before).step '\\' = some (escape before, []) := rfl
    have hu : (escape before).step 'u' = some (unicode before 4 0, []) := rfl
    have hfirst : (unicode before 4 0).step a = some (unicode before 3 i, []) := by
      simp [step, hexDigit?_of_mem ha]
    have hsecond : (unicode before 3 i).step b = some (unicode before 2 (16 * i + j), []) := by
      simp [step, hexDigit?_of_mem hb]
    have hthird : (unicode before 2 (16 * i + j)).step c =
        some (unicode before 1 (16 * (16 * i + j) + k), []) := by
      simp [step, hexDigit?_of_mem hc]
    have hfourth : (unicode before 1 (16 * (16 * i + j) + k)).step d =
        some (string (UInt16.ofNat (16 * (16 * (16 * i + j) + k) + l) :: before), []) := by
      simp only [step, hexDigit?_of_mem hd]
      rfl
    rw [List.reverse_cons, List.append_assoc]
    exact (passes_step hslash).trans ((passes_step hu).trans ((passes_step hfirst).trans
      ((passes_step hsecond).trans ((passes_step hthird).trans ((passes_step hfourth).trans
        (ih _))))))

theorem scans_string {units : Units} {text : List Char} (h : Characters units text) :
    Scans ('\"' :: (text ++ ['\"'])) [.string units] := by
  refine scans_of_run fun rest => ?_
  calc between.run #[] ('\"' :: (text ++ ['\"']) ++ rest)
      = (string []).run #[] (text ++ '\"' :: rest) := by
        rw [List.cons_append, List.append_assoc]
        rfl
    _ = (string (units.reverse ++ [])).run #[] ('\"' :: rest) := passes_characters h [] _
    _ = between.run [.string units].toArray rest := by
        rw [List.append_nil, run]
        simp [step]

/-! #### Numbers -/

theorem digit?_digitChar {d : Nat} (h : d < 10) : digit? (digitChar d) = some d := by
  have hall : ∀ d < 10, digit? (digitChar d) = some d := by decide
  exact hall d h

theorem passes_extend {stage stage' : Stage} {n n' : Number} {c : Char}
    (h : extend stage n c = some (stage', n')) :
    Passes (number stage n) [c] (number stage' n') := by
  apply passes_step
  simp [step, h]

theorem passes_digits (stage : Stage) (add : Number → Nat → Number)
    (hadd : ∀ n d, d < 10 → extend stage n (digitChar d) = some (stage, add n d)) (n : Number)
    {digits : List Nat} (h : ∀ d ∈ digits, d < 10) :
    Passes (number stage n) (digits.map digitChar) (number stage (digits.foldl add n)) := by
  induction digits generalizing n with
  | nil => exact fun rest => rfl
  | cons d digits ih =>
    have hd := hadd n d (h d List.mem_cons_self)
    exact (passes_extend hd).trans (ih _ fun e he => h e (List.mem_cons_of_mem _ he))

theorem foldl_addWhole (n : Number) (digits : List Nat) :
    digits.foldl addWhole n = { n with whole := digits.reverse ++ n.whole } := by
  induction digits generalizing n with
  | nil => rfl
  | cons d digits ih => simp [ih, addWhole]

theorem foldl_addFraction (n : Number) (digits : List Nat) :
    digits.foldl addFraction n = { n with fraction := digits.reverse ++ n.fraction } := by
  induction digits generalizing n with
  | nil => rfl
  | cons d digits ih => simp [ih, addFraction]

theorem foldl_addExponent {n : Number} {e : Exponent} (h : n.exponent = some e)
    (digits : List Nat) :
    digits.foldl addExponent n =
      { n with exponent := some { e with digits := digits.reverse ++ e.digits } } := by
  induction digits generalizing n e with
  | nil =>
    obtain ⟨negative, whole, fraction, exponent⟩ := n
    cases h
    rfl
  | cons d digits ih =>
    have hadd : (addExponent n d).exponent = some { e with digits := d :: e.digits } := by
      simp [addExponent, h]
    rw [List.foldl_cons, ih hadd]
    simp [addExponent]

theorem passes_whole (negative : Bool) {digits : List Nat} (h : Digits digits)
    (hzero : digits.head? = some 0 → digits = [0]) :
    ∃ stage, (stage = .zero ∨ stage = .whole) ∧
      Passes between (Number.signText negative ++ digits.map digitChar)
        (number stage ⟨negative, digits.reverse, [], none⟩) := by
  obtain ⟨hne, hdigits⟩ := h
  obtain ⟨d, rest, rfl⟩ := List.exists_cons_of_ne_nil hne
  have hd : d < 10 := hdigits d List.mem_cons_self
  -- Behind a first zero the scanner takes no digit, behind any other it takes all the others.
  have hfirst : Passes between (Number.signText negative ++ [digitChar d])
      (number (if d = 0 then .zero else .whole) ⟨negative, [d], [], none⟩) := by
    cases negative with
    | false =>
      have hall : ∀ d < 10, start (digitChar d) =
          some (number (if d = 0 then .zero else .whole) ⟨false, [d], [], none⟩, []) := by decide
      exact passes_step (hall d hd)
    | true =>
      have hsign : between.step '-' = some (number .sign ⟨true, [], [], none⟩, []) := rfl
      have hextend : extend .sign ⟨true, [], [], none⟩ (digitChar d) =
          some (if d = 0 then .zero else .whole, ⟨true, [d], [], none⟩) := by
        simp [extend, digit?_digitChar hd, addWhole]
      exact (passes_step hsign).trans (passes_extend hextend)
  by_cases hd0 : d = 0
  · subst hd0
    rw [hzero rfl]
    exact ⟨.zero, .inl rfl, hfirst⟩
  · rw [if_neg hd0] at hfirst
    have hrest : Passes (number .whole ⟨negative, [d], [], none⟩) (rest.map digitChar)
        (number .whole ⟨negative, (d :: rest).reverse, [], none⟩) := by
      have hall := passes_digits .whole addWhole
        (fun n e he => by simp [extend, digit?_digitChar he]) ⟨negative, [d], [], none⟩
        fun e he => hdigits e (List.mem_cons_of_mem _ he)
      rwa [foldl_addWhole, ← List.reverse_cons] at hall
    refine ⟨.whole, .inr rfl, ?_⟩
    rw [List.map_cons, ← List.singleton_append, ← List.append_assoc]
    exact hfirst.trans hrest

theorem passes_fraction {stage : Stage} (hstage : stage = .zero ∨ stage = .whole) {n : Number}
    (hn : n.fraction = []) {digits : List Nat} (h : ∀ d ∈ digits, d < 10) :
    ∃ stage', (stage' = .zero ∨ stage' = .whole ∨ stage' = .fraction) ∧
      Passes (number stage n) (Number.fractionText digits)
        (number stage' { n with fraction := digits.reverse }) := by
  cases digits with
  | nil =>
    have hsame : { n with fraction := [].reverse } = n := by
      rw [List.reverse_nil, ← hn]
    rw [hsame]
    exact ⟨stage, hstage.elim .inl (.inr ∘ .inl), fun rest => rfl⟩
  | cons d digits =>
    have hd : d < 10 := h d List.mem_cons_self
    have hpoint : extend stage n '.' = some (.point, n) := by
      rcases hstage with rfl | rfl <;> rfl
    have hfirst : extend .point n (digitChar d) = some (.fraction, addFraction n d) := by
      simp [extend, digit?_digitChar hd]
    have hrest := passes_digits .fraction addFraction
      (fun n e he => by simp [extend, digit?_digitChar he]) (addFraction n d)
      fun e he => h e (List.mem_cons_of_mem _ he)
    have hall : { addFraction n d with fraction := digits.reverse ++ (addFraction n d).fraction } =
        { n with fraction := (d :: digits).reverse } := by
      simp [addFraction, hn]
    rw [foldl_addFraction, hall] at hrest
    exact ⟨.fraction, .inr (.inr rfl),
      (passes_extend hpoint).trans ((passes_extend hfirst).trans hrest)⟩

/-- The digits of an exponent, behind its letter and its sign. -/
theorem passes_exponentDigits {stage : Stage} (hstage : stage = .letter ∨ stage = .exponentSign)
    {n : Number} {negative : Bool} (hn : n.exponent = some ⟨negative, []⟩) {digits : List Nat}
    (h : Digits digits) :
    Passes (number stage n) (digits.map digitChar)
      (number .exponent { n with exponent := some ⟨negative, digits.reverse⟩ }) := by
  obtain ⟨hne, hdigits⟩ := h
  obtain ⟨d, rest, rfl⟩ := List.exists_cons_of_ne_nil hne
  have hd : d < 10 := hdigits d List.mem_cons_self
  have hfirst : extend stage n (digitChar d) = some (.exponent, addExponent n d) := by
    rcases hstage with rfl | rfl <;> simp [extend, digit?_digitChar hd]
  have hadd : (addExponent n d).exponent = some ⟨negative, [d]⟩ := by
    simp [addExponent, hn]
  have hrest := passes_digits .exponent addExponent
    (fun n e he => by simp [extend, digit?_digitChar he]) (addExponent n d)
    fun e he => hdigits e (List.mem_cons_of_mem _ he)
  rw [foldl_addExponent hadd, ← List.reverse_cons] at hrest
  exact (passes_extend hfirst).trans hrest

theorem passes_exponent {stage : Stage}
    (hstage : stage = .zero ∨ stage = .whole ∨ stage = .fraction) (n : Number) {e : Exponent}
    {text : List Char} (h : e.WrittenAs text) :
    Passes (number stage n) text
      (number .exponent { n with exponent := some { e with digits := e.digits.reverse } }) := by
  have hletter : ∀ {c : Char}, c = 'e' ∨ c = 'E' →
      Passes (number stage n) [c] (number .letter (setExponent n false)) := by
    rintro c (rfl | rfl) <;> rcases hstage with rfl | rfl | rfl <;> exact passes_extend rfl
  cases h with
  | plain hc hdigits =>
    exact (hletter hc).trans (passes_exponentDigits (.inl rfl) rfl hdigits)
  | plus hc hdigits =>
    have hplus : extend .letter (setExponent n false) '+' =
        some (.exponentSign, setExponent n false) := rfl
    exact (hletter hc).trans
      ((passes_extend hplus).trans (passes_exponentDigits (.inr rfl) rfl hdigits))
  | minus hc hdigits =>
    have hminus : extend .letter (setExponent n false) '-' =
        some (.exponentSign, setExponent n true) := rfl
    exact (hletter hc).trans
      ((passes_extend hminus).trans (passes_exponentDigits (.inr rfl) rfl hdigits))

theorem extend_of_mem_enders {c : Char} (hc : c ∈ enders) (stage : Stage) (n : Number) :
    extend stage n c = none := by
  simp only [enders, List.mem_cons, List.not_mem_nil, or_false] at hc
  rcases hc with rfl | rfl | rfl | rfl | rfl | rfl | rfl | rfl <;> cases stage <;> rfl

/-- A number is complete when something stands behind it that cannot belong to it. -/
theorem run_number {stage : Stage} (hstage : stage.complete = true) (n : Number) {rest : List Char}
    (hrest : Ends rest) :
    (number stage n).run #[] rest = (between.run #[] rest).map ([.number (written n)] ++ ·) := by
  cases rest with
  | nil => simp [run, finish, hstage]
  | cons c rest =>
    have hnone := extend_of_mem_enders (hrest c rfl) stage n
    cases hstart : start c with
    | none => simp [run, step, hnone, hstage, hstart]
    | some next =>
      have hfirst : between.step c = some (next.1, next.2) := hstart
      have hnumber : (number stage n).step c = some (next.1, .number (written n) :: next.2) := by
        simp [step, hnone, hstage, hstart]
      rw [run_step hfirst, run_step hnumber]
      simp [Function.comp_def]

theorem passes_front {n : Number} (h : n.Plain) :
    ∃ stage, (stage = .zero ∨ stage = .whole ∨ stage = .fraction) ∧
      Passes between
        (Number.signText n.negative ++ n.whole.map digitChar ++ Number.fractionText n.fraction)
        (number stage ⟨n.negative, n.whole.reverse, n.fraction.reverse, none⟩) := by
  obtain ⟨stage, hstage, hwhole⟩ := passes_whole n.negative h.whole h.leading
  obtain ⟨stage', hstage', hfraction⟩ := passes_fraction hstage
    (n := ⟨n.negative, n.whole.reverse, [], none⟩) rfl h.fraction
  exact ⟨stage', hstage', hwhole.trans hfraction⟩

theorem scans_number {n : Number} {text : List Char} (h : n.WrittenAs text) :
    Scans text [.number n] := by
  obtain ⟨stage, n', hcomplete, hwritten, hpasses⟩ : ∃ stage n', stage.complete = true ∧
      written n' = n ∧ Passes between text (number stage n') := by
    obtain ⟨negative, whole, fraction, exponent⟩ := n
    cases h with
    | short hplain hnone =>
      cases hnone
      obtain ⟨stage, hstage, hfront⟩ := passes_front hplain
      refine ⟨stage, _, ?_, ?_, hfront⟩
      · rcases hstage with rfl | rfl | rfl <;> rfl
      · simp [written]
    | long hplain hsome he =>
      cases hsome
      obtain ⟨stage, hstage, hfront⟩ := passes_front hplain
      refine ⟨.exponent, _, rfl, ?_, hfront.trans (passes_exponent hstage _ he)⟩
      simp [written]
  intro rest hrest
  rw [hpasses, run_number hcomplete n' hrest, hwritten]

/-! #### Values -/

theorem furtherItems_eq (items : List Value) :
    furtherItems items = (items.flatMap fun v => .comma :: v.tokens) ++ [.closeArray] := by
  induction items with
  | nil => rfl
  | cons v rest ih => simp [furtherItems, ih]

theorem furtherMembers_eq (members : List (Units × Value)) :
    furtherMembers members =
      (members.flatMap fun m => .comma :: .string m.1 :: .colon :: m.2.tokens) ++
        [.closeObject] := by
  induction members with
  | nil => rfl
  | cons m rest ih => simp [furtherMembers, ih]

/-- Parts with commas between them and an end, part by part. -/
theorem scans_joined {part : α → List Char} {tokens : α → List Token} {close : Char}
    {last : List Token} (hclose : close ∈ enders) (hlast : Scans [close] last) (first : α)
    (rest : List α) (h : ∀ p ∈ first :: rest, Scans (part p) (tokens p)) :
    Scans ([','].intercalate ((first :: rest).map part) ++ [close])
      (tokens first ++ ((rest.flatMap fun p => .comma :: tokens p) ++ last)) := by
  induction rest generalizing first with
  | nil =>
    rw [List.map_singleton, List.intercalate_singleton]
    exact (h first List.mem_cons_self).append hlast (ends_cons hclose)
  | cons next rest ih =>
    have hcomma : start ',' = some (between, [.comma]) := rfl
    have hrest := ih next fun p hp => h p (List.mem_cons_of_mem _ hp)
    have hall := (h first List.mem_cons_self).append (hrest.cons hcomma) (ends_cons (by decide))
    simpa only [List.map_cons, List.intercalate_cons_cons, List.flatMap_cons, List.append_assoc,
      List.cons_append, List.nil_append] using hall

theorem start_openArray : start '[' = some (between, [.openArray]) := rfl

theorem start_openObject : start '\x7b' = some (between, [.openObject]) := rfl

theorem scans_closeArray : Scans [']'] [.closeArray] := scans_of_run fun _ => rfl

theorem scans_closeObject : Scans ['\x7d'] [.closeObject] := scans_of_run fun _ => rfl

theorem scans_tokens {v : Value} {text : List Char} (h : v.WrittenAs text) :
    Scans text v.tokens := by
  induction h with
  | null => exact scans_of_run fun rest => rfl
  | true => exact scans_of_run fun rest => rfl
  | false => exact scans_of_run fun rest => rfl
  | number h => exact scans_number h
  | string h => exact scans_string h
  | emptyArray h =>
    exact (scans_blank_append h scans_closeArray).cons start_openArray
  | @array items _ ih =>
    cases items with
    | nil => exact scans_closeArray.cons start_openArray
    | cons item rest =>
      have hitems := scans_joined (by decide) scans_closeArray item rest ih
      rw [List.map_cons (f := Prod.fst), Value.tokens, furtherItems_eq, List.flatMap_map]
      exact hitems.cons start_openArray
  | emptyObject h =>
    exact (scans_blank_append h scans_closeObject).cons start_openObject
  | @object members _ _ ihname ihvalue =>
    have hcolon : start ':' = some (between, [.colon]) := rfl
    cases members with
    | nil => exact scans_closeObject.cons start_openObject
    | cons member rest =>
      have hpart : ∀ m ∈ member :: rest,
          Scans m.text (.string m.name :: .colon :: m.value.tokens) := fun m hm =>
        (ihname m hm).append ((ihvalue m hm).cons hcolon) (ends_cons (by decide))
      have hmembers := scans_joined (by decide) scans_closeObject member rest hpart
      rw [List.map_cons (f := WrittenMember.member), WrittenMember.member, Value.tokens,
        furtherMembers_eq, List.flatMap_map]
      exact hmembers.cons start_openObject
  | @padded v before text after hbefore hafter _ ih =>
    have hend : Scans (text ++ after) (v.tokens ++ []) := by
      have hblank := scans_blank_append hafter scans_nil
      rw [List.append_nil] at hblank
      exact ih.append hblank (ends_blank hafter)
    rw [List.append_nil] at hend
    rw [List.append_assoc]
    exact scans_blank_append hbefore hend

end Scanner

theorem tokens?_of_writtenAs {v : Value} {text : List Char} (h : v.WrittenAs text) :
    tokens? text = some v.tokens := by
  have hscans := Scanner.scans_tokens h [] (fun _ hc => nomatch hc)
  rw [List.append_nil] at hscans
  rw [tokens?, hscans]
  simp [Scanner.run, Scanner.finish]

theorem parse?_of_writtenAs {v : Value} {text : String} (h : v.WrittenAs text.toList) :
    Value.parse? text = some v := by
  have hbuilt := Builder.run_tokens v [] []
  rw [List.append_nil] at hbuilt
  rw [Value.parse?, tokens?_of_writtenAs h]
  exact hbuilt

end WordLink.Json
