import WordLink.Json.Value

/-!
# JSON texts

A value may be written in many ways: with blanks around any value and any name, with characters of a
string given by escapes, with an exponent in several forms. Here is what the texts of a value are,
said for each kind of value by itself and without a reader. Where a string is text, its units are
those of the text in UTF-16, and no other text has them (`text?_utf16`).
-/
namespace WordLink.Json

def Blank (text : List Char) : Prop := ∀ c ∈ text, c = ' ' ∨ c = '\t' ∨ c = '\n' ∨ c = '\r'

/-! ### Numbers -/

def digitChar (d : Nat) : Char := Char.ofNat (48 + d)

def Digits (digits : List Nat) : Prop := digits ≠ [] ∧ ∀ d ∈ digits, d < 10

inductive Exponent.WrittenAs : Exponent → List Char → Prop where
  | plain {letter digits} : letter = 'e' ∨ letter = 'E' → Digits digits →
      WrittenAs ⟨false, digits⟩ (letter :: digits.map digitChar)
  | plus {letter digits} : letter = 'e' ∨ letter = 'E' → Digits digits →
      WrittenAs ⟨false, digits⟩ (letter :: '+' :: digits.map digitChar)
  | minus {letter digits} : letter = 'e' ∨ letter = 'E' → Digits digits →
      WrittenAs ⟨true, digits⟩ (letter :: '-' :: digits.map digitChar)

namespace Number

def signText (negative : Bool) : List Char := if negative then ['-'] else []

/-- The point is there only if a digit follows it. -/
def fractionText : List Nat → List Char
  | [] => []
  | d :: rest => '.' :: (d :: rest).map digitChar

/-- Only 0 itself begins with 0. -/
structure Plain (n : Number) : Prop where
  whole : Digits n.whole
  leading : n.whole.head? = some 0 → n.whole = [0]
  fraction : ∀ d ∈ n.fraction, d < 10

inductive WrittenAs : Number → List Char → Prop where
  | short {n : Number} : n.Plain → n.exponent = none →
      n.WrittenAs (signText n.negative ++ n.whole.map digitChar ++ fractionText n.fraction)
  | long {n : Number} {e text} : n.Plain → n.exponent = some e → e.WrittenAs text →
      n.WrittenAs (signText n.negative ++ n.whole.map digitChar ++ fractionText n.fraction ++ text)

end Number

/-! ### Strings -/

/-- The letters that stand for a unit of their own behind a backslash. -/
def escapes : List (Char × UInt16) :=
  [('\"', 0x22), ('\\', 0x5C), ('/', 0x2F), ('b', 0x08), ('f', 0x0C), ('n', 0x0A), ('r', 0x0D),
    ('t', 0x09)]

def hexDigits : List (Char × Nat) :=
  "0123456789abcdef".toList.zipIdx ++ "ABCDEF".toList.zipIdx 10

/-- Whether a character stands for itself in a string. -/
def isPlain (c : Char) : Bool := c ≠ '\"' ∧ c ≠ '\\' ∧ 0x20 ≤ c.toNat

/-- What stands between the quotes of a string of these units. -/
inductive Characters : Units → List Char → Prop where
  | none : Characters [] []
  | plain {c units text} : isPlain c = true → Characters units text →
      Characters (unitsOf c ++ units) (c :: text)
  | escaped {letter unit units text} : (letter, unit) ∈ escapes → Characters units text →
      Characters (unit :: units) ('\\' :: letter :: text)
  | hex {a b c d i j k l units text} : (a, i) ∈ hexDigits → (b, j) ∈ hexDigits →
      (c, k) ∈ hexDigits → (d, l) ∈ hexDigits → Characters units text →
      Characters (UInt16.ofNat (16 * (16 * (16 * i + j) + k) + l) :: units)
        ('\\' :: 'u' :: a :: b :: c :: d :: text)

/-! ### Values -/

/-- A member of an object beside the texts for its name and its value. -/
structure WrittenMember where
  name : Units
  nameText : List Char
  value : Value
  valueText : List Char

namespace WrittenMember

def member (m : WrittenMember) : Units × Value := (m.name, m.value)

def text (m : WrittenMember) : List Char := m.nameText ++ ':' :: m.valueText

end WrittenMember

inductive Value.WrittenAs : Value → List Char → Prop where
  | null : WrittenAs .null ['n', 'u', 'l', 'l']
  | true : WrittenAs (.bool true) ['t', 'r', 'u', 'e']
  | false : WrittenAs (.bool false) ['f', 'a', 'l', 's', 'e']
  | number {n text} : n.WrittenAs text → WrittenAs (.number n) text
  | string {units text} : Characters units text →
      WrittenAs (.string units) ('\"' :: (text ++ ['\"']))
  | emptyArray {blank} : Blank blank → WrittenAs (.array []) ('[' :: (blank ++ [']']))
  | array {items : List (Value × List Char)} : (∀ i ∈ items, WrittenAs i.1 i.2) →
      WrittenAs (.array (items.map Prod.fst))
        ('[' :: ([','].intercalate (items.map Prod.snd) ++ [']']))
  | emptyObject {blank} : Blank blank → WrittenAs (.object []) ('\x7b' :: (blank ++ ['\x7d']))
  | object {members : List WrittenMember} :
      (∀ m ∈ members, WrittenAs (.string m.name) m.nameText) →
      (∀ m ∈ members, WrittenAs m.value m.valueText) →
      WrittenAs (.object (members.map WrittenMember.member))
        ('\x7b' :: ([','].intercalate (members.map WrittenMember.text) ++ ['\x7d']))
  | padded {v before text after} : Blank before → Blank after → WrittenAs v text →
      WrittenAs v (before ++ text ++ after)

/-! ### Text in strings -/

def utf16 (s : String) : Units := s.toList.flatMap unitsOf

/-- No character is a surrogate, and all of them are within the range of pairs. -/
theorem toNat_scalar (c : Char) :
    (c.toNat < 0xD800 ∨ 0xDFFF < c.toNat) ∧ c.toNat < 0x110000 := by
  have h := c.valid
  simp only [UInt32.isValidChar, Nat.isValidChar] at h
  change (c.val.toNat < 0xD800 ∨ 0xDFFF < c.val.toNat) ∧ c.val.toNat < 0x110000
  omega

theorem charsOf?_unitsOf (done : List Char) (c : Char) (units : Units) :
    charsOf? done (unitsOf c ++ units) = charsOf? (c :: done) units := by
  obtain ⟨hplain, hbound⟩ := toNat_scalar c
  by_cases hsmall : c.toNat < 0x10000
  · have hunit : (UInt16.ofNat c.toNat).toNat = c.toNat := UInt16.toNat_ofNat_of_lt' hsmall
    have hunits : unitsOf c = [UInt16.ofNat c.toNat] := if_pos hsmall
    rw [hunits]
    cases units with
    | nil => simp [charsOf?, hunit, hplain, Char.ofNat_toNat]
    | cons v rest => simp [charsOf?, hunit, hplain, Char.ofNat_toNat]
  · -- The two units of such a character say how far it is beyond the ones with a unit of their own.
    obtain ⟨offset, hoffset⟩ : ∃ offset, c.toNat = 0x10000 + offset := ⟨c.toNat - 0x10000, by omega⟩
    have hhigh : (UInt16.ofNat (0xD800 + offset / 0x400)).toNat = 0xD800 + offset / 0x400 :=
      UInt16.toNat_ofNat_of_lt' (by rw [UInt16.size]; omega)
    have hlow : (UInt16.ofNat (0xDC00 + offset % 0x400)).toNat = 0xDC00 + offset % 0x400 :=
      UInt16.toNat_ofNat_of_lt' (by rw [UInt16.size]; omega)
    have hunits : unitsOf c =
        [UInt16.ofNat (0xD800 + offset / 0x400), UInt16.ofNat (0xDC00 + offset % 0x400)] := by
      rw [unitsOf, if_neg hsmall, hoffset, Nat.add_sub_cancel_left]
    have hfirst : ¬ (0xD800 + offset / 0x400 < 0xD800 ∨ 0xDFFF < 0xD800 + offset / 0x400) := by
      omega
    have hsecond : 0xD800 + offset / 0x400 < 0xDC00 ∧ 0xDC00 ≤ 0xDC00 + offset % 0x400 ∧
        0xDC00 + offset % 0x400 ≤ 0xDFFF := by omega
    have hchar : 0x10000 + 0x400 * (0xD800 + offset / 0x400 - 0xD800) +
        (0xDC00 + offset % 0x400 - 0xDC00) = c.toNat := by omega
    rw [hunits, List.cons_append, List.cons_append, List.nil_append, charsOf?, hhigh, hlow,
      if_neg hfirst, if_pos hsecond, hchar, Char.ofNat_toNat]

theorem text?_utf16 (s : String) : text? (utf16 s) = some s := by
  have hchars : ∀ (chars done : List Char),
      charsOf? done (chars.flatMap unitsOf) = some (done.reverse ++ chars) := by
    intro chars
    induction chars with
    | nil => simp [charsOf?]
    | cons c rest ih =>
      intro done
      rw [List.flatMap_cons, charsOf?_unitsOf, ih, List.reverse_cons, List.append_assoc]
      rfl
  rw [text?, utf16, hchars, List.reverse_nil, List.nil_append, Option.map_some,
    String.ofList_toList]

end WordLink.Json
