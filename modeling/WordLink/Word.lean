/-!
# Words and their bytes

The link carries 16-bit words at 16-bit addresses, each as two bytes with the low one first.
Main statements: the two bytes determine the word (`ofBytes_low_high`) and every pair of bytes
is the pair of exactly one word (`low_ofBytes`, `high_ofBytes`).
-/
namespace WordLink

abbrev Address := UInt16

abbrev Word := UInt16

namespace Word

def low (w : Word) : UInt8 := UInt8.ofNat (w.toNat % 256)

def high (w : Word) : UInt8 := UInt8.ofNat (w.toNat / 256)

def ofBytes (low high : UInt8) : Word := UInt16.ofNat (low.toNat + 256 * high.toNat)

/-- The two bytes in the order in which they travel. -/
def bytes (w : Word) : List UInt8 := [w.low, w.high]

def withLow (w : Word) (b : UInt8) : Word := ofBytes b w.high

def withHigh (w : Word) (b : UInt8) : Word := ofBytes w.low b

theorem toNat_low (w : Word) : w.low.toNat = w.toNat % 256 := by
  simp [low]

theorem toNat_high (w : Word) : w.high.toNat = w.toNat / 256 := by
  have := w.toNat_lt
  simp only [high, UInt8.toNat_ofNat']
  omega

theorem toNat_ofBytes (l h : UInt8) : (ofBytes l h).toNat = l.toNat + 256 * h.toNat := by
  have := l.toNat_lt
  have := h.toNat_lt
  simp only [ofBytes, UInt16.toNat_ofNat']
  omega

@[simp] theorem ofBytes_low_high (w : Word) : ofBytes w.low w.high = w := by
  apply UInt16.toNat_inj.mp
  rw [toNat_ofBytes, toNat_low, toNat_high]
  omega

@[simp] theorem low_ofBytes (l h : UInt8) : (ofBytes l h).low = l := by
  apply UInt8.toNat_inj.mp
  have := l.toNat_lt
  rw [toNat_low, toNat_ofBytes]
  omega

@[simp] theorem high_ofBytes (l h : UInt8) : (ofBytes l h).high = h := by
  apply UInt8.toNat_inj.mp
  have := l.toNat_lt
  rw [toNat_high, toNat_ofBytes]
  omega

@[simp] theorem low_withLow (w : Word) (b : UInt8) : (w.withLow b).low = b := low_ofBytes ..

/-- Counting down by the two bytes of a word wraps below 2. -/
theorem toNat_sub_one_sub_one (w : Word) : (w - 1 - 1).toNat = (w.toNat + 65534) % 65536 := by
  simp [UInt16.toNat_sub]
  omega

end Word

end WordLink
