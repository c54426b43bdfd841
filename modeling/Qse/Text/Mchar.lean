import Mathlib.Data.Nat.Notation

/-!
# Multibyte characters

A `qse_mchar_t` is a byte.
-/

namespace Qse

def mt (c : Char) : UInt8 := c.toUInt8

theorem forall_byte {p : UInt8 → Prop} (h : ∀ n : Fin 256, p (UInt8.ofNat n)) (b : UInt8) :
    p b := by
  simpa using h ⟨b.toNat, b.toNat_lt⟩

end Qse
