import Mathlib.Data.Nat.Bitwise
import Mathlib.Data.Nat.Log
import Mathlib.Tactic.Ring

/-!
# Bit fields as arithmetic

Shifts and masks of small machine words, read as quotients and remainders. With
these lemmas a statement about repacked bits becomes one that `omega` decides.
-/

namespace BitFields

theorem mul_or (hi : ℕ) {lo k : ℕ} (h : lo < 2 ^ k) : hi * 2 ^ k ||| lo = hi * 2 ^ k + lo := by
  rw [mul_comm, ← Nat.two_pow_add_eq_or_of_lt h]

theorem and_ones (n k : ℕ) : n &&& (2 ^ k - 1) = n % 2 ^ k :=
  Nat.and_two_pow_sub_one_eq_mod n k

theorem toNat_shiftRight (a : UInt8) {k : UInt8} (hk : k.toNat < 8) :
    (a >>> k).toNat = a.toNat / 2 ^ k.toNat := by
  rw [UInt8.toNat_shiftRight, Nat.mod_eq_of_lt hk, Nat.shiftRight_eq_div_pow]

theorem toNat_mask (a m : UInt8) (k : ℕ) (hm : m.toNat = 2 ^ k - 1) :
    (a &&& m).toNat = a.toNat % 2 ^ k := by
  rw [UInt8.toNat_and, hm, and_ones]

theorem toNat_shiftLeft_or {a b k : UInt8} (hk : k.toNat < 8)
    (ha : a.toNat * 2 ^ k.toNat < 2 ^ 8) (hb : b.toNat < 2 ^ k.toNat) :
    (a <<< k ||| b).toNat = a.toNat * 2 ^ k.toNat + b.toNat := by
  rw [UInt8.toNat_or, UInt8.toNat_shiftLeft, Nat.mod_eq_of_lt hk, Nat.shiftLeft_eq,
    Nat.mod_eq_of_lt ha, mul_or _ hb]

theorem toNat_repack {a b m k j : UInt8} {i : ℕ} (hm : m.toNat = 2 ^ i - 1)
    (hk : k.toNat < 8) (hj : j.toNat < 8) (hroom : i + k.toNat ≤ 8)
    (hlow : b.toNat / 2 ^ j.toNat < 2 ^ k.toNat) :
    ((a &&& m) <<< k ||| b >>> j).toNat =
      a.toNat % 2 ^ i * 2 ^ k.toNat + b.toNat / 2 ^ j.toNat := by
  have hhigh := toNat_mask a m i hm
  have hright := toNat_shiftRight b hj
  rw [toNat_shiftLeft_or hk, hhigh, hright]
  · rw [hhigh]
    calc a.toNat % 2 ^ i * 2 ^ k.toNat
        < 2 ^ i * 2 ^ k.toNat :=
          Nat.mul_lt_mul_of_pos_right (Nat.mod_lt _ (Nat.two_pow_pos i)) (Nat.two_pow_pos _)
      _ = 2 ^ (i + k.toNat) := (Nat.pow_add 2 i k.toNat).symm
      _ ≤ 2 ^ 8 := Nat.pow_le_pow_right (by omega) hroom
  · rwa [hright]

theorem word_toNat_shiftRight (a : UInt32) {k : UInt32} (hk : k.toNat < 32) :
    (a >>> k).toNat = a.toNat / 2 ^ k.toNat := by
  rw [UInt32.toNat_shiftRight, Nat.mod_eq_of_lt hk, Nat.shiftRight_eq_div_pow]

theorem word_toNat_mask (a m : UInt32) (k : ℕ) (hm : m.toNat = 2 ^ k - 1) :
    (a &&& m).toNat = a.toNat % 2 ^ k := by
  rw [UInt32.toNat_and, hm, and_ones]

theorem word_toNat_shiftLeft_or {a b k : UInt32} (hk : k.toNat < 32)
    (ha : a.toNat * 2 ^ k.toNat < 2 ^ 32) (hb : b.toNat < 2 ^ k.toNat) :
    (a <<< k ||| b).toNat = a.toNat * 2 ^ k.toNat + b.toNat := by
  rw [UInt32.toNat_or, UInt32.toNat_shiftLeft, Nat.mod_eq_of_lt hk, Nat.shiftLeft_eq,
    Nat.mod_eq_of_lt ha, mul_or _ hb]

theorem word_toNat_or_marker (a m : UInt32) (k hi : ℕ) (hm : m.toNat = hi * 2 ^ k)
    (ha : a.toNat < 2 ^ k) : (a ||| m).toNat = m.toNat + a.toNat := by
  rw [UInt32.toNat_or, Nat.or_comm, hm, mul_or _ ha]

end BitFields

/-!
## Arithmetic of 64-bit unsigned machine words

Words are natural numbers below `2 ^ 64`; `wordAdd` and `wordSub` wrap. The
lemmas say when an operation does not wrap, and what masking off the low bits
of a word does.
-/

namespace MachineWord

def wordAdd (a b : ℕ) : ℕ := (a + b) % 2 ^ 64

def wordSub (a b : ℕ) : ℕ := (a + (2 ^ 64 - b)) % 2 ^ 64

/-- The word whose bits from `j` upwards are set: `~0 << j`. -/
def highMask (j : ℕ) : ℕ := 2 ^ 64 - 2 ^ j

theorem wordAdd_eq {a b : ℕ} (h : a + b < 2 ^ 64) : wordAdd a b = a + b :=
  Nat.mod_eq_of_lt h

theorem wordSub_eq {a b : ℕ} (h : b ≤ a) (ha : a < 2 ^ 64) : wordSub a b = a - b := by
  rw [wordSub]
  omega

theorem land_highMask {n j : ℕ} (hn : n < 2 ^ 64) (hj : j ≤ 64) :
    n &&& highMask j = n / 2 ^ j * 2 ^ j := by
  have hmask : highMask j = (2 ^ (64 - j) - 1) <<< j := by
    have hpow : (2 : ℕ) ^ (64 - j) * 2 ^ j = 2 ^ 64 := by
      rw [← pow_add, Nat.sub_add_cancel hj]
    rw [highMask, Nat.shiftLeft_eq, Nat.sub_mul, hpow, one_mul]
  have hdiv : n / 2 ^ j * 2 ^ j = (n >>> j) <<< j := by
    rw [Nat.shiftLeft_eq, Nat.shiftRight_eq_div_pow]
  rw [hmask, hdiv]
  apply Nat.eq_of_testBit_eq
  intro i
  simp only [Nat.testBit_and, Nat.testBit_shiftLeft, Nat.testBit_two_pow_sub_one,
    Nat.testBit_shiftRight]
  by_cases hij : j ≤ i
  · by_cases hi : i < 64
    · have hlt : i - j < 64 - j := by omega
      simp [hij, hlt]
    · have hzero : n.testBit i = false :=
        Nat.testBit_lt_two_pow (lt_of_lt_of_le hn (Nat.pow_le_pow_right (by omega) (by omega)))
      simp [hij, hzero]
  · simp [hij]

theorem land_highMask_eq_zero_iff {n j : ℕ} (hn : n < 2 ^ 64) (hj : j ≤ 64) :
    n &&& highMask j = 0 ↔ n < 2 ^ j := by
  have hpos : 0 < 2 ^ j := Nat.two_pow_pos j
  rw [land_highMask hn hj, Nat.mul_eq_zero, Nat.div_eq_zero_iff]
  omega

theorem foldl_digits_mod {α : Type*} (base : ℕ) (digit : α → ℕ) (s : List α) (n : ℕ) :
    s.foldl (fun n c => n * base + digit c) (n % 2 ^ 64) % 2 ^ 64 =
      s.foldl (fun n c => n * base + digit c) n % 2 ^ 64 := by
  induction s generalizing n with
  | nil => exact Nat.mod_mod _ _
  | cons c s ih =>
    have hstep : (n % 2 ^ 64 * base + digit c) % 2 ^ 64 = (n * base + digit c) % 2 ^ 64 := by
      rw [Nat.add_mod, Nat.mul_mod, Nat.mod_mod, ← Nat.mul_mod, ← Nat.add_mod]
    rw [List.foldl_cons, List.foldl_cons, ← ih, ← ih (n * base + _), hstep]

end MachineWord
