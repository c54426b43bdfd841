import Qse.Xma.Model

/-!
# Rounded sizes and chain indices

The rounding of a request, `szlog2` and `getxfi` are computed in wrapping word arithmetic.
-/

namespace Qse.Xma

open MachineWord

/-- The request survives rounding up to `ALIGN`. -/
def RoundsUp (size : ℕ) : Prop := size + (ALIGN - 1) < 2 ^ 64

instance (size : ℕ) : Decidable (RoundsUp size) := inferInstanceAs (Decidable (_ < _))

theorem alignToPow2_eq {num : ℕ} (h : RoundsUp num) : alignToPow2 num = (num + 15) / 16 * 16 := by
  simp only [RoundsUp, ALIGN] at h
  have hadd : wordAdd num (ALIGN - 1) = num + 15 := wordAdd_eq h
  rw [alignToPow2, hadd, land_highMask (by omega) (by omega)]
  norm_num

variable {size n : ℕ}

theorem roundSize_eq (h : RoundsUp size) : roundSize size = (max size 16 + 15) / 16 * 16 := by
  simp only [RoundsUp, ALIGN] at h
  have hmax : (if size < MINALLOCSIZE then MINALLOCSIZE else size) = max size 16 := by
    rw [MINALLOCSIZE]
    rcases lt_or_ge size 16 with hs | hs
    · rw [if_pos hs]
      omega
    · rw [if_neg (by omega)]
      omega
  rw [roundSize, hmax, alignToPow2_eq]
  simp only [RoundsUp, ALIGN]
  omega

theorem le_roundSize (h : RoundsUp size) : size ≤ roundSize size := by
  rw [roundSize_eq h]
  omega

theorem align_le_roundSize (h : RoundsUp size) : 16 ≤ roundSize size := by
  rw [roundSize_eq h]
  omega

theorem roundSize_lt (h : RoundsUp size) : roundSize size < 2 ^ 64 := by
  rw [roundSize_eq h]
  simp only [RoundsUp, ALIGN] at h
  omega

theorem roundSize_of_wrap (hsize : size < 2 ^ 64) (h : ¬RoundsUp size) : roundSize size = 0 := by
  simp only [RoundsUp, ALIGN] at h
  have hif : (if size < MINALLOCSIZE then MINALLOCSIZE else size) = size :=
    if_neg (by simp only [MINALLOCSIZE]; omega)
  have hlt : wordAdd size (ALIGN - 1) < 2 ^ 4 := by
    simp only [wordAdd, ALIGN]
    omega
  rw [roundSize, hif, alignToPow2]
  exact (land_highMask_eq_zero_iff (by omega) (by omega)).mpr hlt

/-- A halving step brings the leading one of `n` into the upper `k` bits and
keeps `n * 2 ^ x` up to the shift it made. -/
theorem szlog2Step_spec {k x : ℕ} (hk : k ≤ 32) (hn : n < 2 ^ 64) (hlow : 2 ^ (64 - 2 * k) ≤ n) :
    ∃ j, j ≤ k ∧ szlog2Step k (x, n) = (x - j, n * 2 ^ j) ∧
      2 ^ (64 - k) ≤ n * 2 ^ j ∧ n * 2 ^ j < 2 ^ 64 := by
  have hiff := land_highMask_eq_zero_iff hn (show 64 - k ≤ 64 by omega)
  have hpow : (2 : ℕ) ^ (64 - k) * 2 ^ k = 2 ^ 64 := by
    rw [← pow_add, Nat.sub_add_cancel (by omega)]
  have hpow' : (2 : ℕ) ^ (64 - 2 * k) * 2 ^ k = 2 ^ (64 - k) := by
    rw [← pow_add]
    congr 1
    omega
  by_cases hsmall : n < 2 ^ (64 - k)
  · have hlt : n * 2 ^ k < 2 ^ 64 := by
      rw [← hpow]
      exact Nat.mul_lt_mul_of_pos_right hsmall (Nat.two_pow_pos k)
    refine ⟨k, le_refl k, ?_, ?_, hlt⟩
    · rw [szlog2Step, if_pos (hiff.mpr hsmall), Nat.shiftLeft_eq, Nat.mod_eq_of_lt hlt]
    · rw [← hpow']
      exact Nat.mul_le_mul_right _ hlow
  · refine ⟨0, Nat.zero_le k, ?_, ?_, ?_⟩
    · rw [szlog2Step, if_neg (fun hzero => hsmall (hiff.mp hzero)), Nat.sub_zero, pow_zero,
      mul_one]
    · rw [pow_zero, mul_one]
      exact Nat.le_of_not_lt hsmall
    · rwa [pow_zero, mul_one]

theorem szlog2_eq_log2 (hpos : 0 < n) (hn : n < 2 ^ 64) : szlog2 n = Nat.log2 n := by
  obtain ⟨a, ha, h1, l1, u1⟩ := szlog2Step_spec (x := 63) (show 32 ≤ 32 by omega) hn
    (by simpa using Nat.succ_le_of_lt hpos)
  obtain ⟨b, hb, h2, l2, u2⟩ := szlog2Step_spec (x := 63 - a) (show 16 ≤ 32 by omega) u1 l1
  obtain ⟨c, hc, h3, l3, u3⟩ := szlog2Step_spec (x := 63 - a - b) (show 8 ≤ 32 by omega) u2 l2
  obtain ⟨d, hd, h4, l4, u4⟩ :=
    szlog2Step_spec (x := 63 - a - b - c) (show 4 ≤ 32 by omega) u3 l3
  obtain ⟨e, he, h5, l5, u5⟩ :=
    szlog2Step_spec (x := 63 - a - b - c - d) (show 2 ≤ 32 by omega) u4 l4
  -- the shifts made so far add up to `j`
  have hprod : n * 2 ^ a * 2 ^ b * 2 ^ c * 2 ^ d * 2 ^ e = n * 2 ^ (a + b + c + d + e) := by
    simp only [pow_add, mul_assoc]
  have hval : szlog2 n = if n * 2 ^ (a + b + c + d + e) < 2 ^ 63 then 63 - a - b - c - d - e - 1
      else 63 - a - b - c - d - e := by
    have hiff := land_highMask_eq_zero_iff u5 (show 63 ≤ 64 by omega)
    rw [szlog2, h1, h2, h3, h4, h5]
    simp only [hiff]
    rw [hprod]
  rw [hprod] at l5 u5
  generalize hj : a + b + c + d + e = j at *
  have hlog : ∀ x, x + j = 62 ∨ x + j = 63 → 2 ^ (x + j) ≤ n * 2 ^ j →
      n * 2 ^ j < 2 ^ (x + j + 1) → x = Nat.log2 n := by
    intro x _ hlo hhi
    have hlo' : 2 ^ x ≤ n := by
      rw [pow_add] at hlo
      exact Nat.le_of_mul_le_mul_right hlo (Nat.two_pow_pos j)
    have hhi' : n < 2 ^ (x + 1) := by
      rw [show x + j + 1 = x + 1 + j by omega, pow_add] at hhi
      exact Nat.lt_of_mul_lt_mul_right hhi
    exact ((Nat.log2_eq_iff (by omega)).mpr ⟨hlo', hhi'⟩).symm
  have hj62 : j ≤ 62 := by omega
  rw [hval]
  split
  · next hlt =>
      refine hlog _ (.inl (by omega)) ?_ ?_
      · rw [show 63 - a - b - c - d - e - 1 + j = 62 by omega]
        exact l5
      · rw [show 63 - a - b - c - d - e - 1 + j + 1 = 63 by omega]
        exact hlt
  · next hge =>
      refine hlog _ (.inr (by omega)) ?_ ?_
      · rw [show 63 - a - b - c - d - e + j = 63 by omega]
        omega
      · rw [show 63 - a - b - c - d - e + j + 1 = 64 by omega]
        exact u5

def classOf (size : ℕ) : ℕ := getxfi (szlog2 (FIXED * ALIGN)) size

theorem bdec_eq : szlog2 (FIXED * ALIGN) = 9 := by decide

theorem classOf_small (hlo : 16 ≤ size) (hhi : size < 528) : classOf size = size / 16 - 1 := by
  have hsub : wordSub (size / 16) 1 = size / 16 - 1 := wordSub_eq (by omega) (by omega)
  simp only [classOf, getxfi, ALIGN, FIXED, XFIMAX, hsub]
  rw [if_neg (show ¬32 ≤ size / 16 - 1 by omega), if_neg (by omega)]

theorem classOf_large (hlo : 528 ≤ size) (hhi : size < 2 ^ 64) :
    classOf size = Nat.log2 size + 23 := by
  have hsub : wordSub (size / 16) 1 = size / 16 - 1 := wordSub_eq (by omega) (by omega)
  have hlog := szlog2_eq_log2 (show 0 < size by omega) hhi
  have hlog9 : 9 ≤ Nat.log2 size := by
    rw [Nat.le_log2 (by omega)]
    omega
  have hlog63 : Nat.log2 size < 64 := (Nat.log2_lt (by omega)).mpr hhi
  have hdec : wordSub (Nat.log2 size) 9 = Nat.log2 size - 9 := wordSub_eq hlog9 (by omega)
  have hinc : wordAdd (Nat.log2 size - 9) 32 = Nat.log2 size - 9 + 32 := wordAdd_eq (by omega)
  have hbdec : szlog2 (32 * 16) = 9 := bdec_eq
  simp only [classOf, getxfi, ALIGN, FIXED, XFIMAX, hsub, hlog, hbdec, hdec, hinc]
  rw [if_pos (show 32 ≤ size / 16 - 1 by omega), if_neg (by omega)]
  omega

theorem log2_le_log2 {m : ℕ} (hm : 0 < m) (h : m ≤ n) : Nat.log2 m ≤ Nat.log2 n := by
  rw [Nat.le_log2 (by omega)]
  exact (Nat.log2_self_le (by omega)).trans h

theorem classOf_mono {m : ℕ} (hm : 16 ≤ m) (h : m ≤ n) (hn : n < 2 ^ 64) :
    classOf m ≤ classOf n := by
  by_cases hn' : n < 528
  · rw [classOf_small hm (by omega), classOf_small (by omega) hn']
    omega
  have hlog9 : 9 ≤ Nat.log2 n := by
    rw [Nat.le_log2 (by omega)]
    omega
  rw [classOf_large (by omega) hn]
  by_cases hm' : m < 528
  · rw [classOf_small hm hm']
    omega
  · rw [classOf_large (by omega) (by omega)]
    have := log2_le_log2 (by omega) h
    omega

theorem classOf_le (hlo : 16 ≤ size) (hhi : size < 2 ^ 64) : classOf size ≤ 86 := by
  by_cases h : size < 528
  · rw [classOf_small hlo h]
    omega
  · have hlog63 : Nat.log2 size < 64 := (Nat.log2_lt (by omega)).mpr hhi
    rw [classOf_large (by omega) hhi]
    omega

theorem fixed_le_classOf_iff (hlo : 16 ≤ size) (hhi : size < 2 ^ 64) :
    FIXED ≤ classOf size ↔ 528 ≤ size := by
  simp only [FIXED]
  by_cases h : size < 528
  · rw [classOf_small hlo h]
    omega
  · have hlog9 : 9 ≤ Nat.log2 size := by
      rw [Nat.le_log2 (by omega)]
      omega
    rw [classOf_large (by omega) hhi]
    omega

theorem le_of_classOf_eq {s : ℕ} (hn : RoundsUp n) (hlo : 16 ≤ s) (hhi : s < 2 ^ 64)
    (hfix : classOf (roundSize n) < FIXED) (heq : classOf s = classOf (roundSize n)) :
    roundSize n ≤ s ∧ s - roundSize n < 16 := by
  have hrlo := align_le_roundSize hn
  have hrhi := roundSize_lt hn
  have hr : roundSize n < 528 := by
    by_contra hlarge
    exact absurd ((fixed_le_classOf_iff hrlo hrhi).mpr (Nat.le_of_not_lt hlarge)) (by omega)
  have hs : s < 528 := by
    by_contra hlarge
    have hle := (fixed_le_classOf_iff hlo hhi).mpr (Nat.le_of_not_lt hlarge)
    omega
  rw [classOf_small hlo hs, classOf_small hrlo hr] at heq
  have hmul := roundSize_eq hn
  omega

end Qse.Xma
