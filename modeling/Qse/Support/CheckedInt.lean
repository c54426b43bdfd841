import Mathlib.Tactic.Linarith

/-!
# Signed integers of 64 bits with undefined operations

The operations that C has on signed integers. An operation is undefined when its result is not an
integer of the type, when it divides by zero, or when a shift count is not less than the width.
-/

namespace CheckedInt

inductive Undefined where
  | overflow
  | trap
  | count
deriving DecidableEq

def Fits (z : ℤ) : Prop := -2 ^ 63 ≤ z ∧ z < 2 ^ 63

instance (z : ℤ) : Decidable (Fits z) := inferInstanceAs (Decidable (_ ∧ _))

def exactly (z : ℤ) : Except Undefined Int64 := if Fits z then .ok (.ofInt z) else .error .overflow

def add (l r : Int64) : Except Undefined Int64 := exactly (l.toInt + r.toInt)

def sub (l r : Int64) : Except Undefined Int64 := exactly (l.toInt - r.toInt)

def mul (l r : Int64) : Except Undefined Int64 := exactly (l.toInt * r.toInt)

def neg (l : Int64) : Except Undefined Int64 := exactly (-l.toInt)

def div (l r : Int64) : Except Undefined Int64 :=
  if r.toInt ≠ 0 ∧ Fits (l.toInt.tdiv r.toInt) then .ok (.ofInt (l.toInt.tdiv r.toInt))
  else .error .trap

def mod (l r : Int64) : Except Undefined Int64 :=
  if r.toInt ≠ 0 ∧ Fits (l.toInt.tdiv r.toInt) then .ok (.ofInt (l.toInt.tmod r.toInt))
  else .error .trap

def shl (l r : Int64) : Except Undefined Int64 :=
  if 0 ≤ r.toInt ∧ r.toInt < 64 then
    if 0 ≤ l.toInt then exactly (l.toInt * 2 ^ r.toInt.toNat) else .error .overflow
  else .error .count

def shr (l r : Int64) : Except Undefined Int64 :=
  if 0 ≤ r.toInt ∧ r.toInt < 64 then .ok (.ofInt (l.toInt / 2 ^ r.toInt.toNat)) else .error .count

/-- `while (k-- > 0) v *= l` -/
def mulLoop (l : Int64) : ℕ → Int64 → Except Undefined Int64
  | 0, v => .ok v
  | k + 1, v => do
    let v ← mul v l
    mulLoop l k v

variable {l r v i : Int64} {z w : ℤ} {k : ℕ}

theorem fits_toInt (l : Int64) : Fits l.toInt := ⟨l.le_toInt, l.toInt_lt⟩

theorem toInt_ofInt (h : Fits z) : (Int64.ofInt z).toInt = z := Int64.toInt_ofInt_of_le h.1 h.2

theorem exactly_eq_ok : exactly z = .ok i ↔ i.toInt = z := by
  unfold exactly
  constructor
  · intro h
    split at h
    · cases h
      exact toInt_ofInt ‹_›
    · cases h
  · rintro rfl
    rw [if_pos (fits_toInt i), Int64.ofInt_toInt]

theorem exists_exactly : (∃ i, exactly z = .ok i) ↔ Fits z := by
  constructor
  · rintro ⟨i, h⟩
    rw [← exactly_eq_ok.1 h]
    exact fits_toInt i
  · exact fun h => ⟨_, if_pos h⟩

theorem fits_tdiv (hr : r.toInt ≠ 0) :
    Fits (l.toInt.tdiv r.toInt) ↔ ¬(l.toInt = -2 ^ 63 ∧ r.toInt = -1) := by
  have hl := fits_toInt l
  unfold Fits at *
  have habs := Int.natAbs_tdiv_le_natAbs l.toInt r.toInt
  constructor
  · rintro ⟨-, hlt⟩ ⟨hmin, hone⟩
    rw [hmin, hone] at hlt
    exact absurd hlt (by decide)
  · intro hcase
    by_cases hone : r.toInt = -1
    · rw [hone, Int.tdiv_neg, Int.tdiv_one]
      omega
    by_cases hzero : l.toInt.tdiv r.toInt < 2 ^ 63
    · omega
    -- the quotient is as large as the dividend only for a divisor of one
    have hmin : l.toInt = -2 ^ 63 := by omega
    have hquo : l.toInt.natAbs / r.toInt.natAbs = (l.toInt.tdiv r.toInt).natAbs :=
      (Int.natAbs_tdiv ..).symm
    by_cases hpos : r.toInt.natAbs = 1
    · have hrone : r.toInt = 1 := by omega
      rw [hrone, Int.tdiv_one] at hzero
      omega
    · have hhalf : l.toInt.natAbs / r.toInt.natAbs ≤ l.toInt.natAbs / 2 :=
        Nat.div_le_div_left (by omega) (by decide)
      omega

theorem div_eq_ok : div l r = .ok i ↔
    r.toInt ≠ 0 ∧ ¬(l.toInt = -2 ^ 63 ∧ r.toInt = -1) ∧ i.toInt = l.toInt.tdiv r.toInt := by
  unfold div
  by_cases hr : r.toInt = 0
  · simp [hr]
  by_cases hcase : l.toInt = -2 ^ 63 ∧ r.toInt = -1
  · rw [if_neg fun h => (fits_tdiv hr).1 h.2 hcase]
    exact ⟨nofun, fun h => absurd hcase h.2.1⟩
  have hfits := (fits_tdiv hr).2 hcase
  rw [if_pos ⟨hr, hfits⟩]
  constructor
  · rintro ⟨⟩
    exact ⟨hr, hcase, toInt_ofInt hfits⟩
  · rintro ⟨-, -, hi⟩
    rw [← hi, Int64.ofInt_toInt]

theorem mod_eq_ok : mod l r = .ok i ↔
    r.toInt ≠ 0 ∧ ¬(l.toInt = -2 ^ 63 ∧ r.toInt = -1) ∧ i.toInt = l.toInt.tmod r.toInt := by
  unfold mod
  by_cases hr : r.toInt = 0
  · simp [hr]
  by_cases hcase : l.toInt = -2 ^ 63 ∧ r.toInt = -1
  · rw [if_neg fun h => (fits_tdiv hr).1 h.2 hcase]
    exact ⟨nofun, fun h => absurd hcase h.2.1⟩
  rw [if_pos ⟨hr, (fits_tdiv hr).2 hcase⟩]
  have hfits : Fits (l.toInt.tmod r.toInt) := by
    have habs := Int.natAbs_tmod l.toInt r.toInt
    have hlt : l.toInt.natAbs % r.toInt.natAbs < r.toInt.natAbs := Nat.mod_lt _ (by omega)
    have hb := fits_toInt r
    unfold Fits at *
    omega
  constructor
  · rintro ⟨⟩
    exact ⟨hr, hcase, toInt_ofInt hfits⟩
  · rintro ⟨-, -, hi⟩
    rw [← hi, Int64.ofInt_toInt]

theorem shl_eq_ok : shl l r = .ok i ↔
    (0 ≤ r.toInt ∧ r.toInt < 64) ∧ 0 ≤ l.toInt ∧ i.toInt = l.toInt * 2 ^ r.toInt.toNat := by
  unfold shl
  by_cases hr : 0 ≤ r.toInt ∧ r.toInt < 64
  · rw [if_pos hr]
    by_cases hl : 0 ≤ l.toInt
    · rw [if_pos hl, exactly_eq_ok]
      exact ⟨fun h => ⟨hr, hl, h⟩, fun h => h.2.2⟩
    · rw [if_neg hl]
      exact ⟨nofun, fun h => absurd h.2.1 hl⟩
  · rw [if_neg hr]
    exact ⟨nofun, fun h => absurd h.1 hr⟩

theorem shr_eq_ok : shr l r = .ok i ↔
    (0 ≤ r.toInt ∧ r.toInt < 64) ∧ i.toInt = l.toInt / 2 ^ r.toInt.toNat := by
  unfold shr
  by_cases hr : 0 ≤ r.toInt ∧ r.toInt < 64
  · rw [if_pos hr]
    have hfits : Fits (l.toInt / 2 ^ r.toInt.toNat) := by
      have hl := fits_toInt l
      have hpos : (0 : ℤ) < 2 ^ r.toInt.toNat := by positivity
      have habs := Int.natAbs_ediv_le_natAbs l.toInt (2 ^ r.toInt.toNat)
      have hneg : l.toInt / 2 ^ r.toInt.toNat < 0 ∨ 0 ≤ l.toInt := by
        by_cases hlz : 0 ≤ l.toInt
        · exact .inr hlz
        · exact .inl (Int.ediv_neg_of_neg_of_pos (by omega) hpos)
      unfold Fits at *
      omega
    constructor
    · rintro ⟨⟩
      exact ⟨hr, toInt_ofInt hfits⟩
    · rintro ⟨-, hi⟩
      rw [← hi, Int64.ofInt_toInt]
  · rw [if_neg hr]
    exact ⟨nofun, fun h => absurd h.1 hr⟩

theorem mulLoop_eq_ok (h : mulLoop l k v = .ok i) : i.toInt = v.toInt * l.toInt ^ k := by
  induction k generalizing v with
  | zero =>
    cases h
    rw [pow_zero, mul_one]
  | succ k ih =>
    rw [mulLoop] at h
    cases hmul : mul v l with
    | error e =>
      rw [hmul] at h
      cases h
    | ok w =>
      rw [hmul] at h
      rw [ih h, exactly_eq_ok.1 hmul, pow_succ', mul_assoc]

theorem fits_pow {j : ℕ} (hjk : j ≤ k) (h : Fits (z ^ k)) : Fits (z ^ j) := by
  obtain rfl | hlt := Nat.eq_or_lt_of_le hjk
  · exact h
  have hj := Int.natAbs_pow z j
  have hk := Int.natAbs_pow z k
  unfold Fits at *
  by_cases hz : z.natAbs ≤ 1
  · have hone : z.natAbs ^ j ≤ 1 := pow_le_one' hz j
    omega
  -- the larger power has at least twice the size
  have htwice : z.natAbs ^ j * 2 ≤ z.natAbs ^ k := by
    calc z.natAbs ^ j * 2 ≤ z.natAbs ^ j * z.natAbs := Nat.mul_le_mul_left _ (by omega)
      _ = z.natAbs ^ (j + 1) := (pow_succ ..).symm
      _ ≤ z.natAbs ^ k := Nat.pow_le_pow_right (by omega) hlt
  omega

theorem mulLoop_defined {j : ℕ} (hv : v.toInt = l.toInt ^ j) (h : Fits (l.toInt ^ (j + k))) :
    ∃ i, mulLoop l k v = .ok i := by
  induction k generalizing v j with
  | zero => exact ⟨v, rfl⟩
  | succ k ih =>
    have hfits : Fits (v.toInt * l.toInt) := by
      rw [hv, ← pow_succ]
      exact fits_pow (by omega) h
    obtain ⟨w, hw⟩ := exists_exactly.2 hfits
    have hmul : mul v l = .ok w := hw
    rw [mulLoop, hmul]
    refine ih (j := j + 1) ?_ ?_
    · rw [exactly_eq_ok.1 hw, hv, pow_succ]
    · rwa [add_right_comm, add_assoc]

end CheckedInt
