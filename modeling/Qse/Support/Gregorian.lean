import Mathlib.Algebra.Order.Ring.Nat

/-!
# The proleptic Gregorian calendar

Days are counted by adding the lengths of years and months. Months and days of a month begin
at 0.
-/

namespace Gregorian

def IsLeap (y : ℕ) : Prop := (4 ∣ y ∧ ¬100 ∣ y) ∨ 400 ∣ y

instance (y : ℕ) : Decidable (IsLeap y) :=
  inferInstanceAs (Decidable ((4 ∣ y ∧ ¬100 ∣ y) ∨ 400 ∣ y))

def yearLength (y : ℕ) : ℕ := if IsLeap y then 366 else 365

def monthLength (y m : ℕ) : ℕ :=
  if m = 1 then if IsLeap y then 29 else 28
  else if m = 3 ∨ m = 5 ∨ m = 8 ∨ m = 10 then 30 else 31

def daysBefore : ℕ → ℕ
  | 0 => 0
  | y + 1 => daysBefore y + yearLength y

def monthsBefore (y : ℕ) : ℕ → ℕ
  | 0 => 0
  | m + 1 => monthsBefore y m + monthLength y m

theorem yearLength_ge (y : ℕ) : 365 ≤ yearLength y := by
  rw [yearLength]
  split <;> omega

theorem monthsBefore_twelve (y : ℕ) : monthsBefore y 12 = yearLength y := by
  rw [yearLength]
  by_cases hleap : IsLeap y
  · simp [monthsBefore, monthLength, hleap]
  · simp [monthsBefore, monthLength, hleap]

theorem monthsBefore_mono (y : ℕ) {m k : ℕ} (hle : m ≤ k) :
    monthsBefore y m ≤ monthsBefore y k := by
  induction hle with
  | refl => exact le_rfl
  | step _ ih => exact le_trans ih (Nat.le_add_right ..)

theorem monthsBefore_add_lt {y m d : ℕ} (hm : m < 12) (hd : d < monthLength y m) :
    monthsBefore y m + d < yearLength y := by
  calc
    monthsBefore y m + d < monthsBefore y (m + 1) := Nat.add_lt_add_left hd _
    _ ≤ monthsBefore y 12 := monthsBefore_mono y hm
    _ = yearLength y := monthsBefore_twelve y

theorem daysBefore_add_ge (y k : ℕ) : daysBefore y + 365 * k ≤ daysBefore (y + k) := by
  induction k with
  | zero => exact le_rfl
  | succ k ih =>
    calc
      daysBefore y + 365 * (k + 1) = daysBefore y + 365 * k + 365 := by omega
      _ ≤ daysBefore (y + k) + yearLength (y + k) := Nat.add_le_add ih (yearLength_ge _)

theorem daysBefore_succ (y : ℕ) :
    daysBefore (y + 1) + y / 100 = 365 * (y + 1) + y / 4 + y / 400 + 1 := by
  induction y with
  | zero => decide
  | succ y ih =>
    rw [daysBefore, yearLength]
    split
    · rename_i hleap
      rw [IsLeap] at hleap
      omega
    · rename_i hnot
      rw [IsLeap] at hnot
      omega

end Gregorian
