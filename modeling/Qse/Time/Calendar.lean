import Qse.Support.Gregorian
import Qse.Time.Ntime

/-!
# Broken-down times

A translation of `qse_timegm` and `breakdown_time` of `lib/cmn/time.c` and of what they use. An
operation on integers that leaves the type `int`, or a read outside a table, yields `none`. What
has the type `qse_long_t` stays in it.
-/

open Option Option

namespace Qse

/-- `qse_btime_t` -/
structure Btime where
  sec : ℤ
  min : ℤ
  hour : ℤ
  mday : ℤ
  mon : ℤ
  year : ℤ
  wday : ℤ
  yday : ℤ
  isdst : ℤ
  gmtoff : ℤ
deriving DecidableEq

namespace Time

/-- A result of the type `int`. -/
def int (z : ℤ) : Option ℤ := if -2147483648 ≤ z ∧ z ≤ 2147483647 then some z else none

def epochYear : ℤ := 1970

def btimeYearBase : ℤ := 1900

def secsPerDay : ℤ := 86400

def isLeapyear (year : ℤ) : Bool :=
  (year.tmod 4 = 0 && year.tmod 100 ≠ 0) || year.tmod 400 = 0

def daysPerYear (year : ℤ) : ℤ := if isLeapyear year then 366 else 365

def mdays : Bool → List ℤ
  | false => [31, 28, 31, 30, 31, 30, 31, 31, 30, 31, 30, 31]
  | true => [31, 29, 31, 30, 31, 30, 31, 31, 30, 31, 30, 31]

def mdaysTot : Bool → List ℤ
  | false => [0, 31, 59, 90, 120, 151, 181, 212, 243, 273, 304, 334]
  | true => [0, 31, 60, 91, 121, 152, 182, 213, 244, 274, 305, 335]

def mdaysRtot : Bool → List ℤ
  | false => [334, 306, 275, 245, 214, 184, 153, 122, 92, 61, 31, 0]
  | true => [335, 306, 275, 245, 214, 184, 153, 122, 92, 61, 31, 0]

def entry (table : List ℤ) (i : ℤ) : Option ℤ := if 0 ≤ i then table[i.toNat]? else none

def getLeapDays (fy ty : ℤ) : Option ℤ := do
  let fy ← int (fy - 1)
  let ty ← int (ty - 1)
  let four ← int (ty.tdiv 4 - fy.tdiv 4)
  let hundred ← int (ty.tdiv 100 - fy.tdiv 100)
  let fourHundred ← int (ty.tdiv 400 - fy.tdiv 400)
  let days ← int (four - hundred)
  int (days + fourHundred)

def yearDays (years fy ty : ℤ) : Option ℤ := do
  let norm ← int (365 * years)
  let leap ← getLeapDays fy ty
  int (norm + leap)

def timegm (bt : Btime) : Option Ntime := do
  let y ← int (bt.year + btimeYearBase)
  let midx := isLeapyear y
  if y < epochYear then
    let n ← yearDays (epochYear - 1 - y) y (epochYear - 1)
    let rtot ← entry (mdaysRtot midx) bt.mon
    let n := n + rtot
    let mdays ← entry (mdays midx) bt.mon
    let left ← int (mdays - bt.mday)
    let n := n + left
    let n := if midx then n - 1 else n
    let n := n * 24
    let n := (n + 24 - bt.hour - 1) * 60
    let n := (n + 60 - bt.min - 1) * 60
    let n := n + 60 - bt.sec
    some ⟨-n, 0⟩
  else
    let years ← int (y - epochYear)
    let n ← yearDays years epochYear y
    let tot ← entry (mdaysTot midx) bt.mon
    let n := n + tot
    let n := (n + bt.mday - 1) * 24
    let n := (n + bt.hour) * 60
    let n := (n + bt.min) * 60
    let n := n + bt.sec
    some ⟨n, 0⟩

def borrowLoop : ℕ → ℤ → ℤ → ℤ × ℤ
  | 0, secs, days => (secs, days)
  | fuel + 1, secs, days =>
    if secs < 0 then borrowLoop fuel (secs + secsPerDay) (days - 1) else (secs, days)

def carryLoop : ℕ → ℤ → ℤ → ℤ × ℤ
  | 0, secs, days => (secs, days)
  | fuel + 1, secs, days =>
    if secsPerDay ≤ secs then carryLoop fuel (secs - secsPerDay) (days + 1) else (secs, days)

def upLoop : ℕ → ℤ → ℤ → ℤ × ℤ
  | 0, days, year => (days, year)
  | fuel + 1, days, year =>
    if daysPerYear year ≤ days then upLoop fuel (days - daysPerYear year) (year + 1)
    else (days, year)

def downLoop : ℕ → ℤ → ℤ → ℤ × ℤ
  | 0, days, year => (days, year)
  | fuel + 1, days, year =>
    let year := year - 1
    let days := days + daysPerYear year
    if days < 0 then downLoop fuel days year else (days, year)

/-- The loop over the months, for the table behind `mon`. -/
def monLoop : List ℤ → ℤ → ℤ → Option (ℤ × ℤ)
  | [], _, _ => none
  | length :: table, days, mon =>
    if length ≤ days then monLoop table (days - length) (mon + 1) else some (days, mon)

def breakdownTime (nt : Ntime) (gmtoff : ℤ) : Option Btime := do
  let secs := nt.sec + gmtoff
  let days := secs.tdiv secsPerDay
  let secs := secs.tmod secsPerDay
  let (secs, days) := borrowLoop (-secs).toNat secs days
  let (secs, days) := carryLoop secs.toNat secs days
  let hour := secs.tdiv 3600
  let secs := secs.tmod 3600
  let min := secs.tdiv 60
  let sec := secs.tmod 60
  let wday := (days + 4).tmod 7
  let wday := if wday < 0 then wday + 7 else wday
  let (yday, year) :=
    if 0 ≤ days then upLoop days.toNat days epochYear else downLoop (-days).toNat days epochYear
  let (days, mon) ← monLoop (mdays (isLeapyear year)) yday 0
  some ⟨sec, min, hour, days + 1, mon, year - btimeYearBase, wday, yday, 0, gmtoff⟩

open Gregorian

def yearOf (bt : Btime) : ℕ := (bt.year + btimeYearBase).toNat

def dayOfYear (bt : Btime) : ℤ := monthsBefore (yearOf bt) bt.mon.toNat + (bt.mday - 1)

def dayNumber (bt : Btime) : ℤ :=
  daysBefore (yearOf bt) - daysBefore 1970 + dayOfYear bt

def seconds (bt : Btime) : ℤ := ((dayNumber bt * 24 + bt.hour) * 60 + bt.min) * 60 + bt.sec

/-- The fields are in their ranges, and the year, which is of its type, is at least 1. -/
structure Valid (bt : Btime) : Prop where
  sec : 0 ≤ bt.sec ∧ bt.sec ≤ 61
  min : 0 ≤ bt.min ∧ bt.min ≤ 59
  hour : 0 ≤ bt.hour ∧ bt.hour ≤ 23
  mon : 0 ≤ bt.mon ∧ bt.mon ≤ 11
  mday : 1 ≤ bt.mday ∧ bt.mday ≤ monthLength (yearOf bt) bt.mon.toNat
  year : 1 ≤ bt.year + btimeYearBase ∧ bt.year ≤ 2147483647

/-- The seconds are those of the calendar, and they are broken down to the same date and time with
the right day of the week and of the year. -/
def RoundTrip (bt : Btime) : Prop :=
  timegm bt = some ⟨seconds bt, 0⟩ ∧
    breakdownTime ⟨seconds bt, 0⟩ 0 =
      some { bt with
        wday := (dayNumber bt + 4) % 7, yday := dayOfYear bt, isdst := 0, gmtoff := 0 }

variable {y m : ℕ} {bt : Btime}

theorem isLeapyear_cast (y : ℕ) : isLeapyear y = decide (IsLeap y) := by
  have htmod (k : ℕ) : (y : ℤ).tmod k = 0 ↔ k ∣ y := by
    rw [← Int.natCast_dvd_natCast, Int.dvd_iff_tmod_eq_zero]
  have h4 := htmod 4
  have h100 := htmod 100
  have h400 := htmod 400
  rw [Bool.eq_iff_iff, decide_eq_true_eq]
  simp only [isLeapyear, Bool.or_eq_true, Bool.and_eq_true, decide_eq_true_eq]
  exact or_congr (and_congr h4 (not_congr h100)) h400

theorem daysPerYear_cast (y : ℕ) : daysPerYear y = yearLength y := by
  rw [daysPerYear, isLeapyear_cast, yearLength]
  by_cases hleap : IsLeap y
  · simp [hleap]
  · simp [hleap]

theorem mdays_eq (y : ℕ) :
    mdays (isLeapyear y) = (List.range' 0 12).map (fun m => (monthLength y m : ℤ)) := by
  rw [isLeapyear_cast]
  by_cases hleap : IsLeap y
  · simp [hleap, mdays, monthLength, List.range']
  · simp [hleap, mdays, monthLength, List.range']

theorem mdaysTot_eq (y : ℕ) :
    mdaysTot (isLeapyear y) = (List.range' 0 12).map (fun m => (monthsBefore y m : ℤ)) := by
  rw [isLeapyear_cast]
  by_cases hleap : IsLeap y
  · simp [hleap, mdaysTot, monthsBefore, monthLength, List.range']
  · simp [hleap, mdaysTot, monthsBefore, monthLength, List.range']

theorem mdaysRtot_eq (y : ℕ) :
    mdaysRtot (isLeapyear y) =
      (List.range' 0 12).map (fun m => (yearLength y - monthsBefore y (m + 1) : ℤ)) := by
  rw [isLeapyear_cast]
  by_cases hleap : IsLeap y
  · simp [hleap, mdaysRtot, yearLength, monthsBefore, monthLength, List.range']
  · simp [hleap, mdaysRtot, yearLength, monthsBefore, monthLength, List.range']

theorem entry_month (f : ℕ → ℤ) (hm : m < 12) :
    entry ((List.range' 0 12).map f) m = some (f m) := by
  rw [entry, if_pos (Int.natCast_nonneg m), Int.toNat_natCast]
  simp [hm]

theorem monLoop_eq {i k r : ℕ} (hle : i ≤ m) (hlt : m < i + k) (hr : r < monthLength y m) :
    monLoop ((List.range' i k).map (fun m => (monthLength y m : ℤ)))
      (monthsBefore y m - monthsBefore y i + r) i = some ((r : ℤ), (m : ℤ)) := by
  induction k generalizing i with
  | zero => omega
  | succ k ih =>
    rw [List.range'_succ, List.map_cons, monLoop]
    rcases Nat.eq_or_lt_of_le hle with rfl | hbefore
    · rw [if_neg (by omega), Int.sub_self, Int.zero_add]
    have hmono := monthsBefore_mono y (Nat.succ_le_of_lt hbefore)
    rw [monthsBefore] at hmono
    have hrest := ih (Nat.succ_le_of_lt hbefore) (by omega)
    rw [monthsBefore] at hrest
    rw [if_pos (by omega), ← hrest]
    congr 1
    omega

theorem upLoop_eq {fuel x k r : ℕ} (hfuel : k ≤ fuel) (hr : r < yearLength (x + k)) :
    upLoop fuel (daysBefore (x + k) - daysBefore x + r) x = ((r : ℤ), ((x + k : ℕ) : ℤ)) := by
  induction k generalizing fuel x with
  | zero =>
    rw [add_zero] at hr
    rw [add_zero, Int.sub_self, Int.zero_add]
    cases fuel with
    | zero => rfl
    | succ fuel =>
      rw [upLoop, daysPerYear_cast, if_neg (by omega)]
  | succ k ih =>
    obtain ⟨fuel, rfl⟩ := Nat.exists_eq_add_of_le' hfuel
    have hmore := daysBefore_add_ge (x + 1) k
    have hplace : x + (k + 1) = x + 1 + k := by omega
    rw [hplace] at hr
    rw [hplace, ← add_assoc, upLoop, daysPerYear_cast]
    rw [daysBefore] at hmore
    have hrest := @ih (fuel + k) (x + 1) (by omega) hr
    rw [if_pos (by omega), ← hrest, daysBefore]
    congr 1
    omega

theorem downLoop_eq {fuel x k r : ℕ} (hfuel : k < fuel) (hr : r < yearLength x) :
    downLoop fuel (daysBefore x - daysBefore (x + k + 1) + r) ((x + k + 1 : ℕ) : ℤ) =
      ((r : ℤ), (x : ℤ)) := by
  induction k generalizing fuel with
  | zero =>
    obtain ⟨fuel, rfl⟩ := Nat.exists_eq_add_of_lt hfuel
    have hyear : ((x + 0 + 1 : ℕ) : ℤ) - 1 = (x : ℕ) := by omega
    have hdays : daysBefore x - daysBefore (x + 0 + 1) + r + yearLength x = (r : ℤ) := by
      rw [add_zero, daysBefore]
      omega
    rw [downLoop, hyear, daysPerYear_cast, hdays, if_neg (by omega)]
  | succ k ih =>
    obtain ⟨fuel, rfl⟩ := Nat.exists_eq_add_of_lt hfuel
    have hmore := daysBefore_add_ge (x + 1) k
    rw [daysBefore, add_right_comm x 1 k] at hmore
    have hyear : ((x + (k + 1) + 1 : ℕ) : ℤ) - 1 = (x + k + 1 : ℕ) := by omega
    have hdays : daysBefore x - daysBefore (x + (k + 1) + 1) + r + yearLength (x + k + 1) =
        (daysBefore x - daysBefore (x + k + 1) + r : ℤ) := by
      rw [← add_assoc, daysBefore]
      omega
    rw [downLoop, hyear, daysPerYear_cast, hdays, if_pos (by omega)]
    exact ih (by omega)

theorem int_eq {z : ℤ} (hmin : -2147483648 ≤ z) (hmax : z ≤ 2147483647) : int z = some z :=
  if_pos ⟨hmin, hmax⟩

theorem split_day {days left : ℤ} (hleft : 0 ≤ left) (hlt : left < secsPerDay) {s : ℤ}
    (hs : s = days * secsPerDay + left) :
    borrowLoop (-(s.tmod secsPerDay)).toNat (s.tmod secsPerDay) (s.tdiv secsPerDay) =
      (left, days) := by
  have hstop (fuel : ℕ) : borrowLoop fuel left days = (left, days) := by
    cases fuel with
    | zero => rfl
    | succ fuel => rw [borrowLoop, if_neg (by omega)]
  simp only [secsPerDay] at hlt hs
  have hmod : s % 86400 = left := by omega
  have hdiv : s / 86400 = days := by omega
  have htmod := Int.tmod_eq_emod (a := s) (b := 86400)
  have htdiv := Int.tdiv_eq_ediv (a := s) (b := 86400)
  rw [hmod] at htmod
  rw [hdiv] at htdiv
  simp only [secsPerDay]
  by_cases hexact : 0 ≤ s ∨ (86400 : ℤ) ∣ s
  · rw [if_pos hexact] at htmod
    replace htmod : s.tmod 86400 = left := htmod.trans (Int.sub_zero left)
    rw [if_pos hexact, Int.add_zero] at htdiv
    rw [htmod, htdiv]
    exact hstop _
  have hsign : Int.sign 86400 = 1 := rfl
  rw [if_neg hexact] at htmod
  rw [if_neg hexact, hsign] at htdiv
  obtain ⟨fuel, hfuel⟩ := Nat.exists_eq_succ_of_ne_zero
    (n := (-(left - ((86400 : ℤ).natAbs : ℤ))).toNat) (by omega)
  rw [htmod, htdiv, hfuel, borrowLoop, if_pos (by omega)]
  have hback : left - ((86400 : ℤ).natAbs : ℤ) + secsPerDay = left := by
    simp only [secsPerDay]
    omega
  rw [hback, Int.add_sub_cancel]
  exact hstop _

theorem carryLoop_eq (left : ℤ) (hlt : left < secsPerDay) (fuel : ℕ) (days : ℤ) :
    carryLoop fuel left days = (left, days) := by
  cases fuel with
  | zero => rfl
  | succ fuel => rw [carryLoop, if_neg (by omega)]

theorem getLeapDays_eq {f t : ℕ} (hle : f ≤ t) (hmax : t ≤ 2147483647) :
    getLeapDays (f + 1 : ℕ) (t + 1 : ℕ) =
      some (daysBefore (t + 1) - daysBefore (f + 1) - 365 * (t - f) : ℤ) := by
  have hf := daysBefore_succ f
  have ht := daysBefore_succ t
  have hfy : int ((f + 1 : ℕ) - 1) = some (f : ℤ) := by
    rw [int_eq (by omega) (by omega)]
    congr 1
    omega
  have hty : int ((t + 1 : ℕ) - 1) = some (t : ℤ) := by
    rw [int_eq (by omega) (by omega)]
    congr 1
    omega
  have hint (k : ℕ) : int ((t : ℤ).tdiv k - (f : ℤ).tdiv k) =
      some ((t / k : ℕ) - (f / k : ℕ) : ℤ) := by
    have htk := Nat.div_le_self t k
    have hfk := Nat.div_le_div_right (c := k) hle
    rw [← Int.ofNat_tdiv, ← Int.ofNat_tdiv]
    generalize t / k = a at *
    generalize f / k = b at *
    exact int_eq (by omega) (by omega)
  have h4 : int ((t : ℤ).tdiv 4 - (f : ℤ).tdiv 4) = some ((t / 4 : ℕ) - (f / 4 : ℕ) : ℤ) :=
    hint 4
  have h100 : int ((t : ℤ).tdiv 100 - (f : ℤ).tdiv 100) =
      some ((t / 100 : ℕ) - (f / 100 : ℕ) : ℤ) := hint 100
  have h400 : int ((t : ℤ).tdiv 400 - (f : ℤ).tdiv 400) =
      some ((t / 400 : ℕ) - (f / 400 : ℕ) : ℤ) := hint 400
  have hdays := int_eq (z := (t / 4 : ℕ) - (f / 4 : ℕ) - ((t / 100 : ℕ) - (f / 100 : ℕ) : ℤ))
    (by omega) (by omega)
  have hall := int_eq
    (z := (t / 4 : ℕ) - (f / 4 : ℕ) - ((t / 100 : ℕ) - (f / 100 : ℕ) : ℤ) +
      ((t / 400 : ℕ) - (f / 400 : ℕ) : ℤ)) (by omega) (by omega)
  simp only [getLeapDays, hfy, hty, h4, h100, h400, hdays, hall, bind_eq_bind, bind_some]
  congr 1
  omega

/-! ## The result -/

theorem Valid.exists_nat (hbt : Valid bt) :
    ∃ y d m : ℕ, yearOf bt = y ∧ bt.year + btimeYearBase = y ∧ 1 ≤ y ∧ bt.mon = m ∧ m < 12 ∧
      bt.mday = d + 1 ∧ d < monthLength y m := by
  obtain ⟨hday, hlast⟩ := hbt.mday
  have hmon := hbt.mon
  have hyear := hbt.year
  refine ⟨yearOf bt, (bt.mday - 1).toNat, bt.mon.toNat, rfl, ?_, ?_, ?_, ?_, ?_, ?_⟩
  · rw [yearOf]
    omega
  · rw [yearOf]
    omega
  · omega
  · omega
  · omega
  · omega

theorem years_eq (y : ℕ) {r : ℕ} (hr : r < yearLength y) :
    (if 0 ≤ (daysBefore y - daysBefore 1970 + r : ℤ) then
        upLoop (daysBefore y - daysBefore 1970 + r : ℤ).toNat
          (daysBefore y - daysBefore 1970 + r) epochYear
      else downLoop (-(daysBefore y - daysBefore 1970 + r : ℤ)).toNat
        (daysBefore y - daysBefore 1970 + r) epochYear) = ((r : ℤ), (y : ℤ)) := by
  have hepoch : epochYear = ((1970 : ℕ) : ℤ) := rfl
  rw [hepoch]
  generalize 1970 = x
  rcases lt_or_ge y x with hlt | hle
  · obtain ⟨k, rfl⟩ := Nat.exists_eq_add_of_lt hlt
    have hmore := daysBefore_add_ge (y + 1) k
    rw [daysBefore, add_right_comm y 1 k] at hmore
    rw [if_neg (by omega)]
    exact downLoop_eq (by omega) hr
  · obtain ⟨k, rfl⟩ := Nat.exists_eq_add_of_le hle
    have hmore := daysBefore_add_ge x k
    rw [if_pos (by omega)]
    exact upLoop_eq (by omega) hr

theorem clock_eq {h mi s : ℤ} (hh : 0 ≤ h) (hmi : 0 ≤ mi ∧ mi ≤ 59) (hs : 0 ≤ s ∧ s ≤ 59) :
    ((h * 60 + mi) * 60 + s).tdiv 3600 = h ∧ (((h * 60 + mi) * 60 + s).tmod 3600).tdiv 60 = mi ∧
      (((h * 60 + mi) * 60 + s).tmod 3600).tmod 60 = s := by
  have hday : 0 ≤ (h * 60 + mi) * 60 + s := by omega
  rw [Int.tdiv_eq_ediv_of_nonneg hday, Int.tmod_eq_emod_of_nonneg hday]
  have hhour : 0 ≤ ((h * 60 + mi) * 60 + s) % 3600 := by omega
  rw [Int.tdiv_eq_ediv_of_nonneg hhour, Int.tmod_eq_emod_of_nonneg hhour]
  omega

theorem wday_eq (n : ℤ) : (if n.tmod 7 < 0 then n.tmod 7 + 7 else n.tmod 7) = n % 7 := by
  have htmod := Int.tmod_eq_emod (a := n) (b := 7)
  split at htmod
  · rw [if_neg (by omega)]
    omega
  · rw [if_pos (by omega)]
    omega

theorem breakdownTime_seconds (hbt : Valid bt) (hsec : bt.sec ≤ 59) :
    breakdownTime ⟨seconds bt, 0⟩ 0 =
      some { bt with
        wday := (dayNumber bt + 4) % 7, yday := dayOfYear bt, isdst := 0, gmtoff := 0 } := by
  obtain ⟨y, d, m, hyear, hbase, hy, hmon, hm, hmday, hd⟩ := hbt.exists_nat
  have hmin := hbt.min
  have hhour := hbt.hour
  have hsec0 := hbt.sec.1
  have hdoy : dayOfYear bt = ((monthsBefore y m + d : ℕ) : ℤ) := by
    rw [dayOfYear, hyear, hmon, hmday, Int.toNat_natCast]
    omega
  have hlt := monthsBefore_add_lt hm hd
  have hnumber : dayNumber bt = daysBefore y - daysBefore 1970 + (monthsBefore y m + d : ℕ) := by
    rw [dayNumber, hyear, hdoy]
  have hsplit : seconds bt + 0 =
      dayNumber bt * secsPerDay + ((bt.hour * 60 + bt.min) * 60 + bt.sec) := by
    simp only [seconds, secsPerDay]
    omega
  have hborrow := split_day (by omega) (by simp only [secsPerDay]; omega) hsplit
  have hcarry := fun fuel => carryLoop_eq ((bt.hour * 60 + bt.min) * 60 + bt.sec)
    (by simp only [secsPerDay]; omega) fuel (dayNumber bt)
  have hyears : (if 0 ≤ dayNumber bt then
        upLoop (dayNumber bt).toNat (dayNumber bt) epochYear
      else downLoop (-dayNumber bt).toNat (dayNumber bt) epochYear) =
      (((monthsBefore y m + d : ℕ) : ℤ), (y : ℤ)) := by
    rw [hnumber]
    exact years_eq y hlt
  have hmons : monLoop (mdays (isLeapyear y)) (monthsBefore y m + d : ℕ) 0 =
      some ((d : ℤ), (m : ℤ)) := by
    have h := monLoop_eq (y := y) (i := 0) (k := 12) (Nat.zero_le m) (by omega) hd
    rw [mdays_eq]
    simpa [monthsBefore] using h
  obtain ⟨hclock, hclock', hclock''⟩ :=
    clock_eq hhour.1 hmin ⟨hsec0, hsec⟩
  have hyear' : (y : ℤ) - btimeYearBase = bt.year := by omega
  simp only [breakdownTime, hborrow, hcarry, hyears, hmons, bind_eq_bind, bind_some,
    hclock, hclock', hclock'', wday_eq, hyear', hdoy, hmday, hmon]

theorem daysBefore_epoch : daysBefore 1969 = 719163 ∧ daysBefore 1970 = 719528 := by
  have h1969 : daysBefore 1969 + 1968 / 100 = 365 * 1969 + 1968 / 4 + 1968 / 400 + 1 :=
    daysBefore_succ 1968
  have h1970 : daysBefore 1970 + 1969 / 100 = 365 * 1970 + 1969 / 4 + 1969 / 400 + 1 :=
    daysBefore_succ 1969
  omega

theorem yearDays_before {f : ℕ} (hle : f ≤ 1968) :
    yearDays (epochYear - 1 - (f + 1 : ℕ)) (f + 1 : ℕ) (epochYear - 1) =
      some (daysBefore 1969 - daysBefore (f + 1) : ℤ) := by
  have hleap : getLeapDays (f + 1 : ℕ) (epochYear - 1) =
      some (daysBefore 1969 - daysBefore (f + 1) - 365 * (1968 - f) : ℤ) := by
    have hleap := getLeapDays_eq (t := 1968) hle (by decide)
    have hyear : epochYear - 1 = 1969 := rfl
    rw [hyear]
    simpa only [Nat.cast_ofNat, Nat.reduceAdd] using hleap
  have hdays := daysBefore_succ f
  have hepoch := daysBefore_epoch
  have hnorm : int (365 * (epochYear - 1 - (f + 1 : ℕ))) = some (365 * (1968 - f) : ℤ) := by
    simp only [epochYear]
    rw [int_eq (by omega) (by omega)]
    apply congrArg some
    omega
  simp only [yearDays, hnorm, hleap, bind_eq_bind, bind_some]
  rw [int_eq (by omega) (by omega)]
  apply congrArg some
  omega

theorem yearDays_after {t : ℕ} (hle : 1969 ≤ t) (hmax : t ≤ 2147483647) :
    yearDays ((t + 1 : ℕ) - epochYear) epochYear (t + 1 : ℕ) =
      if t + 1 ≤ 5881580 then some (daysBefore (t + 1) - daysBefore 1970 : ℤ) else none := by
  have hleap : getLeapDays epochYear (t + 1 : ℕ) =
      some (daysBefore (t + 1) - daysBefore 1970 - 365 * (t - 1969) : ℤ) :=
    getLeapDays_eq hle hmax
  have hdays := daysBefore_succ t
  have hepoch := daysBefore_epoch
  have hyears : 365 * ((t + 1 : ℕ) - epochYear) = (365 * (t - 1969) : ℤ) := by
    simp only [epochYear]
    omega
  rw [yearDays, hyears]
  by_cases hfits : t + 1 ≤ 5881580
  · have hnorm : int (365 * (t - 1969)) = some (365 * (t - 1969) : ℤ) :=
      int_eq (by omega) (by omega)
    rw [if_pos hfits]
    simp only [hnorm, hleap, bind_eq_bind, bind_some]
    rw [int_eq (by omega) (by omega)]
    apply congrArg some
    omega
  · rw [if_neg hfits]
    by_cases hsmall : (365 * (t - 1969) : ℤ) ≤ 2147483647
    · have hover : int (365 * (t - 1969) + (daysBefore (t + 1) - daysBefore 1970 -
          365 * (t - 1969))) = none := if_neg (by omega)
      simp only [int_eq (by omega) hsmall, hleap, hover, bind_eq_bind, bind_some]
    · have hover : int (365 * (t - 1969)) = none := if_neg (by omega)
      simp only [hover, bind_eq_bind, bind_none]

theorem leap_correction (y : ℕ) (n : ℤ) :
    (if isLeapyear y then n - 1 else n) = n + 365 - yearLength y := by
  rw [isLeapyear_cast, yearLength]
  by_cases hleap : IsLeap y
  · simp only [hleap, decide_true, if_true]
    omega
  · simp only [hleap, decide_false, if_false]
    simp

theorem timegm_eq (hbt : Valid bt) :
    timegm bt = if bt.year ≤ 5879680 then some ⟨seconds bt, 0⟩ else none := by
  obtain ⟨y, d, m, hyear, hbase, hy, hmon, hm, hmday, hd⟩ := hbt.exists_nat
  obtain ⟨f, rfl⟩ := Nat.exists_eq_add_of_le' hy
  have hlength : monthLength (f + 1) m ≤ 31 := by
    rw [monthLength]
    split
    · split <;> omega
    · split <;> omega
  have hepoch := daysBefore_epoch
  have hseconds : seconds bt = ((((daysBefore (f + 1) - daysBefore 1970 +
      (monthsBefore (f + 1) m + d : ℕ) : ℤ) * 24 + bt.hour) * 60 + bt.min) * 60 + bt.sec) := by
    rw [seconds, dayNumber, dayOfYear, hyear, hmon, hmday, Int.toNat_natCast]
    omega
  have hsame : bt.year ≤ 5879680 ↔ f + 1 ≤ 5881580 := by
    simp only [btimeYearBase] at hbase
    omega
  by_cases hint : f ≤ 2147483646
  · have hy' : int (bt.year + btimeYearBase) = some ((f + 1 : ℕ) : ℤ) := by
      rw [hbase]
      exact int_eq (by omega) (by omega)
    by_cases hbefore : f + 1 < 1970
    · have hlt : ((f + 1 : ℕ) : ℤ) < epochYear := by
        simp only [epochYear]
        omega
      have hrtot : entry (mdaysRtot (isLeapyear (f + 1 : ℕ))) m =
          some (yearLength (f + 1) - monthsBefore (f + 1) (m + 1) : ℤ) := by
        rw [mdaysRtot_eq]
        exact entry_month _ hm
      have hmdays : entry (mdays (isLeapyear (f + 1 : ℕ))) m =
          some (monthLength (f + 1) m : ℤ) := by
        rw [mdays_eq]
        exact entry_month _ hm
      have hleft : int ((monthLength (f + 1) m : ℤ) - (d + 1)) =
          some ((monthLength (f + 1) m : ℤ) - (d + 1)) := int_eq (by omega) (by omega)
      rw [if_pos (by omega)]
      simp only [timegm, hy', if_pos hlt, yearDays_before (f := f) (by omega), hmon, hmday, hrtot,
        hmdays, hleft, bind_eq_bind, bind_some, hseconds, leap_correction]
      have hnext : monthsBefore (f + 1) (m + 1) = monthsBefore (f + 1) m + monthLength (f + 1) m :=
        rfl
      apply congrArg (fun s => some (Ntime.mk s 0))
      omega
    · have hge : ¬((f + 1 : ℕ) : ℤ) < epochYear := by
        simp only [epochYear]
        omega
      have htot : entry (mdaysTot (isLeapyear (f + 1 : ℕ))) m =
          some (monthsBefore (f + 1) m : ℤ) := by
        rw [mdaysTot_eq]
        exact entry_month _ hm
      have hyears : int ((f + 1 : ℕ) - epochYear) = some ((f + 1 : ℕ) - epochYear) := by
        simp only [epochYear]
        exact int_eq (by omega) (by omega)
      simp only [timegm, hy', if_neg hge, hyears,
        yearDays_after (t := f) (by omega) (by omega), hmon, hmday, htot,
        bind_eq_bind, bind_some, hseconds, hsame]
      by_cases hfits : f + 1 ≤ 5881580
      · rw [if_pos hfits, if_pos hfits]
        simp only [bind_some]
        apply congrArg (fun s => some (Ntime.mk s 0))
        omega
      · rw [if_neg hfits, if_neg hfits]
        rfl
  · have hover : int (bt.year + btimeYearBase) = none := by
      rw [hbase]
      exact if_neg (by omega)
    rw [if_neg (by omega)]
    simp only [timegm, hover, bind_eq_bind, bind_none]

theorem breakdownTime_sec_lt {nt : Ntime} {gmtoff : ℤ}
    (hrun : breakdownTime nt gmtoff = some bt) : bt.sec < 60 := by
  simp only [breakdownTime, bind_eq_bind, bind_eq_some_iff] at hrun
  obtain ⟨_, -, hbt⟩ := hrun
  rw [← some.inj hbt]
  exact Int.tmod_lt_of_pos _ (by decide)

/-- A broken-down time comes back just when it has no leap second and its year is at most 5881580,
which is so long as the days of the years fit `int`. -/
theorem roundTrip_iff (hbt : Valid bt) : RoundTrip bt ↔ bt.sec ≤ 59 ∧ bt.year ≤ 5879680 := by
  constructor
  · rintro ⟨hseconds, hback⟩
    constructor
    · have hlt := breakdownTime_sec_lt hback
      change bt.sec < 60 at hlt
      omega
    · by_contra hlate
      rw [timegm_eq hbt, if_neg hlate] at hseconds
      cases hseconds
  · rintro ⟨hsec, hyear⟩
    refine ⟨?_, breakdownTime_seconds hbt hsec⟩
    rw [timegm_eq hbt, if_pos hyear]

def leapNoon : Btime := ⟨0, 0, 12, 29, 1, 100, 0, 0, 0, 0⟩

theorem leapNoon_valid : Valid leapNoon :=
  ⟨by decide, by decide, by decide, by decide, by decide, by decide⟩

theorem roundTrip_iff_leapNoon : RoundTrip leapNoon :=
  (roundTrip_iff leapNoon_valid).mpr ⟨by decide, by decide⟩

def farYear : Btime := ⟨0, 0, 0, 1, 0, 5879681, 0, 0, 0, 0⟩

theorem not_roundTrip : ¬∀ bt, Valid bt → bt.sec ≤ 59 → RoundTrip bt := by
  intro hall
  have hvalid : Valid farYear :=
    ⟨by decide, by decide, by decide, by decide, by decide, by decide⟩
  have hseconds := (hall farYear hvalid (by decide)).1
  have hrun : timegm farYear = none := by
    decide
  rw [hrun] at hseconds
  cases hseconds

end Time

end Qse
