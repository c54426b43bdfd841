import Mathlib.Algebra.Order.Ring.Int

/-!
# Sums and differences of times

A translation of `qse_add_ntime` and `qse_sub_ntime` of `lib/cmn/time.c`. An operation on
integers that leaves their type yields `none`.
-/

namespace Qse

namespace Time

def nsecsPerSec : ℤ := 1000000000

/-- `QSE_TYPE_MAX(qse_ntime_sec_t)` -/
def secMax : ℤ := 9223372036854775807

/-- `QSE_TYPE_MIN(qse_ntime_sec_t)` -/
def secMin : ℤ := -9223372036854775808

/-- A result of the type `qse_ntime_sec_t`. -/
def sec (z : ℤ) : Option ℤ := if secMin ≤ z ∧ z ≤ secMax then some z else none

/-- A result of the type `qse_ntime_nsec_t`. -/
def nsec (z : ℤ) : Option ℤ := if -2147483648 ≤ z ∧ z ≤ 2147483647 then some z else none

end Time

/-- `qse_ntime_t` -/
structure Ntime where
  sec : ℤ
  nsec : ℤ
deriving DecidableEq

namespace Time

def latest : Ntime := ⟨secMax, nsecsPerSec - 1⟩

def earliest : Ntime := ⟨secMin, 0⟩

def addSecs (xs ys ns : ℤ) : Option Ntime := do
  let overflow ← if 1 ≤ ys then do
      let limit ← sec (secMax - ys)
      some (decide (limit < xs))
    else some false
  let underflow ← if overflow = false ∧ ys ≤ -1 then do
      let limit ← sec (secMin - ys)
      some (decide (xs < limit))
    else some false
  if overflow || underflow then some (if 0 ≤ xs then latest else earliest)
  else do
    let xs ← sec (xs + ys)
    some ⟨xs, ns⟩

def addNtime (x y : Ntime) : Option Ntime := do
  let ns ← nsec (x.nsec + y.nsec)
  if nsecsPerSec ≤ ns then do
    let ns ← nsec (ns - nsecsPerSec)
    if x.sec = secMax then
      if 0 ≤ y.sec then some latest
      else do
        let ys ← sec (y.sec + 1)
        addSecs x.sec ys ns
    else do
      let xs ← sec (x.sec + 1)
      addSecs xs y.sec ns
  else addSecs x.sec y.sec ns

def subSecs (xs ys ns : ℤ) : Option Ntime := do
  let underflow ← if 1 ≤ ys then do
      let limit ← sec (secMin + ys)
      some (decide (xs < limit))
    else some false
  let overflow ← if underflow = false ∧ ys ≤ -1 then do
      let limit ← sec (secMax + ys)
      some (decide (limit < xs))
    else some false
  if underflow || overflow then some (if 0 ≤ xs then latest else earliest)
  else do
    let xs ← sec (xs - ys)
    some ⟨xs, ns⟩

def subNtime (x y : Ntime) : Option Ntime := do
  let ns ← nsec (x.nsec - y.nsec)
  if ns < 0 then do
    let ns ← nsec (ns + nsecsPerSec)
    if x.sec = secMin then
      if y.sec ≤ 0 then some earliest
      else do
        let ys ← sec (y.sec - 1)
        subSecs x.sec ys ns
    else do
      let xs ← sec (x.sec - 1)
      subSecs xs y.sec ns
  else subSecs x.sec y.sec ns

structure Normal (t : Ntime) : Prop where
  le_sec : secMin ≤ t.sec
  sec_le : t.sec ≤ secMax
  nsec_nonneg : 0 ≤ t.nsec
  nsec_lt : t.nsec < nsecsPerSec

def value (t : Ntime) : ℤ := t.sec * nsecsPerSec + t.nsec

structure Saturates (v : ℤ) (z : Ntime) : Prop where
  normal : Normal z
  exact : (∃ w, Normal w ∧ value w = v) → value z = v
  above : value latest < v → z = latest
  below : v < value earliest → z = earliest

variable {x y : Ntime} {s xs ys ns : ℤ}

theorem sec_eq {z : ℤ} (hmin : secMin ≤ z) (hmax : z ≤ secMax) : sec z = some z :=
  if_pos ⟨hmin, hmax⟩

theorem nsec_eq {z : ℤ} (hmin : -2147483648 ≤ z) (hmax : z ≤ 2147483647) : nsec z = some z :=
  if_pos ⟨hmin, hmax⟩

def clamp (s ns : ℤ) : Ntime :=
  if secMax < s then latest else if s < secMin then earliest else ⟨s, ns⟩

theorem saturates_clamp (hns : 0 ≤ ns) (hns' : ns < nsecsPerSec) :
    Saturates (s * nsecsPerSec + ns) (clamp s ns) := by
  rw [clamp]
  simp only [nsecsPerSec] at hns'
  split
  · refine ⟨⟨by decide, by decide, by decide, by decide⟩, ?_, fun _ => rfl, ?_⟩
    · rintro ⟨w, ⟨-, hle, -, hlt⟩, hw⟩
      simp only [value, nsecsPerSec, secMax] at *
      omega
    · intro hunder
      simp only [value, earliest, nsecsPerSec, secMax, secMin] at *
      omega
  split
  · refine ⟨⟨by decide, by decide, by decide, by decide⟩, ?_, ?_, fun _ => rfl⟩
    · rintro ⟨w, ⟨hle, -, hpos, -⟩, hw⟩
      simp only [value, nsecsPerSec, secMin] at *
      omega
    · intro hover
      simp only [value, latest, nsecsPerSec, secMax, secMin] at *
      omega
  · rename_i hnotOver hnotUnder
    refine ⟨⟨Int.not_lt.mp hnotUnder, Int.not_lt.mp hnotOver, hns, hns'⟩, fun _ => rfl, ?_, ?_⟩
    · intro hover
      simp only [value, latest, nsecsPerSec, secMax] at *
      omega
    · intro hunder
      simp only [value, earliest, nsecsPerSec, secMin] at *
      omega

theorem addSecs_eq (xs ys : ℤ) (hxs : secMin ≤ xs) (hxs' : xs ≤ secMax) (hys : secMin ≤ ys)
    (hys' : ys ≤ secMax) (ns : ℤ) : addSecs xs ys ns = some (clamp (xs + ys) ns) := by
  simp only [secMin, secMax] at hxs hxs' hys hys'
  rw [addSecs, clamp]
  rcases lt_trichotomy ys 0 with hneg | rfl | hpos
  · have hno : ¬1 ≤ ys := by omega
    have hyes : ys ≤ -1 := by omega
    have hlimit : sec (secMin - ys) = some (secMin - ys) :=
      sec_eq (by simp only [secMin]; omega) (by simp only [secMin, secMax]; omega)
    by_cases hunder : xs < secMin - ys
    · have hxs0 : ¬0 ≤ xs := by simp only [secMin] at hunder; omega
      have hnotOver : ¬secMax < xs + ys := by simp only [secMin, secMax] at *; omega
      have hbelow : xs + ys < secMin := by omega
      simp [hno, hyes, hlimit, hunder, hxs0, hnotOver, hbelow]
    · have hsum : sec (xs + ys) = some (xs + ys) :=
        sec_eq (by omega) (by simp only [secMax]; omega)
      have hnotOver : ¬secMax < xs + ys := by simp only [secMax]; omega
      have hnotBelow : ¬xs + ys < secMin := by omega
      simp [hno, hyes, hlimit, hunder, hsum, hnotOver, hnotBelow]
  · have hsum : sec xs = some xs := sec_eq hxs hxs'
    have hnotOver : ¬secMax < xs := Int.not_lt.mpr hxs'
    have hnotBelow : ¬xs < secMin := Int.not_lt.mpr hxs
    simp [hsum, hnotOver, hnotBelow]
  · have hyes : 1 ≤ ys := by omega
    have hno : ¬ys ≤ -1 := by omega
    have hlimit : sec (secMax - ys) = some (secMax - ys) :=
      sec_eq (by simp only [secMin, secMax]; omega) (by simp only [secMax]; omega)
    by_cases hover : secMax - ys < xs
    · have hxs0 : 0 ≤ xs := by simp only [secMax] at hover; omega
      have habove : secMax < xs + ys := by omega
      simp [hyes, hlimit, hover, hxs0, habove]
    · have hsum : sec (xs + ys) = some (xs + ys) :=
        sec_eq (by simp only [secMin]; omega) (by omega)
      have hnotAbove : ¬secMax < xs + ys := by omega
      have hnotBelow : ¬xs + ys < secMin := by simp only [secMin]; omega
      simp [hyes, hno, hlimit, hover, hsum, hnotAbove, hnotBelow]

theorem subSecs_eq (xs ys : ℤ) (hxs : secMin ≤ xs) (hxs' : xs ≤ secMax) (hys : secMin ≤ ys)
    (hys' : ys ≤ secMax) (ns : ℤ) : subSecs xs ys ns = some (clamp (xs - ys) ns) := by
  simp only [secMin, secMax] at hxs hxs' hys hys'
  rw [subSecs, clamp]
  rcases lt_trichotomy ys 0 with hneg | rfl | hpos
  · have hno : ¬1 ≤ ys := by omega
    have hyes : ys ≤ -1 := by omega
    have hlimit : sec (secMax + ys) = some (secMax + ys) :=
      sec_eq (by simp only [secMin, secMax]; omega) (by simp only [secMax]; omega)
    by_cases hover : secMax + ys < xs
    · have hxs0 : 0 ≤ xs := by simp only [secMax] at hover; omega
      have habove : secMax < xs - ys := by omega
      simp [hno, hyes, hlimit, hover, hxs0, habove]
    · have hdiff : sec (xs - ys) = some (xs - ys) :=
        sec_eq (by simp only [secMin]; omega) (by omega)
      have hnotAbove : ¬secMax < xs - ys := by omega
      have hnotBelow : ¬xs - ys < secMin := by simp only [secMin]; omega
      simp [hno, hyes, hlimit, hover, hdiff, hnotAbove, hnotBelow]
  · have hdiff : sec xs = some xs := sec_eq hxs hxs'
    have hnotOver : ¬secMax < xs := Int.not_lt.mpr hxs'
    have hnotBelow : ¬xs < secMin := Int.not_lt.mpr hxs
    simp [hdiff, hnotOver, hnotBelow]
  · have hyes : 1 ≤ ys := by omega
    have hno : ¬ys ≤ -1 := by omega
    have hlimit : sec (secMin + ys) = some (secMin + ys) :=
      sec_eq (by simp only [secMin]; omega) (by simp only [secMin, secMax]; omega)
    by_cases hunder : xs < secMin + ys
    · have hxs0 : ¬0 ≤ xs := by simp only [secMin] at hunder; omega
      have hnotOver : ¬secMax < xs - ys := by simp only [secMin, secMax] at *; omega
      have hbelow : xs - ys < secMin := by omega
      simp [hyes, hlimit, hunder, hxs0, hnotOver, hbelow]
    · have hdiff : sec (xs - ys) = some (xs - ys) :=
        sec_eq (by omega) (by simp only [secMax]; omega)
      have hnotOver : ¬secMax < xs - ys := by simp only [secMax]; omega
      have hnotBelow : ¬xs - ys < secMin := by omega
      simp [hyes, hno, hlimit, hunder, hdiff, hnotOver, hnotBelow]

theorem addNtime_saturates (hx : Normal x) (hy : Normal y) :
    ∃ z, addNtime x y = some z ∧ Saturates (value x + value y) z := by
  obtain ⟨hxmin, hxmax, hxn, hxn'⟩ := hx
  obtain ⟨hymin, hymax, hyn, hyn'⟩ := hy
  simp only [nsecsPerSec] at hxn' hyn'
  have hns : nsec (x.nsec + y.nsec) = some (x.nsec + y.nsec) := nsec_eq (by omega) (by omega)
  by_cases hcarry : nsecsPerSec ≤ x.nsec + y.nsec
  · have hns' : nsec (x.nsec + y.nsec - nsecsPerSec) = some (x.nsec + y.nsec - nsecsPerSec) :=
      nsec_eq (by simp only [nsecsPerSec]; omega) (by simp only [nsecsPerSec]; omega)
    have hvalue : value x + value y =
        (x.sec + y.sec + 1) * nsecsPerSec + (x.nsec + y.nsec - nsecsPerSec) := by
      simp only [value, nsecsPerSec]
      omega
    refine ⟨clamp (x.sec + y.sec + 1) (x.nsec + y.nsec - nsecsPerSec), ?_, ?_⟩
    · by_cases hlast : x.sec = secMax
      · by_cases hy0 : 0 ≤ y.sec
        · have hover : secMax < secMax + y.sec + 1 := by omega
          simp [addNtime, hns, hcarry, hns', hlast, hy0, clamp, hover]
        · have hys : sec (y.sec + 1) = some (y.sec + 1) :=
            sec_eq (by omega) (by simp only [secMax]; omega)
          have hadd := addSecs_eq secMax (y.sec + 1) (by decide) (by decide)
            (by omega) (by simp only [secMax]; omega) (x.nsec + y.nsec - nsecsPerSec)
          rw [← Int.add_assoc] at hadd
          simp [addNtime, hns, hcarry, hns', hlast, hy0, hys, hadd]
      · have hxs : sec (x.sec + 1) = some (x.sec + 1) := sec_eq (by omega) (by omega)
        have hadd := addSecs_eq (x.sec + 1) y.sec (by omega) (by omega) hymin hymax
          (x.nsec + y.nsec - nsecsPerSec)
        rw [Int.add_right_comm] at hadd
        simp [addNtime, hns, hcarry, hns', hlast, hxs, hadd]
    · rw [hvalue]
      exact saturates_clamp (by omega) (by simp only [nsecsPerSec]; omega)
  · have hvalue : value x + value y = (x.sec + y.sec) * nsecsPerSec + (x.nsec + y.nsec) := by
      simp only [value, nsecsPerSec]
      omega
    refine ⟨clamp (x.sec + y.sec) (x.nsec + y.nsec), ?_, ?_⟩
    · simp [addNtime, hns, hcarry, addSecs_eq x.sec y.sec hxmin hxmax hymin hymax]
    · rw [hvalue]
      exact saturates_clamp (by omega) (by omega)

/-- The seconds of the smallest time are borrowed from, and the other time is a negative one or
less than two seconds. -/
def Misborrows (x y : Ntime) : Prop :=
  x.nsec < y.nsec ∧ x.sec = secMin ∧ (y.sec < 0 ∨ y.sec = 1)

theorem subNtime_saturates_iff (hx : Normal x) (hy : Normal y) :
    (∃ z, subNtime x y = some z ∧ Saturates (value x - value y) z) ↔ ¬Misborrows x y := by
  obtain ⟨hxmin, hxmax, hxn, hxn'⟩ := hx
  obtain ⟨hymin, hymax, hyn, hyn'⟩ := hy
  simp only [nsecsPerSec] at hxn' hyn'
  have hns : nsec (x.nsec - y.nsec) = some (x.nsec - y.nsec) := nsec_eq (by omega) (by omega)
  by_cases hborrow : x.nsec < y.nsec
  · have hneg : x.nsec - y.nsec < 0 := by omega
    have hns' : nsec (x.nsec - y.nsec + nsecsPerSec) = some (x.nsec - y.nsec + nsecsPerSec) :=
      nsec_eq (by simp only [nsecsPerSec]; omega) (by simp only [nsecsPerSec]; omega)
    have hvalue : value x - value y =
        (x.sec - y.sec - 1) * nsecsPerSec + (x.nsec - y.nsec + nsecsPerSec) := by
      simp only [value, nsecsPerSec]
      omega
    have hclamp : Saturates (value x - value y)
        (clamp (x.sec - y.sec - 1) (x.nsec - y.nsec + nsecsPerSec)) := by
      rw [hvalue]
      exact saturates_clamp (by simp only [nsecsPerSec]; omega) (by simp only [nsecsPerSec]; omega)
    by_cases hfirst : x.sec = secMin
    · by_cases hy0 : y.sec ≤ 0
      · -- the code takes this for an underflow, which it is for zero seconds only
        have hrun : subNtime x y = some earliest := by
          simp [subNtime, hns, hneg, hns', hfirst, hy0]
        rw [hrun]
        constructor
        · rintro ⟨_, ⟨⟩, hsat⟩ ⟨-, -, hsecs⟩
          have hw : Normal ⟨x.sec - y.sec - 1, x.nsec - y.nsec + nsecsPerSec⟩ := by
            constructor
            · change secMin ≤ x.sec - y.sec - 1
              omega
            · change x.sec - y.sec - 1 ≤ secMax
              simp only [secMin, secMax] at *
              omega
            · change 0 ≤ x.nsec - y.nsec + nsecsPerSec
              simp only [nsecsPerSec]
              omega
            · change x.nsec - y.nsec + nsecsPerSec < nsecsPerSec
              omega
          have hexact := hsat.exact ⟨_, hw, hvalue.symm⟩
          simp only [value, earliest, nsecsPerSec] at hexact
          omega
        · intro hnot
          have hzero : y.sec = 0 := by
            by_contra hne
            exact hnot ⟨hborrow, hfirst, .inl (by omega)⟩
          have hbelow : ¬secMax < secMin - 1 ∧ secMin - 1 < secMin := by decide
          rw [hfirst, hzero, clamp, Int.sub_zero, if_neg hbelow.1, if_pos hbelow.2] at hclamp
          exact ⟨earliest, rfl, hclamp⟩
      · have hys : sec (y.sec - 1) = some (y.sec - 1) :=
          sec_eq (by simp only [secMin]; omega) (by omega)
        have hrun : subNtime x y =
            some (clamp (secMin - (y.sec - 1)) (x.nsec - y.nsec + nsecsPerSec)) := by
          have hsub := subSecs_eq secMin (y.sec - 1) (by decide) (by decide)
            (by simp only [secMin]; omega) (by omega) (x.nsec - y.nsec + nsecsPerSec)
          simp [subNtime, hns, hneg, hns', hfirst, hy0, hys, hsub]
        have hnotOver (s : ℤ) (hs : s ≤ secMin) : ¬secMax < s := by
          simp only [secMin, secMax] at *
          omega
        rw [hrun]
        constructor
        · rintro ⟨_, ⟨⟩, hsat⟩ ⟨-, -, hsecs⟩
          have hone : y.sec = 1 := by omega
          rw [hone, Int.sub_self, Int.sub_zero, clamp, if_neg (hnotOver _ (Int.le_refl _)),
            if_neg (Int.lt_irrefl _)] at hsat
          have hunder := hsat.below (by simp only [value, earliest, nsecsPerSec]; omega)
          have hnsec := congrArg Ntime.nsec hunder
          simp only [earliest, nsecsPerSec] at hnsec
          omega
        · intro hnot
          have htwo : 1 < y.sec := by
            by_contra hle
            exact hnot ⟨hborrow, hfirst, .inr (by omega)⟩
          rw [hfirst, clamp, if_neg (hnotOver _ (by omega)), if_pos (by omega)] at hclamp
          refine ⟨earliest, ?_, hclamp⟩
          rw [clamp, if_neg (hnotOver _ (by omega)), if_pos (by omega)]
    · have hnot : ¬Misborrows x y := fun h => hfirst h.2.1
      have hxs : sec (x.sec - 1) = some (x.sec - 1) := sec_eq (by omega) (by omega)
      have hsub := subSecs_eq (x.sec - 1) y.sec (by omega) (by omega) hymin hymax
        (x.nsec - y.nsec + nsecsPerSec)
      have hcomm : x.sec - 1 - y.sec = x.sec - y.sec - 1 := by omega
      rw [hcomm] at hsub
      refine ⟨fun _ => hnot, fun _ => ⟨_, ?_, hclamp⟩⟩
      simp [subNtime, hns, hneg, hns', hfirst, hxs, hsub]
  · have hnot : ¬Misborrows x y := fun h => hborrow h.1
    have hvalue : value x - value y = (x.sec - y.sec) * nsecsPerSec + (x.nsec - y.nsec) := by
      simp only [value, nsecsPerSec]
      omega
    refine ⟨fun _ => hnot, fun _ => ⟨clamp (x.sec - y.sec) (x.nsec - y.nsec), ?_, ?_⟩⟩
    · have hnotNeg : ¬x.nsec - y.nsec < 0 := by omega
      simp [subNtime, hns, hnotNeg, subSecs_eq x.sec y.sec hxmin hxmax hymin hymax]
    · rw [hvalue]
      exact saturates_clamp (by omega) (by simp only [nsecsPerSec]; omega)

/-- Sums are right for all times, and differences for those that do not misborrow. -/
theorem saturates_iff (hx : Normal x) (hy : Normal y) :
    (∃ z, addNtime x y = some z ∧ Saturates (value x + value y) z) ∧
      ((∃ z, subNtime x y = some z ∧ Saturates (value x - value y) z) ↔ ¬Misborrows x y) :=
  ⟨addNtime_saturates hx hy, subNtime_saturates_iff hx hy⟩

/-- The smallest time and two seconds and a nanosecond. -/
theorem saturates_iff_twoSeconds :
    ∃ z, subNtime earliest ⟨2, 1⟩ = some z ∧ Saturates (value earliest - value ⟨2, 1⟩) z := by
  have hx : Normal earliest := ⟨by decide, by decide, by decide, by decide⟩
  have hy : Normal ⟨2, 1⟩ := ⟨by decide, by decide, by decide, by decide⟩
  refine (saturates_iff hx hy).2.mpr ?_
  rintro ⟨-, -, hneg | hone⟩
  · exact absurd hneg (by decide)
  · exact absurd hone (by decide)

/-- The smallest time less minus two seconds and a nanosecond is not the smallest time. -/
theorem not_saturates :
    ¬∀ x y, Normal x → Normal y → ∃ z, subNtime x y = some z ∧ Saturates (value x - value y) z := by
  intro hall
  obtain ⟨_, ⟨⟩, hsat⟩ := hall earliest ⟨-2, 1⟩ ⟨by decide, by decide, by decide, by decide⟩
    ⟨by decide, by decide, by decide, by decide⟩
  have hexact := hsat.exact ⟨⟨secMin + 1, 999999999⟩, ⟨by decide, by decide, by decide, by decide⟩,
    by decide⟩
  revert hexact
  decide

end Time

end Qse
