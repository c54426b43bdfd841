import Qse.Support.CheckedInt

/-!
# `substr`, `index` and `rindex`

A translation of `qse_awk_fnc_substr` and `index_or_rindex` of `lib/awk/fnc.c` and of the
searches of `lib/cmn/str-str.c` that they use. Characters are compared with `f` applied to
both: it is the identity, or the conversion to upper case if `IGNORECASE` is set.
-/

open List Option

namespace Qse.Awk.Substr

open CheckedInt

structure Text (χ : Type) where
  chars : List χ
  fits : chars.length < 2 ^ 63

variable {χ : Type}

/-! ## `substr` -/

/-- `lcount` before it is cut -/
def countOf : Option Int64 → ℤ
  | none => 2 ^ 63 - 1
  | some n => if n.toInt < 0 then 0 else n.toInt

/-- `qse_awk_fnc_substr`. There is no result if an integer overflows. -/
def substr (s : Text χ) (i : Int64) (n : Option Int64) : Option (List χ) := do
  let lindex ← (CheckedInt.sub i 1).toOption
  let lindex : ℤ := if lindex.toInt < 0 then 0 else lindex.toInt
  let len : ℤ := s.chars.length
  let lindex := if len ≤ lindex then len else lindex
  let lcount := if len - lindex < countOf n then len - lindex else countOf n
  some ((s.chars.drop lindex.toNat).take lcount.toNat)

def atPlaces (keep : ℕ → Bool) (p : ℕ) : List χ → List χ
  | [] => []
  | c :: cs => if keep p then c :: atPlaces keep (p + 1) cs else atPlaces keep (p + 1) cs

theorem atPlaces_eq {keep : ℕ → Bool} : ∀ {s : List χ} {p : ℕ} (low count : ℕ), p ≤ low →
    (∀ q, p ≤ q → q < p + s.length → (keep q = true ↔ low ≤ q ∧ q < low + count)) →
    atPlaces keep p s = (s.drop (low - p)).take count
  | [], p, low, count, _, _ => by rw [atPlaces, drop_nil, take_nil]
  | c :: cs, p, low, count, hlow, hkeep => by
    have hrest : ∀ q, p + 1 ≤ q → q < p + 1 + cs.length →
        (keep q = true ↔ low ≤ q ∧ q < low + count) := fun q hq hend =>
      hkeep q (by omega) (by rw [length_cons]; omega)
    have hfirst := hkeep p le_rfl (by rw [length_cons]; omega)
    rw [atPlaces]
    rcases Nat.lt_or_eq_of_le hlow with hlt | rfl
    · have hskip : low - p = (low - (p + 1)) + 1 := by omega
      rw [if_neg (by rw [hfirst]; omega), hskip, drop_succ_cons, atPlaces_eq low count hlt hrest]
    rw [Nat.sub_self, drop_zero]
    cases count with
    | zero =>
      rw [if_neg (by rw [hfirst]; omega), take_zero, atPlaces_eq (p + 1) 0 le_rfl, take_zero]
      intro q hq hend
      rw [hrest q hq hend]
      omega
    | succ count =>
      rw [if_pos (by rw [hfirst]; omega), take_succ_cons,
        atPlaces_eq (p + 1) count le_rfl, Nat.sub_self, drop_zero]
      intro q hq hend
      rw [hrest q hq hend]
      omega

instance decidableAsked (i : Int64) (n : Option Int64) (p : ℕ) :
    Decidable (∀ k ∈ n, (p : ℤ) < max i.toInt 1 + k.toInt) := decidableForallMem n

def picked (s : Text χ) (i : Int64) (n : Option Int64) : List χ :=
  atPlaces (fun p => max i.toInt 1 ≤ p ∧ ∀ k ∈ n, (p : ℤ) < max i.toInt 1 + k.toInt) 1 s.chars

theorem sub_one {i : Int64} (hi : i ≠ Int64.minValue) :
    (CheckedInt.sub i 1).toOption = some (.ofInt (i.toInt - 1)) ∧
      (Int64.ofInt (i.toInt - 1)).toInt = i.toInt - 1 := by
  have hmin : i.toInt ≠ -2 ^ 63 := fun h => hi (Int64.toInt_inj.1 h)
  have hone : (1 : Int64).toInt = 1 := rfl
  obtain ⟨hlow, hhigh⟩ := fits_toInt i
  have hfits : Fits (i.toInt - 1) := ⟨by omega, by omega⟩
  rw [CheckedInt.sub, exactly, hone, if_pos hfits]
  exact ⟨rfl, toInt_ofInt hfits⟩

theorem countOf_nonneg (n : Option Int64) : 0 ≤ countOf n := by
  cases n with
  | none => decide
  | some n =>
    rw [countOf]
    split
    · rfl
    · omega

theorem forall_lt_iff {n : Option Int64} {low q : ℤ} (hlow : low ≤ q)
    (hq : q < low + (2 ^ 63 - 1)) : (∀ k ∈ n, q < low + k.toInt) ↔ q < low + countOf n := by
  cases n with
  | none => exact iff_of_true (by rintro k ⟨⟩) hq
  | some k =>
    have hone : (∀ k' ∈ some k, q < low + k'.toInt) ↔ q < low + k.toInt :=
      ⟨fun h => h k rfl, by rintro h _ ⟨⟩; exact h⟩
    rw [hone, countOf]
    split
    · omega
    · rfl

theorem substr_eq (s : Text χ) {i : Int64} (hi : i ≠ Int64.minValue) (n : Option Int64) :
    substr s i n = some (picked s i n) := by
  obtain ⟨hsub, hvalue⟩ := sub_one hi
  have hlen := s.fits
  have hcount := countOf_nonneg n
  obtain ⟨low, hlow⟩ : ∃ low, low = min (i.toInt - 1).toNat s.chars.length := ⟨_, rfl⟩
  have hlindex : (if (s.chars.length : ℤ) ≤ (if i.toInt - 1 < 0 then 0 else i.toInt - 1) then
      (s.chars.length : ℤ) else if i.toInt - 1 < 0 then 0 else i.toInt - 1) = low := by
    split
    · split at *
      · omega
      · omega
    · split
      · omega
      · omega
  have hlcount : (if (s.chars.length : ℤ) - low < countOf n then (s.chars.length : ℤ) - low
      else countOf n) = (min (s.chars.length - low) (countOf n).toNat : ℕ) := by
    split
    · omega
    · omega
  have hpicked := @atPlaces_eq χ
    (fun p => max i.toInt 1 ≤ p ∧ ∀ k ∈ n, (p : ℤ) < max i.toInt 1 + k.toInt) s.chars 1 (low + 1)
    (min (s.chars.length - low) (countOf n).toNat) (Nat.le_add_left ..)
  rw [substr, hsub, bind_eq_bind, bind_some, hvalue]
  simp only [hlindex, hlcount, Int.toNat_natCast]
  rw [picked, hpicked, Nat.add_sub_cancel]
  intro q hq hend
  rw [decide_eq_true_eq]
  by_cases hge : max i.toInt 1 ≤ q
  · rw [forall_lt_iff hge (by omega)]
    omega
  · exact iff_of_false (fun h => hge h.1) (by omega)

/-! ## `index` and `rindex` -/

section Search

variable [DecidableEq χ] (f : χ → χ)

def agrees : List χ → List χ → Bool
  | _, [] => true
  | [], _ :: _ => false
  | x :: xs, y :: ys => f x = f y && agrees xs ys

/-- `qse_strxnstr`, or with another `f` `qse_strxncasestr`: where in `str` the string is found -/
def strxnstr (str sub : List χ) : Option ℕ :=
  if sub.length = 0 then some 0
  else if str.length < sub.length then none
  else (List.range (str.length - sub.length + 1)).find? fun k => agrees f (str.drop k) sub

/-- The loop of `qse_strxnrstr` over the offsets below a number, from the last one on -/
def searchBack (str sub : List χ) : ℕ → Option ℕ
  | 0 => none
  | k + 1 => if agrees f (str.drop k) sub then some k else searchBack str sub k

/-- `qse_strxnrstr`, or with another `f` `qse_strxnrcasestr` -/
def strxnrstr (str sub : List χ) : Option ℕ :=
  if sub.length = 0 then some str.length
  else if str.length < sub.length then none
  else searchBack f str sub (str.length - sub.length + 1)

/-- `boundary`, for a third argument. A sum with `len0` is one of unsigned integers. -/
def boundaryOf (rindex : Bool) (len0 : ℕ) : Option Int64 → ℤ
  | none => if rindex then len0 else 1
  | some b => if b = 0 then 1 else if b < 0 then Int.bmod (len0 + b.toInt + 1) (2 ^ 64) else b.toInt

/-- `idx`, for what has been found -/
def idxOf : Option ℕ → ℤ
  | none => 0
  | some ptr => ptr + 1

def indexOrRindex (rindex : Bool) (str0 str1 : Text χ) (b : Option Int64) : ℤ :=
  let len0 := str0.chars.length
  let boundary := boundaryOf rindex len0 b
  let ptr :=
    if len0 < boundary % 2 ^ 64 ∨ boundary ≤ 0 then none
    else if rindex then strxnrstr f (str0.chars.take boundary.toNat) str1.chars
    else (strxnstr f (str0.chars.drop (boundary.toNat - 1)) str1.chars).map
      (boundary.toNat - 1 + ·)
  idxOf ptr

def OccursAt (s t : List χ) (p : ℤ) : Prop :=
  1 ≤ p ∧ p - 1 + t.length ≤ s.length ∧ ((s.drop (p - 1).toNat).take t.length).map f = t.map f

/-- The place that `index` searches from, or up to which `rindex` does: a negative number counts
from the end, and zero stands for 1. -/
def bound (rindex : Bool) (len : ℕ) : Option Int64 → ℤ
  | none => if rindex then len else 1
  | some b => if b = 0 then 1 else if b < 0 then len + b.toInt + 1 else b.toInt

/-- The least place from the bound on where `t` occurs, or zero if there is none or the bound is no
place of `s` -/
def IsIndex (s t : List χ) (b idx : ℤ) : Prop :=
  if 1 ≤ b ∧ b ≤ s.length then
    IsLeast {p | b ≤ p ∧ OccursAt f s t p} idx ∨ idx = 0 ∧ ∀ p, b ≤ p → ¬OccursAt f s t p
  else idx = 0

/-- The greatest place where `t` occurs within the characters up to the bound, or zero -/
def IsRindex (s t : List χ) (b idx : ℤ) : Prop :=
  if 1 ≤ b ∧ b ≤ s.length then
    IsGreatest {p | OccursAt f (s.take b.toNat) t p} idx ∨
      idx = 0 ∧ ∀ p, ¬OccursAt f (s.take b.toNat) t p
  else idx = 0

variable {f}

theorem agrees_iff : ∀ {xs ys : List χ}, agrees f xs ys = true ↔
    ys.length ≤ xs.length ∧ (xs.take ys.length).map f = ys.map f
  | _, [] => by simp [agrees]
  | [], _ :: _ => by simp [agrees]
  | x :: xs, y :: ys => by
    rw [agrees, Bool.and_eq_true, decide_eq_true_eq, agrees_iff]
    simp only [length_cons, take_succ_cons, map_cons, List.cons.injEq, Nat.add_le_add_iff_right]
    exact and_left_comm

theorem occursAt_iff {s t : List χ} (k : ℕ) : OccursAt f s t (k + 1) ↔
    k + t.length ≤ s.length ∧ agrees f (s.drop k) t = true := by
  rw [OccursAt, agrees_iff, length_drop, Int.add_sub_cancel, Int.toNat_natCast]
  constructor
  · rintro ⟨-, hend, htext⟩
    exact ⟨by omega, by omega, htext⟩
  · rintro ⟨hend, -, htext⟩
    exact ⟨by omega, by omega, htext⟩

omit [DecidableEq χ] in
theorem OccursAt.exists_nat {s t : List χ} {p : ℤ} (h : OccursAt f s t p) :
    ∃ k : ℕ, p = k + 1 := ⟨(p - 1).toNat, by have := h.1; omega⟩

theorem occursAt_nil {s t : List χ} (ht : t.length = 0) (k : ℕ) :
    OccursAt f s t (k + 1) ↔ k ≤ s.length := by
  rw [eq_nil_of_length_eq_zero ht, occursAt_iff]
  exact ⟨fun h => h.1, fun h => ⟨h, by rw [agrees]⟩⟩

theorem strxnstr_spec (s t : List χ) :
    (∃ k : ℕ, strxnstr f s t = some k ∧ OccursAt f s t (k + 1) ∧ ∀ j < k, ¬OccursAt f s t (j + 1)) ∨
    strxnstr f s t = none ∧ ∀ k : ℕ, ¬OccursAt f s t (k + 1) := by
  rw [strxnstr]
  by_cases hnil : t.length = 0
  · exact .inl ⟨0, if_pos hnil, (occursAt_nil hnil 0).2 (Nat.zero_le _), fun j hj => by omega⟩
  rw [if_neg hnil]
  simp only [occursAt_iff]
  by_cases hshort : s.length < t.length
  · exact .inr ⟨if_pos hshort, fun k h => by omega⟩
  rw [if_neg hshort]
  cases hfind : (List.range (s.length - t.length + 1)).find? fun k => agrees f (s.drop k) t with
  | none =>
    have hall := find?_range_eq_none.1 hfind
    refine .inr ⟨rfl, fun k h => ?_⟩
    have hk := hall k (by omega)
    rw [h.2] at hk
    cases hk
  | some k =>
    obtain ⟨hk, hmem, hbefore⟩ := find?_range_eq_some.1 hfind
    rw [mem_range] at hmem
    refine .inl ⟨k, rfl, ⟨by omega, hk⟩, fun j hj h => ?_⟩
    have hnot := hbefore j hj
    rw [h.2] at hnot
    cases hnot

theorem searchBack_spec (s t : List χ) (n : ℕ) :
    (∃ k < n, searchBack f s t n = some k ∧ agrees f (s.drop k) t = true ∧
      ∀ j < n, k < j → agrees f (s.drop j) t = false) ∨
    searchBack f s t n = none ∧ ∀ j < n, agrees f (s.drop j) t = false := by
  induction n with
  | zero => exact .inr ⟨rfl, fun j hj => absurd hj (Nat.not_lt_zero j)⟩
  | succ n ih =>
    rw [searchBack]
    cases hn : agrees f (s.drop n) t with
    | true =>
      rw [if_pos rfl]
      exact .inl ⟨n, lt_add_one n, rfl, hn, fun j hj hlt => by omega⟩
    | false =>
      rw [if_neg Bool.false_ne_true]
      have hlast : ∀ j < n + 1, ¬j < n → agrees f (s.drop j) t = false := fun j hj hge => by
        rwa [show j = n by omega]
      obtain ⟨k, hk, hsome, hfound, hrest⟩ | ⟨hnone, hrest⟩ := ih
      · refine .inl ⟨k, Nat.lt_succ_of_lt hk, hsome, hfound, fun j hj hlt => ?_⟩
        by_cases hjn : j < n
        · exact hrest j hjn hlt
        · exact hlast j hj hjn
      · refine .inr ⟨hnone, fun j hj => ?_⟩
        by_cases hjn : j < n
        · exact hrest j hjn
        · exact hlast j hj hjn

theorem strxnrstr_spec (s t : List χ) :
    (∃ k : ℕ, strxnrstr f s t = some k ∧ OccursAt f s t (k + 1) ∧
      ∀ j : ℕ, k < j → ¬OccursAt f s t (j + 1)) ∨
    strxnrstr f s t = none ∧ ∀ k : ℕ, ¬OccursAt f s t (k + 1) := by
  rw [strxnrstr]
  by_cases hnil : t.length = 0
  · refine .inl ⟨s.length, if_pos hnil, (occursAt_nil hnil _).2 le_rfl, fun j hj h => ?_⟩
    exact absurd ((occursAt_nil hnil j).1 h) (Nat.not_le_of_lt hj)
  rw [if_neg hnil]
  simp only [occursAt_iff]
  by_cases hshort : s.length < t.length
  · exact .inr ⟨if_pos hshort, fun k h => by omega⟩
  rw [if_neg hshort]
  obtain ⟨k, hk, hsome, hfound, hrest⟩ | ⟨hnone, hrest⟩ :=
    searchBack_spec s t (s.length - t.length + 1)
  · refine .inl ⟨k, hsome, ⟨by omega, hfound⟩, fun j hj h => ?_⟩
    have hnot := hrest j (by omega) hj
    rw [h.2] at hnot
    cases hnot
  · refine .inr ⟨hnone, fun j h => ?_⟩
    have hnot := hrest j (by omega)
    rw [h.2] at hnot
    cases hnot

/-! ## The functions -/

theorem boundaryOf_eq (rindex : Bool) {len : ℕ} (hlen : len < 2 ^ 63) (b : Option Int64) :
    boundaryOf rindex len b = bound rindex len b ∧ -2 ^ 63 ≤ bound rindex len b ∧
      bound rindex len b < 2 ^ 63 := by
  cases b with
  | none =>
    rw [boundaryOf, bound]
    cases rindex with
    | false =>
      rw [if_neg Bool.false_ne_true]
      exact ⟨rfl, by decide, by decide⟩
    | true =>
      rw [if_pos rfl]
      exact ⟨rfl, by omega, by omega⟩
  | some b =>
    obtain ⟨hlow, hhigh⟩ := fits_toInt b
    rw [boundaryOf, bound]
    split
    · exact ⟨rfl, by decide, by decide⟩
    split
    · rename_i hneg
      have hneg : b.toInt < 0 := Int64.lt_iff_toInt_lt.1 hneg
      refine ⟨Int.bmod_eq_of_le ?_ ?_, by omega, by omega⟩
      · norm_num
        omega
      · norm_num
        omega
    · exact ⟨rfl, hlow, hhigh⟩

theorem outside_iff {len : ℕ} (hlen : len < 2 ^ 63) {b : ℤ} (hlow : -2 ^ 63 ≤ b)
    (hhigh : b < 2 ^ 63) :
    ((len : ℤ) < b % 2 ^ 64 ∨ b ≤ 0) ↔ ¬(1 ≤ b ∧ b ≤ len) := by
  omega

theorem occursAt_drop {s t : List χ} {n : ℕ} (hn : n ≤ s.length) (k : ℕ) :
    OccursAt f (s.drop n) t (k + 1) ↔ OccursAt f s t ((n + k : ℕ) + 1) := by
  rw [occursAt_iff, occursAt_iff, length_drop, drop_drop]
  constructor
  · rintro ⟨hend, h⟩
    exact ⟨by omega, h⟩
  · rintro ⟨hend, h⟩
    exact ⟨by omega, h⟩

theorem index_spec (s t : Text χ) (b : Option Int64) :
    IsIndex f s.chars t.chars (bound false s.chars.length b)
      (indexOrRindex f false s t b) := by
  obtain ⟨heq, hlow, hhigh⟩ := boundaryOf_eq false s.fits b
  have hout := outside_iff s.fits hlow hhigh
  simp only [indexOrRindex, heq, hout]
  generalize bound false s.chars.length b = b at hlow hhigh ⊢
  rw [IsIndex]
  by_cases hin : 1 ≤ b ∧ b ≤ s.chars.length
  · rw [if_neg (not_not_intro hin), if_neg Bool.false_ne_true, if_pos hin]
    obtain ⟨n, hn⟩ : ∃ n : ℕ, b = n + 1 := ⟨(b - 1).toNat, by omega⟩
    have hle : n ≤ s.chars.length := by omega
    have hstart : b.toNat - 1 = n := by omega
    rw [hstart]
    obtain ⟨k, hsome, hocc, hbefore⟩ | ⟨hnone, hall⟩ :=
      strxnstr_spec (s.chars.drop n) t.chars
    · rw [hsome, map_some, idxOf]
      refine .inl ⟨⟨by omega, (occursAt_drop hle k).1 hocc⟩, ?_⟩
      rintro p ⟨hp, hoccp⟩
      obtain ⟨q, rfl⟩ := hoccp.exists_nat
      obtain ⟨j, rfl⟩ : ∃ j, q = n + j := ⟨q - n, by omega⟩
      have hge : ¬j < k := fun hj => hbefore j hj ((occursAt_drop hle j).2 hoccp)
      omega
    · rw [hnone]
      refine .inr ⟨rfl, fun p hp hoccp => ?_⟩
      obtain ⟨q, rfl⟩ := hoccp.exists_nat
      obtain ⟨j, rfl⟩ : ∃ j, q = n + j := ⟨q - n, by omega⟩
      exact hall j ((occursAt_drop hle j).2 hoccp)
  · rw [if_pos hin, if_neg hin, idxOf]

theorem rindex_spec (s t : Text χ) (b : Option Int64) :
    IsRindex f s.chars t.chars (bound true s.chars.length b)
      (indexOrRindex f true s t b) := by
  obtain ⟨heq, hlow, hhigh⟩ := boundaryOf_eq true s.fits b
  have hout := outside_iff s.fits hlow hhigh
  simp only [indexOrRindex, heq, hout]
  generalize bound true s.chars.length b = b at hlow hhigh ⊢
  rw [IsRindex]
  by_cases hin : 1 ≤ b ∧ b ≤ s.chars.length
  · rw [if_neg (not_not_intro hin), if_pos trivial, if_pos hin]
    obtain ⟨k, hsome, hocc, hbehind⟩ | ⟨hnone, hall⟩ :=
      strxnrstr_spec (s.chars.take b.toNat) t.chars
    · rw [hsome, idxOf]
      refine .inl ⟨hocc, fun p hoccp => ?_⟩
      obtain ⟨q, rfl⟩ := OccursAt.exists_nat hoccp
      have hge : ¬k < q := fun hq => hbehind q hq hoccp
      omega
    · rw [hnone]
      refine .inr ⟨rfl, fun p hoccp => ?_⟩
      obtain ⟨q, rfl⟩ := OccursAt.exists_nat hoccp
      exact hall q hoccp
  · rw [if_pos hin, if_neg hin, idxOf]

/-- `substr` gives the characters that are asked for unless the index is the smallest integer, and
`index` and `rindex` give the least and the greatest place. -/
theorem substr_index_rindex (f : χ → χ) (s t : Text χ) (n b : Option Int64) :
    (∀ i : Int64, i ≠ Int64.minValue → substr s i n = some (picked s i n)) ∧
      IsIndex f s.chars t.chars (bound false s.chars.length b)
        (indexOrRindex f false s t b) ∧
      IsRindex f s.chars t.chars (bound true s.chars.length b)
        (indexOrRindex f true s t b) :=
  ⟨fun _ hi => substr_eq s hi n, index_spec s t b, rindex_spec s t b⟩

end Search

/-- In a string of one character, `rindex` finds nothing in the first two characters. -/
theorem not_rindex : ¬∀ (s t : Text Char) (b : Int64) (p : ℤ),
    OccursAt id (s.chars.take b.toInt.toNat) t.chars p →
      p ≤ indexOrRindex id true s t (some b) := by
  intro h
  have hle := h ⟨['a'], by decide⟩ ⟨['a'], by decide⟩ 2 1 ⟨by decide, by decide, by decide⟩
  revert hle
  decide

end Qse.Awk.Substr
