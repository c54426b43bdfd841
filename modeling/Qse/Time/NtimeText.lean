import Mathlib.Data.List.TakeWhile
import Qse.Time.Ntime

/-!
# Times from text

A translation of `qse_mbs_to_ntime` of `lib/cmn/time.c`, which `qse_wcs_to_ntime` repeats for wide
characters. A text is its characters without the terminator. An operation on integers that
leaves their type yields `none`.
-/

open List Option Option

namespace Qse.Time

/-- `QSE_ISMDIGIT` -/
def isDigit (c : ℕ) : Bool := 48 ≤ c && c ≤ 57

def signOf : List ℕ → Bool × List ℕ
  | 45 :: p => (true, p)
  | 43 :: p => (false, p)
  | p => (false, p)

/-- The loop over the digits in front of the point. An inner `none` is a return with -1. -/
def secLoop : List ℕ → ℤ → Option (Option (ℤ × List ℕ))
  | [], s => some (some (s, []))
  | c :: p, s =>
    if isDigit c then do
      let tens ← sec (s * 10)
      let s' ← sec (tens + (c - 48))
      if s' < s then some none else secLoop p s'
    else some (some (s, c :: p))

def nsecLoop : List ℕ → ℤ → ℤ → Option (ℤ × List ℕ)
  | [], _, ns => some (ns, [])
  | c :: p, base, ns =>
    if isDigit c ∧ 0 < base then do
      let more ← nsec ((c - 48) * base)
      let ns ← nsec (ns + more)
      nsecLoop p (base / 10) ns
    else some (ns, c :: p)

def fraction : List ℕ → Option (ℤ × List ℕ)
  | 46 :: p => nsecLoop p (nsecsPerSec / 10) 0
  | p => some (0, p)

/-- `qse_mbs_to_ntime`: what it returns, and the time at `ntime`. -/
def mbsToNtime (text : List ℕ) (ntime : Ntime) : Option (ℤ × Ntime) := do
  let p := (signOf text).2
  let digits ← secLoop p 0
  match digits with
  | none => some (-1, ntime)
  | some (s, q) =>
    if q.length = p.length then some (-1, ntime)
    else do
      let (ns, q) ← fraction q
      if q ≠ [] then some (-1, ntime)
      else if (signOf text).1 then do
        let s ← sec (s * -1)
        some (0, ⟨s, ns⟩)
      else some (0, ⟨s, ns⟩)

def number (ds : List ℕ) : ℕ := ds.foldl (fun n c => n * 10 + (c - 48)) 0

structure Numeral where
  neg : Bool
  whole : List ℕ
  decimals : List ℕ

def Numeral.value (n : Numeral) : ℤ :=
  (if n.neg then -1 else 1) *
    (number n.whole * nsecsPerSec + (number n.decimals * 10 ^ (9 - n.decimals.length) : ℕ))

structure Numeral.Sound (n : Numeral) : Prop where
  whole_ne_nil : n.whole ≠ []
  whole_digits : ∀ c ∈ n.whole, isDigit c = true
  decimals_digits : ∀ c ∈ n.decimals, isDigit c = true
  decimals_length : n.decimals.length ≤ 9

def Fraction (tail decimals : List ℕ) : Prop :=
  tail = 46 :: decimals ∨ tail = [] ∧ decimals = []

def Spells (text : List ℕ) (n : Numeral) : Prop :=
  n.Sound ∧ ∃ sign tail, text = sign ++ (n.whole ++ tail) ∧
    (sign = [45] ∧ n.neg = true ∨ (sign = [43] ∨ sign = []) ∧ n.neg = false) ∧
    Fraction tail n.decimals

def extend (n : ℕ) (ds : List ℕ) : ℕ := ds.foldl (fun n c => n * 10 + (c - 48)) n

variable {c : ℕ} {p q ds text : List ℕ} {n : Numeral}

theorem le_extend (n : ℕ) (ds : List ℕ) : n ≤ extend n ds := by
  induction ds generalizing n with
  | nil => exact le_refl n
  | cons c ds ih =>
    calc
      n ≤ n * 10 + (c - 48) := by omega
      _ ≤ extend n (c :: ds) := ih _

theorem extend_eq (n : ℕ) (ds : List ℕ) : extend n ds = n * 10 ^ ds.length + number ds := by
  induction ds generalizing n with
  | nil => simp [extend, number]
  | cons c ds ih =>
    have hhead : extend n (c :: ds) = (n * 10 + (c - 48)) * 10 ^ ds.length + number ds := ih _
    have hnumber : number (c :: ds) = (0 * 10 + (c - 48)) * 10 ^ ds.length + number ds := ih _
    rw [hhead, hnumber, length_cons, Nat.pow_succ, zero_mul, zero_add,
      add_mul, mul_assoc, mul_comm 10, add_assoc]

theorem cast_digit (hdigit : isDigit c = true) : ((c - 48 : ℕ) : ℤ) = c - 48 ∧ c - 48 ≤ 9 := by
  simp only [isDigit, Bool.and_eq_true, decide_eq_true_eq] at hdigit
  omega

theorem secLoop_eq (p : List ℕ) {n : ℕ} (hn : n ≤ secMax) :
    secLoop p n =
      if extend n (p.takeWhile isDigit) ≤ secMax then
        some (some ((extend n (p.takeWhile isDigit) : ℤ), p.dropWhile isDigit)) else none := by
  induction p generalizing n with
  | nil =>
    rw [takeWhile_nil, dropWhile_nil]
    exact (if_pos hn).symm
  | cons c p ih =>
    by_cases hdigit : isDigit c = true
    · obtain ⟨hcast, hle⟩ := cast_digit hdigit
      rw [takeWhile_cons_of_pos hdigit, dropWhile_cons_of_pos hdigit]
      have hmore : n * 10 + (c - 48) ≤ extend n (c :: p.takeWhile isDigit) := le_extend _ _
      by_cases hfits : n * 10 + (c - 48 : ℕ) ≤ secMax
      · have htens : sec (n * 10) = some (n * 10 : ℤ) :=
          sec_eq (by simp only [secMin]; omega) (by omega)
        have hnext : sec (n * 10 + (c - 48)) = some ((n * 10 + (c - 48) : ℕ) : ℤ) := by
          rw [sec_eq (by simp only [secMin]; omega) (by omega)]
          congr 1
          omega
        have hgrows : ¬((n * 10 + (c - 48) : ℕ) : ℤ) < n := by omega
        have hrest := ih (n := n * 10 + (c - 48)) (by omega)
        simp only [secLoop, if_pos hdigit, htens, hnext, bind_eq_bind, bind_some,
          if_neg hgrows, hrest]
        rfl
      · have hnot : ¬(extend n (c :: p.takeWhile isDigit) : ℤ) ≤ secMax := by omega
        rw [if_neg hnot]
        by_cases htens : (n * 10 : ℤ) ≤ secMax
        · have hover : sec (n * 10 + (c - 48)) = none := if_neg (by omega)
          have hstays : sec (n * 10) = some (n * 10 : ℤ) :=
            sec_eq (by simp only [secMin]; omega) htens
          simp only [secLoop, if_pos hdigit, hstays, hover, bind_eq_bind,
            bind_some, bind_none]
        · have hover : sec (n * 10) = none := if_neg (by omega)
          simp only [secLoop, if_pos hdigit, hover, bind_eq_bind, bind_none]
    · rw [takeWhile_cons_of_neg hdigit, dropWhile_cons_of_neg hdigit]
      have hstop : secLoop (c :: p) n = some (some ((n : ℤ), c :: p)) := by
        simp [secLoop, hdigit]
      rw [hstop]
      exact (if_pos hn).symm

theorem nsecLoop_eq (p : List ℕ) (k ns : ℕ) (hroom : ns + 10 ^ k ≤ 1000000000) :
    ∃ ns' rest, nsecLoop p ((10 ^ k / 10 : ℕ) : ℤ) ns = some (ns', rest) ∧
      (rest = [] ↔ (∀ c ∈ p, isDigit c = true) ∧ p.length ≤ k) ∧
      (rest = [] → ns' = ns + (number p * 10 ^ (k - p.length) : ℕ)) := by
  induction p generalizing k ns with
  | nil => exact ⟨ns, [], rfl, by simp, by simp [number]⟩
  | cons c p ih =>
    by_cases hdigit : isDigit c = true
    · cases k with
      | zero => exact ⟨ns, c :: p, by simp [nsecLoop], by simp, by simp⟩
      | succ k =>
        obtain ⟨hcast, hle⟩ := cast_digit hdigit
        have hpow : 10 ^ (k + 1) / 10 = 10 ^ k := by
          rw [Nat.pow_succ, Nat.mul_div_cancel _ (by decide)]
        have hpos : 0 < 10 ^ k := Nat.pow_pos (by decide)
        have hterm : (c - 48) * 10 ^ k ≤ 9 * 10 ^ k := Nat.mul_le_mul_right _ hle
        rw [Nat.pow_succ] at hroom
        have hmore : nsec ((c - 48) * (10 ^ k : ℕ)) = some (((c - 48) * 10 ^ k : ℕ) : ℤ) := by
          rw [← hcast, ← Int.natCast_mul]
          exact nsec_eq (by omega) (by omega)
        have hnext : nsec (ns + ((c - 48) * 10 ^ k : ℕ)) =
            some ((ns + (c - 48) * 10 ^ k : ℕ) : ℤ) := by
          rw [← Int.natCast_add]
          exact nsec_eq (by omega) (by omega)
        have hbase : ((10 ^ k : ℕ) : ℤ) / 10 = (10 ^ k / 10 : ℕ) := by omega
        obtain ⟨ns', rest, hrun, hall, hvalue⟩ :=
          ih k (ns + (c - 48) * 10 ^ k) (by omega)
        refine ⟨ns', rest, ?_, ?_, ?_⟩
        · rw [hpow, nsecLoop, if_pos ⟨hdigit, by omega⟩]
          simp only [hmore, hnext, hbase, bind_eq_bind, bind_some, hrun]
        · rw [hall, forall_mem_cons, length_cons, Nat.add_le_add_iff_right]
          simp [hdigit]
        · intro hrest
          have hshort := (hall.mp hrest).2
          have hnumber : number (c :: p) = (0 * 10 + (c - 48)) * 10 ^ p.length + number p :=
            extend_eq _ p
          have hsplit : 10 ^ p.length * 10 ^ (k - p.length) = 10 ^ k := by
            rw [← Nat.pow_add, Nat.add_sub_cancel' hshort]
          rw [hvalue hrest, hnumber, zero_mul, zero_add, length_cons,
            Nat.add_sub_add_right, add_mul, mul_assoc, hsplit]
          omega
    · exact ⟨ns, c :: p, by simp [nsecLoop, hdigit], by simp [hdigit], by simp⟩

theorem fraction_eq (q : List ℕ) :
    ∃ ns rest, fraction q = some (ns, rest) ∧
      (rest = [] ↔ ∃ ds, Fraction q ds ∧ (∀ c ∈ ds, isDigit c = true) ∧ ds.length ≤ 9) ∧
      ∀ ds, Fraction q ds → rest = [] → ns = (number ds * 10 ^ (9 - ds.length) : ℕ) := by
  by_cases hpoint : ∃ p, q = 46 :: p
  · obtain ⟨p, rfl⟩ := hpoint
    obtain ⟨ns, rest, hrun, hall, hvalue⟩ := nsecLoop_eq p 9 0 (by decide)
    have hds {ds : List ℕ} (hfraction : Fraction (46 :: p) ds) : ds = p := by
      rcases hfraction with hcons | ⟨hnil, -⟩
      · exact (List.cons.inj hcons).2.symm
      · cases hnil
    refine ⟨ns, rest, hrun, hall.trans ?_, ?_⟩
    · constructor
      · exact fun hdigits => ⟨p, .inl rfl, hdigits⟩
      · rintro ⟨ds, hfraction, hdigits⟩
        rwa [hds hfraction] at hdigits
    · intro ds hfraction hrest
      rw [hds hfraction, hvalue hrest]
      simp
  · have hrun : fraction q = some (0, q) := by
      rw [fraction]
      exact fun p hp => hpoint ⟨p, hp⟩
    refine ⟨0, q, hrun, ?_, ?_⟩
    · constructor
      · rintro rfl
        exact ⟨[], .inr ⟨rfl, rfl⟩, by simp, by decide⟩
      · rintro ⟨ds, hcons | ⟨hnil, -⟩, -⟩
        · exact absurd ⟨ds, hcons⟩ hpoint
        · exact hnil
    · rintro ds (hcons | ⟨-, rfl⟩) -
      · exact absurd ⟨ds, hcons⟩ hpoint
      · simp [number]

theorem Fraction.takeWhile (hfraction : Fraction q ds) : q.takeWhile isDigit = [] ∧
    q.dropWhile isDigit = q := by
  rcases hfraction with rfl | ⟨rfl, -⟩
  · exact ⟨rfl, rfl⟩
  · exact ⟨rfl, rfl⟩

theorem signOf_digits (hne : ds ≠ []) (hdigits : ∀ c ∈ ds, isDigit c = true) (q : List ℕ) :
    signOf (ds ++ q) = (false, ds ++ q) := by
  obtain ⟨c, ds, rfl⟩ := exists_cons_of_ne_nil hne
  have hdigit := hdigits c (.head _)
  rw [cons_append, signOf]
  · rintro p ⟨⟩
    cases hdigit
  · rintro p ⟨⟩
    cases hdigit

theorem spells_iff : Spells text n ↔ n.Sound ∧ (signOf text).1 = n.neg ∧
    (signOf text).2.takeWhile isDigit = n.whole ∧
    Fraction ((signOf text).2.dropWhile isDigit) n.decimals := by
  constructor
  · rintro ⟨hsound, sign, tail, rfl, hsign, hfraction⟩
    have hparts : signOf (sign ++ (n.whole ++ tail)) = (n.neg, n.whole ++ tail) := by
      rcases hsign with ⟨rfl, hneg⟩ | ⟨rfl | rfl, hneg⟩
      · rw [hneg]
        rfl
      · rw [hneg]
        rfl
      · rw [hneg]
        exact signOf_digits hsound.whole_ne_nil hsound.whole_digits tail
    obtain ⟨htake, hdrop⟩ := hfraction.takeWhile
    rw [hparts]
    refine ⟨hsound, rfl, ?_, ?_⟩
    · rw [takeWhile_append_of_pos hsound.whole_digits, htake, append_nil]
    · rw [dropWhile_append_of_pos hsound.whole_digits, hdrop]
      exact hfraction
  · rintro ⟨hsound, hneg, hwhole, hfraction⟩
    have hrest : n.whole ++ (signOf text).2.dropWhile isDigit = (signOf text).2 := by
      rw [← hwhole, takeWhile_append_dropWhile]
    have hsign : ∃ sign, text = sign ++ (signOf text).2 ∧
        (sign = [45] ∧ (signOf text).1 = true ∨
          (sign = [43] ∨ sign = []) ∧ (signOf text).1 = false) := by
      fun_cases signOf text
      · exact ⟨[45], rfl, .inl ⟨rfl, rfl⟩⟩
      · exact ⟨[43], rfl, .inr ⟨.inl rfl, rfl⟩⟩
      · exact ⟨[], rfl, .inr ⟨.inr rfl, rfl⟩⟩
    obtain ⟨sign, htext, hsign⟩ := hsign
    rw [hneg] at hsign
    exact ⟨hsound, sign, _, by rw [hrest]; exact htext, hsign, hfraction⟩

theorem number_lt (hdigits : ∀ c ∈ ds, isDigit c = true) : number ds < 10 ^ ds.length := by
  induction ds with
  | nil => decide
  | cons c ds ih =>
    obtain ⟨hdigit, hdigits⟩ := forall_mem_cons.mp hdigits
    have hle := (cast_digit hdigit).2
    have hrest := ih hdigits
    have hnumber : number (c :: ds) = (0 * 10 + (c - 48)) * 10 ^ ds.length + number ds :=
      extend_eq _ ds
    have hterm : (c - 48) * 10 ^ ds.length ≤ 9 * 10 ^ ds.length := Nat.mul_le_mul_right _ hle
    rw [hnumber, zero_mul, zero_add, length_cons, Nat.pow_succ]
    omega

theorem Numeral.Sound.decimals_lt (hsound : n.Sound) :
    number n.decimals * 10 ^ (9 - n.decimals.length) < 1000000000 := by
  calc
    number n.decimals * 10 ^ (9 - n.decimals.length) <
        10 ^ n.decimals.length * 10 ^ (9 - n.decimals.length) := by
      exact Nat.mul_lt_mul_of_pos_right (number_lt hsound.decimals_digits)
        (Nat.pow_pos (by decide))
    _ = 10 ^ 9 := by rw [← Nat.pow_add, Nat.add_sub_cancel' hsound.decimals_length]

def Numeral.stored (n : Numeral) : Ntime :=
  ⟨if n.neg then -number n.whole else number n.whole,
    (number n.decimals * 10 ^ (9 - n.decimals.length) : ℕ)⟩

theorem mbsToNtime_eq (hsecs : number ((signOf text).2.takeWhile isDigit) ≤ secMax)
    (ntime : Ntime) :
    (∀ n, Spells text n → mbsToNtime text ntime = some (0, n.stored)) ∧
      ((¬∃ n, Spells text n) → mbsToNtime text ntime = some (-1, ntime)) := by
  have hloop : secLoop (signOf text).2 0 =
      some (some ((number ((signOf text).2.takeWhile isDigit) : ℤ),
        (signOf text).2.dropWhile isDigit)) :=
    (secLoop_eq (signOf text).2 (n := 0) (by decide)).trans (if_pos hsecs)
  obtain ⟨ns, rest, hfraction, hrest, hns⟩ := fraction_eq ((signOf text).2.dropWhile isDigit)
  have hnone : ((signOf text).2.dropWhile isDigit).length = (signOf text).2.length ↔
      (signOf text).2.takeWhile isDigit = [] := by
    have hlength := congrArg List.length
      (takeWhile_append_dropWhile (p := isDigit) (l := (signOf text).2))
    rw [length_append] at hlength
    rw [← length_eq_zero_iff]
    omega
  constructor
  · intro n hspells
    obtain ⟨hsound, hneg, hwhole, htail⟩ := spells_iff.mp hspells
    have hnil : rest = [] :=
      hrest.mpr ⟨n.decimals, htail, hsound.decimals_digits, hsound.decimals_length⟩
    have hsome : ¬((signOf text).2.dropWhile isDigit).length = (signOf text).2.length := by
      rw [hnone, hwhole]
      exact hsound.whole_ne_nil
    have hleft : ¬rest ≠ [] := not_not_intro hnil
    rw [hwhole] at hloop
    simp only [mbsToNtime, hloop, bind_eq_bind, bind_some, if_neg hsome, hfraction,
      if_neg hleft, hneg, hns _ htail hnil, Numeral.stored]
    rw [hwhole] at hsecs
    by_cases hminus : n.neg = true
    · have hstays : sec ((number n.whole : ℤ) * -1) = some (-number n.whole : ℤ) := by
        rw [sec_eq (by simp only [secMin, secMax] at *; omega) (by omega)]
        congr 1
        omega
      simp only [if_pos hminus, hstays, bind_some]
    · simp only [if_neg hminus]
  · intro hnot
    by_cases hnil : (signOf text).2.takeWhile isDigit = []
    · simp only [mbsToNtime, hloop, bind_eq_bind, bind_some, if_pos (hnone.mpr hnil)]
    have hleft : rest ≠ [] := by
      intro heq
      obtain ⟨ds, htail, hdigits, hlength⟩ := hrest.mp heq
      refine hnot ⟨⟨(signOf text).1, (signOf text).2.takeWhile isDigit, ds⟩, ?_⟩
      exact spells_iff.mpr ⟨⟨hnil, fun c hmem => mem_takeWhile_imp hmem, hdigits, hlength⟩,
        rfl, rfl, htail⟩
    simp only [mbsToNtime, hloop, bind_eq_bind, bind_some,
      if_neg (fun h => hnil (hnone.mp h)), hfraction, if_pos hleft]

theorem Numeral.Sound.representable (hsound : n.Sound) (hsecs : number n.whole ≤ secMax) :
    ∃ w, Normal w ∧ Time.value w = n.value := by
  have hlt := hsound.decimals_lt
  rw [Numeral.value]
  generalize number n.decimals * 10 ^ (9 - n.decimals.length) = d at *
  simp only [Time.value, secMax, nsecsPerSec] at *
  by_cases hneg : n.neg = true
  · rw [if_pos hneg]
    by_cases hzero : d = 0
    · refine ⟨⟨-number n.whole, 0⟩, ⟨?_, ?_, ?_, ?_⟩, ?_⟩ <;>
        simp only [secMin, secMax, nsecsPerSec] <;> omega
    · refine ⟨⟨-number n.whole - 1, 1000000000 - d⟩, ⟨?_, ?_, ?_, ?_⟩, ?_⟩ <;>
        simp only [secMin, secMax, nsecsPerSec] <;> omega
  · rw [if_neg hneg]
    refine ⟨⟨number n.whole, d⟩, ⟨?_, ?_, ?_, ?_⟩, ?_⟩ <;>
      simp only [secMin, secMax, nsecsPerSec] <;> omega

/-- A text is converted if and only if it is a numeral that a time can be, and the time is that of
the numeral; otherwise the time at `ntime` stays. -/
def Converted (text : List ℕ) : Prop :=
  ∀ ntime, (∀ n, Spells text n → (∃ w, Normal w ∧ value w = n.value) →
      ∃ z, mbsToNtime text ntime = some (0, z) ∧ value z = n.value) ∧
    ((¬∃ n, Spells text n ∧ ∃ w, Normal w ∧ value w = n.value) →
      mbsToNtime text ntime = some (-1, ntime))

theorem Numeral.value_stored_iff (n : Numeral) : Time.value n.stored = n.value ↔
    (n.neg = true → number n.decimals = 0) := by
  have hpow : 0 < 10 ^ (9 - n.decimals.length) := Nat.pow_pos (by decide)
  have hzero : number n.decimals * 10 ^ (9 - n.decimals.length) = 0 ↔ number n.decimals = 0 := by
    rw [Nat.mul_eq_zero]
    constructor
    · rintro (h | h)
      · exact h
      · omega
    · exact .inl
  rw [← hzero, Time.value, Numeral.stored, Numeral.value]
  generalize number n.decimals * 10 ^ (9 - n.decimals.length) = d
  simp only [nsecsPerSec]
  by_cases hneg : n.neg = true
  · rw [if_pos hneg, if_pos hneg, forall_prop_of_true hneg]
    omega
  · rw [if_neg hneg, if_neg hneg, Int.one_mul]
    exact ⟨fun _ h => absurd h hneg, fun _ => rfl⟩

/-- A text is converted just when the number of its digits in front of the point is of the type of
seconds and it is not a negative numeral with a fraction other than zero. -/
theorem converted_iff (text : List ℕ) : Converted text ↔
    number ((signOf text).2.takeWhile isDigit) ≤ secMax ∧
      ∀ n, Spells text n → n.neg = true → number n.decimals = 0 := by
  by_cases hsecs : number ((signOf text).2.takeWhile isDigit) ≤ secMax
  · have hrun := fun ntime => mbsToNtime_eq hsecs ntime
    have hfits {n : Numeral} (hspells : Spells text n) : ∃ w, Normal w ∧ value w = n.value := by
      obtain ⟨hsound, -, hwhole, -⟩ := spells_iff.mp hspells
      rw [hwhole] at hsecs
      exact hsound.representable hsecs
    constructor
    · intro hconverted
      refine ⟨hsecs, fun n hspells => ?_⟩
      obtain ⟨z, hz, hvalue⟩ := (hconverted earliest).1 n hspells (hfits hspells)
      rw [(hrun earliest).1 n hspells] at hz
      cases hz
      exact n.value_stored_iff.mp hvalue
    · rintro ⟨-, hnot⟩ ntime
      refine ⟨fun n hspells _ => ?_, fun hnone => ?_⟩
      · exact ⟨n.stored, (hrun ntime).1 n hspells, n.value_stored_iff.mpr (hnot n hspells)⟩
      · apply (hrun ntime).2
        rintro ⟨n, hspells⟩
        exact hnone ⟨n, hspells, hfits hspells⟩
  · have hrun (ntime : Ntime) : mbsToNtime text ntime = none := by
      have hloop : secLoop (signOf text).2 0 = none :=
        (secLoop_eq (signOf text).2 (n := 0) (by decide)).trans (if_neg hsecs)
      simp only [mbsToNtime, hloop, bind_eq_bind, bind_none]
    constructor
    · intro hconverted
      exfalso
      by_cases hsome : ∃ n, Spells text n ∧ ∃ w, Normal w ∧ value w = n.value
      · obtain ⟨n, hspells, hfits⟩ := hsome
        obtain ⟨z, hz, -⟩ := (hconverted earliest).1 n hspells hfits
        rw [hrun] at hz
        cases hz
      · have hz := (hconverted earliest).2 hsome
        rw [hrun] at hz
        cases hz
    · exact fun h => absurd h.1 hsecs

/-- The text -1.5 gives the time -0.5. -/
theorem not_converted : ¬∀ text, Converted text := by
  intro hall
  have hspells : Spells [45, 49, 46, 53] ⟨true, [49], [53]⟩ :=
    ⟨⟨by decide, by decide, by decide, by decide⟩, [45], [46, 53], rfl, .inl ⟨rfl, rfl⟩,
      .inl rfl⟩
  have hfits : Normal ⟨-2, 500000000⟩ := ⟨by decide, by decide, by decide, by decide⟩
  obtain ⟨z, hz, hvalue⟩ :=
    (hall [45, 49, 46, 53] ⟨0, 0⟩).1 _ hspells ⟨⟨-2, 500000000⟩, hfits, by decide⟩
  have hrun : mbsToNtime [45, 49, 46, 53] ⟨0, 0⟩ = some (0, ⟨-1, 500000000⟩) := by decide
  rw [hrun] at hz
  cases hz
  exact absurd hvalue (by decide)

end Qse.Time
