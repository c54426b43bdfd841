import Qse.Http.Header

/-!
# Numbers in header values

`capture_content_length` in `lib/http/htrd.c`, and a translation of `qse_parsehttprange` in
`lib/http/http.c`. Both read decimal numbers into a word of 64 bits, the former with a test for an
overflow that compares a number with the one before it, the latter with none.
-/

open List Option

namespace Qse.Http.Numbers

def number (ds : List UInt8) : ℕ := ds.foldl (fun n c => n * 10 + (digitToNum c).getD 0) 0

def IsDigits (ds : List UInt8) : Prop := ∀ c ∈ ds, (digitToNum c).isSome

instance (ds : List UInt8) : Decidable (IsDigits ds) :=
  inferInstanceAs (Decidable (∀ c ∈ ds, (digitToNum c).isSome))

variable {p ds ds' rest : List UInt8} {c : UInt8} {num : ℕ}

theorem number_concat (hc : digitToNum c = some num) :
    number (p ++ [c]) = number p * 10 + num := by
  rw [number, foldl_append, foldl_cons, foldl_nil, hc]
  rfl

theorem number_step (hc : digitToNum c = some num) :
    (number p % 2 ^ 64 * 10 + num) % 2 ^ 64 = number (p ++ [c]) % 2 ^ 64 := by
  rw [number_concat hc]
  omega

theorem number_le_append (ds ds' : List UInt8) : number ds ≤ number (ds ++ ds') := by
  induction ds' using List.reverseRecOn with
  | nil => rw [append_nil]
  | append_singleton ds' c ih =>
    have hstep : number (ds ++ ds' ++ [c]) = number (ds ++ ds') * 10 + (digitToNum c).getD 0 := by
      rw [number, foldl_append]
      rfl
    rw [← append_assoc, hstep]
    omega

/-! ## The length of the content -/

def Caught (val : List UInt8) : Prop :=
  ∃ k < val.length, number (val.take (k + 1)) % 2 ^ 64 < number (val.take k) % 2 ^ 64

/-- A length below the word size is stored, and a larger one is rejected. -/
def LengthRead (chunked : Bool) (val : List UInt8) : Prop :=
  IsDigits val → val ≠ [] → if number val < 2 ^ 64 then chunked = true → number val = 0
    else Caught val ∨ chunked = true ∧ number val % 2 ^ 64 ≠ 0

theorem readLength_digits (hds : IsDigits ds) :
    (readLength (number p % 2 ^ 64) ds = none ∧ ∃ k < ds.length,
      number (p ++ ds.take (k + 1)) % 2 ^ 64 < number (p ++ ds.take k) % 2 ^ 64) ∨
    (readLength (number p % 2 ^ 64) ds = some (number (p ++ ds) % 2 ^ 64) ∧ ∀ k < ds.length,
      number (p ++ ds.take k) % 2 ^ 64 ≤ number (p ++ ds.take (k + 1)) % 2 ^ 64) := by
  induction ds generalizing p with
  | nil => exact .inr ⟨by rw [readLength, append_nil], by simp⟩
  | cons c ds ih =>
    obtain ⟨num, hc⟩ := isSome_iff_exists.mp (hds c (.head _))
    have hrest : IsDigits ds := fun d hd => hds d (mem_cons_of_mem c hd)
    have happend (k : ℕ) : p ++ (c :: ds).take (k + 1) = p ++ [c] ++ ds.take k := by
      rw [take_succ_cons, append_assoc, singleton_append]
    have hzero : p ++ (c :: ds).take 0 = p := by rw [take_zero, append_nil]
    rw [readLength, hc]
    simp only [number_step hc]
    by_cases hover : number (p ++ [c]) % 2 ^ 64 < number p % 2 ^ 64
    · refine .inl ⟨if_pos hover, 0, Nat.succ_pos _, ?_⟩
      rwa [happend, hzero, take_zero, append_nil]
    rw [if_neg hover]
    rcases ih hrest (p := p ++ [c]) with ⟨hrun, k, hk, hless⟩ | ⟨hrun, hall⟩
    · refine .inl ⟨hrun, k + 1, Nat.succ_lt_succ hk, ?_⟩
      rwa [happend, happend]
    refine .inr ⟨?_, ?_⟩
    · rw [hrun, append_assoc, singleton_append]
    · intro k hk
      cases k with
      | zero =>
        rw [happend, hzero, take_zero, append_nil]
        omega
      | succ k =>
        rw [happend, happend]
        exact hall k (Nat.lt_of_succ_lt_succ hk)

theorem readLength_none (hds : ¬IsDigits ds) (len : ℕ) : readLength len ds = none := by
  induction ds generalizing len with
  | nil => exact absurd (by simp [IsDigits]) hds
  | cons c ds ih =>
    rw [readLength]
    cases hc : digitToNum c with
    | none => rfl
    | some num =>
      have hrest : ¬IsDigits ds := by
        intro hrest
        apply hds
        intro d hd
        rcases mem_cons.mp hd with rfl | hd
        · rw [hc, isSome_some]
        · exact hrest d hd
      simp only [ih hrest, ite_self]

theorem not_caught (hfits : number ds < 2 ^ 64) : ¬Caught ds := by
  rintro ⟨k, hk, hless⟩
  have hle : number (ds.take k) ≤ number (ds.take (k + 1)) := by
    rw [take_succ_eq_append_getElem hk]
    exact number_le_append _ _
  have hle' : number (ds.take (k + 1)) ≤ number ds := by
    have h := number_le_append (ds.take (k + 1)) (ds.drop (k + 1))
    rwa [take_append_drop] at h
  omega

theorem readLength_none_iff (hds : IsDigits ds) : readLength 0 ds = none ↔ Caught ds := by
  rcases readLength_digits (p := []) hds with ⟨hrun, hless⟩ | ⟨hrun, hall⟩
  · exact ⟨fun _ => hless, fun _ => hrun⟩
  · constructor
    · intro hnone
      exact absurd (hnone.symm.trans hrun) (by simp)
    · rintro ⟨k, hk, hless⟩
      exact absurd (hall k hk) (not_le.mpr hless)

theorem readLength_some (hds : IsDigits ds) (hnot : ¬Caught ds) :
    readLength 0 ds = some (number ds % 2 ^ 64) := by
  rcases readLength_digits (p := []) hds with ⟨-, hless⟩ | ⟨hrun, -⟩
  · exact absurd hless hnot
  · exact hrun

/-- The value of a digit string that fits is stored and everything else is rejected, if the value is
one of `LengthRead`. -/
theorem stored_iff (re : Re) (values : List (List UInt8)) :
    captureContentLength re values =
        (if values.getLast?.getD [] ≠ [] ∧ IsDigits (values.getLast?.getD []) ∧
            number (values.getLast?.getD []) < 2 ^ 64 then
          .ok { re with
            flags := { re.flags with length := true }
            contentLength := number (values.getLast?.getD []) }
        else .error .badre) ↔
      LengthRead re.flags.chunked (values.getLast?.getD []) := by
  rw [captureContentLength, LengthRead]
  generalize values.getLast?.getD [] = val
  by_cases hds : IsDigits val
  · by_cases hempty : val = []
    · subst hempty
      simp [readLength]
    · by_cases hfits : number val < 2 ^ 64
      · rw [readLength_some hds (not_caught hfits), Nat.mod_eq_of_lt hfits]
        simp only [hds, hempty, hfits, if_true, if_false, ne_eq, not_false_eq_true, true_and,
          forall_const]
        by_cases hchunked : re.flags.chunked = true
        · simp only [hchunked, true_and, forall_const]
          by_cases hpos : 0 < number val
          · rw [if_pos hpos]
            simp only [reduceCtorEq, false_iff]
            omega
          · rw [if_neg hpos]
            simp only [true_iff]
            omega
        · simp [hchunked]
      · simp only [hds, hempty, hfits, if_false, ne_eq, not_false_eq_true, and_false, forall_const]
        by_cases hcaught : Caught val
        · rw [(readLength_none_iff hds).mpr hcaught]
          simp [hcaught]
        rw [readLength_some hds hcaught]
        simp only [hcaught, false_or]
        by_cases hguard : re.flags.chunked = true ∧ 0 < number val % 2 ^ 64
        · rw [if_pos hguard]
          simp only [true_iff]
          exact ⟨hguard.1, by omega⟩
        · rw [if_neg hguard]
          simp only [reduceCtorEq, false_iff]
          intro h
          exact hguard ⟨h.1, by omega⟩
  · rw [readLength_none hds]
    simp [hds]

set_option maxRecDepth 2000 in
/-- The length `30000000000000000000` is stored as 11553255926290448384. -/
theorem not_stored :
    ¬∀ (re : Re) (values : List (List UInt8)),
      captureContentLength re values =
        (if values.getLast?.getD [] ≠ [] ∧ IsDigits (values.getLast?.getD []) ∧
            number (values.getLast?.getD []) < 2 ^ 64 then
          .ok { re with
            flags := { re.flags with length := true }
            contentLength := number (values.getLast?.getD []) }
        else .error .badre) := by
  intro hall
  exact absurd (hall Re.init [octets "30000000000000000000"]) (by decide +kernel)

/-! ## Ranges -/

/-- `QSE_HTTP_RANGE_PROPER` and `QSE_HTTP_RANGE_SUFFIX` -/
inductive RangeType where
  | proper
  | suffix
deriving DecidableEq

/-- `qse_http_range_t` -/
structure Range where
  type : RangeType
  rangeFrom : ℕ
  rangeTo : ℕ
deriving DecidableEq

/-- `QSE_TYPE_MAX(qse_http_range_int_t)` -/
def rangeMax : ℕ := 2 ^ 64 - 1

def rangeLoop : ℕ → List UInt8 → ℕ × List UInt8
  | n, [] => (n, [])
  | n, c :: str =>
    match digitToNum c with
    | some num => rangeLoop ((n * 10 + num) % 2 ^ 64) str
    | none => (n, c :: str)

/-- `qse_parsehttprange`; the null is the end of the list. -/
def parsehttprange (str : List UInt8) : Option Range :=
  if str.take 6 = octets "bytes=" then
    let str := str.drop 6
    let type := if startsWith (fun c => (digitToNum c).isSome) str then .proper else .suffix
    let first := rangeLoop 0 str
    match first.2 with
    | [] => none
    | c :: str =>
      if c = mt '-' then
        let last :=
          if startsWith (fun c => (digitToNum c).isSome) str then (rangeLoop 0 str).1
          else rangeMax
        if last < first.1 then none else some ⟨type, first.1, last⟩
      else none
  else none

inductive Denotes : List UInt8 → Range → Prop where
  | between {ds ds' : List UInt8} (hds : IsDigits ds) (hds' : IsDigits ds') (hne : ds ≠ [])
      (hne' : ds' ≠ []) (hfits : number ds < 2 ^ 64) (hfits' : number ds' < 2 ^ 64)
      (hle : number ds ≤ number ds') :
      Denotes (octets "bytes=" ++ ds ++ mt '-' :: ds') ⟨.proper, number ds, number ds'⟩
  | onwards {ds : List UInt8} (hds : IsDigits ds) (hne : ds ≠ []) (hfits : number ds < 2 ^ 64) :
      Denotes (octets "bytes=" ++ ds ++ [mt '-']) ⟨.proper, number ds, rangeMax⟩
  | suffix {ds' : List UInt8} (hds' : IsDigits ds') (hne' : ds' ≠ [])
      (hfits' : number ds' < 2 ^ 64) :
      Denotes (octets "bytes=" ++ mt '-' :: ds') ⟨.suffix, 0, number ds'⟩

def NoDigit (rest : List UInt8) : Prop := startsWith (fun c => (digitToNum c).isSome) rest = false

/-- The strings that are read as what they denote: at a text of the form, nothing stands behind the
digits, there are some, and the numbers fit; or the numbers are in the wrong order as words. -/
def RangeRead (str : List UInt8) : Prop :=
  ∀ ds ds' rest, IsDigits ds → IsDigits ds' → NoDigit rest →
    str = octets "bytes=" ++ ds ++ mt '-' :: (ds' ++ rest) →
      (rest = [] ∧ (ds ≠ [] ∨ ds' ≠ []) ∧ number ds < 2 ^ 64 ∧ number ds' < 2 ^ 64) ∨
        (ds' ≠ [] ∧ number ds' % 2 ^ 64 < number ds % 2 ^ 64)

theorem rangeLoop_append (hds : IsDigits ds) (hrest : NoDigit rest) :
    rangeLoop (number p % 2 ^ 64) (ds ++ rest) = (number (p ++ ds) % 2 ^ 64, rest) := by
  induction ds generalizing p with
  | nil =>
    rw [nil_append, append_nil]
    cases rest with
    | nil => rfl
    | cons c rest =>
      have hc : digitToNum c = none := by
        rw [NoDigit, startsWith] at hrest
        simpa using hrest
      rw [rangeLoop, hc]
  | cons c ds ih =>
    obtain ⟨num, hc⟩ := isSome_iff_exists.mp (hds c (.head _))
    have hds' : IsDigits ds := fun d hd => hds d (mem_cons_of_mem c hd)
    rw [cons_append, rangeLoop, hc]
    simp only [number_step hc, ih hds' (p := p ++ [c]), append_assoc, singleton_append]

theorem startsWith_digits (hds : IsDigits ds) (hrest : NoDigit rest) :
    startsWith (fun c => (digitToNum c).isSome) (ds ++ rest) = !ds.isEmpty := by
  cases ds with
  | nil => exact hrest
  | cons c ds => exact hds c (.head _)

theorem exists_digits (str : List UInt8) :
    ∃ ds rest, IsDigits ds ∧ NoDigit rest ∧ str = ds ++ rest := by
  induction str with
  | nil => exact ⟨[], [], by simp [IsDigits], rfl, rfl⟩
  | cons c str ih =>
    cases hc : digitToNum c with
    | none => exact ⟨[], c :: str, by simp [IsDigits], by simp [NoDigit, startsWith, hc], rfl⟩
    | some num =>
      obtain ⟨ds, rest, hds, hrest, rfl⟩ := ih
      refine ⟨c :: ds, rest, ?_, hrest, rfl⟩
      intro d hd
      rcases mem_cons.mp hd with rfl | hd
      · rw [hc, isSome_some]
      · exact hds d hd

theorem noDigit_nil : NoDigit [] := rfl

theorem noDigit_dash (rest : List UInt8) : NoDigit (mt '-' :: rest) := by
  rw [NoDigit, startsWith]
  decide

theorem digits_unique (hds : IsDigits ds) (hds' : IsDigits ds') {rest' : List UInt8}
    (hrest : NoDigit rest) (hrest' : NoDigit rest') (heq : ds ++ rest = ds' ++ rest') :
    ds = ds' ∧ rest = rest' := by
  induction ds generalizing ds' with
  | nil =>
    cases ds' with
    | nil => exact ⟨rfl, heq⟩
    | cons c ds' =>
      have hstart := startsWith_digits hds' hrest'
      rw [← heq, nil_append, hrest] at hstart
      cases hstart
  | cons c ds ih =>
    cases ds' with
    | nil =>
      have hstart := startsWith_digits hds hrest
      rw [heq, nil_append, hrest'] at hstart
      cases hstart
    | cons d ds' =>
      obtain ⟨rfl, htail⟩ := List.cons.inj heq
      obtain ⟨rfl, rfl⟩ := ih (fun e he => hds e (mem_cons_of_mem c he))
        (fun e he => hds' e (mem_cons_of_mem c he)) htail
      exact ⟨rfl, rfl⟩

theorem parsehttprange_eq (hds : IsDigits ds) (hds' : IsDigits ds') (hrest : NoDigit rest) :
    parsehttprange (octets "bytes=" ++ ds ++ mt '-' :: (ds' ++ rest)) =
      if ds' ≠ [] ∧ number ds' % 2 ^ 64 < number ds % 2 ^ 64 then none
      else some ⟨if ds = [] then .suffix else .proper, number ds % 2 ^ 64,
        if ds' = [] then rangeMax else number ds' % 2 ^ 64⟩ := by
  have htake : (octets "bytes=" ++ ds ++ mt '-' :: (ds' ++ rest)).take 6 = octets "bytes=" := rfl
  have hdrop : (octets "bytes=" ++ ds ++ mt '-' :: (ds' ++ rest)).drop 6 =
      ds ++ mt '-' :: (ds' ++ rest) := rfl
  have hfirst : rangeLoop 0 (ds ++ mt '-' :: (ds' ++ rest)) =
      (number ds % 2 ^ 64, mt '-' :: (ds' ++ rest)) :=
    rangeLoop_append (p := []) hds (noDigit_dash _)
  have hsecond : rangeLoop 0 (ds' ++ rest) = (number ds' % 2 ^ 64, rest) :=
    rangeLoop_append (p := []) hds' hrest
  have hmax : number ds % 2 ^ 64 ≤ rangeMax := by
    rw [rangeMax]
    omega
  rw [parsehttprange, if_pos htake, hdrop]
  simp only [hfirst, startsWith_digits hds (noDigit_dash _), if_true,
    startsWith_digits hds' hrest, hsecond]
  have htype : (if (!ds.isEmpty) = true then RangeType.proper else .suffix) =
      if ds = [] then .suffix else .proper := by
    cases ds <;> rfl
  have hlast : (if (!ds'.isEmpty) = true then number ds' % 2 ^ 64 else rangeMax) =
      if ds' = [] then rangeMax else number ds' % 2 ^ 64 := by
    cases ds' <;> rfl
  rw [htype, hlast]
  by_cases hne' : ds' = []
  · have hnot : ¬(ds' ≠ [] ∧ number ds' % 2 ^ 64 < number ds % 2 ^ 64) := fun h => h.1 hne'
    rw [if_pos hne', if_neg (not_lt.mpr hmax), if_neg hnot]
  · rw [if_neg hne']
    by_cases hless : number ds' % 2 ^ 64 < number ds % 2 ^ 64
    · rw [if_pos hless, if_pos ⟨hne', hless⟩]
    · have hnot : ¬(ds' ≠ [] ∧ number ds' % 2 ^ 64 < number ds % 2 ^ 64) := fun h => hless h.2
      rw [if_neg hless, if_neg hnot]

theorem exists_form {str : List UInt8} {r : Range} (hr : parsehttprange str = some r) :
    ∃ ds ds' rest, IsDigits ds ∧ IsDigits ds' ∧ NoDigit rest ∧
      str = octets "bytes=" ++ ds ++ mt '-' :: (ds' ++ rest) := by
  rw [parsehttprange] at hr
  by_cases hbytes : str.take 6 = octets "bytes="
  · rw [if_pos hbytes] at hr
    obtain ⟨ds, tail, hds, htail, hdrop⟩ := exists_digits (str.drop 6)
    have hloop : rangeLoop 0 (ds ++ tail) = (number ds % 2 ^ 64, tail) :=
      rangeLoop_append (p := []) hds htail
    simp only [hdrop, hloop] at hr
    cases tail with
    | nil => cases hr
    | cons c tail =>
      by_cases hdash : c = mt '-'
      · obtain ⟨ds', rest, hds', hrest, rfl⟩ := exists_digits tail
        refine ⟨ds, ds', rest, hds, hds', hrest, ?_⟩
        rw [← hdash, append_assoc, ← hdrop, ← hbytes, take_append_drop]
      · simp only [if_neg hdash] at hr
        cases hr
  · rw [if_neg hbytes] at hr
    cases hr

theorem Denotes.form {str : List UInt8} {r : Range} (hr : Denotes str r) :
    ∃ ds ds', IsDigits ds ∧ IsDigits ds' ∧ (ds ≠ [] ∨ ds' ≠ []) ∧
      number ds < 2 ^ 64 ∧ number ds' < 2 ^ 64 ∧ (ds' ≠ [] → number ds ≤ number ds') ∧
      str = octets "bytes=" ++ ds ++ mt '-' :: (ds' ++ []) ∧
      r = ⟨if ds = [] then .suffix else .proper, number ds,
        if ds' = [] then rangeMax else number ds'⟩ := by
  cases hr with
  | @between ds ds' hds hds' hne hne' hfits hfits' hle =>
    refine ⟨ds, ds', hds, hds', .inl hne, hfits, hfits', fun _ => hle, ?_, ?_⟩
    · rw [append_nil]
    · rw [if_neg hne, if_neg hne']
  | @onwards ds hds hne hfits =>
    refine ⟨ds, [], hds, by simp [IsDigits], .inl hne, hfits, by decide, by simp, rfl, ?_⟩
    rw [if_neg hne, if_pos rfl]
  | @suffix ds' hds' hne' hfits' =>
    refine ⟨[], ds', by simp [IsDigits], hds', .inr hne', by decide, hfits',
      fun _ => Nat.zero_le _, ?_, ?_⟩
    · rw [append_nil, append_nil]
    · rw [if_pos rfl, if_neg hne']
      rfl

theorem denotes_of_form (hds : IsDigits ds) (hds' : IsDigits ds') (hsome : ds ≠ [] ∨ ds' ≠ [])
    (hfits : number ds < 2 ^ 64) (hfits' : number ds' < 2 ^ 64)
    (hle : ds' ≠ [] → number ds ≤ number ds') :
    Denotes (octets "bytes=" ++ ds ++ mt '-' :: (ds' ++ []))
      ⟨if ds = [] then .suffix else .proper, number ds,
        if ds' = [] then rangeMax else number ds'⟩ := by
  rw [append_nil]
  by_cases hne' : ds' = []
  · subst hne'
    have hne : ds ≠ [] := hsome.resolve_right fun h => h rfl
    rw [if_neg hne, if_pos rfl]
    exact .onwards hds hne hfits
  · rw [if_neg hne']
    by_cases hne : ds = []
    · subst hne
      rw [if_pos rfl, append_nil]
      exact .suffix hds' hne' hfits'
    · rw [if_neg hne]
      exact .between hds hds' hne hne' hfits hfits' (hle hne')

/-- A string is read as the range that it denotes, and as nothing if it denotes none,
if it is one of
`RangeRead`. -/
theorem denoted_iff (str : List UInt8) :
    (∀ r, parsehttprange str = some r ↔ Denotes str r) ↔ RangeRead str := by
  constructor
  · rintro hall ds ds' rest hds hds' hrest rfl
    have hrun := parsehttprange_eq hds hds' hrest
    by_cases hless : ds' ≠ [] ∧ number ds' % 2 ^ 64 < number ds % 2 ^ 64
    · exact .inr hless
    rw [if_neg hless] at hrun
    obtain ⟨es, es', hes, hes', hsome, hfits, hfits', -, heq, -⟩ := ((hall _).mp hrun).form
    rw [append_assoc, append_assoc] at heq
    obtain ⟨rfl, htail⟩ := digits_unique hds hes (noDigit_dash _) (noDigit_dash _)
      (append_cancel_left heq)
    obtain ⟨rfl, rfl⟩ := digits_unique hds' hes' hrest noDigit_nil (List.cons.inj htail).2
    exact .inl ⟨rfl, hsome, hfits, hfits'⟩
  · intro hread r
    constructor
    · intro hr
      obtain ⟨ds, ds', rest, hds, hds', hrest, rfl⟩ := exists_form hr
      rw [parsehttprange_eq hds hds' hrest] at hr
      rcases hread ds ds' rest hds hds' hrest rfl with ⟨rfl, hsome, hfits, hfits'⟩ | hless
      · rw [Nat.mod_eq_of_lt hfits, Nat.mod_eq_of_lt hfits'] at hr
        split at hr
        · cases hr
        rename_i horder
        obtain rfl := some.inj hr
        apply denotes_of_form hds hds' hsome hfits hfits'
        intro hne'
        by_contra hlt
        exact horder ⟨hne', Nat.lt_of_not_le hlt⟩
      · rw [if_pos hless] at hr
        cases hr
    · intro hr
      obtain ⟨ds, ds', hds, hds', -, hfits, hfits', hle, rfl, rfl⟩ := hr.form
      rw [parsehttprange_eq hds hds' noDigit_nil, Nat.mod_eq_of_lt hfits, Nat.mod_eq_of_lt hfits']
      apply if_neg
      rintro ⟨hne', hlt⟩
      have hge := hle hne'
      omega

set_option maxRecDepth 2000 in
/-- The first 2^64 and one octets are read as two. -/
theorem not_denoted : ¬∀ str r, parsehttprange str = some r ↔ Denotes str r := by
  intro hall
  have hread := (hall (octets "bytes=0-18446744073709551617") ⟨.proper, 0,
    1⟩).mp (by decide +kernel)
  obtain ⟨ds, ds', hds, hds', -, -, hfits', -, heq, -⟩ := hread.form
  have hcut : octets "bytes=0-18446744073709551617" =
      octets "bytes=" ++ (octets "0" ++ mt '-' :: (octets "18446744073709551617" ++ [])) := by
    decide +kernel
  rw [hcut, append_assoc] at heq
  obtain ⟨rfl, htail⟩ := digits_unique (by decide) hds (noDigit_dash _) (noDigit_dash _)
    (append_cancel_left heq)
  obtain ⟨rfl, -⟩ := digits_unique (by decide) hds' noDigit_nil noDigit_nil
    (List.cons.inj htail).2
  exact absurd hfits' (by decide +kernel)

end Qse.Http.Numbers
