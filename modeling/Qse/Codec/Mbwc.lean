import Qse.Codec.Utf8

/-!
# Multibyte strings as wide-character strings

A translation of `mbsn_to_wcsn_with_cmgr` in `lib/cmn/mbwc-str.c`. The pass that measures and
the pass that converts are loops of their own; both are described by the text that a byte
string stands for.
-/

open List

namespace Qse.Mbwc

/-- `qse_cmgr_t`. `mbtowc` gives the return value and the character stored through `wc`, if
one is; it stores one whenever the sequence is valid and complete. -/
structure Cmgr where
  mbtowc : List UInt8 → ℕ × Option UInt32
  stores : ∀ p, 0 < (mbtowc p).1 → (mbtowc p).1 ≤ p.length → (mbtowc p).2.isSome = true

/-- The loop of `mbsn_to_wcsn_with_cmgr` without a buffer: the status, the number of
characters, and the bytes that are left. -/
@[grind =] def measureLoop (cmgr : Cmgr) (all : Bool) : ℕ → List UInt8 → ℕ → ℤ × ℕ × List UInt8
  | 0, p, wlen => (0, wlen, p)
  | fuel + 1, p, wlen =>
    if p = [] then (0, wlen, p)
    else
      let n := (cmgr.mbtowc p).1
      if n = 0 ∧ all = false then (-1, wlen, p)
      else
        let n := if n = 0 then 1 else n
        if p.length < n ∧ all = false then (-3, wlen, p)
        else
          let n := if p.length < n then 1 else n
          measureLoop cmgr all fuel (p.drop n) (wlen + 1)

/-- The loop of `mbsn_to_wcsn_with_cmgr` with the buffer `wcs`: the status, the buffer, the
number of characters, and the bytes that are left. -/
@[grind =] def convertLoop (cmgr : Cmgr) (all : Bool) :
    ℕ → List UInt8 → List UInt32 → ℕ → ℤ × List UInt32 × ℕ × List UInt8
  | 0, p, wcs, q => (0, wcs, q, p)
  | fuel + 1, p, wcs, q =>
    if p = [] then (0, wcs, q, p)
    else if wcs.length ≤ q then (-2, wcs, q, p)
    else
      let n := (cmgr.mbtowc p).1
      let wcs := (cmgr.mbtowc p).2.elim wcs (wcs.set q)
      if n = 0 ∧ all = false then (-1, wcs, q, p)
      else
        let wcs := if n = 0 then wcs.set q '?'.val else wcs
        let n := if n = 0 then 1 else n
        if p.length < n ∧ all = false then (-3, wcs, q, p)
        else
          let wcs := if p.length < n then wcs.set q '?'.val else wcs
          let n := if p.length < n then 1 else n
          convertLoop cmgr all fuel (p.drop n) wcs (q + 1)

structure Answer where
  ret : ℤ
  mbslen : ℕ
  wcslen : ℕ
  wcs : Option (List UInt32)
deriving DecidableEq

/-- A round of either loop takes a byte at least, so there are no more rounds than bytes. -/
def mbsnToWcsn (cmgr : Cmgr) (all : Bool) (mbs : List UInt8) : Option (List UInt32) → Answer
  | none =>
    let (ret, wlen, p) := measureLoop cmgr all mbs.length mbs 0
    ⟨ret, mbs.length - p.length, wlen, none⟩
  | some wcs =>
    let (ret, wcs, q, p) := convertLoop cmgr all mbs.length mbs wcs 0
    ⟨ret, mbs.length - p.length, q, some wcs⟩

section Text

variable {cmgr : Cmgr} {all : Bool} {p rest : List UInt8} {text : List UInt32} {n : ℕ} {w : UInt32}
  {ret : ℤ}

inductive Takes (cmgr : Cmgr) (all : Bool) (p : List UInt8) : ℕ → UInt32 → Prop where
  | valid {n : ℕ} {w : UInt32} (hpos : 0 < n) (hfit : n ≤ p.length)
      (hread : cmgr.mbtowc p = (n, some w)) : Takes cmgr all p n w
  | question (hall : all = true) (hne : p ≠ [])
      (hbad : (cmgr.mbtowc p).1 = 0 ∨ p.length < (cmgr.mbtowc p).1) : Takes cmgr all p 1 '?'.val

inductive Stops (cmgr : Cmgr) (all : Bool) : List UInt8 → ℤ → Prop where
  | finished : Stops cmgr all [] 0
  | invalid {p : List UInt8} (hall : all = false) (hne : p ≠ [])
      (hbad : (cmgr.mbtowc p).1 = 0) : Stops cmgr all p (-1)
  | incomplete {p : List UInt8} (hall : all = false) (hne : p ≠ [])
      (hbad : p.length < (cmgr.mbtowc p).1) : Stops cmgr all p (-3)

inductive Converts (cmgr : Cmgr) (all : Bool) :
    List UInt8 → List UInt32 → ℤ → List UInt8 → Prop where
  | stop {p : List UInt8} {ret : ℤ} (hstops : Stops cmgr all p ret) : Converts cmgr all p [] ret p
  | char {p rest : List UInt8} {text : List UInt32} {n : ℕ} {w : UInt32} {ret : ℤ}
      (htakes : Takes cmgr all p n w) (hrest : Converts cmgr all (p.drop n) text ret rest) :
      Converts cmgr all p (w :: text) ret rest

theorem takes_or_stops (cmgr : Cmgr) (all : Bool) (p : List UInt8) :
    (∃ n w, Takes cmgr all p n w) ∨ ∃ ret, Stops cmgr all p ret := by
  by_cases hne : p = []
  · subst hne
    exact .inr ⟨0, .finished⟩
  by_cases hbad : (cmgr.mbtowc p).1 = 0 ∨ p.length < (cmgr.mbtowc p).1
  · cases all with
    | true => exact .inl ⟨1, _, .question rfl hne hbad⟩
    | false =>
      rcases hbad with hzero | hshort
      · exact .inr ⟨-1, .invalid rfl hne hzero⟩
      · exact .inr ⟨-3, .incomplete rfl hne hshort⟩
  · rw [not_or, Nat.not_lt] at hbad
    have hpos := Nat.pos_of_ne_zero hbad.1
    obtain ⟨w, hw⟩ := Option.isSome_iff_exists.mp (cmgr.stores p hpos hbad.2)
    exact .inl ⟨_, w, .valid hpos hbad.2 (Prod.ext rfl hw)⟩

theorem Takes.pos (h : Takes cmgr all p n w) : 0 < n ∧ p ≠ [] := by
  cases h with
  | valid hpos hfit _ => exact ⟨hpos, ne_nil_of_length_pos (hpos.trans_le hfit)⟩
  | question _ hne _ => exact ⟨Nat.one_pos, hne⟩

theorem Takes.length_drop (h : Takes cmgr all p n w) : (p.drop n).length < p.length := by
  obtain ⟨hpos, hne⟩ := h.pos
  have hlen := length_pos_iff.mpr hne
  rw [List.length_drop]
  omega

theorem exists_converts (cmgr : Cmgr) (all : Bool) (p : List UInt8) :
    ∃ text ret rest, Converts cmgr all p text ret rest := by
  induction hlen : p.length using Nat.strong_induction_on generalizing p with
  | h len ih =>
    rcases takes_or_stops cmgr all p with ⟨n, w, htakes⟩ | ⟨ret, hstops⟩
    · have hless := htakes.length_drop
      rw [hlen] at hless
      obtain ⟨text, ret, rest, hrest⟩ := ih _ hless (p.drop n) rfl
      exact ⟨w :: text, ret, rest, .char htakes hrest⟩
    · exact ⟨[], ret, p, .stop hstops⟩

theorem measureLoop_takes (h : Takes cmgr all p n w) (fuel wlen : ℕ) :
    measureLoop cmgr all (fuel + 1) p wlen = measureLoop cmgr all fuel (p.drop n) (wlen + 1) := by
  rw [measureLoop, if_neg h.pos.2]
  cases h with
  | valid hpos hfit hread => simp [hread, Nat.ne_of_gt hpos, Nat.not_lt.mpr hfit]
  | question hall hne hbad =>
    have hlen := length_pos_iff.mpr hne
    rcases hbad with hzero | hshort
    · simp [hall, hzero, Nat.not_lt.mpr hlen]
    · simp [hall, hshort, Nat.ne_of_gt (Nat.zero_lt_of_lt hshort)]

variable {fuel : ℕ}

theorem measureLoop_stops (h : Stops cmgr all p ret) (hfuel : p.length ≤ fuel)
    (wlen : ℕ) : measureLoop cmgr all fuel p wlen = (ret, wlen, p) := by
  cases fuel with
  | zero =>
    obtain rfl := length_eq_zero_iff.mp (Nat.le_zero.mp hfuel)
    cases h with
    | finished => rfl
    | invalid _ hne _ | incomplete _ hne _ => exact absurd rfl hne
  | succ fuel =>
    rw [measureLoop]
    cases h with
    | finished => rfl
    | invalid hall hne hbad => simp [hall, hne, hbad]
    | incomplete hall hne hbad =>
      simp [hall, hne, hbad, Nat.ne_of_gt (Nat.zero_lt_of_lt hbad)]

theorem measureLoop_eq (h : Converts cmgr all p text ret rest) (hfuel : p.length ≤ fuel)
    (wlen : ℕ) :
    measureLoop cmgr all fuel p wlen = (ret, wlen + text.length, rest) := by
  induction h generalizing fuel wlen with
  | stop hstops => exact measureLoop_stops hstops hfuel wlen
  | char htakes _ ih =>
    have hless := htakes.length_drop
    obtain ⟨fuel, rfl⟩ : ∃ k, fuel = k + 1 := ⟨fuel - 1, by omega⟩
    rw [measureLoop_takes htakes, ih (by omega), length_cons, Nat.add_right_comm, Nat.add_assoc]

variable {wcs : List UInt32} {q : ℕ}

theorem length_stored (o : Option UInt32) : (o.elim wcs (wcs.set q)).length = wcs.length := by
  cases o <;> simp

theorem take_stored (o : Option UInt32) : (o.elim wcs (wcs.set q)).take q = wcs.take q := by
  cases o with
  | none => rfl
  | some w => exact take_set_of_le le_rfl

theorem convertLoop_takes (h : Takes cmgr all p n w) (hq : q < wcs.length) (fuel : ℕ) :
    convertLoop cmgr all (fuel + 1) p wcs q =
      convertLoop cmgr all fuel (p.drop n) (wcs.set q w) (q + 1) := by
  have hset (o : Option UInt32) (w : UInt32) : (o.elim wcs (wcs.set q)).set q w = wcs.set q w := by
    cases o <;> simp
  rw [convertLoop, if_neg h.pos.2, if_neg (Nat.not_le.mpr hq)]
  cases h with
  | valid hpos hfit hread => simp [hread, Nat.ne_of_gt hpos, Nat.not_lt.mpr hfit]
  | question hall hne hbad =>
    have hlen := length_pos_iff.mpr hne
    rcases hbad with hzero | hshort
    · simp [hall, hzero, Nat.not_lt.mpr hlen, hset]
    · simp [hall, hshort, Nat.ne_of_gt (Nat.zero_lt_of_lt hshort), hset]

theorem convertLoop_stops (h : Stops cmgr all p ret) (hq : q < wcs.length)
    (hfuel : p.length ≤ fuel) :
    ∃ wcs', convertLoop cmgr all fuel p wcs q = (ret, wcs', q, p) ∧
      wcs'.take q = wcs.take q ∧ wcs'.length = wcs.length := by
  cases fuel with
  | zero =>
    obtain rfl := length_eq_zero_iff.mp (Nat.le_zero.mp hfuel)
    cases h with
    | finished => exact ⟨wcs, rfl, rfl, rfl⟩
    | invalid _ hne _ | incomplete _ hne _ => exact absurd rfl hne
  | succ fuel =>
    rw [convertLoop]
    cases h with
    | finished => exact ⟨wcs, rfl, rfl, rfl⟩
    | invalid hall hne hbad =>
      refine ⟨_, ?_, take_stored (cmgr.mbtowc p).2, length_stored _⟩
      simp [hall, hne, hbad, Nat.not_le.mpr hq]
    | incomplete hall hne hbad =>
      refine ⟨_, ?_, take_stored (cmgr.mbtowc p).2, length_stored _⟩
      simp [hall, hne, hbad, Nat.not_le.mpr hq, Nat.ne_of_gt (Nat.zero_lt_of_lt hbad)]

theorem convertLoop_full (hq : wcs.length ≤ q) (hfuel : p.length ≤ fuel) :
    convertLoop cmgr all fuel p wcs q = (if p = [] then 0 else -2, wcs, q, p) := by
  cases fuel with
  | zero =>
    obtain rfl := length_eq_zero_iff.mp (Nat.le_zero.mp hfuel)
    rfl
  | succ fuel =>
    rw [convertLoop, if_pos hq]
    by_cases hne : p = []
    · rw [if_pos hne, if_pos hne]
    · rw [if_neg hne, if_neg hne]

theorem Stops.ret_eq_zero_iff (h : Stops cmgr all p ret) : ret = 0 ↔ p = [] := by
  cases h with
  | finished => simp
  | invalid _ hne _ | incomplete _ hne _ => simp [hne]

theorem take_succ_set (hq : q < wcs.length) (w : UInt32) :
    (wcs.set q w).take (q + 1) = wcs.take q ++ [w] := by
  rw [take_succ_eq_append_getElem (by simpa using hq), take_set_of_le le_rfl, getElem_set_self]

section

variable (h : Converts cmgr all p text ret rest)
include h

theorem convertLoop_fits {fuel : ℕ}
    (hfuel : p.length ≤ fuel) (hroom : q + text.length ≤ wcs.length) :
    ∃ wcs', convertLoop cmgr all fuel p wcs q =
        (if ret = 0 ∨ q + text.length < wcs.length then ret else -2, wcs', q + text.length, rest) ∧
      wcs'.take (q + text.length) = wcs.take q ++ text ∧ wcs'.length = wcs.length := by
  induction h generalizing fuel wcs q with
  | stop hstops =>
    rename_i p ret
    rw [length_nil, Nat.add_zero] at hroom ⊢
    rw [append_nil]
    rcases Nat.lt_or_eq_of_le hroom with hlt | heq
    · obtain ⟨wcs', hrun, htake, hlen⟩ := convertLoop_stops hstops hlt hfuel
      exact ⟨wcs', by rw [hrun, if_pos (.inr hlt)], htake, hlen⟩
    refine ⟨wcs, ?_, rfl, rfl⟩
    rw [convertLoop_full heq.ge hfuel]
    by_cases hnil : p = []
    · have hzero := hstops.ret_eq_zero_iff.mpr hnil
      rw [if_pos hnil, if_pos (.inl hzero), hzero]
    · have hne : ¬(ret = 0 ∨ q < wcs.length) := by
        rw [hstops.ret_eq_zero_iff, heq]
        simpa using hnil
      rw [if_neg hnil, if_neg hne]
  | char htakes _ ih =>
    rename_i text _ w _ _
    have hless := htakes.length_drop
    obtain ⟨fuel, rfl⟩ : ∃ k, fuel = k + 1 := ⟨fuel - 1, by omega⟩
    rw [length_cons] at hroom
    have hq : q < wcs.length := by omega
    obtain ⟨wcs', hrun, htake, hlen⟩ := @ih (wcs.set q w) (q + 1) fuel (by omega)
      (by rw [length_set]; omega)
    have hcount : q + 1 + text.length = q + (w :: text).length := by
      rw [length_cons]
      omega
    rw [length_set, hcount] at hrun
    rw [take_succ_set hq, hcount, append_assoc] at htake
    exact ⟨wcs', by rw [convertLoop_takes htakes hq, hrun], htake, by rw [hlen, length_set]⟩

theorem convertLoop_small {fuel : ℕ}
    (hfuel : p.length ≤ fuel) (hq : q ≤ wcs.length) (hsmall : wcs.length < q + text.length) :
    ∃ rest', convertLoop cmgr all fuel p wcs q =
      (-2, wcs.take q ++ text.take (wcs.length - q), wcs.length, rest') := by
  induction h generalizing fuel wcs q with
  | stop _ =>
    rw [length_nil] at hsmall
    omega
  | char htakes _ ih =>
    rename_i p _ text _ w _ _
    have hless := htakes.length_drop
    obtain ⟨fuel, rfl⟩ : ∃ k, fuel = k + 1 := ⟨fuel - 1, by omega⟩
    rw [length_cons] at hsmall
    rcases Nat.lt_or_eq_of_le hq with hlt | rfl
    · obtain ⟨rest', hrun⟩ := @ih (wcs.set q w) (q + 1) fuel (by omega)
        (by rw [length_set]; omega) (by rw [length_set]; omega)
      obtain ⟨k, hk⟩ : ∃ k, wcs.length - q = k + 1 := ⟨wcs.length - (q + 1), by omega⟩
      have hk' : wcs.length - (q + 1) = k := by omega
      refine ⟨rest', ?_⟩
      rw [convertLoop_takes htakes hlt, hrun, length_set, take_succ_set hlt, hk, hk',
        take_succ_cons, append_assoc, singleton_append]
    · refine ⟨p, ?_⟩
      rw [convertLoop_full le_rfl hfuel, if_neg htakes.pos.2, Nat.sub_self, take_zero,
        append_nil, take_length]

theorem mbsnToWcsn_none :
    mbsnToWcsn cmgr all p none = ⟨ret, p.length - rest.length, text.length, none⟩ := by
  simp only [mbsnToWcsn, measureLoop_eq h le_rfl, Nat.zero_add]

theorem mbsnToWcsn_some
    (hroom : text.length ≤ wcs.length) :
    ∃ wcs', mbsnToWcsn cmgr all p (some wcs) =
        ⟨if ret = 0 ∨ text.length < wcs.length then ret else -2, p.length - rest.length,
          text.length, some wcs'⟩ ∧
      wcs'.take text.length = text ∧ wcs'.length = wcs.length := by
  obtain ⟨wcs', hrun, htake, hlen⟩ := convertLoop_fits h le_rfl (q := 0) (by simpa using hroom)
  rw [Nat.zero_add] at hrun htake
  refine ⟨wcs', ?_, by simpa using htake, hlen⟩
  simp only [mbsnToWcsn, hrun]

end

end Text

/-- For every byte string the pass that measures reports the length of one text. The pass that
converts writes this text into a buffer that is long enough, with the same status and as many
bytes consumed, except that it returns `-2` when the text fills the buffer and the other pass
ends with an error; into a smaller buffer it writes as much of the text as fits and returns
`-2`. -/
theorem passes_agree (cmgr : Cmgr) (all : Bool) (mbs : List UInt8) :
    ∃ (text : List UInt32) (ret : ℤ) (mlen : ℕ),
      mbsnToWcsn cmgr all mbs none = ⟨ret, mlen, text.length, none⟩ ∧
        (∀ wcs, text.length ≤ wcs.length → ∃ wcs',
          mbsnToWcsn cmgr all mbs (some wcs) =
            ⟨if ret = 0 ∨ text.length < wcs.length then ret else -2, mlen, text.length, some wcs'⟩ ∧
          wcs'.take text.length = text ∧ wcs'.length = wcs.length) ∧
        ∀ wcs, wcs.length < text.length → ∃ mlen',
          mbsnToWcsn cmgr all mbs (some wcs) =
            ⟨-2, mlen', wcs.length, some (text.take wcs.length)⟩ := by
  obtain ⟨text, ret, rest, h⟩ := exists_converts cmgr all mbs
  refine ⟨text, ret, mbs.length - rest.length, mbsnToWcsn_none h,
    fun _ hroom => mbsnToWcsn_some h hroom, fun wcs hsmall => ?_⟩
  obtain ⟨rest', hrun⟩ := convertLoop_small h le_rfl (Nat.zero_le wcs.length)
    (by simpa using hsmall)
  refine ⟨mbs.length - rest'.length, ?_⟩
  simp only [mbsnToWcsn, hrun, take_zero, nil_append, Nat.sub_zero]

theorem utf8touc_stores (size : Utf8.WcharSize) (p : List UInt8)
    (hpos : 0 < (Utf8.utf8touc size p).1) (hfit : (Utf8.utf8touc size p).1 ≤ p.length) :
    (Utf8.utf8touc size p).2.isSome = true := by
  cases p with
  | nil => exact absurd hpos (Nat.lt_irrefl 0)
  | cons b rest =>
    rw [Utf8.utf8touc] at hpos hfit ⊢
    split at hpos
    · exact absurd hpos (Nat.lt_irrefl 0)
    rename_i cur hfind
    rw [hfind] at hfit
    simp only at hfit ⊢
    split at hfit
    · rename_i hroom
      rw [if_pos hroom] at hpos ⊢
      split at hpos
      · exact absurd hpos (Nat.lt_irrefl 0)
      · rfl
    · contradiction

def utf8 (size : Utf8.WcharSize) : Cmgr where
  mbtowc := Utf8.utf8touc size
  stores := utf8touc_stores size

/-- A letter and a byte that is invalid in UTF-8: the status is `-1` without a buffer and `-2`
with one of the reported length. -/
theorem not_passes_agree : ¬∀ (cmgr : Cmgr) (all : Bool) (mbs : List UInt8) (wcs : List UInt32),
    (mbsnToWcsn cmgr all mbs none).wcslen ≤ wcs.length →
    (mbsnToWcsn cmgr all mbs (some wcs)).ret = (mbsnToWcsn cmgr all mbs none).ret := by
  intro h
  have hsame := h (utf8 .two) false [0x61, 0xFF] [0] (by decide)
  revert hsame
  decide

end Qse.Mbwc
