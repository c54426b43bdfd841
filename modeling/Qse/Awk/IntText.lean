import Mathlib.Data.Nat.Digits.Lemmas
import Qse.Support.Cells

/-!
# Integers as text

A translation of `qse_awk_inttostr` of `lib/awk/misc.c`. The integers are those of 64 bits, and
an operation that leaves them, or a write outside the buffer, yields `none`.
-/

open List Option Option

namespace Qse.Awk.IntText

open Cells

/-- `(qse_size_t)-1` -/
def nil : ℕ := 2 ^ 64 - 1

/-- The smallest `qse_awk_int_t`. -/
def intMin : ℤ := -9223372036854775808

/-- `-t` -/
def neg (t : ℤ) : Option ℤ := if t = intMin then none else some (-t)

def lenLoop (radix : ℕ) : ℕ → ℕ → ℕ → ℕ
  | 0, _, len => len
  | fuel + 1, t, len => if 0 < t then lenLoop radix fuel (t / radix) (len + 1) else len

def digitChar (rem : ℕ) : ℕ := if 10 ≤ rem then rem + 97 - 10 else rem + 48

/-- The loop that writes the digits from the last one on, for at most so many rounds. -/
def digitLoop (radix : ℕ) : ℕ → ℕ → ℕ → List ℕ → Option (ℕ × List ℕ)
  | 0, _, len, buf => some (len, buf)
  | fuel + 1, t, len, buf =>
    if 0 < t then
      match len with
      | 0 => none
      | len + 1 => do
        let buf ← put buf len (digitChar (t % radix))
        digitLoop radix fuel (t / radix) len buf
    else some (len, buf)

/-- `qse_awk_inttostr`: what it returns, and the buffer. -/
def inttostr (value : ℤ) (radix : ℕ) (pfx : List ℕ) (buf : Option (List ℕ)) : Option (ℕ × List ℕ) :=
  if value = 0 then
    match buf with
    | none => some (pfx.length + 1, [])
    | some buf =>
      if buf.length < pfx.length + 1 then some (nil, buf)
      else do
        let size := buf.length
        let buf ← blit buf 0 pfx
        let buf ← put buf pfx.length 48
        let buf ← if pfx.length + 1 < size then put buf (pfx.length + 1) 0 else some buf
        some (pfx.length + 1, buf)
  else do
    let t ← if value < 0 then neg value else some value
    let len := if value < 0 then pfx.length + 1 else pfx.length
    let len := lenLoop radix t.toNat t.toNat len
    match buf with
    | none => some (len, [])
    | some buf =>
      if buf.length < len then some (nil, buf)
      else do
        let buf ← if len < buf.length then put buf len 0 else some buf
        let ret := len
        let (len, buf) ← digitLoop radix t.toNat t.toNat len buf
        if value < 0 then
          let buf ← blit buf 1 pfx
          if len < pfx.length + 1 then none
          else do
            let buf ← put buf (len - pfx.length - 1) 45
            some (ret, buf)
        else do
          let buf ← blit buf 0 pfx
          some (ret, buf)

def digits (radix n : ℕ) : List ℕ := if n = 0 then [0] else (Nat.digits radix n).reverse

def text (value : ℤ) (radix : ℕ) (pfx : List ℕ) : List ℕ :=
  (if value < 0 then [45] else []) ++ (pfx ++ (digits radix value.natAbs).map digitChar)

def digitOf (c : ℕ) : ℕ := if 97 ≤ c then c - 97 + 10 else c - 48

def readDigits (radix : ℕ) (cs : List ℕ) : ℕ :=
  cs.foldl (fun n c => n * radix + digitOf c) 0

def filled (cs buf : List ℕ) : List ℕ :=
  cs ++ if cs.length < buf.length then 0 :: buf.drop (cs.length + 1) else []

variable {radix t fuel len : ℕ} {value : ℤ} {pfx buf as bs cs : List ℕ}

theorem digitOf_digitChar {rem : ℕ} : digitOf (digitChar rem) = rem := by
  rw [digitChar]
  split
  · rw [digitOf, if_pos (by omega)]
    omega
  · rw [digitOf, if_neg (by omega)]
    omega

theorem readDigits_map (radix : ℕ) (ds : List ℕ) :
    readDigits radix (ds.map digitChar) = Nat.ofDigits radix ds.reverse := by
  have hfold (n : ℕ) : (ds.map digitChar).foldl (fun n c => n * radix + digitOf c) n =
      Nat.ofDigits radix ds.reverse + n * radix ^ ds.length := by
    induction ds generalizing n with
    | nil => simp
    | cons d ds ih =>
      rw [map_cons, foldl_cons, ih, digitOf_digitChar, reverse_cons,
        Nat.ofDigits_append, length_reverse, Nat.ofDigits_singleton, length_cons,
        pow_succ]
      ring
  rw [readDigits, hfold, zero_mul, add_zero]

theorem readDigits_digits (radix n : ℕ) :
    readDigits radix ((digits radix n).map digitChar) = n := by
  rw [readDigits_map, digits]
  split
  · rename_i hzero
    rw [hzero]
    simp
  · rw [reverse_reverse, Nat.ofDigits_digits]

theorem digits_lt {rem n : ℕ} (hradix : 1 < radix) (hmem : rem ∈ digits radix n) : rem < radix := by
  rw [digits] at hmem
  split at hmem
  · obtain rfl := mem_singleton.mp hmem
    omega
  · exact Nat.digits_lt_base hradix (mem_reverse.mp hmem)

theorem lenLoop_eq (hradix : 1 < radix) (hfuel : t ≤ fuel) :
    lenLoop radix fuel t len = len + (Nat.digits radix t).length := by
  induction fuel generalizing t len with
  | zero =>
    obtain rfl := Nat.le_zero.mp hfuel
    simp [lenLoop]
  | succ fuel ih =>
    rw [lenLoop]
    by_cases hpos : 0 < t
    · have hlt := Nat.div_lt_self hpos hradix
      rw [if_pos hpos, ih (by omega), Nat.digits_def' hradix hpos, length_cons]
      omega
    · obtain rfl : t = 0 := by omega
      simp

theorem digitLoop_eq (hradix : 1 < radix) (hfuel : t ≤ fuel)
    (hlength : bs.length = (Nat.digits radix t).length) :
    digitLoop radix fuel t (as.length + bs.length) (as ++ (bs ++ cs)) =
      some (as.length, as ++ ((Nat.digits radix t).reverse.map digitChar ++ cs)) := by
  induction fuel generalizing t bs cs with
  | zero =>
    obtain rfl := Nat.le_zero.mp hfuel
    obtain rfl : bs = [] := eq_nil_of_length_eq_zero (by simpa using hlength)
    simp [digitLoop]
  | succ fuel ih =>
    by_cases hpos : 0 < t
    · have hlt := Nat.div_lt_self hpos hradix
      rw [Nat.digits_def' hradix hpos, length_cons] at hlength
      obtain ⟨bs, b, rfl⟩ : ∃ bs' b, bs = bs' ++ [b] := by
        refine ⟨bs.dropLast, bs.getLast (ne_nil_of_length_pos (by omega)), ?_⟩
        exact (dropLast_append_getLast _).symm
      rw [length_append, length_singleton] at hlength
      have hput : put (as ++ (bs ++ b :: cs)) (as.length + bs.length) (digitChar (t % radix)) =
          some (as ++ (bs ++ digitChar (t % radix) :: cs)) := by
        rw [← append_assoc, ← append_assoc, ← length_append]
        exact put_append b _
      have hrest : digitLoop radix fuel (t / radix) (as.length + bs.length)
          (as ++ (bs ++ digitChar (t % radix) :: cs)) =
            some (as.length, as ++ ((Nat.digits radix (t / radix)).reverse.map digitChar ++
              digitChar (t % radix) :: cs)) := by
        apply ih
        · omega
        · exact Nat.succ.inj hlength
      rw [length_append, length_singleton, ← add_assoc, append_assoc,
        singleton_append, digitLoop, if_pos hpos]
      simp only [hput, bind_eq_bind, bind_some, hrest]
      rw [Nat.digits_def' hradix hpos]
      simp
    · obtain rfl : t = 0 := by omega
      obtain rfl : bs = [] := eq_nil_of_length_eq_zero (by simpa using hlength)
      simp [digitLoop]

theorem filled_cut (hle : cs.length ≤ buf.length) (hlength : as.length = cs.length)
    (hbuf : buf = as ++ bs) :
    filled cs buf = cs ++ (if 0 < bs.length then 0 :: bs.tail else []) := by
  have htotal : buf.length = cs.length + bs.length := by rw [hbuf, length_append, hlength]
  rw [filled]
  by_cases hmore : cs.length < buf.length
  · rw [if_pos hmore, if_pos (by omega), hbuf, drop_append, hlength,
      drop_of_length_le (by omega), nil_append, Nat.add_sub_cancel_left, drop_one]
  · rw [if_neg hmore, if_neg (by omega)]

theorem put_terminator (as bs : List ℕ) :
    (if as.length < (as ++ bs).length then put (as ++ bs) as.length 0 else some (as ++ bs)) =
      some (as ++ if 0 < bs.length then 0 :: bs.tail else []) := by
  cases bs with
  | nil => simp
  | cons b bs =>
    rw [if_pos (by simp), put_append]
    rfl

theorem inttostr_zero (radix : ℕ) (pfx : List ℕ) :
    inttostr 0 radix pfx none = some ((text 0 radix pfx).length, []) ∧
      ∀ buf, inttostr 0 radix pfx (some buf) =
        if buf.length < (text 0 radix pfx).length then some (nil, buf)
        else some ((text 0 radix pfx).length, filled (text 0 radix pfx) buf) := by
  have htext : text 0 radix pfx = pfx ++ [48] := rfl
  have hlength : (pfx ++ [48]).length = pfx.length + 1 := by simp
  rw [htext, hlength]
  refine ⟨rfl, fun buf => ?_⟩
  by_cases hsmall : buf.length < pfx.length + 1
  · simp [inttostr, hsmall]
  obtain ⟨old, b, rest, hbuf, hold⟩ :=
    @exists_cut ℕ [] buf pfx.length rfl (by rw [length_nil]; omega)
  rw [nil_append] at hbuf
  have hblit : blit buf 0 pfx = some (pfx ++ b :: rest) := by
    rw [hbuf]
    exact @blit_append ℕ [] _ _ _ hold
  have hput : put (pfx ++ b :: rest) pfx.length 48 = some (pfx ++ [48] ++ rest) := by
    rw [append_assoc]
    exact put_append b 48
  have hsize : buf.length = (pfx ++ [48] ++ rest).length := by
    rw [hbuf]
    simp [hold]
  have hlast := put_terminator (pfx ++ [48]) rest
  rw [hlength, ← hsize] at hlast
  have hfilled := @filled_cut buf (old ++ [b]) rest (pfx ++ [48])
    (by rw [hlength]; omega) (by simp [hold]) (by rw [hbuf]; simp)
  rw [if_neg hsmall, hfilled]
  by_cases hmore : pfx.length + 1 < buf.length
  · rw [if_pos hmore] at hlast
    simp only [inttostr, if_pos, if_neg hsmall, if_pos hmore, hblit, hput,
      bind_eq_bind, bind_some, hlast]
  · rw [if_neg hmore] at hlast
    simp only [inttostr, if_pos, if_neg hsmall, if_neg hmore, hblit, hput,
      bind_eq_bind, bind_some]
    exact congrArg (fun buf => some (pfx.length + 1, buf)) (some.inj hlast)

theorem digits_written (buf : List ℕ) (hradix : 1 < radix) (hpos : t ≠ 0)
    (hle : len + (Nat.digits radix t).length ≤ buf.length) :
    ∃ old last, old.length = len ∧
      (if len + (Nat.digits radix t).length < buf.length then
        put buf (len + (Nat.digits radix t).length) 0 else some buf) = some last ∧
      digitLoop radix t t (len + (Nat.digits radix t).length) last =
        some (len, old ++ ((digits radix t).map digitChar ++
          if len + (Nat.digits radix t).length < buf.length then
            0 :: buf.drop (len + (Nat.digits radix t).length + 1) else [])) := by
  set size := (Nat.digits radix t).length with hsize
  have hbuf : buf = (buf.take len ++ (buf.drop len).take size) ++ buf.drop (len + size) := by
    rw [← take_add, take_append_drop]
  have hold : (buf.take len).length = len := by
    rw [length_take]
    omega
  have hplace : ((buf.drop len).take size).length = size := by
    rw [length_take, length_drop]
    omega
  have hfront : (buf.take len ++ (buf.drop len).take size).length = len + size := by
    rw [length_append, hold, hplace]
  have hend := put_terminator (buf.take len ++ (buf.drop len).take size) (buf.drop (len + size))
  rw [hfront, ← hbuf] at hend
  refine ⟨buf.take len, _, hold, hend, ?_⟩
  have hloop := @digitLoop_eq radix t t (buf.take len) _
    (if 0 < (buf.drop (len + size)).length then 0 :: (buf.drop (len + size)).tail else [])
    hradix (le_refl t) (hplace.trans hsize)
  rw [hold, hplace] at hloop
  rw [append_assoc, hloop, digits, if_neg hpos, tail_drop, length_drop]
  by_cases hmore : len + size < buf.length
  · rw [if_pos hmore, if_pos (by omega)]
  · rw [if_neg hmore, if_neg (by omega)]

theorem inttostr_neg (hradix : 1 < radix) (hmin : value ≠ intMin) (hneg : value < 0)
    (pfx : List ℕ) :
    inttostr value radix pfx none = some ((text value radix pfx).length, []) ∧
      ∀ buf, inttostr value radix pfx (some buf) =
        if buf.length < (text value radix pfx).length then some (nil, buf)
        else some ((text value radix pfx).length, filled (text value radix pfx) buf) := by
  have hzero : value ≠ 0 := by omega
  have hne : value.natAbs ≠ 0 := Int.natAbs_ne_zero.mpr hzero
  have hnat : (-value).toNat = value.natAbs := by omega
  have hloop (len : ℕ) : lenLoop radix value.natAbs value.natAbs len =
      len + (Nat.digits radix value.natAbs).length := lenLoop_eq hradix le_rfl
  have htext : text value radix pfx = 45 :: (pfx ++ (digits radix value.natAbs).map digitChar) := by
    rw [text, if_pos hneg]
    rfl
  have hlen : (text value radix pfx).length =
      pfx.length + 1 + (Nat.digits radix value.natAbs).length := by
    rw [htext, digits, if_neg hne]
    simp
    omega
  constructor
  · simp only [inttostr, if_neg hzero, if_pos hneg, neg, if_neg hmin, bind_eq_bind,
      bind_some, hnat, hloop, hlen]
  · intro buf
    by_cases hsmall : buf.length < (text value radix pfx).length
    · rw [if_pos hsmall]
      rw [hlen] at hsmall
      simp only [inttostr, if_neg hzero, if_pos hneg, neg, if_neg hmin, bind_eq_bind,
        bind_some, hnat, hloop, if_pos hsmall]
    rw [if_neg hsmall]
    rw [hlen] at hsmall
    obtain ⟨old, last, hold, hlast, hdigits⟩ :=
      digits_written buf hradix hne (Nat.le_of_not_lt hsmall)
    obtain ⟨c, old, rfl⟩ := exists_cons_of_length_eq_add_one hold
    set behind := (digits radix value.natAbs).map digitChar ++
      if pfx.length + 1 + (Nat.digits radix value.natAbs).length < buf.length then
        0 :: buf.drop (pfx.length + 1 + (Nat.digits radix value.natAbs).length + 1) else []
    have hblit : blit (c :: old ++ behind) 1 pfx = some (c :: (pfx ++ behind)) :=
      @blit_append ℕ [c] _ _ _ (Nat.succ.inj hold)
    have hput : put (c :: (pfx ++ behind)) (pfx.length + 1 - pfx.length - 1) 45 =
        some (filled (text value radix pfx) buf) := by
      rw [Nat.add_sub_cancel_left, Nat.sub_self, filled, hlen, htext]
      simp [put, behind]
    by_cases hmore : pfx.length + 1 + (Nat.digits radix value.natAbs).length < buf.length
    · rw [if_pos hmore] at hlast
      simp only [inttostr, if_neg hzero, if_pos hneg, neg, if_neg hmin, bind_eq_bind,
        bind_some, hnat, hloop, if_neg hsmall, if_pos hmore, hlast, hdigits, hblit,
        if_neg (lt_irrefl _), hput, hlen]
    · rw [if_neg hmore] at hlast
      obtain rfl := some.inj hlast
      simp only [inttostr, if_neg hzero, if_pos hneg, neg, if_neg hmin, bind_eq_bind,
        bind_some, hnat, hloop, if_neg hsmall, if_neg hmore, hdigits, hblit,
        if_neg (lt_irrefl _), hput, hlen]

theorem inttostr_pos (hradix : 1 < radix) (hpos : 0 < value) (pfx : List ℕ) :
    inttostr value radix pfx none = some ((text value radix pfx).length, []) ∧
      ∀ buf, inttostr value radix pfx (some buf) =
        if buf.length < (text value radix pfx).length then some (nil, buf)
        else some ((text value radix pfx).length, filled (text value radix pfx) buf) := by
  have hzero : value ≠ 0 := by omega
  have hneg : ¬value < 0 := by omega
  have hne : value.natAbs ≠ 0 := Int.natAbs_ne_zero.mpr hzero
  have hnat : value.toNat = value.natAbs := by omega
  have hloop (len : ℕ) : lenLoop radix value.natAbs value.natAbs len =
      len + (Nat.digits radix value.natAbs).length := lenLoop_eq hradix le_rfl
  have htext : text value radix pfx = pfx ++ (digits radix value.natAbs).map digitChar := by
    rw [text, if_neg hneg]
    rfl
  have hlen : (text value radix pfx).length =
      pfx.length + (Nat.digits radix value.natAbs).length := by
    rw [htext, digits, if_neg hne]
    simp
  constructor
  · simp only [inttostr, if_neg hzero, if_neg hneg, bind_eq_bind, bind_some, hnat,
      hloop, hlen]
  · intro buf
    by_cases hsmall : buf.length < (text value radix pfx).length
    · rw [if_pos hsmall]
      rw [hlen] at hsmall
      simp only [inttostr, if_neg hzero, if_neg hneg, bind_eq_bind, bind_some, hnat,
        hloop, if_pos hsmall]
    rw [if_neg hsmall]
    rw [hlen] at hsmall
    obtain ⟨old, last, hold, hlast, hdigits⟩ :=
      digits_written buf hradix hne (Nat.le_of_not_lt hsmall)
    set behind := (digits radix value.natAbs).map digitChar ++
      if pfx.length + (Nat.digits radix value.natAbs).length < buf.length then
        0 :: buf.drop (pfx.length + (Nat.digits radix value.natAbs).length + 1) else []
    have hblit : blit (old ++ behind) 0 pfx = some (filled (text value radix pfx) buf) := by
      have hfront : blit (old ++ behind) 0 pfx = some (pfx ++ behind) :=
        @blit_append ℕ [] _ _ _ hold
      rw [hfront, filled, hlen, htext]
      simp [behind]
    by_cases hmore : pfx.length + (Nat.digits radix value.natAbs).length < buf.length
    · rw [if_pos hmore] at hlast
      simp only [inttostr, if_neg hzero, if_neg hneg, bind_eq_bind, bind_some,
        hnat, hloop, if_neg hsmall, if_pos hmore, hlast, hdigits, hblit, hlen]
    · rw [if_neg hmore] at hlast
      obtain rfl := some.inj hlast
      simp only [inttostr, if_neg hzero, if_neg hneg, bind_eq_bind, bind_some,
        hnat, hloop, if_neg hsmall, if_neg hmore, hdigits, hblit, hlen]

theorem inttostr_intMin (radix : ℕ) (pfx : List ℕ) (buf : Option (List ℕ)) :
    inttostr intMin radix pfx buf = none := by
  simp [inttostr, neg, intMin]

/-- The length of the text is returned, with the text in front of a buffer that has room for it;
a buffer that has not is left as it was. The digits of the text make the value. -/
def Exact (value : ℤ) (radix : ℕ) (pfx : List ℕ) : Prop :=
  (∃ ds, text value radix pfx = (if value < 0 then [45] else []) ++ (pfx ++ ds) ∧
    (∀ c ∈ ds, ∃ rem, rem < radix ∧ c = digitChar rem) ∧
    (if value < 0 then -(readDigits radix ds : ℤ) else readDigits radix ds) = value) ∧
  inttostr value radix pfx none = some ((text value radix pfx).length, []) ∧
    ∀ buf, inttostr value radix pfx (some buf) =
      if buf.length < (text value radix pfx).length then some (nil, buf)
      else some ((text value radix pfx).length, filled (text value radix pfx) buf)

/-- The text of a value is exact if and only if the value is not the smallest one. -/
theorem exact_iff (hradix : 2 ≤ radix ∧ radix ≤ 36)
    (hvalue : intMin ≤ value ∧ value ≤ 9223372036854775807) (pfx : List ℕ) :
    Exact value radix pfx ↔ value ≠ intMin := by
  constructor
  · rintro ⟨-, hquery, -⟩ rfl
    rw [inttostr_intMin] at hquery
    exact some_ne_none _ hquery.symm
  · intro hmin
    refine ⟨⟨(digits radix value.natAbs).map digitChar, rfl, ?_, ?_⟩, ?_⟩
    · intro c hmem
      obtain ⟨rem, hrem, rfl⟩ := mem_map.mp hmem
      exact ⟨rem, digits_lt hradix.1 hrem, rfl⟩
    · rw [readDigits_digits]
      split <;> omega
    · rcases Int.lt_trichotomy value 0 with hneg | hzero | hpos
      · exact inttostr_neg hradix.1 hmin hneg pfx
      · rw [hzero]
        exact inttostr_zero radix pfx
      · exact inttostr_pos hradix.1 hpos pfx

theorem exact_iff_minus255 : Exact (-255) 16 [48, 120] ↔ (-255 : ℤ) ≠ intMin :=
  exact_iff ⟨by decide, by decide⟩ ⟨by decide, by decide⟩ [48, 120]

/-- The smallest value in decimal. -/
theorem not_exact : ¬∀ value radix pfx, 2 ≤ radix ∧ radix ≤ 36 →
    intMin ≤ value ∧ value ≤ 9223372036854775807 → Exact value radix pfx := by
  intro hall
  have hquery := (hall intMin 10 [] ⟨by decide, by decide⟩ ⟨by decide, by decide⟩).2.1
  exact absurd hquery (by rw [inttostr_intMin]; simp)

end Qse.Awk.IntText
