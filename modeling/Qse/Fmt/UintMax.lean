import Mathlib.Data.Nat.Digits.Lemmas
import Qse.Support.Cells

/-!
# Formatting an unsigned integer

A translation of `fmt_uintmax` of `lib/cmn/fmt-intmax.h`. An `int` has 32 bits. A result that
does not fit an `int`, or a write outside a buffer, yields `none`.
-/

open List Option Option

namespace Qse.Fmt

open Cells

def intMax : ℕ := 2147483647

/-- The result of an operation on `int`s. -/
def checked (z : ℤ) : Option ℤ := if -intMax - 1 ≤ z ∧ z ≤ intMax then some z else none

def notrunc : BitVec 32 := 0x40#32
def nonull : BitVec 32 := 0x80#32
def nozero : BitVec 32 := 0x100#32
def zerolead : BitVec 32 := 0x200#32
def uppercase : BitVec 32 := 0x400#32
def fillright : BitVec 32 := 0x2000#32
def fillcenter : BitVec 32 := 0x4000#32

/-- `QSE_SIZEOF(qse_uintmax_t)` -/
inductive UintmaxSize where
  | eight
  | sixteen

def UintmaxSize.bits : UintmaxSize → ℕ
  | eight => 64
  | sixteen => 128

theorem UintmaxSize.bits_pos (uint : UintmaxSize) : 0 < uint.bits := by
  cases uint <;> decide

structure Call where
  value : ℕ
  baseAndFlags : BitVec 32
  prec : ℤ
  fillchar : ℕ
  signchar : ℕ
  pfx : Option (List ℕ)

def Call.base (c : Call) : ℕ := (c.baseAndFlags &&& 0x3F#32).toNat

/-- `base_and_flags & flag` -/
def Call.has (c : Call) (flag : BitVec 32) : Bool := c.baseAndFlags &&& flag ≠ 0#32

def xbasestr (upper : Bool) : List ℕ :=
  (List.range 10).map (48 + ·) ++ (List.range 26).map ((if upper then 65 else 97) + ·)

/-! ## The translation -/

def digitLoop (base : ℕ) (xbasestr : List ℕ) : ℕ → ℕ → ℕ → List ℕ → Option (ℕ × List ℕ)
  | 0, _, _, _ => none
  | fuel + 1, v, p, tmp => do
    let c ← xbasestr[v % base]?
    let tmp ← put tmp p c
    if 0 < v / base then digitLoop base xbasestr fuel (v / base) (p + 1) tmp
    else some (p + 1, tmp)

/-- `p`, `tmp`, `reslen` and `preczero` once the digits are stored. -/
def numericPart (uint : UintmaxSize) (c : Call) : Option (ℕ × List ℕ × ℤ × ℕ) :=
  let tmp := List.replicate uint.bits 0
  if c.has nozero ∧ c.value = 0 then
    if c.has zerolead then some (0, tmp, 1, 1) else some (0, tmp, 0, 0)
  else do
    let (p, tmp) ← digitLoop c.base (xbasestr (c.has uppercase)) uint.bits c.value 0 tmp
    if p < c.prec then some (p, tmp, c.prec, (c.prec - p).toNat)
    else if c.has zerolead ∧ c.value ≠ 0 then some (p, tmp, p + 1, 1)
    else some (p, tmp, p, 0)

structure Out where
  buf : List ℕ
  bp : ℕ

/-- `*bp++ = c;` -/
def putc (c : ℕ) (o : Out) : Option Out := do
  let buf ← put o.buf o.bp c
  some ⟨buf, o.bp + 1⟩

def emit (be : ℕ) : List ℕ → Out → Option Out
  | [], o => some o
  | c :: cs, o =>
    if o.bp < be then do
      let o ← putc c o
      emit be cs o
    else some o

def fill (fillchar : ℕ) : ℕ → Out → Option Out
  | 0, o => some o
  | n + 1, o => do
    let o ← putc fillchar o
    fill fillchar n o

/-- `(int) strlen(prefix)` -/
def pflen (pfx : List ℕ) : ℤ := Int.bmod pfx.length 4294967296

/-- `if (signchar) reslen++;` -/
def addSign (c : Call) (reslen : ℤ) : Option ℤ :=
  if c.signchar ≠ 0 then checked (reslen + 1) else some reslen

/-- `if (prefix) { pflen = (int) strlen(prefix); reslen += pflen; }` -/
def addPrefix (c : Call) (reslen : ℤ) : Option ℤ :=
  match c.pfx with
  | some pfx => checked (reslen + pflen pfx)
  | none => some reslen

/-- `reqlen` -/
def addNull (c : Call) (reslen : ℤ) : Option ℤ :=
  if c.has nonull then some reslen else checked (reslen + 1)

/-- The sign, the prefix, the zeros and the digits, with so many fill characters where the
flags put them. -/
def emitAll (c : Call) (be preczero fills : ℕ) (digits : List ℕ) (o : Out) : Option Out :=
  let sign := if c.signchar ≠ 0 then [c.signchar] else []
  let pfx := c.pfx.getD []
  let zeros := List.replicate preczero 48
  if c.fillchar ≠ 0 then
    if c.has fillright then do
      let o ← emit be sign o
      let o ← emit be pfx o
      let o ← emit be zeros o
      let o ← emit be digits o
      fill c.fillchar fills o
    else if c.has fillcenter then do
      let o ← emit be sign o
      let o ← fill c.fillchar fills o
      let o ← emit be pfx o
      let o ← emit be zeros o
      emit be digits o
    else do
      let o ← fill c.fillchar fills o
      let o ← emit be sign o
      let o ← emit be pfx o
      let o ← emit be zeros o
      emit be digits o
  else do
    let o ← emit be sign o
    let o ← emit be pfx o
    let o ← emit be zeros o
    emit be digits o

/-- `if (!(base_and_flags & QSE_FMTINTMAX_NONULL)) *bp = T('\0');` -/
def terminate (c : Call) (o : Out) : Option (List ℕ) :=
  if c.has nonull then some o.buf else put o.buf o.bp 0

/-- `fmt_uintmax`: what it returns, and the buffer. -/
def fmtUintmax (uint : UintmaxSize) (c : Call) (buf : List ℕ) (size : ℤ) :
    Option (ℤ × List ℕ) :=
  if c.base < 2 ∨ 36 < c.base then some (-1, buf)
  else do
    let (p, tmp, reslen, preczero) ← numericPart uint c
    let reslen ← addSign c reslen
    let reslen ← addPrefix c reslen
    let reqlen ← addNull c reslen
    if size ≤ 0 ∨ (c.has notrunc ∧ size < reqlen) then do
      let r ← checked (-reqlen)
      some (r, buf)
    else do
      let fillsize := if c.has nonull then size else size - 1
      let fills := (fillsize - reslen).toNat
      let o ← emitAll c fillsize.toNat preczero fills (tmp.take p).reverse ⟨buf, 0⟩
      let buf ← terminate c o
      some (o.bp, buf)

def numeral (base n : ℕ) : List ℕ := if n = 0 then [0] else (Nat.digits base n).reverse

namespace Call

variable (c : Call)

def sign : List ℕ := if c.signchar ≠ 0 then [c.signchar] else []

def digits : List ℕ :=
  if c.has nozero ∧ c.value = 0 then []
  else (numeral c.base c.value).map fun d => (xbasestr (c.has uppercase)).getD d 0

/-- How many zeros come before the digits: those that the precision asks for, or the leading
one. -/
def zeros : ℕ :=
  if c.has nozero ∧ c.value = 0 then if c.has zerolead then 1 else 0
  else if c.digits.length < c.prec then (c.prec - c.digits.length).toNat
  else if c.has zerolead ∧ c.value ≠ 0 then 1
  else 0

def number : List ℕ := List.replicate c.zeros 48 ++ c.digits

def body : List ℕ := c.pfx.getD [] ++ c.number

def required : ℕ :=
  c.sign.length + c.body.length + if c.has nonull then 0 else 1

def padded (room : ℕ) : List ℕ :=
  let padding := List.replicate (room - (c.sign.length + c.body.length)) c.fillchar
  if c.fillchar = 0 then c.sign ++ c.body
  else if c.has fillright then c.sign ++ c.body ++ padding
  else if c.has fillcenter then c.sign ++ padding ++ c.body
  else padding ++ c.sign ++ c.body

/-- What is to be returned, and the buffer: without room, or where nothing may be cut off, the
required size; otherwise the text, cut off where the room ends, and a terminator. -/
def expected (buf : List ℕ) (size : ℤ) : ℤ × List ℕ :=
  if size ≤ 0 ∨ (c.has notrunc ∧ size < c.required) then (-(c.required : ℤ), buf)
  else
    let room := if c.has nonull then size.toNat else size.toNat - 1
    let out := (c.padded room).take room
    let terminator := if c.has nonull then [] else [0]
    (out.length, out ++ (terminator ++ buf.drop (out.length + terminator.length)))

def readNumber (cs : List ℕ) : ℕ :=
  cs.foldl (fun n a => n * c.base + (xbasestr (c.has uppercase)).idxOf a) 0

end Call

/-! ## The digits -/

section Digits

variable {base n d : ℕ}

theorem numeral_step (hbase : 2 ≤ base) (n : ℕ) :
    numeral base n = (if 0 < n / base then numeral base (n / base) else []) ++ [n % base] := by
  by_cases hzero : n = 0
  · subst hzero
    simp [numeral]
  rw [numeral, if_neg hzero, Nat.digits_def' hbase (Nat.pos_of_ne_zero hzero), reverse_cons]
  by_cases hmore : 0 < n / base
  · rw [if_pos hmore, numeral, if_neg (Nat.ne_of_gt hmore)]
  · have hnone : n / base = 0 := Nat.eq_zero_of_not_pos hmore
    rw [if_neg hmore, hnone]
    simp

theorem numeral_lt (hbase : 2 ≤ base) (h : d ∈ numeral base n) : d < base := by
  rw [numeral] at h
  split at h
  · obtain rfl := mem_singleton.mp h
    omega
  · exact Nat.digits_lt_base hbase (mem_reverse.mp h)

theorem length_numeral_le {bits : ℕ} (hbits : 0 < bits) (hbase : 2 ≤ base) (hn : n < 2 ^ bits) :
    (numeral base n).length ≤ bits := by
  rw [numeral]
  split
  · exact hbits
  · rw [length_reverse]
    refine (Nat.digits_length_le_iff hbase n).mpr ?_
    exact lt_of_lt_of_le hn (Nat.pow_le_pow_left hbase bits)

theorem length_xbasestr (upper : Bool) : (xbasestr upper).length = 36 := by
  cases upper <;> decide

theorem nodup_xbasestr (upper : Bool) : (xbasestr upper).Nodup := by
  cases upper <;> decide

theorem digitLoop_eq (hbase : 2 ≤ base) (hle : base ≤ 36) (upper : Bool) {fuel : ℕ}
    {done free : List ℕ} (hfuel : (numeral base n).length ≤ fuel)
    (hfree : (numeral base n).length ≤ free.length) :
    digitLoop base (xbasestr upper) fuel n done.length (done ++ free) =
      some (done.length + (numeral base n).length,
        done ++ (((numeral base n).map fun d => (xbasestr upper).getD d 0).reverse ++
          free.drop (numeral base n).length)) := by
  induction fuel generalizing n done free with
  | zero =>
    rw [numeral_step hbase n, length_append, length_singleton] at hfuel
    omega
  | succ fuel ih =>
    have hstep := numeral_step hbase n
    have hdigit : n % base < (xbasestr upper).length := by
      rw [length_xbasestr]
      exact lt_of_lt_of_le (Nat.mod_lt n (by omega)) hle
    have hget : (xbasestr upper)[n % base]? = some ((xbasestr upper).getD (n % base) 0) := by
      rw [getD_eq_getElem?_getD, getElem?_eq_getElem hdigit]
      rfl
    obtain ⟨b, free, rfl⟩ : ∃ b rest, free = b :: rest := by
      refine exists_cons_of_length_pos ?_
      rw [hstep, length_append, length_singleton] at hfree
      omega
    rw [digitLoop, hget]
    simp only [bind_eq_bind, bind_some, put_append]
    by_cases hmore : 0 < n / base
    · rw [if_pos hmore] at hstep ⊢
      rw [hstep, length_append, length_singleton] at hfuel hfree
      rw [length_cons] at hfree
      have hnext := @ih (n / base) (done ++ [(xbasestr upper).getD (n % base) 0]) free
        (by omega) (by omega)
      rw [length_append, length_singleton, append_assoc, singleton_append] at hnext
      rw [hnext, hstep]
      simp only [map_append, map_cons, map_nil, reverse_append,
        reverse_cons, reverse_nil, length_append, length_singleton,
        nil_append, cons_append, append_assoc, drop_succ_cons]
      rw [add_assoc, add_comm 1]
    · rw [if_neg hmore] at hstep ⊢
      rw [hstep]
      simp

theorem readDigits_map (upper : Bool) (hle : base ≤ 36) {ds : List ℕ} (h : ∀ d ∈ ds, d < base) :
    (ds.map fun d => (xbasestr upper).getD d 0).foldl
      (fun n a => n * base + (xbasestr upper).idxOf a) 0 = Nat.ofDigits base ds.reverse := by
  have hdigit (d : ℕ) (hd : d < base) : (xbasestr upper).idxOf ((xbasestr upper).getD d 0) = d := by
    have hlt : d < (xbasestr upper).length := by
      rw [length_xbasestr]
      omega
    rw [getD_eq_getElem?_getD, getElem?_eq_getElem hlt, getD_some]
    exact (nodup_xbasestr upper).idxOf_getElem d hlt
  have hfold (n : ℕ) : (ds.map fun d => (xbasestr upper).getD d 0).foldl
      (fun n a => n * base + (xbasestr upper).idxOf a) n =
        Nat.ofDigits base ds.reverse + n * base ^ ds.length := by
    induction ds generalizing n with
    | nil => simp
    | cons d ds ih =>
      rw [map_cons, foldl_cons, ih fun a ha => h a (.tail _ ha),
        hdigit d (h d (.head _)), reverse_cons, Nat.ofDigits_append,
        length_reverse, Nat.ofDigits_singleton, length_cons, Nat.pow_succ]
      ring
  rw [hfold, zero_mul, add_zero]

end Digits

/-! ## Writing to the buffer -/

/-- The buffer once `w` has been written. -/
def after (buf w : List ℕ) : Out := ⟨w ++ buf.drop w.length, w.length⟩

section Writing

variable {buf w : List ℕ} {be n a : ℕ}

theorem put_after (h : w.length < buf.length) (a : ℕ) :
    put (after buf w).buf (after buf w).bp a = some (w ++ a :: buf.drop (w.length + 1)) := by
  rw [after, drop_eq_getElem_cons h]
  exact put_append _ a

theorem putc_after (h : w.length < buf.length) (a : ℕ) :
    putc a (after buf w) = some (after buf (w ++ [a])) := by
  rw [putc, put_after h]
  simp [after]

theorem emit_after (hbe : be ≤ buf.length) (hw : w.length ≤ be) (cs : List ℕ) :
    emit be cs (after buf w) = some (after buf ((w ++ cs).take be)) := by
  induction cs generalizing w with
  | nil => rw [emit, append_nil, take_of_length_le hw]
  | cons c cs ih =>
    rw [emit]
    have hbp : (after buf w).bp = w.length := rfl
    rw [hbp]
    by_cases hroom : w.length < be
    · have hnext := @ih (w ++ [c]) (by rw [length_append, length_singleton]; omega)
      rw [if_pos hroom, putc_after (by omega)]
      simp only [bind_eq_bind, bind_some, hnext, append_assoc, singleton_append]
    · obtain rfl : w.length = be := by omega
      rw [if_neg hroom, take_left]

theorem fill_after (h : w.length + n ≤ buf.length) :
    fill a n (after buf w) = some (after buf (w ++ List.replicate n a)) := by
  induction n generalizing w with
  | zero => rw [fill, replicate_zero, append_nil]
  | succ n ih =>
    have hnext := @ih (w ++ [a]) (by rw [length_append, length_singleton]; omega)
    rw [fill, putc_after (by omega)]
    simp only [bind_eq_bind, bind_some, hnext, append_assoc,
      singleton_append, replicate_succ]

theorem take_append_take (be : ℕ) (as bs : List ℕ) :
    (as.take be ++ bs).take be = (as ++ bs).take be := by
  by_cases hle : as.length ≤ be
  · rw [take_of_length_le hle]
  · rw [take_append_of_le_length (by rw [length_take]; omega), take_take,
      Nat.min_self, take_append_of_le_length (by omega)]

theorem emit_take (hbe : be ≤ buf.length) (as cs : List ℕ) :
    emit be cs (after buf (as.take be)) = some (after buf ((as ++ cs).take be)) := by
  rw [emit_after hbe (length_take_le be as), take_append_take]

theorem fill_take (hbe : be ≤ buf.length) {as : List ℕ} (hn : n = 0 ∨ as.length + n ≤ be) :
    fill a n (after buf (as.take be)) = some (after buf ((as ++ List.replicate n a).take be)) := by
  rcases hn with rfl | hn
  · rw [fill, replicate_zero, append_nil]
  · rw [take_of_length_le (by omega), fill_after (by omega),
      take_of_length_le (by rw [length_append, length_replicate]; omega)]

end Writing

section Call

variable {uint : UintmaxSize} {c : Call}

theorem numericPart_eq (hbase : 2 ≤ c.base) (hle : c.base ≤ 36) (hvalue : c.value < 2 ^ uint.bits) :
    ∃ (p : ℕ) (tmp : List ℕ),
      numericPart uint c = some (p, tmp, (c.number.length : ℤ), c.zeros) ∧
        (tmp.take p).reverse = c.digits := by
  rw [numericPart]
  have hlength : c.number.length = c.zeros + c.digits.length := by
    rw [Call.number, length_append, length_replicate]
  by_cases hnothing : c.has nozero ∧ c.value = 0
  · have hdigits : c.digits = [] := by rw [Call.digits, if_pos hnothing]
    rw [if_pos hnothing, hlength, hdigits, Call.zeros, if_pos hnothing]
    by_cases hlead : c.has zerolead
    · rw [if_pos hlead, if_pos hlead]
      exact ⟨_, _, rfl, rfl⟩
    · rw [if_neg hlead, if_neg hlead]
      exact ⟨_, _, rfl, rfl⟩
  have hdigits : c.digits =
      (numeral c.base c.value).map fun d => (xbasestr (c.has uppercase)).getD d 0 := by
    rw [Call.digits, if_neg hnothing]
  have hcount : c.digits.length = (numeral c.base c.value).length := by
    rw [hdigits, length_map]
  have hsmall := length_numeral_le uint.bits_pos hbase hvalue
  have hloop := @digitLoop_eq c.base c.value hbase hle (c.has uppercase) uint.bits []
    (List.replicate uint.bits 0) hsmall (by rw [length_replicate]; exact hsmall)
  rw [length_nil, nil_append, zero_add, nil_append, ← hdigits, ← hcount]
    at hloop
  have htake : ((c.digits.reverse ++ (List.replicate uint.bits 0).drop c.digits.length).take
      c.digits.length).reverse = c.digits := by
    rw [← length_reverse, take_left, reverse_reverse]
  rw [if_neg hnothing, hloop, hlength, Call.zeros, if_neg hnothing]
  simp only [bind_eq_bind, bind_some]
  by_cases hprec : c.digits.length < c.prec
  · rw [if_pos hprec, if_pos hprec]
    have hsum : ((c.prec - c.digits.length).toNat + c.digits.length : ℕ) = c.prec := by
      push_cast
      omega
    refine ⟨_, _, ?_, htake⟩
    rw [hsum]
  · rw [if_neg hprec, if_neg hprec]
    by_cases hlead : c.has zerolead ∧ c.value ≠ 0
    · rw [if_pos hlead, if_pos hlead]
      refine ⟨_, _, ?_, htake⟩
      rw [add_comm]
      rfl
    · rw [if_neg hlead, if_neg hlead, zero_add]
      exact ⟨_, _, rfl, htake⟩

/-! ## The whole call -/

theorem checked_nat (n : ℕ) : checked (n : ℤ) = if n ≤ intMax then some (n : ℤ) else none := by
  rw [checked]
  by_cases hle : n ≤ intMax
  · rw [if_pos hle, if_pos ⟨by omega, Int.ofNat_le.mpr hle⟩]
  · rw [if_neg hle, if_neg]
    rintro ⟨-, hhi⟩
    exact hle (Int.ofNat_le.mp hhi)

variable {n : ℕ}

theorem checked_neg (h : n ≤ intMax) : checked (-(n : ℤ)) = some (-(n : ℤ)) :=
  if_pos ⟨by omega, by omega⟩

theorem bmod_int (h : n ≤ 2147483647) : Int.bmod n 4294967296 = n := by
  rw [Int.bmod]
  omega

theorem pflen_eq {pfx : List ℕ} (h : pfx.length ≤ intMax) : pflen pfx = pfx.length :=
  bmod_int h

theorem length_body : c.body.length = (c.pfx.getD []).length + c.number.length := by
  rw [Call.body, length_append]

theorem addSign_eq (hn : n ≤ intMax) :
    addSign c n =
      if n + c.sign.length ≤ intMax then some ((n + c.sign.length : ℕ) : ℤ) else none := by
  rw [addSign, Call.sign]
  by_cases hsign : c.signchar ≠ 0
  · rw [if_pos hsign, if_pos hsign, length_singleton]
    exact checked_nat (n + 1)
  · rw [if_neg hsign, if_neg hsign, length_nil, add_zero, if_pos hn]

theorem addPrefix_eq (hpfx : ∀ pfx ∈ c.pfx, pfx.length ≤ intMax) (hn : n ≤ intMax) :
    addPrefix c n =
      if n + (c.pfx.getD []).length ≤ intMax then some ((n + (c.pfx.getD []).length : ℕ) : ℤ)
      else none := by
  rw [addPrefix]
  cases hc : c.pfx with
  | none =>
    simp only [getD_none, length_nil, add_zero]
    rw [if_pos hn]
  | some pfx =>
    simp only [getD_some, pflen_eq (hpfx pfx hc)]
    exact checked_nat (n + pfx.length)

theorem addNull_eq (hn : n ≤ intMax) :
    addNull c n =
      if n + (if c.has nonull then 0 else 1) ≤ intMax then
        some ((n + if c.has nonull then 0 else 1 : ℕ) : ℤ)
      else none := by
  rw [addNull]
  by_cases hnull : c.has nonull
  · rw [if_pos hnull, if_pos hnull, add_zero, if_pos hn]
  · rw [if_neg hnull, if_neg hnull]
    exact checked_nat (n + 1)

theorem lengths_eq (hpfx : ∀ pfx ∈ c.pfx, pfx.length ≤ intMax) (hnumber : c.number.length ≤ intMax)
    {β : Type} (next : ℤ → ℤ → Option β) :
    ((addSign c c.number.length).bind fun reslen => (addPrefix c reslen).bind fun reslen =>
      (addNull c reslen).bind fun reqlen => next reslen reqlen) =
      if c.required ≤ intMax then next (c.sign.length + c.body.length : ℕ) c.required
      else none := by
  have htext : c.sign.length + c.body.length =
      c.number.length + c.sign.length + (c.pfx.getD []).length := by
    rw [length_body]
    omega
  have hreq : c.required = c.number.length + c.sign.length + (c.pfx.getD []).length +
      if c.has nonull then 0 else 1 := by
    rw [Call.required, htext]
  rw [addSign_eq hnumber, htext, hreq]
  by_cases hsign : c.number.length + c.sign.length ≤ intMax
  · rw [if_pos hsign, bind_some, addPrefix_eq hpfx hsign]
    by_cases hbody : c.number.length + c.sign.length + (c.pfx.getD []).length ≤ intMax
    · rw [if_pos hbody, bind_some, addNull_eq hbody]
      generalize (if c.has nonull then 0 else 1) = null
      split
      · rfl
      · rfl
    · rw [if_neg hbody, if_neg (by omega)]
      rfl
  · rw [if_neg hsign, if_neg (by omega)]
    rfl

theorem number_le (hprec : c.prec ≤ intMax) (hbase : 2 ≤ c.base)
    (hvalue : c.value < 2 ^ uint.bits) : c.number.length ≤ intMax := by
  have hbits : uint.bits ≤ 128 := by
    cases uint <;> decide
  have hdigits : c.digits.length ≤ 128 := by
    rw [Call.digits]
    split
    · exact Nat.zero_le _
    · rw [length_map]
      exact (length_numeral_le uint.bits_pos hbase hvalue).trans hbits
  rw [Call.number, length_append, length_replicate, Call.zeros]
  rw [intMax] at hprec ⊢
  split
  · split <;> omega
  · split
    · omega
    · split <;> omega

theorem emitAll_eq {buf : List ℕ} {room : ℕ} (hroom : room ≤ buf.length) :
    emitAll c room c.zeros (room - (c.sign.length + c.body.length)) c.digits ⟨buf, 0⟩ =
      some (after buf ((c.padded room).take room)) := by
  have hstart : (⟨buf, 0⟩ : Out) = after buf (([] : List ℕ).take room) := by
    simp [after]
  have hsign : (if c.signchar ≠ 0 then [c.signchar] else []) = c.sign := rfl
  have hbody : c.body = c.pfx.getD [] ++ (List.replicate c.zeros 48 ++ c.digits) := rfl
  have hlength := congrArg List.length hbody
  rw [length_append, length_append] at hlength
  generalize hfills : room - (c.sign.length + c.body.length) = fills
  have hfill (as : List ℕ) (has : as.length ≤ c.sign.length + c.body.length) :
      fill c.fillchar fills (after buf (as.take room)) =
        some (after buf ((as ++ List.replicate fills c.fillchar).take room)) :=
    fill_take hroom (by omega)
  rw [emitAll, hsign, hstart, Call.padded, hfills, hbody]
  by_cases hnone : c.fillchar = 0
  · rw [if_neg (not_not.mpr hnone), if_pos hnone]
    simp only [bind_eq_bind, emit_take hroom, bind_some, nil_append, append_assoc]
  rw [if_pos hnone, if_neg hnone]
  by_cases hright : c.has fillright
  · rw [if_pos hright, if_pos hright]
    simp only [bind_eq_bind, emit_take hroom, bind_some, nil_append, append_assoc]
    rw [hfill _ (by simp only [length_append, length_replicate] at hlength ⊢; omega)]
    simp only [append_assoc]
  · rw [if_neg hright, if_neg hright]
    by_cases hcenter : c.has fillcenter
    · rw [if_pos hcenter, if_pos hcenter]
      simp only [bind_eq_bind, emit_take hroom, bind_some, nil_append,
        hfill c.sign (Nat.le_add_right _ _), append_assoc]
    · rw [if_neg hcenter, if_neg hcenter, hfill [] (Nat.zero_le _)]
      simp only [bind_eq_bind, emit_take hroom, bind_some, nil_append, append_assoc]

theorem fmtUintmax_eq (hbase : 2 ≤ c.base) (hle : c.base ≤ 36)
    (hvalue : c.value < 2 ^ uint.bits) (hprec : c.prec ≤ intMax)
    (hpfx : ∀ pfx ∈ c.pfx, pfx.length ≤ intMax) {buf : List ℕ} {size : ℤ}
    (hsize : size ≤ buf.length) :
    fmtUintmax uint c buf size =
      if c.required ≤ intMax then some (c.expected buf size) else none := by
  obtain ⟨p, tmp, hnumeric, hdigits⟩ := numericPart_eq hbase hle hvalue
  rw [fmtUintmax, if_neg (by omega), hnumeric]
  simp only [bind_eq_bind, bind_some, hdigits]
  rw [lengths_eq hpfx (number_le hprec hbase hvalue)]
  by_cases hint : c.required ≤ intMax
  · rw [if_pos hint, if_pos hint, Call.expected]
    by_cases hshort : size ≤ 0 ∨ (c.has notrunc ∧ size < c.required)
    · rw [if_pos hshort, if_pos hshort, checked_neg hint]
      rfl
    rw [if_neg hshort, if_neg hshort]
    simp only [not_or] at hshort
    generalize hroom : (if c.has nonull then size.toNat else size.toNat - 1) = room
    have hfillsize : (if c.has nonull then size else size - 1).toNat = room := by
      rw [← hroom]
      split <;> omega
    have hfills : ((if c.has nonull then size else size - 1) -
        (c.sign.length + c.body.length : ℕ)).toNat = room - (c.sign.length + c.body.length) := by
      rw [← hfillsize]
      split <;> omega
    have hle : room ≤ buf.length := by
      rw [← hroom]
      split <;> omega
    rw [hfills, hfillsize, emitAll_eq hle, bind_some, terminate]
    by_cases hnull : c.has nonull
    · rw [if_pos hnull, if_pos hnull]
      rfl
    · have hwritten := length_take_le room (c.padded room)
      rw [if_neg hnull] at hroom
      rw [if_neg hnull, if_neg hnull, put_after (by omega)]
      rfl
  · rw [if_neg hint, if_neg hint]

theorem readNumber_number (hbase : 2 ≤ c.base) (hle : c.base ≤ 36) :
    c.readNumber c.number = c.value := by
  have hzero : (xbasestr (c.has uppercase)).idxOf 48 = 0 := by
    cases c.has uppercase <;> decide
  have hzeros (k : ℕ) : (List.replicate k 48).foldl
      (fun n a => n * c.base + (xbasestr (c.has uppercase)).idxOf a) 0 = 0 := by
    induction k with
    | zero => rfl
    | succ k ih =>
      rw [replicate_succ, foldl_cons, hzero, zero_mul]
      exact ih
  rw [Call.readNumber, Call.number, foldl_append, hzeros, Call.digits]
  split
  · rename_i hnothing
    exact hnothing.2.symm
  rw [readDigits_map _ hle fun d hd => numeral_lt hbase hd, numeral]
  split
  · rename_i hvalue
    rw [hvalue]
    simp
  · rw [reverse_reverse, Nat.ofDigits_digits]

end Call

/-- For a base from 2 to 36, a precision that is an `int` and a prefix whose length is one, a
call writes and returns what is expected, inside the buffer, exactly when the required size is
an `int`. The zeros and the digits make the value. -/
theorem formats_iff {uint : UintmaxSize} {c : Call} (hbase : 2 ≤ c.base ∧ c.base ≤ 36)
    (hvalue : c.value < 2 ^ uint.bits) (hprec : c.prec ≤ intMax)
    (hpfx : ∀ pfx ∈ c.pfx, pfx.length ≤ intMax) {buf : List ℕ} {size : ℤ}
    (hsize : size ≤ buf.length) :
    (fmtUintmax uint c buf size = some (c.expected buf size) ↔ c.required ≤ intMax) ∧
      c.readNumber c.number = c.value := by
  refine ⟨?_, readNumber_number hbase.1 hbase.2⟩
  rw [fmtUintmax_eq hbase.1 hbase.2 hvalue hprec hpfx hsize]
  constructor
  · intro h
    by_contra hint
    rw [if_neg hint] at h
    exact absurd h (by simp)
  · exact fun hint => if_pos hint

def hexCall : Call := ⟨255, 0x4010#32, 4, 42, 43, some [48, 120]⟩

theorem formats_iff_hex : fmtUintmax .sixteen hexCall (List.replicate 10 7) 10 =
    some (9, [43, 42, 42, 48, 120, 48, 48, 102, 102, 0]) := by
  have hexpected := (@formats_iff .sixteen hexCall (by decide) (by decide) (by decide) (by decide)
    (List.replicate 10 7) 10 (by decide)).1.mpr (by decide)
  rw [hexpected]
  decide

/-- The greatest precision leaves no room for a sign in an `int`. -/
theorem not_formats : ∃ buf, fmtUintmax .eight ⟨1, 10#32, 2147483647, 32, 43, none⟩ buf 10 = none ∧
    buf.length = 10 ∧
    fmtUintmax .eight ⟨1, 10#32, 2147483647, 32, 43, none⟩ buf 10 ≠
      some (Call.expected ⟨1, 10#32, 2147483647, 32, 43, none⟩ buf 10) := by
  have hnone : fmtUintmax .eight ⟨1, 10#32, 2147483647, 32, 43, none⟩ (List.replicate 10 7) 10 =
      none := by
    decide
  refine ⟨List.replicate 10 7, hnone, rfl, ?_⟩
  rw [hnone]
  exact some_ne_none _ |>.symm

end Qse.Fmt
