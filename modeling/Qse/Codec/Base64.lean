import Qse.Support.MachineWord
import Qse.Text.Mchar

/-!
# Base64

A translation of `lib/cmn/alg-base64.c`. The result of a call pairs what has been written to `out`
with the size stored through `xsz`. Sizes are natural numbers: an object has fewer than `2 ^ 63`
bytes, so neither `i += 3` nor `idx2 += 4` wraps.
-/

open List Option

namespace Qse.Base64

def enc (x : UInt8) : UInt8 :=
  if x < 26 then mt 'A' + x
  else if x < 52 then mt 'a' + (x - 26)
  else if x < 62 then mt '0' + (x - 52)
  else if x = 62 then mt '+' else mt '/'

def dec (x : UInt8) : UInt8 :=
  if mt 'A' ≤ x ∧ x ≤ mt 'Z' then x - mt 'A'
  else if mt 'a' ≤ x ∧ x ≤ mt 'z' then x - mt 'a' + 26
  else if mt '0' ≤ x ∧ x ≤ mt '9' then x - mt '0' + 52
  else if x = mt '+' then 62 else 63

/-- The four characters for `ib[i]` and for `ib[i + 1]` and `ib[i + 2]`, none
when these lie behind the input. -/
def encodeGroup (b1 : UInt8) (b2 b3 : Option UInt8) : List UInt8 :=
  let c1 := b1 >>> 2
  let c2 := (b1 &&& 0x03) <<< 4 ||| b2.getD 0 >>> 4
  let c3 := (b2.getD 0 &&& 0x0F) <<< 2 ||| b3.getD 0 >>> 6
  let c4 := b3.getD 0 &&& 0x3F
  [enc c1, enc c2, if b2.isSome then enc c3 else mt '=', if b3.isSome then enc c4 else mt '=']

/-- `if (idx + 3 < osz) { ... }` -/
def emit (osz : ℕ) (out group : List UInt8) : List UInt8 :=
  if out.length + 3 < osz then out ++ group else out

/-- The loop of `qse_enbase64` over the rest of the input. -/
def enbase64From (osz : ℕ) : List UInt8 → List UInt8 → ℕ → List UInt8 × ℕ
  | [], out, idx2 => (out, idx2)
  | [b1], out, idx2 => (emit osz out (encodeGroup b1 none none), idx2 + 4)
  | [b1, b2], out, idx2 => (emit osz out (encodeGroup b1 (some b2) none), idx2 + 4)
  | b1 :: b2 :: b3 :: rest, out, idx2 =>
    enbase64From osz rest (emit osz out (encodeGroup b1 (some b2) (some b3))) (idx2 + 4)

def enbase64 (ib : List UInt8) (osz : ℕ) : List UInt8 × ℕ :=
  enbase64From osz ib [] 0

/-- `if (idx < osz) ob[idx++] = b;` -/
def store (osz : ℕ) (out : List UInt8) (b : UInt8) : List UInt8 :=
  if out.length < osz then out ++ [b] else out

/-- One round of `qse_debase64`. -/
def decodeRound (osz : ℕ) (c1 c2 c3 c4 : UInt8) (out : List UInt8) (idx2 : ℕ) : List UInt8 × ℕ :=
  let b1 := dec c1
  let b2 := dec c2
  let b3 := dec c3
  let b4 := dec c4
  let (out, idx2) := (store osz out (b1 <<< 2 ||| b2 >>> 4), idx2 + 1)
  let (out, idx2) :=
    if c3 ≠ mt '=' then (store osz out ((b2 &&& 0x0F) <<< 4 ||| b3 >>> 2), idx2 + 1)
    else (out, idx2)
  if c4 ≠ mt '=' then (store osz out ((b3 &&& 0x03) <<< 6 ||| b4), idx2 + 1)
  else (out, idx2)

/-- The loop of `qse_debase64` over the rest of the input; a missing character
counts as `A`. -/
def debase64From (osz : ℕ) : List UInt8 → List UInt8 → ℕ → List UInt8 × ℕ
  | [], out, idx2 => (out, idx2)
  | [c1], out, idx2 => decodeRound osz c1 (mt 'A') (mt 'A') (mt 'A') out idx2
  | [c1, c2], out, idx2 => decodeRound osz c1 c2 (mt 'A') (mt 'A') out idx2
  | [c1, c2, c3], out, idx2 => decodeRound osz c1 c2 c3 (mt 'A') out idx2
  | c1 :: c2 :: c3 :: c4 :: rest, out, idx2 =>
    let (out, idx2) := decodeRound osz c1 c2 c3 c4 out idx2
    debase64From osz rest out idx2

def debase64 (text : List UInt8) (osz : ℕ) : List UInt8 × ℕ :=
  debase64From osz text [] 0

/-! ## The full encoding and the full decoding -/

def encoding : List UInt8 → List UInt8
  | [] => []
  | [b1] => encodeGroup b1 none none
  | [b1, b2] => encodeGroup b1 (some b2) none
  | b1 :: b2 :: b3 :: rest => encodeGroup b1 (some b2) (some b3) ++ encoding rest

def decodeGroup (c1 c2 c3 c4 : UInt8) : List UInt8 :=
  [dec c1 <<< 2 ||| dec c2 >>> 4] ++
    (if c3 ≠ mt '=' then [(dec c2 &&& 0x0F) <<< 4 ||| dec c3 >>> 2] else []) ++
    if c4 ≠ mt '=' then [(dec c3 &&& 0x03) <<< 6 ||| dec c4] else []

def decoding : List UInt8 → List UInt8
  | [] => []
  | [c1] => decodeGroup c1 (mt 'A') (mt 'A') (mt 'A')
  | [c1, c2] => decodeGroup c1 c2 (mt 'A') (mt 'A')
  | [c1, c2, c3] => decodeGroup c1 c2 c3 (mt 'A')
  | c1 :: c2 :: c3 :: c4 :: rest => decodeGroup c1 c2 c3 c4 ++ decoding rest

theorem encodeGroup_length (b1 : UInt8) (b2 b3 : Option UInt8) :
    (encodeGroup b1 b2 b3).length = 4 := rfl

theorem emit_append_take (osz : ℕ) (out : List UInt8) {group : List UInt8} (hg : group.length = 4)
    (rest : List UInt8) :
    emit osz out group ++ rest.take ((osz - (emit osz out group).length) / 4 * 4) =
      out ++ (group ++ rest).take ((osz - out.length) / 4 * 4) := by
  rw [emit]
  split
  · have hroom : (osz - out.length) / 4 * 4 = 4 + (osz - (out.length + 4)) / 4 * 4 := by omega
    rw [length_append, hg, append_assoc, hroom, take_append, hg]
    rw [take_of_length_le (l := group) (by omega), Nat.add_sub_cancel_left]
  · have hfull : (osz - out.length) / 4 * 4 = 0 := by omega
    rw [hfull, take_zero, take_zero]

theorem enbase64From_eq (osz : ℕ) (ib out : List UInt8) (idx2 : ℕ) :
    enbase64From osz ib out idx2 =
      (out ++ (encoding ib).take ((osz - out.length) / 4 * 4), idx2 + (encoding ib).length) := by
  fun_induction encoding ib generalizing out idx2 with
  | case1 => simp [enbase64From]
  | case2 b1 =>
    have h := emit_append_take osz out (encodeGroup_length b1 none none) []
    simp only [take_nil, append_nil] at h
    rw [enbase64From, h, encodeGroup_length]
  | case3 b1 b2 =>
    have h := emit_append_take osz out (encodeGroup_length b1 (some b2) none) []
    simp only [take_nil, append_nil] at h
    rw [enbase64From, h, encodeGroup_length]
  | case4 b1 b2 b3 rest ih =>
    have hg := encodeGroup_length b1 (some b2) (some b3)
    rw [enbase64From, ih, emit_append_take osz _ hg, length_append, hg, add_assoc]

def fill (osz : ℕ) (out bs : List UInt8) : List UInt8 :=
  out ++ bs.take (osz - out.length)

theorem fill_append (osz : ℕ) (out as bs : List UInt8) :
    fill osz (fill osz out as) bs = fill osz out (as ++ bs) := by
  have hroom : osz - (out.length + min (osz - out.length) as.length) =
      osz - out.length - as.length := by omega
  rw [fill, fill, fill, length_append, length_take, hroom, take_append, append_assoc]

theorem store_eq_fill (osz : ℕ) (out : List UInt8) (b : UInt8) :
    store osz out b = fill osz out [b] := by
  rw [store, fill]
  split
  · rw [take_of_length_le (by simp only [length_singleton]; omega)]
  · have hfull : osz - out.length = 0 := by omega
    rw [hfull, take_zero, append_nil]

theorem decodeRound_eq (osz : ℕ) (c1 c2 c3 c4 : UInt8) (out : List UInt8) (idx2 : ℕ) :
    decodeRound osz c1 c2 c3 c4 out idx2 =
      (fill osz out (decodeGroup c1 c2 c3 c4), idx2 + (decodeGroup c1 c2 c3 c4).length) := by
  simp only [decodeRound, decodeGroup, store_eq_fill]
  split <;> split <;> simp [fill_append]

theorem debase64From_eq (osz : ℕ) (text out : List UInt8) (idx2 : ℕ) :
    debase64From osz text out idx2 =
      (fill osz out (decoding text), idx2 + (decoding text).length) := by
  fun_induction decoding text generalizing out idx2 with
  | case1 => simp [debase64From, fill]
  | case2 c1 => rw [debase64From, decodeRound_eq]
  | case3 c1 c2 => rw [debase64From, decodeRound_eq]
  | case4 c1 c2 c3 => rw [debase64From, decodeRound_eq]
  | case5 c1 c2 c3 c4 rest ih =>
    rw [debase64From, decodeRound_eq]
    dsimp only
    rw [ih, fill_append, length_append, add_assoc]

/-! ## Decoding an encoding -/

theorem dec_enc {c : UInt8} (hc : c.toNat < 64) : dec (enc c) = c := by
  have hall : ∀ n : Fin 64, dec (enc (UInt8.ofNat n)) = UInt8.ofNat n := by decide
  simpa using hall ⟨c.toNat, hc⟩

theorem enc_ne_padding {c : UInt8} (hc : c.toNat < 64) : enc c ≠ mt '=' := by
  have hall : ∀ n : Fin 64, enc (UInt8.ofNat n) ≠ mt '=' := by decide
  simpa using hall ⟨c.toNat, hc⟩

section Repacking

variable (b1 b2 b3 : UInt8)

theorem sextet1 : (b1 >>> 2).toNat = b1.toNat / 4 :=
  BitFields.toNat_shiftRight b1 (by decide)

theorem sextet2 : ((b1 &&& 0x03) <<< 4 ||| b2 >>> 4).toNat = b1.toNat % 4 * 16 + b2.toNat / 16 := by
  have hb2 := b2.toNat_lt
  have hlow : b2.toNat / 16 < 16 := by omega
  exact BitFields.toNat_repack (i := 2) rfl (by decide) (by decide) (by decide) hlow

theorem sextet3 : ((b2 &&& 0x0F) <<< 2 ||| b3 >>> 6).toNat = b2.toNat % 16 * 4 + b3.toNat / 64 := by
  have hb3 := b3.toNat_lt
  have hlow : b3.toNat / 64 < 4 := by omega
  exact BitFields.toNat_repack (i := 4) rfl (by decide) (by decide) (by decide) hlow

theorem sextet4 : (b3 &&& 0x3F).toNat = b3.toNat % 64 :=
  BitFields.toNat_mask b3 0x3F 6 rfl

variable {c1 c2 c3 c4 : UInt8}

theorem octet1 (hc1 : c1.toNat < 64) (hc2 : c2.toNat < 64) :
    (c1 <<< 2 ||| c2 >>> 4).toNat = c1.toNat * 4 + c2.toNat / 16 := by
  have hlow : (c2 >>> 4).toNat = c2.toNat / 16 := BitFields.toNat_shiftRight c2 (by decide)
  rw [BitFields.toNat_shiftLeft_or (by decide), hlow]
  · rfl
  · change c1.toNat * 4 < 256
    omega
  · rw [hlow]
    change c2.toNat / 16 < 4
    omega

theorem octet2 (hc3 : c3.toNat < 64) :
    ((c2 &&& 0x0F) <<< 4 ||| c3 >>> 2).toNat = c2.toNat % 16 * 16 + c3.toNat / 4 := by
  have hlow : c3.toNat / 4 < 16 := by omega
  exact BitFields.toNat_repack (i := 4) rfl (by decide) (by decide) (by decide) hlow

theorem octet3 (hc4 : c4.toNat < 64) :
    ((c3 &&& 0x03) <<< 6 ||| c4).toNat = c3.toNat % 4 * 64 + c4.toNat := by
  have hmask : (c3 &&& 0x03).toNat = c3.toNat % 4 := BitFields.toNat_mask c3 0x03 2 rfl
  rw [BitFields.toNat_shiftLeft_or (by decide) ?_ hc4, hmask]
  · rfl
  · rw [hmask]
    change c3.toNat % 4 * 64 < 256
    omega

end Repacking

section Unpacking

variable (b1 b2 b3 : UInt8)

theorem sextet1_lt : (b1 >>> 2).toNat < 64 := by
  have hb1 := b1.toNat_lt
  rw [sextet1]
  omega

theorem sextet2_lt : ((b1 &&& 0x03) <<< 4 ||| b2 >>> 4).toNat < 64 := by
  have hb2 := b2.toNat_lt
  rw [sextet2]
  omega

theorem sextet3_lt : ((b2 &&& 0x0F) <<< 2 ||| b3 >>> 6).toNat < 64 := by
  have hb3 := b3.toNat_lt
  rw [sextet3]
  omega

theorem sextet4_lt : (b3 &&& 0x3F).toNat < 64 := by
  rw [sextet4]
  omega

theorem unpack1 : b1 >>> 2 <<< 2 ||| ((b1 &&& 0x03) <<< 4 ||| b2 >>> 4) >>> 4 = b1 := by
  have hb2 := b2.toNat_lt
  rw [← UInt8.toNat_inj, octet1 (sextet1_lt b1) (sextet2_lt b1 b2), sextet1, sextet2]
  omega

theorem unpack2 :
    (((b1 &&& 0x03) <<< 4 ||| b2 >>> 4) &&& 0x0F) <<< 4 |||
      ((b2 &&& 0x0F) <<< 2 ||| b3 >>> 6) >>> 2 = b2 := by
  have hb2 := b2.toNat_lt
  have hb3 := b3.toNat_lt
  rw [← UInt8.toNat_inj, octet2 (sextet3_lt b2 b3), sextet2, sextet3]
  omega

theorem unpack3 : (((b2 &&& 0x0F) <<< 2 ||| b3 >>> 6) &&& 0x03) <<< 6 ||| (b3 &&& 0x3F) = b3 := by
  have hb3 := b3.toNat_lt
  rw [← UInt8.toNat_inj, octet3 (sextet4_lt b3), sextet3, sextet4]
  omega

theorem decoding_encodeGroup_append (b2 b3 : Option UInt8) (h : b2 = none → b3 = none)
    (rest : List UInt8) :
    decoding (encodeGroup b1 b2 b3 ++ rest) = b1 :: (b2.toList ++ b3.toList ++ decoding rest) := by
  have hdec1 := dec_enc (sextet1_lt b1)
  have hdec2 : ∀ b2 : UInt8, dec (enc ((b1 &&& 0x03) <<< 4 ||| b2 >>> 4)) = _ :=
    fun b2 => dec_enc (sextet2_lt b1 b2)
  have hdec3 : ∀ b2 b3 : UInt8, dec (enc ((b2 &&& 0x0F) <<< 2 ||| b3 >>> 6)) = _ :=
    fun b2 b3 => dec_enc (sextet3_lt b2 b3)
  have hdec4 : ∀ b3 : UInt8, dec (enc (b3 &&& 0x3F)) = _ := fun b3 => dec_enc (sextet4_lt b3)
  have hne3 : ∀ b2 b3 : UInt8, enc ((b2 &&& 0x0F) <<< 2 ||| b3 >>> 6) ≠ mt '=' :=
    fun b2 b3 => enc_ne_padding (sextet3_lt b2 b3)
  have hne4 : ∀ b3 : UInt8, enc (b3 &&& 0x3F) ≠ mt '=' :=
    fun b3 => enc_ne_padding (sextet4_lt b3)
  match b2, b3 with
  | none, none =>
    simp only [encodeGroup, cons_append, nil_append, decoding, decodeGroup, hdec1,
      hdec2, unpack1, isSome_none, getD_none]
    simp
  | none, some b3 => exact absurd (h rfl) (by simp)
  | some b2, none =>
    simp only [encodeGroup, cons_append, nil_append, decoding, decodeGroup, hdec1,
      hdec2, hdec3, unpack1, unpack2, isSome_none, isSome_some,
      getD_none, getD_some, Bool.false_eq_true, if_true, if_false,
      if_pos (hne3 b2 0)]
    simp
  | some b2, some b3 =>
    simp only [encodeGroup, cons_append, nil_append, decoding, decodeGroup, hdec1,
      hdec2, hdec3, hdec4, unpack1, unpack2, unpack3, isSome_some, getD_some,
      if_true, if_pos (hne3 b2 b3), if_pos (hne4 b3)]
    simp

end Unpacking

theorem decoding_encoding (x : List UInt8) : decoding (encoding x) = x := by
  fun_induction encoding x with
  | case1 => rfl
  | case2 b1 => simpa [decoding] using decoding_encodeGroup_append b1 none none (by simp) []
  | case3 b1 b2 =>
    simpa [decoding] using decoding_encodeGroup_append b1 (some b2) none (by simp) []
  | case4 b1 b2 b3 rest ih =>
    rw [decoding_encodeGroup_append b1 (some b2) (some b3) (by simp), ih]
    rfl

theorem enbase64_eq (x : List UInt8) (osz : ℕ) :
    enbase64 x osz = ((encoding x).take (osz / 4 * 4), (encoding x).length) := by
  rw [enbase64, enbase64From_eq]
  simp

theorem debase64_eq (text : List UInt8) (osz : ℕ) :
    debase64 text osz = ((decoding text).take osz, (decoding text).length) := by
  rw [debase64, debase64From_eq]
  simp [fill]

theorem four_dvd_encoding_length (x : List UInt8) : 4 ∣ (encoding x).length := by
  fun_induction encoding x with
  | case1 => simp
  | case2 b1 => simp [encodeGroup_length]
  | case3 b1 b2 => simp [encodeGroup_length]
  | case4 b1 b2 b3 rest ih =>
    rw [length_append, encodeGroup_length]
    omega

/-- With buffers of the sizes the two functions report, decoding the encoding of
`x` gives `x`. A shorter buffer receives the whole groups of four that fit, and
the reported size does not depend on the buffer. -/
theorem debase64_enbase64 (x : List UInt8) :
    ∃ xsz text, enbase64 x xsz = (text, xsz) ∧ text.length = xsz ∧
      (∀ osz, (enbase64 x osz).2 = xsz) ∧
      (∃ ysz, debase64 text ysz = (x, ysz) ∧ ∀ osz, (debase64 text osz).2 = ysz) ∧
      ∀ osz < xsz, (enbase64 x osz).1 = text.take (osz / 4 * 4) := by
  have hgroups : (encoding x).length / 4 * 4 = (encoding x).length :=
    Nat.div_mul_cancel (four_dvd_encoding_length x)
  have hfull : enbase64 x (encoding x).length = (encoding x, (encoding x).length) := by
    rw [enbase64_eq, hgroups, take_length]
  refine ⟨(encoding x).length, encoding x, hfull, rfl, ?_, ⟨x.length, ?_, ?_⟩, ?_⟩
  · intro osz
    rw [enbase64_eq]
  · rw [debase64_eq, decoding_encoding, take_length]
  · intro osz
    rw [debase64_eq, decoding_encoding]
  · intro osz _
    rw [enbase64_eq]

theorem decoding_encoding_append (x rest : List UInt8) :
    decoding (encoding x ++ rest) = x ++ decoding rest := by
  fun_induction encoding x with
  | case1 => rfl
  | case2 b1 => exact decoding_encodeGroup_append b1 none none (fun _ => rfl) rest
  | case3 b1 b2 => exact decoding_encodeGroup_append b1 (some b2) none (fun _ => rfl) rest
  | case4 b1 b2 b3 more ih =>
    have hgroup := decoding_encodeGroup_append b1 (some b2) (some b3) (fun h => by cases h)
    rw [append_assoc, hgroup, ih]
    rfl

def text (x : List UInt8) : List UInt8 := (enbase64 x (enbase64 x 0).2).1

/-- Encodings that stand one behind the other, each with its own padding, are decoded to what was
encoded, one behind the other, of which a short buffer receives the beginning. -/
theorem debase64_flatten (xs : List (List UInt8)) (osz : ℕ) :
    debase64 (xs.map text).flatten osz = (xs.flatten.take osz, xs.flatten.length) := by
  have htext (x : List UInt8) : text x = encoding x := by
    have hgroups : (encoding x).length / 4 * 4 = (encoding x).length :=
      Nat.div_mul_cancel (four_dvd_encoding_length x)
    rw [text, enbase64_eq, enbase64_eq, hgroups, take_length]
  have hdecoded : decoding (xs.map text).flatten = xs.flatten := by
    induction xs with
    | nil => rfl
    | cons x xs ih =>
      rw [map_cons, flatten_cons, flatten_cons, htext, decoding_encoding_append, ih]
  rw [debase64_eq, hdecoded]

end Qse.Base64
