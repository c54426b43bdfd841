import Qse.Support.MachineWord
import Qse.Text.Mchar
import Mathlib.Data.List.Chain

/-!
# UTF-8

A translation of `lib/cmn/utf8.c` for builds without `RETAIN_RFC2279`, with wide
characters of two bytes or of four. A byte sequence is the list of its bytes,
`size` being its length.
-/

open List

namespace Qse.Utf8

/-- `QSE_SIZEOF_WCHAR_T` -/
inductive WcharSize where
  | two
  | four
deriving DecidableEq

/-- A value as it is assigned to a `qse_wchar_t`. -/
def WcharSize.store : WcharSize → UInt32 → UInt32
  | .two, w => w.toUInt16.toUInt32
  | .four, w => w

/-- `__utf8_t` -/
structure Slot where
  lower : UInt32
  upper : UInt32
  fbyte : UInt8
  mask : UInt8
  fmask : UInt8
  length : ℕ
deriving DecidableEq

def utf8Table : List Slot :=
  [⟨0x00000000, 0x0000007F, 0x00, 0x80, 0x7F, 1⟩, ⟨0x00000080, 0x000007FF, 0xC0, 0xE0, 0x1F, 2⟩,
   ⟨0x00000800, 0x0000FFFF, 0xE0, 0xF0, 0x0F, 3⟩,
   ⟨0x00010000, 0x0010FFFF, 0xF0, 0xF8, 0x07, 4⟩]

def getUtf8Slot (uc : UInt32) : Option Slot :=
  utf8Table.find? fun cur => cur.lower ≤ uc ∧ uc ≤ cur.upper

/-- `utf8[--index] = (uc & 0x3F) | 0x80; uc >>= 6;` for `n` bytes in front of
`out`. -/
def putTrailing : ℕ → UInt32 → List UInt8 → UInt32 × List UInt8
  | 0, uc, out => (uc, out)
  | n + 1, uc, out => putTrailing n (uc >>> 6) ((uc &&& 0x3F ||| 0x80).toUInt8 :: out)

/-- The return value of `qse_uctoutf8`, and the bytes written to a buffer of
`size` bytes that is not null. -/
def uctoutf8 (uc : UInt32) (size : ℕ) : ℕ × Option (List UInt8) :=
  match getUtf8Slot uc with
  | none => (0, none)
  | some cur =>
    if cur.length ≤ size then
      let (uc, out) := putTrailing (cur.length - 1) uc []
      (cur.length, some ((uc ||| cur.fbyte.toUInt32).toUInt8 :: out))
    else (cur.length, none)

/-- The loop of `qse_utf8touc` over `n` trailing bytes, none if one of them is
invalid. -/
def getTrailing (size : WcharSize) : ℕ → List UInt8 → UInt32 → Option UInt32
  | 0, _, w => some w
  | _ + 1, [], _ => none
  | n + 1, c :: cs, w =>
    if c &&& 0xC0 ≠ 0x80 then none
    else getTrailing size n cs (size.store (w <<< 6 ||| (c &&& 0x3F).toUInt32))

/-- The return value of `qse_utf8touc`, and the character stored through `uc`.
The C code asserts that there is a byte. -/
def utf8touc (size : WcharSize) : List UInt8 → ℕ × Option UInt32
  | [] => (0, none)
  | b :: rest =>
    match utf8Table.find? fun cur => b &&& cur.mask = cur.fbyte with
    | none => (0, none)
    | some cur =>
      if cur.length ≤ rest.length + 1 then
        match getTrailing size (cur.length - 1) rest (b &&& cur.fmask).toUInt32 with
        | none => (0, none)
        | some w => (cur.length, some w)
      else (cur.length, none)

def decode (size : WcharSize) (utf8 : List UInt8) : Option (List UInt32) :=
  match utf8 with
  | [] => some []
  | b :: rest =>
    match utf8touc size (b :: rest) with
    | (n + 1, some w) => (decode size (rest.drop n)).map (w :: ·)
    | _ => none
termination_by utf8.length
decreasing_by
  rw [length_drop, length_cons]
  omega

def utf8LenMax : ℕ := 6

def encode : List UInt32 → Option (List UInt8)
  | [] => some []
  | w :: ws =>
    match (uctoutf8 w utf8LenMax).2 with
    | none => none
    | some bs => (encode ws).map (bs ++ ·)

@[simp] theorem four_store (w : UInt32) : WcharSize.four.store w = w := rfl

/-! ## Trailing bytes -/

theorem trailing_iff (c : UInt8) : c &&& 0xC0 = 0x80 ↔ 128 ≤ c.toNat ∧ c.toNat < 192 := by
  revert c
  exact forall_byte (by decide +kernel)

theorem payload_toNat (c : UInt8) : (c &&& 0x3F).toUInt32.toNat = c.toNat % 64 := by
  rw [UInt8.toNat_toUInt32]
  exact BitFields.toNat_mask c 0x3F 6 rfl

variable {w v : UInt32} {n : ℕ} {cs rest bs : List UInt8} {b : UInt8} {cur : Slot}
  {ws : List UInt32} {size : WcharSize}

theorem push_toNat (hw : w.toNat < 2 ^ 26) (c : UInt8) :
    (w <<< 6 ||| (c &&& 0x3F).toUInt32).toNat = w.toNat * 64 + c.toNat % 64 := by
  have hpay := payload_toNat c
  rw [BitFields.word_toNat_shiftLeft_or (by decide), hpay]
  · rfl
  · change w.toNat * 64 < 2 ^ 32
    omega
  · rw [hpay]
    exact Nat.mod_lt _ (by decide)

theorem pop_toNat (w : UInt32) : (w >>> 6).toNat = w.toNat / 64 :=
  BitFields.word_toNat_shiftRight w (by decide)

theorem trailing_toNat (w : UInt32) : (w &&& 0x3F ||| 0x80).toUInt8.toNat = 128 + w.toNat % 64 := by
  have hlow : (w &&& 0x3F).toNat = w.toNat % 64 := BitFields.word_toNat_mask w 0x3F 6 rfl
  rw [UInt32.toNat_toUInt8, BitFields.word_toNat_or_marker _ _ 6 2 rfl, hlow]
  · change (128 + w.toNat % 64) % 256 = _
    omega
  · rw [hlow]
    exact Nat.mod_lt _ (by decide)

theorem getTrailing_succ (n : ℕ) (cs : List UInt8) (w : UInt32) :
    getTrailing .four (n + 1) cs w =
      (getTrailing .four n cs w).bind (getTrailing .four 1 (cs.drop n)) := by
  induction n generalizing cs w with
  | zero => rfl
  | succ n ih =>
    cases cs with
    | nil => rfl
    | cons c cs =>
      rw [getTrailing, getTrailing]
      split
      · rfl
      · exact ih cs _

theorem putTrailing_of_getTrailing (h : getTrailing .four n cs w = some v)
    (hw : (w.toNat + 1) * 64 ^ n ≤ 2 ^ 32) (out : List UInt8) :
    n ≤ cs.length ∧ v.toNat / 64 ^ n = w.toNat ∧ putTrailing n v out = (w, cs.take n ++ out) := by
  induction n generalizing v out with
  | zero =>
    cases h
    simp [putTrailing]
  | succ n ih =>
    rw [getTrailing_succ] at h
    obtain ⟨u, hu, hlast⟩ := Option.bind_eq_some_iff.mp h
    have hpow : (w.toNat + 1) * 64 ^ n * 64 ≤ 2 ^ 32 := by
      rw [mul_assoc, ← Nat.pow_succ]
      exact hw
    obtain ⟨hlen, hdiv, -⟩ := ih hu (by omega) out
    have hbound : u.toNat < 2 ^ 26 := by
      have hlt : u.toNat < (w.toNat + 1) * 64 ^ n := by
        rw [← Nat.div_lt_iff_lt_mul (Nat.pow_pos (by decide)), hdiv]
        exact lt_add_one _
      omega
    cases hdrop : cs.drop n with
    | nil =>
      rw [hdrop] at hlast
      cases hlast
    | cons c rest =>
      rw [hdrop, getTrailing] at hlast
      by_cases hc : c &&& 0xC0 = 0x80
      · rw [if_neg (not_not.mpr hc)] at hlast
        cases hlast
        have hrange := (trailing_iff c).mp hc
        have hv := push_toNat hbound c
        have hpop : (u <<< 6 ||| (c &&& 0x3F).toUInt32) >>> 6 = u := by
          rw [← UInt32.toNat_inj, pop_toNat, hv]
          omega
        have hbyte : ((u <<< 6 ||| (c &&& 0x3F).toUInt32) &&& 0x3F ||| 0x80).toUInt8 = c := by
          rw [← UInt8.toNat_inj, trailing_toNat, hv]
          omega
        have hcs : cs = cs.take n ++ c :: rest := by rw [← hdrop, take_append_drop]
        have hlen' : n + 1 ≤ cs.length := by
          rw [hcs, length_append, length_take, length_cons]
          omega
        have htake : cs.take (n + 1) = cs.take n ++ [c] := by
          rw [take_add, hdrop]
          rfl
        refine ⟨hlen', ?_, ?_⟩
        · have hquot : (u.toNat * 64 + c.toNat % 64) / 64 = u.toNat := by omega
          rw [four_store, hv, Nat.pow_succ', ← Nat.div_div_eq_div_mul, hquot, hdiv]
        · rw [four_store, putTrailing, hpop, hbyte, (ih hu (by omega) (c :: out)).2.2, htake,
            append_assoc, singleton_append]
      · rw [if_pos hc] at hlast
        cases hlast

theorem getTrailing_putTrailing (n : ℕ) (v : UInt32) (out : List UInt8) :
    ∃ w t, putTrailing n v out = (w, t ++ out) ∧ t.length = n ∧ w.toNat = v.toNat / 64 ^ n ∧
      ∀ rest, getTrailing .four n (t ++ rest) w = some v := by
  induction n generalizing v out with
  | zero => exact ⟨v, [], rfl, rfl, by simp, fun rest => rfl⟩
  | succ n ih =>
    obtain ⟨w, t, hput, hlen, hw, hget⟩ := ih (v >>> 6) ((v &&& 0x3F ||| 0x80).toUInt8 :: out)
    have hpop := pop_toNat v
    refine ⟨w, t ++ [(v &&& 0x3F ||| 0x80).toUInt8], ?_, ?_, ?_, ?_⟩
    · rw [putTrailing, hput, append_assoc, singleton_append]
    · rw [length_append, hlen, length_singleton]
    · rw [hw, hpop, Nat.div_div_eq_div_mul, Nat.pow_succ, mul_comm]
    · intro rest
      have hv := v.toNat_lt
      have hbyte := trailing_toNat v
      have htrail := (trailing_iff (v &&& 0x3F ||| 0x80).toUInt8).mpr (by rw [hbyte]; omega)
      rw [getTrailing_succ, append_assoc, hget, Option.bind_some,
        ← hlen, drop_left, singleton_append, getTrailing,
        if_neg (not_not.mpr htrail), getTrailing]
      congr 1
      rw [four_store, ← UInt32.toNat_inj, push_toNat (by omega), hbyte, hpop]
      omega

/-! ## One character -/

/-- `b` can follow as the second byte of a sequence that `a` leads, if the bits
of `a` and `b` put the character into the range of its form. -/
def InRange (a b : UInt8) : Prop :=
  a ≠ 0xC0 ∧ a ≠ 0xC1 ∧ (a = 0xE0 → 0xA0 ≤ b) ∧ (a = 0xF0 → 0x90 ≤ b) ∧
    (a = 0xF4 → b < 0x90) ∧ a ≠ 0xF5 ∧ a ≠ 0xF6 ∧ a ≠ 0xF7

instance (a b : UInt8) : Decidable (InRange a b) := by
  unfold InRange
  infer_instance

theorem inRange_iff (a b : UInt8) :
    InRange a b ↔ a.toNat ≠ 192 ∧ a.toNat ≠ 193 ∧ (a.toNat = 224 → 160 ≤ b.toNat) ∧
      (a.toNat = 240 → 144 ≤ b.toNat) ∧ (a.toNat = 244 → b.toNat < 144) ∧
      a.toNat ≠ 245 ∧ a.toNat ≠ 246 ∧ a.toNat ≠ 247 := by
  simp only [InRange, ne_eq, ← UInt8.toNat_inj, UInt8.le_iff_toNat_le, UInt8.lt_iff_toNat_lt]
  rfl

theorem utf8touc_eq_some (h : utf8touc size (b :: rest) = (n + 1, some w)) :
    ∃ cur ∈ utf8Table, b &&& cur.mask = cur.fbyte ∧ cur.length = n + 1 ∧
      getTrailing size n rest (b &&& cur.fmask).toUInt32 = some w := by
  rw [utf8touc] at h
  split at h
  · cases h
  rename_i cur hfind
  refine ⟨cur, mem_of_find?_eq_some hfind, by simpa using find?_some hfind, ?_⟩
  split at h
  · split at h
    · cases h
    · rename_i v hget
      simp only [Prod.mk.injEq, Option.some.injEq] at h
      obtain ⟨hlen, rfl⟩ := h
      rw [hlen, Nat.add_sub_cancel] at hget
      exact ⟨hlen, hget⟩
  · simp at h

theorem lead_facts (hcur : cur ∈ utf8Table) (hb : b &&& cur.mask = cur.fbyte) :
    ((b &&& cur.fmask).toUInt32 ||| cur.fbyte.toUInt32).toUInt8 = b ∧
      b.toNat = cur.fbyte.toNat + (b &&& cur.fmask).toUInt32.toNat ∧
      (b &&& cur.fmask).toUInt32.toNat ≤ cur.fmask.toNat := by
  have hall : ∀ cur ∈ utf8Table, ∀ n : Fin 256, UInt8.ofNat n &&& cur.mask = cur.fbyte →
      ((UInt8.ofNat n &&& cur.fmask).toUInt32 ||| cur.fbyte.toUInt32).toUInt8 = UInt8.ofNat n ∧
        (UInt8.ofNat n).toNat = cur.fbyte.toNat + (UInt8.ofNat n &&& cur.fmask).toUInt32.toNat ∧
        (UInt8.ofNat n &&& cur.fmask).toUInt32.toNat ≤ cur.fmask.toNat := by
    decide +kernel
  have hb' := hall cur hcur ⟨b.toNat, b.toNat_lt⟩
  simp only [UInt8.ofNat_toNat] at hb'
  exact hb' hb

theorem find?_eq_some_of_unique {α : Type} {p : α → Bool} {l : List α} {a : α} (ha : a ∈ l)
    (hp : p a) (huniq : ∀ b ∈ l, p b → b = a) : l.find? p = some a := by
  have hsome : (l.find? p).isSome := find?_isSome.mpr ⟨a, ha, hp⟩
  obtain ⟨b, hb⟩ := Option.isSome_iff_exists.mp hsome
  rw [hb, huniq b (mem_of_find?_eq_some hb) (find?_some hb)]

theorem slots_disjoint : ∀ cur ∈ utf8Table, ∀ cur' ∈ utf8Table, cur ≠ cur' →
    cur.upper < cur'.lower ∨ cur'.upper < cur.lower := by
  decide

theorem getUtf8Slot_eq_some :
    getUtf8Slot w = some cur ↔ cur ∈ utf8Table ∧ cur.lower ≤ w ∧ w ≤ cur.upper := by
  constructor
  · intro h
    exact ⟨mem_of_find?_eq_some h, by simpa using find?_some h⟩
  · rintro ⟨hcur, hlow, hup⟩
    refine find?_eq_some_of_unique hcur (by simp [hlow, hup]) fun cur' hcur' h => ?_
    have hrange : cur'.lower ≤ w ∧ w ≤ cur'.upper := by simpa using h
    by_contra hne
    have hdisj := slots_disjoint cur' hcur' cur hcur hne
    simp only [UInt32.le_iff_toNat_le, UInt32.lt_iff_toNat_lt] at hdisj hrange hlow hup
    omega

theorem uctoutf8_of_utf8touc (hcur : cur ∈ utf8Table) (hb : b &&& cur.mask = cur.fbyte)
    (hlen : cur.length = n + 1)
    (hget : getTrailing .four n rest (b &&& cur.fmask).toUInt32 = some w)
    (hrange : cur.lower ≤ w ∧ w ≤ cur.upper) :
    (uctoutf8 w utf8LenMax).2 = some (b :: rest.take n) := by
  have hsmall : ∀ cur ∈ utf8Table, cur.length ≤ 4 ∧ cur.fmask.toNat < 128 := by decide
  obtain ⟨hfew, hmask⟩ := hsmall cur hcur
  obtain ⟨hlead, -, hbits⟩ := lead_facts hcur hb
  have hpow : (64 : ℕ) ^ n ≤ 64 ^ 3 := Nat.pow_le_pow_right (by decide) (by omega)
  have hroom : ((b &&& cur.fmask).toUInt32.toNat + 1) * 64 ^ n ≤ 2 ^ 32 :=
    (Nat.mul_le_mul (by omega : _ ≤ 128) hpow).trans (by decide)
  have hput := (putTrailing_of_getTrailing hget hroom []).2.2
  have hfit : n + 1 ≤ utf8LenMax := by
    rw [utf8LenMax]
    omega
  rw [uctoutf8, getUtf8Slot_eq_some.mpr ⟨hcur, hrange⟩]
  simp only [hlen, if_pos hfit, Nat.add_sub_cancel, hput, hlead, append_nil]

theorem written_lead (hcur : cur ∈ utf8Table)
    (hw : w.toNat ≤ cur.upper.toNat / 64 ^ (cur.length - 1)) :
    (w ||| cur.fbyte.toUInt32).toUInt8 &&& cur.mask = cur.fbyte ∧
      ((w ||| cur.fbyte.toUInt32).toUInt8 &&& cur.fmask).toUInt32 = w := by
  have hall : ∀ cur ∈ utf8Table, ∀ n : Fin 128, n.val ≤ cur.upper.toNat / 64 ^ (cur.length - 1) →
      (UInt32.ofNat n ||| cur.fbyte.toUInt32).toUInt8 &&& cur.mask = cur.fbyte ∧
        ((UInt32.ofNat n ||| cur.fbyte.toUInt32).toUInt8 &&& cur.fmask).toUInt32 =
          UInt32.ofNat n := by
    decide +kernel
  have hsmall : ∀ cur ∈ utf8Table, cur.upper.toNat / 64 ^ (cur.length - 1) < 128 := by decide
  have hw' := hall cur hcur ⟨w.toNat, lt_of_le_of_lt hw (hsmall cur hcur)⟩ hw
  simpa only [UInt32.ofNat_toNat] using hw'

theorem marks_disjoint {cur' : Slot} (hcur : cur ∈ utf8Table) (hcur' : cur' ∈ utf8Table)
    (hb : b &&& cur.mask = cur.fbyte) (hb' : b &&& cur'.mask = cur'.fbyte) :
    cur = cur' := by
  have hall : ∀ cur ∈ utf8Table, ∀ cur' ∈ utf8Table, ∀ n : Fin 256,
      UInt8.ofNat n &&& cur.mask = cur.fbyte → UInt8.ofNat n &&& cur'.mask = cur'.fbyte →
        cur = cur' := by
    decide +kernel
  have h := hall cur hcur cur' hcur' ⟨b.toNat, b.toNat_lt⟩
  simp only [UInt8.ofNat_toNat] at h
  exact h hb hb'

theorem utf8touc_of_uctoutf8 (h : (uctoutf8 w utf8LenMax).2 = some bs) :
    ∃ n, bs.length = n + 1 ∧ ∀ rest, utf8touc .four (bs ++ rest) = (n + 1, some w) := by
  rw [uctoutf8] at h
  split at h
  · cases h
  rename_i cur hslot
  obtain ⟨hcur, hlow, hup⟩ := getUtf8Slot_eq_some.mp hslot
  obtain ⟨n, hn⟩ : ∃ n, cur.length = n + 1 := by
    have hpos : ∀ cur ∈ utf8Table, cur.length ≠ 0 := by decide
    exact Nat.exists_eq_succ_of_ne_zero (hpos cur hcur)
  obtain ⟨v, t, hput, hlen, hv, hget⟩ := getTrailing_putTrailing n w []
  have hbits : v.toNat ≤ cur.upper.toNat / 64 ^ (cur.length - 1) := by
    rw [hv, hn, Nat.add_sub_cancel]
    exact Nat.div_le_div_right (UInt32.le_iff_toNat_le.mp hup)
  obtain ⟨hmark, hlead⟩ := written_lead hcur hbits
  split at h
  · rw [hn, Nat.add_sub_cancel, hput] at h
    simp only [Option.some.injEq, append_nil] at h
    subst h
    refine ⟨n, by rw [length_cons, hlen], fun rest => ?_⟩
    have hfind : (utf8Table.find? fun cur' =>
        (v ||| cur.fbyte.toUInt32).toUInt8 &&& cur'.mask = cur'.fbyte) = some cur := by
      refine find?_eq_some_of_unique hcur (by simpa using hmark) fun cur' hcur' hmark' => ?_
      exact marks_disjoint hcur' hcur (by simpa using hmark') hmark
    have hfit : n + 1 ≤ (t ++ rest).length + 1 := by
      rw [length_append]
      omega
    rw [cons_append, utf8touc, hfind]
    simp only [hn, if_pos hfit, Nat.add_sub_cancel, hlead, hget]
  · cases h

/-! ## The range of a form -/

theorem second_byte {c : UInt8} (hget : getTrailing .four (n + 1) (c :: cs) v = some w)
    (hv : v.toNat < 64) (hn : n ≤ 2) :
    128 ≤ c.toNat ∧ c.toNat < 192 ∧ w.toNat / 64 ^ n = v.toNat * 64 + c.toNat % 64 := by
  rw [getTrailing] at hget
  by_cases hc : c &&& 0xC0 = 0x80
  · rw [if_neg (not_not.mpr hc)] at hget
    have hpush := push_toNat (by omega : v.toNat < 2 ^ 26) c
    have hpow : (64 : ℕ) ^ n ≤ 64 ^ 2 := Nat.pow_le_pow_right (by decide) hn
    have hroom : ((v <<< 6 ||| (c &&& 0x3F).toUInt32).toNat + 1) * 64 ^ n ≤ 2 ^ 32 :=
      (Nat.mul_le_mul (by omega : _ ≤ 64 * 64) hpow).trans (by decide)
    obtain ⟨hlo, hhi⟩ := (trailing_iff c).mp hc
    exact ⟨hlo, hhi, (putTrailing_of_getTrailing hget hroom []).2.1.trans hpush⟩
  · rw [if_pos hc] at hget
    cases hget

theorem range_iff_inRange (hcur : cur ∈ utf8Table) (hb : b &&& cur.mask = cur.fbyte)
    (hlen : cur.length = n + 1)
    (hget : getTrailing .four n rest (b &&& cur.fmask).toUInt32 = some w) :
    (cur.lower ≤ w ∧ w ≤ cur.upper) ↔ ∀ c ∈ rest.head?, InRange b c := by
  obtain ⟨-, hvalue, hbits⟩ := lead_facts hcur hb
  generalize (b &&& cur.fmask).toUInt32 = v at hvalue hbits hget
  simp only [inRange_iff, UInt32.le_iff_toNat_le]
  simp only [utf8Table, mem_cons, not_mem_nil, or_false] at hcur
  obtain rfl | hcur := hcur
  · cases hlen
    cases hget
    change b.toNat = 0 + w.toNat at hvalue
    change w.toNat ≤ 127 at hbits
    refine iff_of_true ⟨Nat.zero_le _, hbits⟩ ?_
    intro c _
    omega
  obtain ⟨m, rfl⟩ : ∃ m, n = m + 1 := by
    obtain rfl | rfl | rfl := hcur <;> exact Nat.exists_eq_succ_of_ne_zero (by simp at hlen; omega)
  cases rest with
  | nil => cases hget
  | cons c cs =>
    simp only [head?_cons, Option.mem_some_iff, forall_eq']
    obtain rfl | rfl | rfl := hcur
    · -- two bytes
      cases hlen
      change b.toNat = 192 + v.toNat at hvalue
      change v.toNat ≤ 31 at hbits
      obtain ⟨hlo, hhi, hw⟩ := second_byte hget (by omega) (by decide)
      change 128 ≤ w.toNat ∧ w.toNat ≤ 2047 ↔ _
      omega
    · -- three bytes
      cases hlen
      change b.toNat = 224 + v.toNat at hvalue
      change v.toNat ≤ 15 at hbits
      obtain ⟨hlo, hhi, hw⟩ := second_byte hget (by omega) (by decide)
      change 2048 ≤ w.toNat ∧ w.toNat ≤ 65535 ↔ _
      omega
    · -- four bytes
      cases hlen
      change b.toNat = 240 + v.toNat at hvalue
      change v.toNat ≤ 7 at hbits
      obtain ⟨hlo, hhi, hw⟩ := second_byte hget (by omega) (by decide)
      change 65536 ≤ w.toNat ∧ w.toNat ≤ 1114111 ↔ _
      omega

theorem inRange_of_trailing {c : UInt8} (hb : b.toNat < 192) : InRange b c := by
  rw [inRange_iff]
  omega

theorem trailing_le_length (h : getTrailing size n cs v = some w) : n ≤ cs.length := by
  induction n generalizing cs v with
  | zero => exact Nat.zero_le _
  | succ n ih =>
    cases cs with
    | nil => cases h
    | cons c cs =>
      rw [getTrailing] at h
      split at h
      · cases h
      · exact Nat.succ_le_succ (ih h)

theorem exists_slot_of_uctoutf8 (h : (uctoutf8 w utf8LenMax).2 = some bs) :
    ∃ cur, getUtf8Slot w = some cur ∧ bs.length = cur.length := by
  rw [uctoutf8] at h
  split at h
  · cases h
  rename_i cur hslot
  have hpos : ∀ cur ∈ utf8Table, 0 < cur.length := by decide
  have hcur := hpos cur (getUtf8Slot_eq_some.mp hslot).1
  obtain ⟨v, t, hput, hlen, -⟩ := getTrailing_putTrailing (cur.length - 1) w []
  split at h
  · rw [hput] at h
    cases h
    refine ⟨cur, hslot, ?_⟩
    rw [length_cons, append_nil, hlen]
    omega
  · cases h

theorem uctoutf8_iff (h : utf8touc .four (b :: rest) = (n + 1, some w)) :
    (uctoutf8 w utf8LenMax).2 = some (b :: rest.take n) ↔ ∀ c ∈ rest.head?, InRange b c := by
  obtain ⟨cur, hcur, hb, hlen, hget⟩ := utf8touc_eq_some h
  rw [← range_iff_inRange hcur hb hlen hget]
  constructor
  · intro hput
    obtain ⟨cur', hslot, hlen'⟩ := exists_slot_of_uctoutf8 hput
    obtain ⟨hcur', hrange⟩ := getUtf8Slot_eq_some.mp hslot
    have hlengths : ∀ cur ∈ utf8Table, ∀ cur' ∈ utf8Table,
        cur.length = cur'.length → cur = cur' := by decide
    have hfull : n ≤ rest.length := trailing_le_length hget
    have hsame : cur.length = cur'.length := by
      rw [← hlen', hlen, length_cons, length_take, min_eq_left hfull]
    rw [hlengths cur hcur cur' hcur' hsame]
    exact hrange
  · exact uctoutf8_of_utf8touc hcur hb hlen hget

theorem decode_cons :
    decode .four (b :: rest) = some ws ↔ ∃ n w vs, utf8touc .four (b :: rest) = (n + 1, some w) ∧
      decode .four (rest.drop n) = some vs ∧ ws = w :: vs := by
  rw [decode]
  split
  · rename_i n w h
    rw [h]
    simp only [Option.map_eq_some_iff, Prod.mk.injEq, Option.some.injEq]
    constructor
    · rintro ⟨vs, hvs, rfl⟩
      exact ⟨n, w, vs, ⟨rfl, rfl⟩, hvs, rfl⟩
    · rintro ⟨_, _, vs, ⟨⟨⟩, rfl⟩, hvs, rfl⟩
      exact ⟨vs, hvs, rfl⟩
  · rename_i h
    constructor
    · rintro ⟨⟩
    · rintro ⟨n, w, vs, heq, -, -⟩
      exact absurd heq (h n w)

theorem encode_cons :
    encode (w :: ws) = some bs ↔ ∃ as cs, (uctoutf8 w utf8LenMax).2 = some as ∧
      encode ws = some cs ∧ bs = as ++ cs := by
  rw [encode]
  split
  · rename_i h
    simp [h]
  rename_i as h
  simp only [h, Option.map_eq_some_iff, Option.some.injEq]
  constructor
  · rintro ⟨cs, hcs, rfl⟩
    exact ⟨as, cs, rfl, hcs, rfl⟩
  · rintro ⟨_, cs, rfl, hcs, rfl⟩
    exact ⟨cs, hcs, rfl⟩

/-! ## Sequences that are cut -/

theorem utf8touc_incomplete {later : List UInt8}
    (h : (uctoutf8 w utf8LenMax).2 = some (b :: rest ++ later)) (hne : later ≠ []) :
    ∃ n, utf8touc .four (b :: rest) = (n + 1, none) ∧ rest.length < n ∧ n < 4 := by
  obtain ⟨n, hlen, hread⟩ := utf8touc_of_uctoutf8 h
  have hwhole := hread []
  rw [append_nil, cons_append, utf8touc] at hwhole
  have hlater : 0 < later.length := length_pos_iff.2 hne
  rw [length_append, length_cons] at hlen
  rw [utf8touc]
  split at hwhole
  · cases hwhole
  rename_i cur hfind
  have hcur : cur.length = n + 1 := by
    split at hwhole
    · split at hwhole
      · cases hwhole
      · exact (Prod.mk.inj hwhole).1
    · exact (Prod.mk.inj hwhole).1
  have hshort : ¬cur.length ≤ rest.length + 1 := by omega
  have hsmall : ∀ cur ∈ utf8Table, cur.length ≤ 4 := by decide
  have hfew := hsmall cur (mem_of_find?_eq_some hfind)
  refine ⟨n, by rw [if_neg hshort, hcur], by omega, by omega⟩

theorem utf8touc_length {rest' : List UInt8} {m : ℕ} {r r' : Option UInt32}
    (h : utf8touc .four (b :: rest) = (n + 1, r)) (h' : utf8touc .four (b :: rest') = (m + 1, r')) :
    n = m := by
  have hcur {rest : List UInt8} {n : ℕ} {r : Option UInt32}
      (h : utf8touc .four (b :: rest) = (n + 1, r)) :
      ∃ cur, (utf8Table.find? fun cur => b &&& cur.mask = cur.fbyte) = some cur ∧
        cur.length = n + 1 := by
    rw [utf8touc] at h
    split at h
    · cases h
    rename_i cur hfind
    refine ⟨cur, hfind, ?_⟩
    split at h
    · split at h
      · cases h
      · exact (Prod.mk.inj h).1
    · exact (Prod.mk.inj h).1
  obtain ⟨cur, hfind, hlen⟩ := hcur h
  obtain ⟨cur', hfind', hlen'⟩ := hcur h'
  rw [hfind] at hfind'
  obtain rfl : cur = cur' := Option.some.inj hfind'
  omega

theorem getTrailing_append (more : List UInt8) (hn : n ≤ cs.length) :
    getTrailing size n (cs ++ more) v = getTrailing size n cs v := by
  induction n generalizing cs v with
  | zero => rfl
  | succ n ih =>
    cases cs with
    | nil => cases hn
    | cons c cs =>
      rw [cons_append, getTrailing, getTrailing, ih (Nat.le_of_succ_le_succ hn)]

theorem utf8touc_append (more : List UInt8) : (∃ n, utf8touc size (b :: rest) = (n + 1, none)) ∨
    utf8touc size (b :: (rest ++ more)) = utf8touc size (b :: rest) := by
  rw [utf8touc, utf8touc]
  cases utf8Table.find? fun cur => b &&& cur.mask = cur.fbyte with
  | none => exact .inr rfl
  | some cur =>
    dsimp only
    by_cases hlen : cur.length ≤ rest.length + 1
    · have hlen' : cur.length ≤ (rest ++ more).length + 1 := by
        rw [length_append]
        omega
      rw [if_pos hlen, if_pos hlen', getTrailing_append more (by omega)]
      exact .inr rfl
    · exact .inl ⟨cur.length - 1, by rw [if_neg hlen, Nat.sub_add_cancel (by omega)]⟩

theorem utf8touc_encode {cs : List UInt32} {data later : List UInt8}
    (h : encode cs = some (b :: data ++ later)) :
    (∃ n w ws, cs = w :: ws ∧ utf8touc .four (b :: data) = (n + 1, some w) ∧ n ≤ data.length ∧
      encode ws = some (data.drop n ++ later)) ∨
    ((∃ n, utf8touc .four (b :: data) = (n + 1, none) ∧ data.length < n ∧ n < 4) ∧ later ≠ []) := by
  cases cs with
  | nil => simp [encode] at h
  | cons w ws =>
    obtain ⟨as, more, has, hmore, heq⟩ := encode_cons.1 h
    obtain ⟨n, hlen, hread⟩ := utf8touc_of_uctoutf8 has
    rcases append_eq_append_iff.1 heq with ⟨missing, rfl, rfl⟩ | ⟨rest, htail, rfl⟩
    · cases missing with
      | nil =>
        have hchar := hread []
        rw [append_nil, append_nil] at hchar
        rw [append_nil, length_cons] at hlen
        have hdrop : data.drop n = [] := drop_eq_nil_of_le (by omega)
        refine .inl ⟨n, w, ws, rfl, hchar, by omega, ?_⟩
        rw [hdrop]
        exact hmore
      | cons m missing => exact .inr ⟨utf8touc_incomplete has (by simp), by simp⟩
    · have hchar := hread rest
      rw [← htail] at hchar
      have hdrop : data.drop n = rest := by
        have hall : (b :: data).drop (n + 1) = rest := by rw [htail, ← hlen, drop_left]
        exact hall
      have hfits : n ≤ data.length := by
        have hcount := congrArg List.length htail
        rw [length_append, length_cons, hlen] at hcount
        omega
      exact .inl ⟨n, w, ws, rfl, hchar, hfits, by rw [hdrop]; exact hmore⟩

theorem encode_of_append {done : List UInt32} : ∀ {cs : List UInt32} {front back : List UInt8},
    encode done = some front → encode cs = some (front ++ back) →
    ∃ ws, cs = done ++ ws ∧ encode ws = some back := by
  induction done with
  | nil =>
    rintro cs front back ⟨⟩ hcs
    exact ⟨cs, rfl, hcs⟩
  | cons w done ih =>
    intro cs front back hdone hcs
    obtain ⟨as, more, has, hmore, rfl⟩ := encode_cons.1 hdone
    obtain ⟨n, hlen, hread⟩ := utf8touc_of_uctoutf8 has
    cases as with
    | nil => cases hlen
    | cons a as =>
      rw [length_cons, Nat.add_right_cancel_iff] at hlen
      have hchar := hread (more ++ back)
      rw [append_assoc, cons_append, ← append_nil (a :: (as ++ _))] at hcs
      rcases utf8touc_encode hcs with ⟨m, v, ws, rfl, hv, -, hws⟩ | ⟨-, hne⟩
      · rw [cons_append, hv] at hchar
        obtain ⟨hm, hvw⟩ := Prod.mk.inj hchar
        obtain rfl : m = n := Nat.succ.inj hm
        obtain rfl : v = w := Option.some.inj hvw
        rw [← hlen, drop_left, append_nil] at hws
        obtain ⟨ws', rfl, hback⟩ := ih hmore hws
        exact ⟨ws', rfl, hback⟩
      · exact absurd rfl hne

theorem encode_append {cs ds : List UInt32} {front back : List UInt8}
    (hcs : encode cs = some front) (hds : encode ds = some back) :
    encode (cs ++ ds) = some (front ++ back) := by
  induction cs generalizing front with
  | nil =>
    cases hcs
    exact hds
  | cons w cs ih =>
    obtain ⟨as, more, has, hmore, rfl⟩ := encode_cons.1 hcs
    rw [cons_append, append_assoc]
    exact encode_cons.2 ⟨as, more ++ back, has, ih hmore, rfl⟩

/-! ## Sequences that are in range -/

theorem isChain_drop_trailing (h : getTrailing .four n cs v = some w) :
    cs.IsChain InRange ↔ (cs.drop n).IsChain InRange := by
  induction n generalizing cs v with
  | zero => rfl
  | succ n ih =>
    cases cs with
    | nil => cases h
    | cons c cs =>
      rw [getTrailing] at h
      by_cases hc : c &&& 0xC0 = 0x80
      · rw [if_neg (not_not.mpr hc)] at h
        have htrail := ((trailing_iff c).mp hc).2
        rw [isChain_cons, drop_succ_cons, ← ih h]
        exact and_iff_right fun d _ => inRange_of_trailing htrail
      · rw [if_pos hc] at h
        cases h

theorem encode_decode_four_iff (h : decode .four bs = some ws) :
    encode ws = some bs ↔ bs.IsChain InRange := by
  induction hlen : bs.length using Nat.strong_induction_on generalizing bs ws with
  | _ k ih =>
  cases bs with
  | nil =>
    rw [decode] at h
    cases h
    simp [encode]
  | cons b rest =>
    obtain ⟨n, w, vs, hw, hvs, rfl⟩ := decode_cons.mp h
    obtain ⟨cur, -, -, -, hget⟩ := utf8touc_eq_some hw
    have hshort : (rest.drop n).length < k := by
      rw [← hlen, length_drop, length_cons]
      omega
    have htail := ih _ hshort hvs rfl
    rw [isChain_cons, ← uctoutf8_iff hw, isChain_drop_trailing hget, ← htail, encode_cons]
    constructor
    · rintro ⟨as, cs, has, hcs, heq⟩
      obtain ⟨m, hm, hread⟩ := utf8touc_of_uctoutf8 has
      have hcount : n = m := by
        have hread' := hread cs
        rw [← heq, hw] at hread'
        simpa using hread'
      have hsplit : as = b :: rest.take n ∧ cs = rest.drop n := by
        have hcut : (b :: rest.take n) ++ rest.drop n = as ++ cs := by
          rw [cons_append, take_append_drop, heq]
        have hfull := trailing_le_length hget
        have hsame : (b :: rest.take n).length = as.length := by
          rw [hm, length_cons, length_take, min_eq_left hfull, hcount]
        obtain ⟨h1, h2⟩ := append_inj hcut hsame
        exact ⟨h1.symm, h2.symm⟩
      exact ⟨hsplit.1 ▸ has, hsplit.2 ▸ hcs⟩
    · rintro ⟨has, hcs⟩
      exact ⟨_, _, has, hcs, by rw [cons_append, take_append_drop]⟩

/-- `qse_uctoutf8` has a form for the character. -/
def Encodable (w : UInt32) : Prop :=
  (uctoutf8 w utf8LenMax).1 ≠ 0

theorem Encodable.exists_bytes (h : Encodable w) : ∃ bs, (uctoutf8 w utf8LenMax).2 = some bs := by
  rw [Encodable, uctoutf8] at h
  rw [uctoutf8]
  split at h
  · exact absurd rfl h
  · rename_i cur hslot
    have hsmall : ∀ cur ∈ utf8Table, cur.length ≤ utf8LenMax := by decide
    rw [if_pos (hsmall cur (getUtf8Slot_eq_some.mp hslot).1)]
    exact ⟨_, rfl⟩

theorem decode_nil : decode .four [] = some [] := by
  rw [decode]

theorem exists_encode (h : ∀ w ∈ ws, Encodable w) : ∃ bs, encode ws = some bs := by
  induction ws with
  | nil => exact ⟨[], rfl⟩
  | cons w ws ih =>
    obtain ⟨cs, hcs⟩ := ih fun v hv => h v (mem_cons_of_mem w hv)
    obtain ⟨as, has⟩ := (h w (.head _)).exists_bytes
    exact ⟨as ++ cs, encode_cons.mpr ⟨as, cs, has, hcs, rfl⟩⟩

theorem decode_encode (h : encode ws = some bs) : decode .four bs = some ws := by
  induction ws generalizing bs with
  | nil =>
    cases h
    exact decode_nil
  | cons w ws ih =>
    obtain ⟨as, cs, has, hcs, rfl⟩ := encode_cons.mp h
    obtain ⟨n, hn, hread⟩ := utf8touc_of_uctoutf8 has
    cases as with
    | nil => cases hn
    | cons a as =>
      have hdrop : (as ++ cs).drop n = cs := by
        rw [← Nat.succ.inj hn, drop_left]
      rw [cons_append, decode_cons]
      exact ⟨n, w, ws, hread cs, by rw [hdrop, ih hcs], rfl⟩

/-! ## Wide characters of two bytes -/

theorem trailing_lt (h : getTrailing .four n cs v = some w) : ∀ c ∈ cs.take n, c.toNat < 192 := by
  induction n generalizing cs v with
  | zero => simp
  | succ n ih =>
    cases cs with
    | nil => cases h
    | cons c cs =>
      rw [getTrailing] at h
      split at h
      · cases h
      · rename_i hc
        rw [take_succ_cons, forall_mem_cons]
        exact ⟨((trailing_iff c).mp (not_not.mp hc)).2, ih h⟩

theorem lead_lt_iff (hcur : cur ∈ utf8Table) (hb : b &&& cur.mask = cur.fbyte)
    (hrange : cur.lower ≤ w ∧ w ≤ cur.upper) : b.toNat < 240 ↔ w.toNat < 2 ^ 16 := by
  have hall : ∀ cur ∈ utf8Table, ∀ n : Fin 256, UInt8.ofNat n &&& cur.mask = cur.fbyte →
      (n.val < 240 ∧ cur.upper.toNat < 2 ^ 16 ∨ ¬n.val < 240 ∧ 2 ^ 16 ≤ cur.lower.toNat) := by
    decide +kernel
  have hlead := hall cur hcur ⟨b.toNat, b.toNat_lt⟩
  simp only [UInt8.ofNat_toNat] at hlead
  obtain ⟨hlow, hup⟩ := hrange
  rw [UInt32.le_iff_toNat_le] at hlow hup
  have hcases := hlead hb
  omega

theorem lt_iff_of_uctoutf8 (h : (uctoutf8 w utf8LenMax).2 = some bs) :
    (∀ b ∈ bs, b.toNat < 240) ↔ w.toNat < 2 ^ 16 := by
  obtain ⟨n, hlen, hread⟩ := utf8touc_of_uctoutf8 h
  have hwhole := hread []
  rw [append_nil] at hwhole
  cases bs with
  | nil => cases hlen
  | cons b rest =>
    have hrest : rest.take n = rest := take_of_length_le (le_of_eq (Nat.succ.inj hlen))
    obtain ⟨cur, hcur, hb, hcount, hget⟩ := utf8touc_eq_some hwhole
    have hin := (uctoutf8_iff hwhole).mp (by rw [hrest]; exact h)
    have hlead := lead_lt_iff hcur hb ((range_iff_inRange hcur hb hcount hget).mpr hin)
    rw [forall_mem_cons, hlead]
    refine and_iff_left fun c hc => ?_
    have hlt := trailing_lt hget c (by rwa [hrest])
    omega

/-- The bytes of characters that fit in 16 bits are those that lead no form of four. -/
theorem lt_iff_of_encode (h : encode ws = some bs) :
    (∀ b ∈ bs, b.toNat < 240) ↔ ∀ w ∈ ws, w.toNat < 2 ^ 16 := by
  induction ws generalizing bs with
  | nil =>
    cases h
    simp
  | cons w ws ih =>
    obtain ⟨as, cs, has, hcs, rfl⟩ := encode_cons.mp h
    rw [forall_mem_append, forall_mem_cons, lt_iff_of_uctoutf8 has, ih hcs]

def WcharSize.Fits (size : WcharSize) (w : UInt32) : Prop := size.store w = w

instance fitsDecidable (size : WcharSize) (w : UInt32) : Decidable (size.Fits w) :=
  inferInstanceAs (Decidable (size.store w = w))

theorem two_store_toNat (w : UInt32) : (WcharSize.two.store w).toNat = w.toNat % 2 ^ 16 := by
  rw [WcharSize.store, UInt16.toNat_toUInt32, UInt32.toNat_toUInt16]

theorem fits_iff : size.Fits w ↔ (size = .two → w.toNat < 2 ^ 16) := by
  cases size with
  | two =>
    rw [WcharSize.Fits, ← UInt32.toNat_inj, two_store_toNat, forall_prop_of_true rfl]
    omega
  | four => exact iff_of_true rfl fun h => by cases h

theorem map_store (h : ∀ w ∈ ws, size.Fits w) : ws.map size.store = ws := by
  rw [map_congr_left h, map_id']

theorem store_push (w x : UInt32) :
    size.store (size.store w <<< 6 ||| x) = size.store (w <<< 6 ||| x) := by
  cases size with
  | two =>
    simp only [WcharSize.store, UInt32.toUInt16_or, UInt32.toUInt16_shiftLeft _ 6 (by decide),
      UInt16.toUInt16_toUInt32]
  | four => rfl

theorem fits_byte (c : UInt8) : size.Fits c.toUInt32 := by
  have hlt := c.toNat_lt
  rw [fits_iff, UInt8.toNat_toUInt32]
  omega

theorem getTrailing_store :
    getTrailing size n cs (size.store w) = (getTrailing .four n cs w).map size.store := by
  induction n generalizing cs w with
  | zero => rfl
  | succ n ih =>
    cases cs with
    | nil => rfl
    | cons c cs =>
      rw [getTrailing, getTrailing]
      split
      · rfl
      · rw [store_push, ih, four_store]

theorem utf8touc_store (bs : List UInt8) :
    utf8touc size bs = ((utf8touc .four bs).1, (utf8touc .four bs).2.map size.store) := by
  cases bs with
  | nil => rfl
  | cons b rest =>
    rw [utf8touc, utf8touc]
    cases utf8Table.find? fun cur => b &&& cur.mask = cur.fbyte with
    | none => rfl
    | some cur =>
      have hget := @getTrailing_store (b &&& cur.fmask).toUInt32 (cur.length - 1) rest size
      rw [fits_byte] at hget
      dsimp only
      rw [hget]
      split
      · cases getTrailing .four (cur.length - 1) rest (b &&& cur.fmask).toUInt32 with
        | none | some w => rfl
      · rfl

theorem decode_store (bs : List UInt8) :
    decode size bs = (decode .four bs).map (List.map size.store) := by
  induction hlen : bs.length using Nat.strong_induction_on generalizing bs with
  | _ k ih =>
  cases bs with
  | nil =>
    rw [decode, decode]
    rfl
  | cons b rest =>
    have hrest (n : ℕ) : decode size (rest.drop n) =
        (decode .four (rest.drop n)).map (List.map size.store) := by
      refine ih _ ?_ _ rfl
      rw [← hlen, length_drop, length_cons]
      omega
    rw [decode, decode, utf8touc_store]
    rcases utf8touc .four (b :: rest) with ⟨n, w⟩
    cases n with
    | zero => rfl
    | succ n =>
      cases w with
      | none => rfl
      | some w =>
        simp only [Option.map_some, hrest, Option.map_map]
        rfl

theorem encode_decode_iff (h : decode size bs = some ws) :
    encode ws = some bs ↔
      bs.IsChain InRange ∧ (size = .two → ∀ b ∈ bs, b.toNat < 240) := by
  rw [decode_store] at h
  obtain ⟨vs, hvs, rfl⟩ := Option.map_eq_some_iff.mp h
  constructor
  · intro hback
    have hsame : vs.map size.store = vs := by
      have hread := decode_encode hback
      rw [hvs] at hread
      exact (Option.some.inj hread).symm
    rw [hsame] at hback
    refine ⟨(encode_decode_four_iff hvs).mp hback, fun htwo => (lt_iff_of_encode hback).mpr ?_⟩
    intro w hw
    exact fits_iff.mp (map_inj_left.mp (hsame.trans (map_id vs).symm) w hw) htwo
  · rintro ⟨hchain, hlead⟩
    have hback := (encode_decode_four_iff hvs).mpr hchain
    have hfits (w : UInt32) (hw : w ∈ vs) : size.Fits w :=
      fits_iff.mpr fun htwo => (lt_iff_of_encode hback).mp (hlead htwo) w hw
    rw [map_store hfits]
    exact hback

/-- An accepted sequence is written back as it was read exactly when every two
neighbouring bytes are in range and, if a character has two bytes, no byte leads a
form of four; a sequence of encodable characters is always read back from its
encoding. -/
theorem roundTrip_iff_inRange (size : WcharSize) (bs : List UInt8) (ws : List UInt32) :
    (decode size bs = some ws → (encode ws = some bs ↔
      bs.IsChain InRange ∧ (size = .two → ∀ b ∈ bs, b.toNat < 240))) ∧
      ((∀ w ∈ ws, size.Fits w ∧ Encodable w) →
        ∃ cs, encode ws = some cs ∧ decode size cs = some ws) := by
  refine ⟨encode_decode_iff, fun hws => ?_⟩
  obtain ⟨cs, hcs⟩ := exists_encode fun w hw => (hws w hw).2
  refine ⟨cs, hcs, ?_⟩
  rw [decode_store, decode_encode hcs, Option.map_some, map_store fun w hw => (hws w hw).1]

/-- `C3 A9` is in range and is written back; `E9` is encodable. -/
theorem roundTrip_iff_inRange_eacute :
    encode [0xE9] = some [0xC3, 0xA9] ∧
      ∃ bs, encode [0xE9] = some bs ∧ decode .two bs = some [0xE9] := by
  have hencode : encode [0xE9] = some [0xC3, 0xA9] := by decide
  have hread : decode .two [0xC3, 0xA9] = some [0xE9] := by
    rw [decode_store, decode_encode hencode]
    rfl
  have hin : [0xC3, 0xA9].IsChain InRange ∧
      (WcharSize.two = .two → ∀ b ∈ [(0xC3 : UInt8), 0xA9], b.toNat < 240) :=
    ⟨by decide, fun _ => by simp⟩
  refine ⟨((roundTrip_iff_inRange .two _ _).1 hread).mpr hin,
    (roundTrip_iff_inRange .two [] _).2 ?_⟩
  intro w hw
  rw [mem_singleton.mp hw, Encodable]
  decide

/-- The overlong form `C0 80` is accepted and written back as one byte. -/
theorem overlong_not_written_back :
    ¬∀ size bs ws, decode size bs = some ws → encode ws = some bs := by
  intro h
  have hread : decode .four [0xC0, 0x80] = some [0] :=
    decode_cons.mpr ⟨1, 0, [], by decide, decode_nil, rfl⟩
  have hback := h .two [0xC0, 0x80] [0] (by rw [decode_store, hread]; rfl)
  revert hback
  decide

/-- One encoding begins with another one just when the characters do, so that a text is encoded in
one way only and the end of a character is seen before what follows. -/
theorem encode_isPrefix_iff {cs ds : List UInt32} {front text : List UInt8}
    (hcs : encode cs = some front) (hds : encode ds = some text) :
    front <+: text ↔ cs <+: ds := by
  constructor
  · rintro ⟨back, rfl⟩
    obtain ⟨more, rfl, -⟩ := encode_of_append hcs hds
    exact ⟨more, rfl⟩
  · rintro ⟨more, rfl⟩
    obtain ⟨back, hback⟩ : ∃ back, encode more = some back := by
      induction cs generalizing front text with
      | nil => exact ⟨text, hds⟩
      | cons w cs ih =>
        obtain ⟨as, rest, -, hrest, -⟩ := encode_cons.1 hcs
        obtain ⟨bs, rest', -, hrest', -⟩ := encode_cons.1 hds
        exact ih hrest hrest'
    rw [encode_append hcs hback] at hds
    cases hds
    exact ⟨back, rfl⟩

/-- `C3 A9 41` begins with `C3 A9`. -/
theorem encode_isPrefix_iff_eacute : ([0xC3, 0xA9] : List UInt8) <+: [0xC3, 0xA9, 0x41] ↔
    ([0xE9] : List UInt32) <+: [0xE9, 0x41] :=
  have hfront : encode [0xE9] = some [0xC3, 0xA9] := by decide
  have htext : encode [0xE9, 0x41] = some [0xC3, 0xA9, 0x41] := by decide
  encode_isPrefix_iff hfront htext

end Qse.Utf8
