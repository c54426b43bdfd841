import Qse.Ipad.Model
import Qse.Support.MachineWord

/-!
# Dotted quads

`qse_mbsntoip4ad` accepts exactly the dotted quads.
-/

open List

namespace Qse.Ipad

def IsDigit (c : UInt8) : Prop := mt '0' ≤ c ∧ c ≤ mt '9'

def digitValue (c : UInt8) : ℕ := (c - mt '0').toNat

/-- The number `v` followed by the digits `o`. -/
@[grind =] def decimalFrom (v : ℕ) (o : List UInt8) : ℕ :=
  o.foldl (fun v c => v * 10 + digitValue c) v

/-- `o` writes the octet `v` in decimal, without a leading zero. -/
structure Octet (o : List UInt8) (v : ℕ) : Prop where
  ne_nil : o ≠ []
  digits : ∀ c ∈ o, IsDigit c
  value : decimalFrom 0 o = v
  le : v ≤ 255
  lead : o.head? = some (mt '0') → o.length = 1

/-- `s` is a dotted quad of the address `ip`. -/
def Quad (s ip : List UInt8) : Prop :=
  ∃ o1 o2 o3 o4 v1 v2 v3 v4, Octet o1 v1 ∧ Octet o2 v2 ∧ Octet o3 v3 ∧ Octet o4 v4 ∧
    s = o1 ++ mt '.' :: (o2 ++ mt '.' :: (o3 ++ mt '.' :: o4)) ∧
    ip = [UInt8.ofNat v1, UInt8.ofNat v2, UInt8.ofNat v3, UInt8.ofNat v4]

variable {s ip o : List UInt8} {acc : ℕ}

theorem Quad.length (h : Quad s ip) : ip.length = 4 := by
  obtain ⟨_, _, _, _, _, _, _, _, _, _, _, _, -, rfl⟩ := h
  rfl

theorem decimalFrom_append (v : ℕ) (o p : List UInt8) :
    decimalFrom v (o ++ p) = decimalFrom (decimalFrom v o) p := foldl_append

theorem le_decimalFrom (v : ℕ) (o : List UInt8) : v ≤ decimalFrom v o := by
  induction o generalizing v with
  | nil => exact le_refl v
  | cons c o ih =>
    have hstep := ih (v * 10 + digitValue c)
    rw [decimalFrom, foldl_cons]
    rw [decimalFrom] at hstep
    omega

theorem digitValue_eq_zero {c : UInt8} (hc : IsDigit c) : digitValue c = 0 ↔ c = mt '0' := by
  have hall : ∀ n : Fin 256, mt '0' ≤ UInt8.ofNat n ∧ UInt8.ofNat n ≤ mt '9' →
      ((UInt8.ofNat n - mt '0').toNat = 0 ↔ UInt8.ofNat n = mt '0') := by
    decide +kernel
  have h := hall ⟨c.toNat, c.toNat_lt⟩
  simp only [UInt8.ofNat_toNat] at h
  exact h hc

/-! ## Complete -/

theorem ip4Loop_digit {c : UInt8} (hc : IsDigit c) {n : ℕ} (hlead : n = 0 ∨ acc ≠ 0)
    (hfit : acc * 10 + digitValue c ≤ 255) (dots addr : ℕ) (rest : List UInt8) :
    ip4Loop (c :: rest) ⟨dots, n, acc, addr⟩ =
      ip4Loop rest ⟨dots, n + 1, acc * 10 + digitValue c, addr⟩ := by
  have hc' : mt '0' ≤ c ∧ c ≤ mt '9' := hc
  have hlead' : ¬(0 < n ∧ acc = 0) := by omega
  have hfit' : ¬255 < acc * 10 + (c - mt '0').toNat := not_lt.mpr hfit
  rw [ip4Loop, if_pos hc']
  simp only
  rw [if_neg hlead', if_neg hfit']
  rfl

theorem ip4Loop_digits {n : ℕ} (hdigits : ∀ c ∈ o, IsDigit c) (hacc : acc ≠ 0)
    (hle : decimalFrom acc o ≤ 255) (dots addr : ℕ) (rest : List UInt8) :
    ip4Loop (o ++ rest) ⟨dots, n, acc, addr⟩ =
      ip4Loop rest ⟨dots, n + o.length, decimalFrom acc o, addr⟩ := by
  induction o generalizing n acc with
  | nil => rfl
  | cons c o ih =>
    have hle' : decimalFrom (acc * 10 + digitValue c) o ≤ 255 := hle
    have hfit := (le_decimalFrom (acc * 10 + digitValue c) o).trans hle'
    rw [cons_append, ip4Loop_digit (hdigits c (.head _)) (.inr hacc) hfit,
      ih (fun d hd => hdigits d (mem_cons_of_mem c hd)) (by omega) hle',
      length_cons, add_assoc, add_comm 1]
    rfl

variable {v stop : ℕ} {t p g : List UInt8}

theorem ip4Loop_octet (h : Octet o v) (dots addr : ℕ) (rest : List UInt8) :
    ip4Loop (o ++ rest) ⟨dots, 0, 0, addr⟩ = ip4Loop rest ⟨dots, o.length, v, addr⟩ := by
  obtain ⟨hne, hdigits, rfl, hle, hlead⟩ := h
  cases o with
  | nil => exact absurd rfl hne
  | cons c o =>
    have hc : IsDigit c := hdigits c (.head _)
    have hle' : decimalFrom (0 * 10 + digitValue c) o ≤ 255 := hle
    have hfit := (le_decimalFrom (0 * 10 + digitValue c) o).trans hle'
    rw [cons_append, ip4Loop_digit hc (.inl rfl) hfit]
    by_cases ho : o = []
    · subst ho
      rfl
    have hnz : 0 * 10 + digitValue c ≠ 0 := by
      intro h0
      have hzero : c = mt '0' := (digitValue_eq_zero hc).mp (by omega)
      have hone := hlead (by rw [hzero, head?_cons])
      exact ho (length_eq_zero_iff.mp (by simpa using hone))
    rw [ip4Loop_digits (fun d hd => hdigits d (mem_cons_of_mem c hd)) hnz hle',
      length_cons, add_comm (0 + 1), zero_add]
    rfl

theorem dot_not_digit : ¬(mt '0' ≤ mt '.' ∧ mt '.' ≤ mt '9') := by
  decide

theorem ip4Loop_dot {dots digits : ℕ} (hdots : dots < 3) (hdigits : digits ≠ 0) (acc addr : ℕ)
    (rest : List UInt8) :
    ip4Loop (mt '.' :: rest) ⟨dots, digits, acc, addr⟩ =
      ip4Loop rest ⟨dots + 1, 0, 0, addr <<< 8 ||| acc⟩ := by
  rw [ip4Loop, if_neg dot_not_digit, if_pos rfl, if_neg]
  simp only
  omega

theorem Octet.length_ne_zero (h : Octet o v) : o.length ≠ 0 :=
  fun h0 => h.ne_nil (length_eq_zero_iff.mp h0)

theorem hton32_octets {v1 v2 v3 v4 : ℕ} (h2 : v2 ≤ 255) (h3 : v3 ≤ 255) (h4 : v4 ≤ 255) :
    hton32 ((((0 <<< 8 ||| v1) <<< 8 ||| v2) <<< 8 ||| v3) <<< 8 ||| v4) =
      [UInt8.ofNat v1, UInt8.ofNat v2, UInt8.ofNat v3, UInt8.ofNat v4] := by
  have hor : ∀ a b : ℕ, b ≤ 255 → a <<< 8 ||| b = a * 256 + b := by
    intro a b hb
    rw [Nat.shiftLeft_eq]
    exact BitFields.mul_or a (k := 8) (by omega)
  have hbyte : ∀ a b : ℕ, UInt8.ofNat (a * 256 + b) = UInt8.ofNat b := by
    intro a b
    rw [← UInt8.toNat_inj]
    simp
  rw [hor _ v4 h4, hor _ v3 h3, hor _ v2 h2, Nat.zero_shiftLeft, Nat.zero_or, hton32]
  simp only [Nat.shiftRight_eq_div_pow, List.cons.injEq, and_true]
  refine ⟨?_, ?_, ?_, ?_⟩
  · congr 1
    omega
  · rw [← hbyte v1 v2]
    congr 1
    omega
  · rw [← hbyte (v1 * 256 + v2) v3]
    congr 1
    omega
  · rw [hbyte]

theorem mbsntoip4ad_complete (h : Quad s ip) : mbsntoip4ad s = some ip := by
  obtain ⟨o1, o2, o3, o4, v1, v2, v3, v4, h1, h2, h3, h4, rfl, rfl⟩ := h
  have hlast := ip4Loop_octet h4 3 (((0 <<< 8 ||| v1) <<< 8 ||| v2) <<< 8 ||| v3) []
  rw [append_nil] at hlast
  rw [mbsntoip4ad, ip4Loop_octet h1, ip4Loop_dot (by decide) h1.length_ne_zero,
    ip4Loop_octet h2, ip4Loop_dot (by decide) h2.length_ne_zero,
    ip4Loop_octet h3, ip4Loop_dot (by decide) h3.length_ne_zero, hlast, ip4Loop, if_neg,
    Option.map_some, hton32_octets h2.le h3.le h4.le]
  simp only [lt_irrefl, false_or]
  exact h4.length_ne_zero

/-! ## Sound -/

inductive Dotted : List UInt8 → List ℕ → Prop where
  | nil : Dotted [] []
  | snoc {p : List UInt8} {vs : List ℕ} {o : List UInt8} {v : ℕ} (hp : Dotted p vs)
      (ho : Octet o v) : Dotted (p ++ (o ++ [mt '.'])) (vs ++ [v])

def packed (vs : List ℕ) : ℕ := vs.foldl (fun addr v => addr <<< 8 ||| v) 0

def Partial (t : List UInt8) (digits acc : ℕ) : Prop :=
  (t = [] ∧ digits = 0 ∧ acc = 0) ∨ (Octet t acc ∧ digits = t.length)

theorem Partial.snoc {digits acc : ℕ} (h : Partial t digits acc) {c : UInt8}
    (hc : IsDigit c) (hlead : ¬(0 < digits ∧ acc = 0)) (hfit : acc * 10 + digitValue c ≤ 255) :
    Partial (t ++ [c]) (digits + 1) (acc * 10 + digitValue c) := by
  rcases h with ⟨rfl, rfl, rfl⟩ | ⟨⟨hne, hdigits, hvalue, -, hzero⟩, rfl⟩
  · refine .inr ⟨⟨by simp, ?_, rfl, hfit, fun _ => rfl⟩, rfl⟩
    intro d hd
    rw [mem_singleton.mp hd]
    exact hc
  refine .inr ⟨⟨by simp, ?_, ?_, hfit, ?_⟩, by simp⟩
  · intro d hd
    rcases mem_append.mp hd with hd | hd
    · exact hdigits d hd
    · rw [mem_singleton.mp hd]
      exact hc
  · rw [decimalFrom_append, hvalue]
    rfl
  · intro hhead
    exfalso
    have hone := hzero (by
      obtain ⟨d, u, rfl⟩ := exists_cons_of_ne_nil hne
      exact hhead)
    obtain ⟨d, rfl⟩ := length_eq_one_iff.mp hone
    have hd : d = mt '0' := by simpa using hhead
    have h0 : acc = 0 := by
      rw [← hvalue, hd]
      decide
    exact hlead ⟨by simp, h0⟩

theorem ip4Loop_sound {src : List UInt8} {vs : List ℕ}
    {digits a : ℕ} (hp : Dotted p vs) (ht : Partial t digits acc) (hlen : vs.length ≤ 3)
    (h : ip4Loop src ⟨vs.length, digits, acc, packed vs⟩ = some a) :
    ∃ q ws o v, Dotted q ws ∧ ws.length = 3 ∧ Octet o v ∧ p ++ t ++ src = q ++ o ∧
      a = packed ws <<< 8 ||| v := by
  induction src generalizing p vs t digits acc with
  | nil =>
    rw [ip4Loop] at h
    split at h
    · cases h
    rename_i hdone
    simp only [not_or] at hdone
    obtain ⟨rfl⟩ := h
    rcases ht with ⟨-, rfl, -⟩ | ⟨ho, -⟩
    · exact absurd rfl hdone.2
    · exact ⟨p, vs, t, acc, hp, by omega, ho, by simp, rfl⟩
  | cons c src ih =>
    rw [ip4Loop] at h
    by_cases hc : mt '0' ≤ c ∧ c ≤ mt '9'
    · rw [if_pos hc] at h
      simp only at h
      split at h
      · cases h
      rename_i hlead
      split at h
      · cases h
      rename_i hfit
      have hnext := ih hp (ht.snoc hc hlead (not_lt.mp hfit)) hlen h
      simpa using hnext
    · rw [if_neg hc] at h
      by_cases hdot : c = mt '.'
      · rw [if_pos hdot] at h
        simp only at h
        split at h
        · cases h
        rename_i hroom
        simp only [not_or] at hroom
        rcases ht with ⟨-, rfl, -⟩ | ⟨ho, -⟩
        · exact absurd rfl hroom.2
        · have hnext := ih (hp.snoc ho) (.inl ⟨rfl, rfl, rfl⟩) (by simp; omega)
            (by simpa [packed] using h)
          simpa [hdot] using hnext
      · rw [if_neg hdot] at h
        cases h

theorem mbsntoip4ad_sound (h : mbsntoip4ad s = some ip) : Quad s ip := by
  rw [mbsntoip4ad, Option.map_eq_some_iff] at h
  obtain ⟨a, hloop, rfl⟩ := h
  obtain ⟨q, ws, o4, v4, hq, hlen, h4, hs, rfl⟩ :=
    ip4Loop_sound .nil (.inl ⟨rfl, rfl, rfl⟩) (Nat.zero_le 3) hloop
  cases hq with
  | nil => cases hlen
  | @snoc q3 vs3 o3 v3 hq3 h3 =>
  cases hq3 with
  | nil => cases hlen
  | @snoc q2 vs2 o2 v2 hq2 h2 =>
  cases hq2 with
  | nil => cases hlen
  | @snoc q1 vs1 o1 v1 hq1 h1 =>
  cases hq1 with
  | snoc _ _ => simp at hlen
  | nil =>
    refine ⟨o1, o2, o3, o4, v1, v2, v3, v4, h1, h2, h3, h4, by simpa using hs, ?_⟩
    exact hton32_octets h2.le h3.le h4.le

/-- `qse_mbsntoip4ad` accepts exactly the dotted quads. -/
theorem mbsntoip4ad_iff : mbsntoip4ad s = some ip ↔ Quad s ip :=
  ⟨mbsntoip4ad_sound, mbsntoip4ad_complete⟩

/-! ## Writing a dotted quad -/

/-- The loop of `__BTOA`, with what it has stored from `sp` on, where `len` characters fit. A digit
that does not fit takes the place of the last one, which takes the place of the one in front. A
byte has at most three digits. -/
def btoaLoop (len : ℕ) : ℕ → ℕ → List UInt8 → List UInt8
  | 0, _, p => p
  | rounds + 1, b, p =>
    let c := UInt8.ofNat (b % 10) + mt '0'
    if len ≤ p.length then
      if p = [] then p
      else
        let p := if 1 < p.length then p.set (p.length - 2) (p.getD (p.length - 1) 0) else p
        let p := p.set (p.length - 1) c
        if 0 < b / 10 then btoaLoop len rounds (b / 10) p else p
    else if 0 < b / 10 then btoaLoop len rounds (b / 10) (p ++ [c])
    else p ++ [c]

def btoa (stop : ℕ) (p : List UInt8) (b : UInt8) : List UInt8 :=
  let sp := btoaLoop (stop - p.length) 3 b.toNat []
  p ++
    if 1 < sp.length then
      (sp.set 0 (sp.getD (sp.length - 1) 0)).set (sp.length - 1) (sp.getD 0 0)
    else sp

def addDot (stop : ℕ) (p : List UInt8) : List UInt8 := if stop ≤ p.length then p else p ++ [mt '.']

/-- `qse_ip4adtombs` for the address `b1.b2.b3.b4`. -/
def ip4adtombs (b1 b2 b3 b4 : UInt8) (size : ℕ) : List UInt8 :=
  if size = 0 then []
  else
    let p := addDot (size - 1) (btoa (size - 1) [] b1)
    let p := addDot (size - 1) (btoa (size - 1) p b2)
    let p := addDot (size - 1) (btoa (size - 1) p b3)
    btoa (size - 1) p b4

theorem btoaLoop_length_le (len rounds b : ℕ) (h : p.length ≤ len) :
    (btoaLoop len rounds b p).length ≤ len := by
  induction rounds generalizing b p with
  | zero => exact h
  | succ rounds ih =>
    rw [btoaLoop]
    dsimp only
    split
    · split
      · exact h
      · have hset {q : List UInt8} (hq : q.length = p.length) (c : UInt8) :
            (q.set (q.length - 1) c).length ≤ len := by
          rw [length_set, hq]
          exact h
        have hmoved : (if 1 < p.length then p.set (p.length - 2) (p.getD (p.length - 1) 0)
            else p).length = p.length := by
          split
          · exact length_set
          · rfl
        split
        · exact ih _ (hset hmoved _)
        · exact hset hmoved _
    · have hpush (c : UInt8) : (p ++ [c]).length ≤ len := by
        rw [length_append, length_singleton]
        omega
      split
      · exact ih _ (hpush _)
      · exact hpush _

theorem btoa_length_le (b : UInt8) (h : p.length ≤ stop) :
    (btoa stop p b).length ≤ stop := by
  have hloop := btoaLoop_length_le (stop - p.length) 3 b.toNat (p := []) (Nat.zero_le _)
  rw [btoa, length_append]
  split
  · rw [length_set, length_set]
    omega
  · omega

theorem addDot_length_le (h : p.length ≤ stop) :
    (addDot stop p).length ≤ stop := by
  rw [addDot]
  split
  · exact h
  · rw [length_append, length_singleton]
    omega

def octetText (b : ℕ) : List UInt8 :=
  let digit n := UInt8.ofNat (n % 10) + mt '0'
  if b < 10 then [digit b]
  else if b < 100 then [digit (b / 10), digit b]
  else [digit (b / 100), digit (b / 10), digit b]

theorem octet_octetText (b : UInt8) : Octet (octetText b.toNat) b.toNat := by
  have hall : ∀ n ∈ range 256, octetText n ≠ [] ∧
      ((octetText n).all fun c => mt '0' ≤ c ∧ c ≤ mt '9') ∧ decimalFrom 0 (octetText n) = n ∧
      ((octetText n).head? = some (mt '0') → (octetText n).length = 1) := by
    decide +kernel
  obtain ⟨hne, hdigits, hvalue, hlead⟩ := hall _ (mem_range.mpr b.toNat_lt)
  have hdigit : ∀ c ∈ octetText b.toNat, mt '0' ≤ c ∧ c ≤ mt '9' :=
    fun c hc => of_decide_eq_true (all_eq_true.mp hdigits c hc)
  exact ⟨hne, hdigit, hvalue, Nat.le_of_lt_succ b.toNat_lt, hlead⟩

theorem btoa_eq (b : UInt8) (h : p.length + 3 ≤ stop) :
    btoa stop p b = p ++ octetText b.toNat := by
  have hb := b.toNat_lt
  have hzero : ¬stop - p.length ≤ 0 := by omega
  have hone : ¬stop - p.length ≤ 1 := by omega
  have htwo : ¬stop - p.length ≤ 2 := by omega
  rw [btoa, octetText]
  by_cases h10 : b.toNat < 10
  · have hrest : ¬0 < b.toNat / 10 := by omega
    simp [btoaLoop, hzero, hrest, h10]
  have hrest : 0 < b.toNat / 10 := by omega
  by_cases h100 : b.toNat < 100
  · have hrest' : ¬0 < b.toNat / 10 / 10 := by omega
    simp [btoaLoop, hzero, hone, hrest, hrest', h10, h100]
  · have hrest' : 100 ≤ b.toNat := by omega
    have hrest'' : ¬1000 ≤ b.toNat := by omega
    simp [btoaLoop, hzero, hone, htwo, hrest, hrest', hrest'', h10, h100, Nat.div_div_eq_div_mul]

theorem addDot_eq (h : p.length < stop) :
    addDot stop p = p ++ [mt '.'] := if_neg (Nat.not_le_of_gt h)

/-- No more is written than the buffer holds, and what is written to a buffer of at least 16
characters is read back as the address. -/
theorem mbsntoip4ad_ip4adtombs (b1 b2 b3 b4 : UInt8) :
    (∀ size, (ip4adtombs b1 b2 b3 b4 size).length ≤ size - 1) ∧
      ∀ more, mbsntoip4ad (ip4adtombs b1 b2 b3 b4 (16 + more)) = some [b1, b2, b3, b4] := by
  constructor
  · intro size
    rw [ip4adtombs]
    split
    · exact Nat.zero_le _
    · exact btoa_length_le b4 (addDot_length_le (btoa_length_le b3 (addDot_length_le
        (btoa_length_le b2 (addDot_length_le (btoa_length_le b1 (Nat.zero_le _)))))))
  · intro more
    have hlen (b : UInt8) : (octetText b.toNat).length ≤ 3 := by
      rw [octetText]
      split
      · exact Nat.le_add_left 1 2
      · split
        · exact Nat.le_add_left 2 1
        · exact le_refl 3
    have h1 := hlen b1
    have h2 := hlen b2
    have h3 := hlen b3
    have hstep {p : List UInt8} (b : UInt8) (h : p.length ≤ 8) :
        addDot (16 + more - 1) (btoa (16 + more - 1) p b) = p ++ octetText b.toNat ++ [mt '.'] := by
      have hb := hlen b
      rw [btoa_eq b (by omega), addDot_eq]
      rw [length_append]
      omega
    have hquad : ip4adtombs b1 b2 b3 b4 (16 + more) = octetText b1.toNat ++ mt '.' ::
        (octetText b2.toNat ++ mt '.' :: (octetText b3.toNat ++ mt '.' :: octetText b4.toNat)) := by
      rw [ip4adtombs, if_neg (by omega)]
      dsimp only
      rw [hstep b1 (Nat.zero_le _), hstep b2, hstep b3, btoa_eq b4]
      · simp only [nil_append, append_assoc, cons_append]
      all_goals
        simp only [length_append, length_nil, length_singleton]
        omega
    rw [hquad]
    refine mbsntoip4ad_complete ⟨_, _, _, _, _, _, _, _, octet_octetText b1, octet_octetText b2,
      octet_octetText b3, octet_octetText b4, rfl, ?_⟩
    simp only [UInt8.ofNat_toNat]

/-- The number `v` followed by the digits `g`. -/
@[grind =] def hexFrom (v : ℕ) (g : List UInt8) : ℕ :=
  g.foldl (fun v c => v * 16 + (xdigit c).getD 0) v

/-- `g` writes the group `v` in hexadecimal. -/
structure Group (g : List UInt8) (v : ℕ) : Prop where
  ne_nil : g ≠ []
  digits : ∀ c ∈ g, (xdigit c).isSome
  value : hexFrom 0 g = v
  le : v ≤ 0xffff

def groupBytes (v : ℕ) : List UInt8 := [UInt8.ofNat (v / 256), UInt8.ofNat (v % 256)]

inductive Groups : List UInt8 → List UInt8 → Prop where
  | one {g : List UInt8} {v : ℕ} (h : Group g v) : Groups g (groupBytes v)
  | cons {g : List UInt8} {v : ℕ} {s bs : List UInt8} (h : Group g v) (rest : Groups s bs) :
      Groups (g ++ mt ':' :: s) (groupBytes v ++ bs)

inductive Units : List UInt8 → List UInt8 → Prop where
  | group {g : List UInt8} {v : ℕ} (h : Group g v) : Units g (groupBytes v)
  | quad {q ip : List UInt8} (h : Quad q ip) : Units q ip
  | cons {g : List UInt8} {v : ℕ} {s bs : List UInt8} (h : Group g v) (rest : Units s bs) :
      Units (g ++ mt ':' :: s) (groupBytes v ++ bs)

def Before (s bs : List UInt8) : Prop := (s = [] ∧ bs = []) ∨ Groups s bs

def Behind (s bs : List UInt8) : Prop := (s = [] ∧ bs = []) ∨ Units s bs

/-- `s1::s2` -/
def gapText (s1 s2 : List UInt8) : List UInt8 := s1 ++ mt ':' :: mt ':' :: s2

/-- The text `s` denotes the address `addr`. -/
inductive Denotes : List UInt8 → List UInt8 → Prop where
  | full {s bs : List UInt8} (h : Units s bs) (hlen : bs.length = 16) : Denotes s bs
  | gap {s1 b1 s2 b2 : List UInt8} (h1 : Before s1 b1) (h2 : Behind s2 b2)
      (hlen : b1.length + b2.length < 16) :
      Denotes (gapText s1 s2) (b1 ++ List.replicate (16 - (b1.length + b2.length)) 0 ++ b2)

/-- Eight groups, and a `::` that stands for no group. -/
def Crowded (s : List UInt8) : Prop :=
  ∃ s1 b1 s2 b2, Before s1 b1 ∧ Behind s2 b2 ∧ b1.length + b2.length = 16 ∧ s = gapText s1 s2

def Opened (p bs : List UInt8) : Prop :=
  (p = [] ∧ bs = []) ∨ ∃ s, Groups s bs ∧ p = s ++ [mt ':']

/-- Groups, each followed by a colon, and perhaps a `::` before, between or
behind them. -/
inductive Heading : List UInt8 → List UInt8 → Option ℕ → Prop where
  | plain {p bs : List UInt8} (h : Opened p bs) : Heading p bs none
  | gap {s1 b1 p bs : List UInt8} (h1 : Before s1 b1) (h : Opened p bs) :
      Heading (gapText s1 p) (b1 ++ bs) (some b1.length)

/-- Eight groups, perhaps with a `::`, a ninth group, a colon and more. -/
def Overrun (s : List UInt8) : Prop :=
  ∃ p bs gap g v rest, Heading p bs gap ∧ bs.length = 16 ∧ Group g v ∧ rest ≠ [] ∧
    s = p ++ (g ++ mt ':' :: rest)

theorem hexFrom_append (v : ℕ) (g h : List UInt8) :
    hexFrom v (g ++ h) = hexFrom (hexFrom v g) h := foldl_append

theorem le_hexFrom (v : ℕ) (g : List UInt8) : v ≤ hexFrom v g := by
  induction g generalizing v with
  | nil => exact le_refl v
  | cons c g ih =>
    have hstep := ih (v * 16 + (xdigit c).getD 0)
    rw [hexFrom, foldl_cons]
    rw [hexFrom] at hstep
    omega

theorem groupBytes_length (v : ℕ) : (groupBytes v).length = 2 := rfl

variable {s bs p : List UInt8}

theorem Groups.two_dvd (h : Groups s bs) : 2 ∣ bs.length := by
  induction h with
  | one => exact Nat.dvd_refl 2
  | cons _ _ ih => rw [length_append, groupBytes_length]; omega

theorem Opened.two_dvd (h : Opened p bs) : 2 ∣ bs.length := by
  rcases h with ⟨-, rfl⟩ | ⟨s, h, -⟩
  · exact Nat.dvd_zero 2
  · exact h.two_dvd

theorem Before.two_dvd (h : Before s bs) : 2 ∣ bs.length := by
  rcases h with ⟨-, rfl⟩ | h
  · exact Nat.dvd_zero 2
  · exact h.two_dvd

theorem Heading.two_dvd {gap : Option ℕ} (h : Heading p bs gap) : 2 ∣ bs.length := by
  cases h with
  | plain h => exact h.two_dvd
  | gap h1 h =>
    rw [length_append]
    exact Nat.dvd_add h1.two_dvd h.two_dvd

theorem Groups.snoc {s bs : List UInt8} (h : Groups s bs) (hg : Group g v) :
    Groups (s ++ mt ':' :: g) (bs ++ groupBytes v) := by
  induction h with
  | one h => exact .cons h (.one hg)
  | cons h _ ih =>
    rw [append_assoc, append_assoc, cons_append]
    exact .cons h ih

theorem Groups.units {tb : List UInt8} (h : Groups s bs) (ht : Units t tb) :
    Units (s ++ mt ':' :: t) (bs ++ tb) := by
  induction h with
  | one h => exact .cons h ht
  | cons h _ ih =>
    rw [append_assoc, append_assoc, cons_append]
    exact .cons h ih

theorem Opened.groups (h : Opened p bs) (hg : Group g v) :
    Groups (p ++ g) (bs ++ groupBytes v) := by
  rcases h with ⟨rfl, rfl⟩ | ⟨s, h, rfl⟩
  · exact .one hg
  · rw [append_assoc, singleton_append]
    exact h.snoc hg

theorem Opened.units {tb : List UInt8} (h : Opened p bs) (ht : Units t tb) :
    Units (p ++ t) (bs ++ tb) := by
  rcases h with ⟨rfl, rfl⟩ | ⟨s, h, rfl⟩
  · exact ht
  · rw [append_assoc, singleton_append]
    exact h.units ht

theorem Opened.snoc {bs : List UInt8} (h : Opened p bs) (hg : Group g v) :
    Opened (p ++ (g ++ [mt ':'])) (bs ++ groupBytes v) := by
  refine .inr ⟨p ++ g, h.groups hg, ?_⟩
  rw [append_assoc]

theorem Heading.snoc {bs : List UInt8} {gap : Option ℕ} (h : Heading p bs gap)
    (hg : Group g v) : Heading (p ++ (g ++ [mt ':'])) (bs ++ groupBytes v) gap := by
  cases h with
  | plain h => exact .plain (h.snoc hg)
  | gap h1 h =>
    rw [append_assoc, gapText, append_assoc, cons_append, cons_append]
    exact .gap h1 (h.snoc hg)

end Qse.Ipad
