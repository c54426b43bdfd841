import Qse.Http.Header
import Qse.Support.ByteMemory

/-!
# Percent-encoded strings

A translation of `qse_isperencedhttpstr`, `qse_perdechttpstr`, `qse_perenchttpstr` and
`qse_perenchttpstrdup` in `lib/http/http.c`. They read and write the memory itself, since a string
may be decoded in place. A loop has fuel, which is enough if it is more than the length of the
string.
-/

open Function List Option

namespace Qse.Http.Percent

open ByteMemory

/-! ## The functions -/

def perencedAt (m : Mem) (p : ℕ) : Option ℕ :=
  if m p = mt '%' ∧ m (p + 1) ≠ 0 ∧ m (p + 2) ≠ 0 then
    match xdigitToNum (m (p + 1)) with
    | none => none
    | some q =>
      match xdigitToNum (m (p + 2)) with
      | none => none
      | some w => some ((q <<< 4) + w)
  else none

def isperencedhttpstr (m : Mem) : ℕ → ℕ → Option ℤ
  | 0, _ => none
  | fuel + 1, p =>
    if m p = 0 then some 1
    else if (perencedAt m p).isSome then some 1
    else isperencedhttpstr m fuel (p + 1)

/-- The loop of `qse_perdechttpstr`: the memory, the end of what is written, and `dec_count`. -/
def perdecLoop : ℕ → Mem → ℕ → ℕ → ℕ → Option (Mem × ℕ × ℕ)
  | 0, _, _, _, _ => none
  | fuel + 1, m, p, out, count =>
    if m p = 0 then some (m, out, count)
    else
      match perencedAt m p with
      | some n =>
        perdecLoop fuel (update m out (UInt8.ofNat n)) (p + 3) (out + 1) (count + 1)
      | none => perdecLoop fuel (update m out (m p)) (p + 1) (out + 1) count

/-- `qse_perdechttpstr`: the memory, the length, and `*ndecs`. -/
def perdechttpstr (fuel : ℕ) (m : Mem) (str buf : ℕ) : Option (Mem × ℕ × ℕ) :=
  (perdecLoop fuel m str buf 0).map fun r => (update r.1 r.2.1 0, r.2.1 - buf, r.2.2)

def isUnreserved (c : UInt8) : Bool :=
  (mt 'A' ≤ c && c ≤ mt 'Z') || (mt 'a' ≤ c && c ≤ mt 'z') || (mt '0' ≤ c && c ≤ mt '9') ||
    c == mt '-' || c == mt '_' || c == mt '.' || c == mt '~'

/-- `TO_HEX`; the last four bits of a number in two's complement are its rest modulo 16. -/
def toHex (v : ℤ) : UInt8 := (octets "0123456789ABCDEF").getD (v % 16).toNat 0

/-- A character as an `int`; the type of characters is signed. -/
def promoted (c : UInt8) : ℤ := c.toInt8.toInt

def isKept (keepSlash : Bool) (c : UInt8) : Bool := isUnreserved c || (keepSlash && c == mt '/')

/-- The loops of `qse_perenchttpstr`: the memory, the end of what is written, and `enc_count`. -/
def perencLoop (keepSlash : Bool) : ℕ → Mem → ℕ → ℕ → ℕ → Option (Mem × ℕ × ℕ)
  | 0, _, _, _, _ => none
  | fuel + 1, m, p, out, count =>
    if m p = 0 then some (m, out, count)
    else if isKept keepSlash (m p) then
      perencLoop keepSlash fuel (update m out (m p)) (p + 1) (out + 1) count
    else
      let m1 := update m out (mt '%')
      let m2 := update m1 (out + 1) (toHex (promoted (m1 p) >>> (4 : ℕ)))
      let m3 := update m2 (out + 2) (toHex (promoted (m2 p) % 16))
      perencLoop keepSlash fuel m3 (p + 1) (out + 3) (count + 1)

/-- `qse_perenchttpstr`: the memory, the length, and `*nencs`. -/
def perenchttpstr (keepSlash : Bool) (fuel : ℕ) (m : Mem) (str buf : ℕ) : Option (Mem × ℕ × ℕ) :=
  (perencLoop keepSlash fuel m str buf 0).map fun r =>
    (update r.1 r.2.1 0, r.2.1 - buf, r.2.2)

/-- The loops of `qse_perenchttpstrdup` that count: `len` and `count`. -/
def countLoop (keepSlash : Bool) (m : Mem) (str : ℕ) : ℕ → ℕ → ℕ → Option (ℕ × ℕ)
  | 0, _, _ => none
  | fuel + 1, len, count =>
    if m (str + len) = 0 then some (len, count)
    else if isKept keepSlash (m (str + len)) then countLoop keepSlash m str fuel (len + 1) count
    else countLoop keepSlash m str fuel (len + 1) (count + 1)

/-- `qse_perenchttpstrdup`: the memory and what is returned. `alloc` is the block that is given for
a size, if there is one. -/
def perenchttpstrdup (keepSlash : Bool) (fuel : ℕ) (m : Mem) (str : ℕ) (alloc : ℕ → Option ℕ) :
    Option (Mem × Option ℕ) :=
  (countLoop keepSlash m str fuel 0 0).bind fun r =>
    if r.2 = 0 then some (m, some str)
    else
      match alloc (r.1 + r.2 * 2 + 1) with
      | none => some (m, none)
      | some buf => (perenchttpstr keepSlash fuel m str buf).map fun r => (r.1, some buf)

def perenced : List UInt8 → Option ℕ
  | c :: q :: w :: _ =>
    if c = mt '%' then
      (xdigitToNum q).bind fun q => (xdigitToNum w).map fun w => (q <<< 4) + w
    else none
  | _ => none

def perdec : List UInt8 → List UInt8 × ℕ
  | [] => ([], 0)
  | c :: s =>
    match perenced (c :: s) with
    | some n => (UInt8.ofNat n :: (perdec (s.drop 2)).1, (perdec (s.drop 2)).2 + 1)
    | none => (c :: (perdec s).1, (perdec s).2)
termination_by s => s.length
decreasing_by all_goals simp only [length_cons, length_drop]; omega

def perencChar (keepSlash : Bool) (c : UInt8) : List UInt8 :=
  if isKept keepSlash c then [c]
  else [mt '%', toHex (promoted c >>> (4 : ℕ)), toHex (promoted c % 16)]

def perenc (keepSlash : Bool) (s : List UInt8) : List UInt8 := s.flatMap (perencChar keepSlash)

def encodings (keepSlash : Bool) (s : List UInt8) : ℕ := s.countP fun c => !isKept keepSlash c

variable {m : Mem} {p out fuel count : ℕ} {s : List UInt8} {c : UInt8} {keepSlash : Bool}

theorem toHex_spec (n : Fin 16) : xdigitToNum (toHex n.val) = some n.val ∧ toHex n.val ≠ 0 := by
  revert n
  decide

theorem xdigitToNum_toHex (v : ℤ) : xdigitToNum (toHex v) = some (v % 16).toNat := by
  have hlt : (v % 16).toNat < 16 := by omega
  have hnat : ((v % 16).toNat : ℤ) % 16 = v % 16 := by omega
  have hspec := (toHex_spec ⟨(v % 16).toNat, hlt⟩).1
  simp only [toHex, hnat] at hspec ⊢
  exact hspec

theorem toHex_ne_zero (v : ℤ) : toHex v ≠ 0 := by
  have hlt : (v % 16).toNat < 16 := by omega
  have hnat : ((v % 16).toNat : ℤ) % 16 = v % 16 := by omega
  have hspec := (toHex_spec ⟨(v % 16).toNat, hlt⟩).2
  simp only [toHex, hnat] at hspec ⊢
  exact hspec

theorem promoted_eq (c : UInt8) :
    promoted c = if c.toNat < 128 then (c.toNat : ℤ) else c.toNat - 256 := by
  have hlt := c.toNat_lt
  have hint : promoted c = c.toBitVec.toInt := rfl
  rw [hint, BitVec.toInt_eq_toNat_cond]
  change (if 2 * c.toNat < 2 ^ 8 then (c.toNat : ℤ) else c.toNat - (2 ^ 8 : ℕ)) = _
  by_cases hlow : c.toNat < 128
  · rw [if_pos hlow, if_pos (by omega)]
  · rw [if_neg hlow, if_neg (by omega)]
    rfl

theorem digits_eq (c : UInt8) :
    ((promoted c >>> (4 : ℕ)) % 16).toNat <<< 4 + (promoted c % 16 % 16).toNat = c.toNat := by
  have hlt := c.toNat_lt
  rw [Int.shiftRight_eq_div_pow, Nat.shiftLeft_eq, promoted_eq]
  by_cases hlow : c.toNat < 128
  · rw [if_pos hlow]
    omega
  · rw [if_neg hlow]
    omega

theorem perenced_char (c : UInt8) (t : List UInt8) :
    perenced (mt '%' :: toHex (promoted c >>> (4 : ℕ)) :: toHex (promoted c % 16) :: t) =
      some c.toNat := by
  rw [perenced, if_pos rfl, xdigitToNum_toHex, xdigitToNum_toHex]
  simp only [bind_some, map_some, digits_eq]

theorem perenced_of_ne {t : List UInt8} (hc : c ≠ mt '%') : perenced (c :: t) = none := by
  rcases t with _ | ⟨q, _ | ⟨w, t⟩⟩
  · rfl
  · rfl
  · rw [perenced, if_neg hc]

theorem ne_percent (hkept : isKept keepSlash c = true) : c ≠ mt '%' := by
  rintro rfl
  revert hkept
  cases keepSlash <;> decide

/-! ## Strings -/

theorem perencedAt_eq (hs : CStr m p s) : perencedAt m p = perenced s := by
  rcases s with _ | ⟨c, _ | ⟨q, _ | ⟨w, s⟩⟩⟩
  · have hnull : m p = 0 := hs
    rw [perencedAt, if_neg, perenced]
    · simp
    · rintro ⟨hpercent, -⟩
      rw [hnull] at hpercent
      exact absurd hpercent (by decide)
  · have hnull : m (p + 1) = 0 := hs.2.2
    rw [perencedAt, if_neg, perenced]
    · simp
    · rintro ⟨-, hq, -⟩
      exact hq hnull
  · have hnull : m (p + 2) = 0 := hs.2.2.2.2
    rw [perencedAt, if_neg, perenced]
    · simp
    · rintro ⟨-, -, hw⟩
      exact hw hnull
  · obtain ⟨-, hc, hq0, hq, hw0, hw, -⟩ := hs
    have hw' : m (p + 2) = w := hw
    rw [perencedAt, perenced, hc, hq, hw']
    by_cases hpercent : c = mt '%'
    · rw [if_pos ⟨hpercent, hq0, hw0⟩, if_pos hpercent]
      cases xdigitToNum q with
      | none => rfl
      | some q =>
        cases xdigitToNum w with
        | none | some w => rfl
    · rw [if_neg hpercent, if_neg]
      rintro ⟨h, -⟩
      exact hpercent h

variable {n : ℕ}

theorem perenced_cases (hn : perenced (c :: s) = some n) : ∃ q w rest, s = q :: w :: rest := by
  rcases s with _ | ⟨q, _ | ⟨w, rest⟩⟩
  · cases hn
  · cases hn
  · exact ⟨q, w, rest, rfl⟩

theorem perdec_some (hn : perenced (c :: s) = some n) :
    perdec (c :: s) = (UInt8.ofNat n :: (perdec (s.drop 2)).1, (perdec (s.drop 2)).2 + 1) := by
  rw [perdec, hn]

theorem perdec_none (hn : perenced (c :: s) = none) :
    perdec (c :: s) = (c :: (perdec s).1, (perdec s).2) := by
  rw [perdec, hn]

theorem perdec_append (c : UInt8) (t : List UInt8) :
    perdec (perencChar keepSlash c ++ t) =
      (c :: (perdec t).1, (perdec t).2 + if isKept keepSlash c then 0 else 1) := by
  by_cases hkept : isKept keepSlash c = true
  · rw [perencChar, if_pos hkept, if_pos hkept, singleton_append,
      perdec_none (perenced_of_ne (ne_percent hkept)), add_zero]
  · rw [perencChar, if_neg hkept, if_neg hkept]
    exact (perdec_some (perenced_char c t)).trans (by simp)

theorem perdec_perenc (keepSlash : Bool) (s : List UInt8) :
    perdec (perenc keepSlash s) = (s, encodings keepSlash s) := by
  induction s with
  | nil => simp [perenc, perdec, encodings]
  | cons c s ih =>
    have hcons : perenc keepSlash (c :: s) = perencChar keepSlash c ++ perenc keepSlash s :=
      flatMap_cons
    rw [hcons, perdec_append, ih, encodings, encodings, countP_cons]
    cases isKept keepSlash c <;> rfl

theorem length_perenc (keepSlash : Bool) (s : List UInt8) :
    (perenc keepSlash s).length = s.length + 2 * encodings keepSlash s := by
  induction s with
  | nil => rfl
  | cons c s ih =>
    have hcons : perenc keepSlash (c :: s) = perencChar keepSlash c ++ perenc keepSlash s :=
      flatMap_cons
    rw [hcons, length_append, ih, encodings, encodings, countP_cons, perencChar]
    cases isKept keepSlash c <;> simp <;> omega

theorem perenc_eq_self (hnone : encodings keepSlash s = 0) : perenc keepSlash s = s := by
  induction s with
  | nil => rfl
  | cons c s ih =>
    rw [encodings, countP_cons] at hnone
    have hkept : isKept keepSlash c = true := by
      by_contra hnot
      simp [hnot] at hnone
    have hrest : encodings keepSlash s = 0 := by
      rw [encodings]
      omega
    have hcons : perenc keepSlash (c :: s) = perencChar keepSlash c ++ perenc keepSlash s :=
      flatMap_cons
    rw [hcons, ih hrest, perencChar, if_pos hkept, singleton_append]

theorem ne_zero_of_mem_perenc (hs : 0 ∉ s) (hc : c ∈ perenc keepSlash s) : c ≠ 0 := by
  obtain ⟨d, hd, hcd⟩ := mem_flatMap.mp hc
  rw [perencChar] at hcd
  split at hcd
  · rintro rfl
    obtain rfl := mem_singleton.mp hcd
    exact hs hd
  · simp only [mem_cons, not_mem_nil, or_false] at hcd
    rcases hcd with rfl | rfl | rfl
    · decide
    · exact toHex_ne_zero _
    · exact toHex_ne_zero _

/-! ## Loops -/

theorem exists_triple (hs : CStr m p (c :: s)) (hn : perenced (c :: s) = some n) :
    CStr m (p + 3) (s.drop 2) ∧ s.length = (s.drop 2).length + 2 := by
  obtain ⟨q, w, rest, rfl⟩ := perenced_cases hn
  exact ⟨hs.2.2.2.2.2.2, rfl⟩

theorem perdecLoop_eq (hs : CStr m p s) (hfuel : s.length < fuel)
    (hout : out ≤ p ∨ p + s.length < out) :
    ∃ m', perdecLoop fuel m p out count =
        some (m', out + (perdec s).1.length, count + (perdec s).2) ∧
      read m' out (perdec s).1.length = (perdec s).1 ∧
      ∀ i, i < out ∨ out + (perdec s).1.length ≤ i → m' i = m i := by
  induction fuel generalizing m p out count s with
  | zero => omega
  | succ fuel ih =>
    cases s with
    | nil =>
      have hnull : m p = 0 := hs
      refine ⟨m, ?_, ?_, fun i _ => rfl⟩
      · simp [perdecLoop, hnull, perdec]
      · simp [perdec, ByteMemory.read]
    | cons c s =>
      obtain ⟨hc, hp, hrest⟩ := id hs
      rw [length_cons] at hfuel hout
      have hne : m p ≠ 0 := by rwa [hp]
      rw [perdecLoop, if_neg hne, perencedAt_eq hs]
      cases hn : perenced (c :: s) with
      | some n =>
        obtain ⟨htail, hlength⟩ := exists_triple hs hn
        have hout' : out + 1 ≤ p + 3 ∨ p + 3 + (s.drop 2).length < out + 1 := by omega
        obtain ⟨m', hrun, hread, hsame⟩ := @ih _ _ _ (count + 1) _
          (htail.update (i := out) (c := UInt8.ofNat n) (by omega)) (by omega) hout'
        refine ⟨m', ?_, ?_, ?_⟩
        · simp only [hrun, perdec_some hn, length_cons]
          congr 3 <;> omega
        · rw [perdec_some hn, length_cons, read_succ, hread,
            hsame out (.inl (by omega)), update_self]
        · intro i hi
          rw [perdec_some hn, length_cons] at hi
          rw [hsame i (by omega), update_of_ne (by omega)]
      | none =>
        have hout' : out + 1 ≤ p + 1 ∨ p + 1 + s.length < out + 1 := by omega
        obtain ⟨m', hrun, hread, hsame⟩ := @ih _ _ _ count _
          (hrest.update (i := out) (c := m p) (by omega)) (by omega) hout'
        refine ⟨m', ?_, ?_, ?_⟩
        · simp only [hrun, perdec_none hn, length_cons]
          congr 3
          omega
        · rw [perdec_none hn, length_cons, read_succ, hread,
            hsame out (.inl (by omega)), update_self, hp]
        · intro i hi
          rw [perdec_none hn, length_cons] at hi
          rw [hsame i (by omega), update_of_ne (by omega)]

theorem perdechttpstr_eq (hs : CStr m p s) (hfuel : s.length < fuel)
    (hout : out ≤ p ∨ p + s.length < out) :
    ∃ m', perdechttpstr fuel m p out = some (m', (perdec s).1.length, (perdec s).2) ∧
      read m' out ((perdec s).1.length + 1) = (perdec s).1 ++ [0] := by
  obtain ⟨m', hrun, hread, -⟩ := @perdecLoop_eq _ _ _ _ 0 _ hs hfuel hout
  refine ⟨update m' (out + (perdec s).1.length) 0, ?_, ?_⟩
  · rw [perdechttpstr, hrun, map_some, Nat.add_sub_cancel_left, zero_add]
  · rw [read_add, read_succ, update_self]
    congr 1
    refine (read_congr ?_).trans hread
    intro i hlo hhi
    exact update_of_ne (by omega) _ _

theorem read_three (m : Mem) (a : ℕ) (x y z : UInt8) :
    read (update (update (update m a x) (a + 1) y) (a + 2) z) a 3 = [x, y, z] := by
  have hx : update (update (update m a x) (a + 1) y) (a + 2) z a = x := by
    rw [update_of_ne (by omega), update_of_ne (by omega), update_self]
  have hy : update (update (update m a x) (a + 1) y) (a + 2) z (a + 1) = y := by
    rw [update_of_ne (by omega), update_self]
  rw [read_succ, read_succ, read_succ, hx, hy, update_self]
  rfl

theorem perencLoop_eq (hs : CStr m p s) (hfuel : s.length < fuel)
    (hout : out + (perenc keepSlash s).length < p ∨ p + s.length < out) :
    ∃ m', perencLoop keepSlash fuel m p out count =
        some (m', out + (perenc keepSlash s).length, count + encodings keepSlash s) ∧
      read m' out (perenc keepSlash s).length = perenc keepSlash s ∧
      ∀ i, i < out ∨ out + (perenc keepSlash s).length ≤ i → m' i = m i := by
  induction fuel generalizing m p out count s with
  | zero => omega
  | succ fuel ih =>
    cases s with
    | nil =>
      have hnull : m p = 0 := hs
      refine ⟨m, ?_, ?_, fun i _ => rfl⟩
      · simp [perencLoop, hnull, perenc, encodings]
      · simp [perenc, ByteMemory.read]
    | cons c s =>
      obtain ⟨hc, hp, hrest⟩ := hs
      have hcons : perenc keepSlash (c :: s) = perencChar keepSlash c ++ perenc keepSlash s :=
        flatMap_cons
      rw [hcons, length_append, length_cons] at hout
      rw [length_cons] at hfuel
      have hne : m p ≠ 0 := by rwa [hp]
      rw [perencLoop, if_neg hne, hcons, length_append, encodings, countP_cons]
      by_cases hkept : isKept keepSlash c = true
      · have hchar : perencChar keepSlash c = [c] := if_pos hkept
        rw [hchar] at hout ⊢
        rw [length_singleton] at hout
        have hout' : out + 1 + (perenc keepSlash s).length < p + 1 ∨
            p + 1 + s.length < out + 1 := by omega
        obtain ⟨m', hrun, hread, hsame⟩ := @ih _ _ _ count _
          (hrest.update (i := out) (c := m p) (by omega)) (by omega) hout'
        refine ⟨m', ?_, ?_, ?_⟩
        · rw [hp] at hrun ⊢
          rw [if_pos hkept, hrun, encodings, hkept]
          simp [add_assoc]
        · rw [length_singleton, read_add, hread, read_succ,
            hsame out (.inl (by omega)), update_self, hp]
          rfl
        · intro i hi
          rw [length_singleton] at hi
          rw [hsame i (by omega), update_of_ne (by omega)]
      · have hchar : perencChar keepSlash c =
            [mt '%', toHex (promoted c >>> (4 : ℕ)), toHex (promoted c % 16)] := if_neg hkept
        rw [hchar] at hout ⊢
        have hthree :
            [mt '%', toHex (promoted c >>> (4 : ℕ)), toHex (promoted c % 16)].length = 3 :=
          rfl
        rw [hthree] at hout ⊢
        have hout' : out + 3 + (perenc keepSlash s).length < p + 1 ∨
            p + 1 + s.length < out + 3 := by omega
        have hp1 : update m out (mt '%') p = c := by
          rw [update_of_ne (by omega), hp]
        have hp2 (b : UInt8) : update (update m out (mt '%')) (out + 1) b p = c := by
          rw [update_of_ne (by omega), hp1]
        obtain ⟨m', hrun, hread, hsame⟩ := @ih _ _ _ (count + 1) _
          (((hrest.update (i := out) (c := mt '%') (by omega)).update (i := out + 1)
            (c := toHex (promoted c >>> (4 : ℕ))) (by omega)).update (i := out + 2)
            (c := toHex (promoted c % 16)) (by omega)) (by omega) hout'
        refine ⟨m', ?_, ?_, ?_⟩
        · simp only [hp, if_neg hkept, hp1, hp2, hrun, encodings]
          simp only [hkept, Bool.not_false, if_true, some.injEq, Prod.mk.injEq, true_and]
          omega
        · rw [read_add, hread]
          congr 1
          exact (read_congr fun i _ hi => hsame i (.inl hi)).trans (read_three m out _ _ _)
        · intro i hi
          rw [hsame i (by omega), update_of_ne (by omega),
            update_of_ne (by omega), update_of_ne (by omega)]

theorem perenchttpstr_eq (hs : CStr m p s) (hfuel : s.length < fuel)
    (hout : out + (perenc keepSlash s).length < p ∨ p + s.length < out) :
    ∃ m', perenchttpstr keepSlash fuel m p out =
        some (m', (perenc keepSlash s).length, encodings keepSlash s) ∧
      CStr m' out (perenc keepSlash s) ∧
      ∀ i, i < out ∨ out + (perenc keepSlash s).length < i → m' i = m i := by
  obtain ⟨m', hrun, hread, hsame⟩ := @perencLoop_eq _ _ _ _ 0 _ keepSlash hs hfuel hout
  refine ⟨update m' (out + (perenc keepSlash s).length) 0, ?_, ?_, ?_⟩
  · rw [perenchttpstr, hrun, map_some, Nat.add_sub_cancel_left, zero_add]
  · apply CStr.of_read
    · exact fun c hc => ne_zero_of_mem_perenc hs.ne_zero hc
    · refine (read_congr ?_).trans hread
      intro i hlo hhi
      exact update_of_ne (by omega) _ _
    · exact update_self _ _ _
  · intro i hi
    rw [update_of_ne (by omega), hsame i (by omega)]

theorem countLoop_eq {len : ℕ} (hs : CStr m (p + len) s) (hfuel : s.length < fuel) :
    countLoop keepSlash m p fuel len count =
      some (len + s.length, count + encodings keepSlash s) := by
  induction fuel generalizing len count s with
  | zero => omega
  | succ fuel ih =>
    cases s with
    | nil =>
      have hnull : m (p + len) = 0 := hs
      rw [countLoop, if_pos hnull]
      rfl
    | cons c s =>
      obtain ⟨hc, hp, hrest⟩ := hs
      rw [length_cons] at hfuel
      have hne : m (p + len) ≠ 0 := by rwa [hp]
      have hcount : encodings keepSlash (c :: s) =
          encodings keepSlash s + if !isKept keepSlash c then 1 else 0 := countP_cons
      rw [countLoop, if_neg hne, hp, ih hrest (by omega), ih hrest (by omega), hcount, length_cons]
      by_cases hkept : isKept keepSlash c = true
      · rw [if_pos hkept, hkept, add_assoc, add_comm 1]
        rfl
      · rw [if_neg hkept]
        simp only [hkept, Bool.not_false, if_true, some.injEq, Prod.mk.injEq]
        omega

/-! ## Round trips -/

theorem perenchttpstrdup_eq {alloc : ℕ → Option ℕ} (hs : CStr m p s) (hfuel : s.length < fuel)
    (halloc : ∀ size buf, alloc size = some buf → buf + size ≤ p ∨ p + s.length < buf) :
    ∃ m' r, perenchttpstrdup keepSlash fuel m p alloc = some (m', r) ∧
      (r = none → alloc ((perenc keepSlash s).length + 1) = none) ∧
      ∀ buf, r = some buf → CStr m' buf (perenc keepSlash s) ∧
        (buf = p ∧ m' = m ∨ alloc ((perenc keepSlash s).length + 1) = some buf ∧
          ∀ i, i < buf ∨ buf + ((perenc keepSlash s).length + 1) ≤ i → m' i = m i) := by
  have hcount : countLoop keepSlash m p fuel 0 0 = some (s.length, encodings keepSlash s) := by
    rw [countLoop_eq hs hfuel, zero_add, zero_add]
  have hsize : s.length + encodings keepSlash s * 2 + 1 = (perenc keepSlash s).length + 1 := by
    rw [length_perenc, mul_comm]
  rw [perenchttpstrdup, hcount, bind_some]
  by_cases hnone : encodings keepSlash s = 0
  · refine ⟨m, some p, if_pos hnone, by simp, ?_⟩
    rintro buf ⟨⟩
    rw [perenc_eq_self hnone]
    exact ⟨hs, .inl ⟨rfl, rfl⟩⟩
  rw [if_neg hnone, hsize]
  cases hblock : alloc ((perenc keepSlash s).length + 1) with
  | none => exact ⟨m, none, rfl, fun _ => rfl, by simp⟩
  | some buf =>
    have happart := halloc _ _ hblock
    obtain ⟨m', hrun, hstr, hsame⟩ := @perenchttpstr_eq m p buf fuel s keepSlash hs hfuel
      (by omega)
    refine ⟨m', some buf, ?_, by simp, ?_⟩
    · simp only [hrun, map_some]
    · rintro buf' ⟨⟩
      exact ⟨hstr, .inr ⟨rfl, fun i hi => hsame i (by omega)⟩⟩

/-- A string that is encoded to a place apart from it is decoded again from there, with one decoding
for each character encoded; its copy holds the string encoded; and decoded in place it is what it is
when it is decoded to another place. -/
theorem perenced_decoded (hs : CStr m p s) (hfuel : s.length < fuel) :
    (∀ out, out + (perenc keepSlash s).length < p ∨ p + s.length < out →
      ∃ m', perenchttpstr keepSlash fuel m p out =
          some (m', (perenc keepSlash s).length, encodings keepSlash s) ∧
        ∀ buf fuel', buf ≤ out ∨ out + (perenc keepSlash s).length < buf →
          (perenc keepSlash s).length < fuel' →
          ∃ m'', perdechttpstr fuel' m' out buf = some (m'', s.length, encodings keepSlash s) ∧
            CStr m'' buf s) ∧
    (∀ alloc : ℕ → Option ℕ,
      (∀ size buf, alloc size = some buf → buf + size ≤ p ∨ p + s.length < buf) →
      ∃ m' r, perenchttpstrdup keepSlash fuel m p alloc = some (m', r) ∧
        (r = none → alloc ((perenc keepSlash s).length + 1) = none) ∧
        ∀ buf, r = some buf → CStr m' buf (perenc keepSlash s) ∧
          (buf = p ∧ m' = m ∨ alloc ((perenc keepSlash s).length + 1) = some buf ∧
            ∀ i, i < buf ∨ buf + ((perenc keepSlash s).length + 1) ≤ i → m' i = m i)) ∧
    ∀ out, out + s.length < p ∨ p + s.length < out →
      ∃ m' m'' n count, perdechttpstr fuel m p p = some (m', n, count) ∧
        perdechttpstr fuel m p out = some (m'', n, count) ∧
        read m' p (n + 1) = read m'' out (n + 1) := by
  refine ⟨?_, ?_, ?_⟩
  · intro out hout
    obtain ⟨m', hrun, hstr, -⟩ := perenchttpstr_eq hs hfuel hout
    refine ⟨m', hrun, ?_⟩
    intro buf fuel' hbuf hfuel'
    obtain ⟨m'', hrun', hread⟩ := perdechttpstr_eq hstr hfuel' hbuf
    rw [perdec_perenc] at hrun' hread
    refine ⟨m'', hrun', ?_⟩
    rw [read_add] at hread
    obtain ⟨hread, hend⟩ := append_inj' hread rfl
    apply CStr.of_read
    · rintro c hc rfl
      exact hs.ne_zero hc
    · exact hread
    · exact singleton_inj.mp hend
  · exact fun alloc halloc => perenchttpstrdup_eq hs hfuel halloc
  · intro out hout
    obtain ⟨m', hrun, hread⟩ := perdechttpstr_eq hs hfuel (.inl (le_refl p))
    obtain ⟨m'', hrun', hread'⟩ := @perdechttpstr_eq m p out fuel s hs hfuel (by omega)
    exact ⟨m', m'', _, _, hrun, hrun', hread.trans hread'.symm⟩

def cstrAt (s : List UInt8) : Mem := fun i => s.getD i 0

theorem cstr_cstrAt (hs : 0 ∉ s) : CStr (cstrAt s) 0 s := by
  apply CStr.of_read
  · rintro c hc rfl
    exact hs hc
  · apply ext_getElem
    · exact length_read _ _ _
    · intro i hi hi'
      simp [ByteMemory.read, cstrAt, hi']
  · simp [cstrAt]

/-- The string `a/ b` with an octet that is not ASCII. -/
theorem perenced_decoded_slash :
    ∃ m', perenchttpstr true 6 (cstrAt [97, 47, 32, 98, 200]) 0 9 =
        some (m', (perenc true [97, 47, 32, 98, 200]).length, encodings true [97, 47, 32, 98,
          200]) ∧
      ∀ buf fuel', buf ≤ 9 ∨ 9 + (perenc true [97, 47, 32, 98, 200]).length < buf →
        (perenc true [97, 47, 32, 98, 200]).length < fuel' →
        ∃ m'', perdechttpstr fuel' m' 9 buf = some (m'', 5, 2) ∧
          CStr m'' buf [97, 47, 32, 98, 200] :=
  (perenced_decoded (cstr_cstrAt (by decide)) (by decide)).1 9 (.inr (by decide))

/-- A string has `%` and two digits somewhere. -/
def HasTriple : List UInt8 → Prop
  | [] => False
  | c :: s => (perenced (c :: s)).isSome ∨ HasTriple s

theorem isperencedhttpstr_eq (hs : CStr m p s) (hfuel : s.length < fuel) :
    isperencedhttpstr m fuel p = some 1 := by
  induction fuel generalizing p s with
  | zero => omega
  | succ fuel ih =>
    rw [isperencedhttpstr]
    cases s with
    | nil => exact if_pos hs
    | cons c s =>
      obtain ⟨-, -, hrest⟩ := hs
      rw [length_cons] at hfuel
      rw [ih hrest (by omega), ite_self, ite_self]

theorem perdec_pos_iff (s : List UInt8) : 0 < (perdec s).2 ↔ HasTriple s := by
  induction s using perdec.induct with
  | case1 => simp [perdec, HasTriple]
  | case2 c s n hn ih =>
    rw [perdec_some hn, HasTriple, hn]
    simp
  | case3 c s hn ih =>
    rw [perdec_none hn, HasTriple, hn]
    simpa using ih

/-- The two agree on the strings that have something to decode, and on no others. -/
theorem detected_iff (hs : CStr m p s) (hfuel : s.length < fuel) :
    (∃ found m' n count, isperencedhttpstr m fuel p = some found ∧
        perdechttpstr fuel m p p = some (m', n, count) ∧ (found ≠ 0 ↔ 0 < count)) ↔
      HasTriple s := by
  obtain ⟨m', hrun, -⟩ := perdechttpstr_eq hs hfuel (.inl (le_refl p))
  rw [isperencedhttpstr_eq hs hfuel, hrun, ← perdec_pos_iff]
  constructor
  · rintro ⟨found, -, n, count, ⟨⟩, ⟨⟩, hiff⟩
    exact hiff.mp one_ne_zero
  · intro hpos
    exact ⟨1, m', _, _, rfl, rfl, fun _ => hpos, fun _ => one_ne_zero⟩

/-- The string `%41`. -/
theorem detected_iff_percent :
    (∃ found m' n count, isperencedhttpstr (cstrAt [37, 52, 49]) 4 0 = some found ∧
        perdechttpstr 4 (cstrAt [37, 52, 49]) 0 0 = some (m', n, count) ∧ (found ≠ 0 ↔ 0 < count)) ↔
      HasTriple [37, 52, 49] :=
  detected_iff (cstr_cstrAt (by decide)) (by decide)

/-- The string `a`. -/
theorem not_detected :
    ¬∀ m p s, CStr m p s → ∀ fuel, s.length < fuel →
      ∃ found m' n count, isperencedhttpstr m fuel p = some found ∧
        perdechttpstr fuel m p p = some (m', n, count) ∧ (found ≠ 0 ↔ 0 < count) := by
  intro hall
  have hs : CStr (cstrAt [97]) 0 [97] := cstr_cstrAt (by decide)
  obtain ⟨found, m', n, count, hfound, hrun, hiff⟩ := hall _ _ _ hs 2 (by decide)
  cases hfound
  have hcount := congrArg (fun r => r.map fun r => r.2.2) hrun
  have hzero : (0 : ℕ) = count := some.inj hcount
  have hpos := hiff.mp one_ne_zero
  omega

end Qse.Http.Percent
