import Qse.Ipad.Quad

/-!
# Scanning the textual forms

The loop of `qse_mbsntoip6ad` in terms of the bytes stored so far, first along a
given form, then from what it has accepted back to the form.
-/

open List Option

namespace Qse.Ipad

def scanAt (bs : List UInt8) (gap : Option ℕ) (curtok : List UInt8) (saw : Bool) (val : ℕ) :
    Ip6Scan :=
  ⟨bs ++ List.replicate (16 - bs.length) 0, bs.length, gap, curtok, saw, val⟩

variable {bs : List UInt8}

theorem push_scanAt (h : bs.length < 16) (gap : Option ℕ) (curtok : List UInt8) (saw : Bool)
    (val : ℕ) (b : UInt8) :
    (scanAt bs gap curtok saw val).push b = some (scanAt (bs ++ [b]) gap curtok saw val) := by
  obtain ⟨k, hk⟩ : ∃ k, 16 - bs.length = k + 1 := ⟨15 - bs.length, by omega⟩
  have hk' : 16 - (bs.length + 1) = k := by omega
  have hfit : bs.length < (bs ++ List.replicate (k + 1) (0 : UInt8)).length := by simp
  simp only [Ip6Scan.push, scanAt, hk]
  rw [if_pos hfit]
  simp only [length_append, length_singleton, hk']
  rw [set_append_right _ _ le_rfl, Nat.sub_self, replicate_succ,
    set_cons_zero, append_assoc, singleton_append]

theorem push_scanAt_full (h : bs.length = 16) (gap : Option ℕ) (curtok : List UInt8) (saw : Bool)
    (val : ℕ) (b : UInt8) :
    (scanAt bs gap curtok saw val).push b = none := by
  simp [Ip6Scan.push, scanAt, h]

theorem pushGroup_scanAt (h : bs.length + 2 ≤ 16) (gap : Option ℕ) (curtok : List UInt8)
    (saw : Bool) (val : ℕ) :
    (scanAt bs gap curtok saw val).pushGroup =
      some (scanAt (bs ++ groupBytes val) gap curtok saw val) := by
  have hhi : UInt8.ofNat (val >>> 8) &&& 0xff = UInt8.ofNat (val / 256) := by
    rw [Nat.shiftRight_eq_div_pow, ← UInt8.toNat_inj]
    exact BitFields.toNat_mask _ 0xff 8 rfl |>.trans (Nat.mod_eq_of_lt (UInt8.toNat_lt _))
  have hlo : UInt8.ofNat val &&& 0xff = UInt8.ofNat (val % 256) := by
    rw [← UInt8.toNat_inj, BitFields.toNat_mask _ 0xff 8 rfl]
    simp
  have hnext : (bs ++ [UInt8.ofNat (val / 256)]).length < 16 := by
    rw [length_append, length_singleton]
    omega
  have hval : ∀ bs, (scanAt bs gap curtok saw val).val = val := fun _ => rfl
  rw [Ip6Scan.pushGroup, hval, hhi, push_scanAt (by omega), bind_eq_bind,
    bind_some, hval, hlo, push_scanAt hnext, append_assoc]
  rfl

theorem pushGroup_scanAt_full (h : bs.length = 16) (gap : Option ℕ) (curtok : List UInt8)
    (saw : Bool) (val : ℕ) :
    (scanAt bs gap curtok saw val).pushGroup = none := by
  rw [Ip6Scan.pushGroup, push_scanAt_full h]
  rfl

theorem pushQuad_scanAt (bs ip : List UInt8) (h : bs.length + ip.length ≤ 16) (gap : Option ℕ)
    (curtok : List UInt8) (saw : Bool) (val : ℕ) :
    (scanAt bs gap curtok saw val).pushQuad ip = some (scanAt (bs ++ ip) gap curtok saw val) := by
  rw [Ip6Scan.pushQuad]
  induction ip generalizing bs with
  | nil => rw [append_nil]; rfl
  | cons b ip ih =>
    rw [length_cons] at h
    have hnext : (bs ++ [b]).length + ip.length ≤ 16 := by
      rw [length_append, length_singleton]
      omega
    rw [foldlM_cons, push_scanAt (by omega), bind_eq_bind, bind_some,
      ih _ hnext, append_assoc, singleton_append]

/-! ## Single steps of the loop -/

theorem xdigit_colon : xdigit (mt ':') = none := by decide

theorem xdigit_dot : xdigit (mt '.') = none := by decide

theorem or_digit {v d : ℕ} (hd : d < 16) : v <<< 4 ||| d = v * 16 + d := by
  rw [Nat.shiftLeft_eq]
  exact BitFields.mul_or v (k := 4) hd

theorem xdigit_lt {c : UInt8} {d : ℕ} (h : xdigit c = some d) : d < 16 := by
  have hall : ∀ n : Fin 256, ∀ d ∈ xdigit (UInt8.ofNat n), d < 16 := by decide +kernel
  have hc := hall ⟨c.toNat, c.toNat_lt⟩
  simp only [UInt8.ofNat_toNat] at hc
  exact hc d h

theorem ip6Loop_cons (ch : UInt8) (src : List UInt8) (st : Ip6Scan) :
    ip6Loop (ch :: src) st = match xdigit ch with
      | some v1 =>
        let val := st.val <<< 4 ||| v1
        if 0xffff < val then .reject
        else ip6Loop src { st with val := val, sawXdigit := true }
      | none =>
        if ch = mt ':' then
          let st := { st with curtok := src }
          if ¬st.sawXdigit then
            if st.colonp.isSome then .reject
            else ip6Loop src { st with colonp := some st.tp }
          else if src = [] then .reject
          else
            match st.pushGroup with
            | none => .stray
            | some st => ip6Loop src { st with sawXdigit := false, val := 0 }
        else if ch = mt '.' ∧ st.tp + 4 ≤ 16 then
          match mbsntoip4ad st.curtok with
          | some ip => (Outcome.ofStore (st.pushQuad ip)).bind fun st =>
            .ok { st with sawXdigit := false }
          | none => .reject
        else .reject := rfl

section Steps

variable (bs : List UInt8) (gap : Option ℕ) (curtok rest : List UInt8) (saw : Bool) (val : ℕ)

theorem ip6Loop_digit {c : UInt8} {d : ℕ} (hc : xdigit c = some d) :
    ip6Loop (c :: rest) (scanAt bs gap curtok saw val) = if 0xffff < val * 16 + d then .reject
      else ip6Loop rest (scanAt bs gap curtok true (val * 16 + d)) := by
  have hval : (scanAt bs gap curtok saw val).val = val := rfl
  rw [ip6Loop_cons, hc]
  simp only [hval, or_digit (xdigit_lt hc)]
  rfl

theorem ip6Loop_colon_gap :
    ip6Loop (mt ':' :: rest) (scanAt bs none curtok false val) =
      ip6Loop rest (scanAt bs (some bs.length) rest false val) := by
  rw [ip6Loop_cons, xdigit_colon]
  rfl

theorem ip6Loop_colon_second (k : ℕ) :
    ip6Loop (mt ':' :: rest) (scanAt bs (some k) curtok false val) = .reject := by
  rw [ip6Loop_cons, xdigit_colon]
  rfl

theorem ip6Loop_colon_last : ip6Loop [mt ':'] (scanAt bs gap curtok true val) = .reject := by
  rw [ip6Loop_cons, xdigit_colon]
  rfl

theorem ip6Loop_colon_group (hrest : rest ≠ []) (hroom : bs.length + 2 ≤ 16) :
    ip6Loop (mt ':' :: rest) (scanAt bs gap curtok true val) =
      ip6Loop rest (scanAt (bs ++ groupBytes val) gap rest false 0) := by
  have hpush := pushGroup_scanAt hroom gap rest true val
  rw [ip6Loop_cons, xdigit_colon]
  simp only [if_true]
  rw [if_neg (by simp [scanAt]), if_neg hrest]
  change (match (scanAt bs gap rest true val).pushGroup with
    | none => Outcome.stray
    | some st => ip6Loop rest { st with sawXdigit := false, val := 0 }) = _
  rw [hpush]
  rfl

theorem ip6Loop_colon_stray (hrest : rest ≠ []) (hfull : bs.length = 16) :
    ip6Loop (mt ':' :: rest) (scanAt bs gap curtok true val) = .stray := by
  have hpush := pushGroup_scanAt_full hfull gap rest true val
  rw [ip6Loop_cons, xdigit_colon]
  simp only [if_true]
  rw [if_neg (by simp [scanAt]), if_neg hrest]
  change (match (scanAt bs gap rest true val).pushGroup with
    | none => Outcome.stray
    | some st => ip6Loop rest { st with sawXdigit := false, val := 0 }) = _
  rw [hpush]

theorem ip6Loop_dot {ip : List UInt8} (hq : Quad curtok ip) (hroom : bs.length + 4 ≤ 16) :
    ip6Loop (mt '.' :: rest) (scanAt bs gap curtok saw val) =
      .ok (scanAt (bs ++ ip) gap curtok false val) := by
  have hpush := pushQuad_scanAt bs ip (by rw [hq.length]; exact hroom) gap curtok
    saw val
  have hcur : (scanAt bs gap curtok saw val).curtok = curtok := rfl
  rw [ip6Loop_cons, xdigit_dot]
  simp only
  rw [if_neg (by decide), if_pos ⟨trivial, hroom⟩, hcur, mbsntoip4ad_complete hq]
  simp only
  rw [hpush]
  rfl

theorem ip6Loop_other {c : UInt8} (hx : xdigit c = none) (hc : c ≠ mt ':')
    (h : ¬(c = mt '.' ∧ bs.length + 4 ≤ 16 ∧ ∃ ip, Quad curtok ip)) :
    ip6Loop (c :: rest) (scanAt bs gap curtok saw val) = .reject := by
  have hcur : (scanAt bs gap curtok saw val).curtok = curtok := rfl
  have htp : (scanAt bs gap curtok saw val).tp = bs.length := rfl
  rw [ip6Loop_cons, hx]
  simp only
  rw [if_neg hc, hcur, htp]
  split
  · rename_i hdot
    have hnone : mbsntoip4ad curtok = none := by
      rw [eq_none_iff_forall_ne_some]
      intro ip hip
      exact h ⟨hdot.1, hdot.2, ip, mbsntoip4ad_sound hip⟩
    rw [hnone]
  · rfl

end Steps

end Qse.Ipad
