import Qse.Dhcp.Model

/-!
# Scans of received packets

Whatever the bytes of a packet are, the scans end, and report only what lies in an area, but for a
byte too many in one case and a suboption that does not lie in its area.
-/

open List Option Option

namespace Qse.Dhcp

open ByteMemory

variable {m : Mem} {len opt stop fuel : ℕ} {code : ℤ} {optlen : ℕ × ℕ}

def areas (len : ℕ) : List (ℕ × ℕ) :=
  [(pktHdrSize + cookieSize, len), (fileAt, fileAt + fileSize), (snameAt, snameAt + snameSize)]

/-- The number of bytes of an option. -/
def optSize (m : Mem) (opt : ℕ) : ℕ :=
  if m opt = optEnd then 1 else optHdrSize + (m (opt + 1)).toNat

def Within (m : Mem) (start stop opt : ℕ) : Prop := start ≤ opt ∧ opt + optSize m opt ≤ stop

def InArea (m : Mem) (len opt : ℕ) : Prop := ∃ area ∈ areas len, Within m area.1 area.2 opt

def Bounded (optlen : ℕ × ℕ) : Prop := optlen.1 ≤ fileSize ∧ optlen.2 ≤ snameSize

theorem bounded_zero : Bounded (0, 0) := ⟨Nat.zero_le _, Nat.zero_le _⟩

theorem bounded_overload (flags : UInt8) (h : Bounded optlen) :
    Bounded (overload flags optlen) := by
  obtain ⟨hfile, hsname⟩ := h
  constructor
  · rw [overload]
    dsimp only
    split
    · exact le_rfl
    · exact hfile
  · rw [overload]
    dsimp only
    split
    · exact le_rfl
    · exact hsname

variable {n : ℕ} {bytes : List UInt8}

theorem readBytes_eq {a : ℕ} (h : a + n ≤ len) : readBytes m len a n = some (read m a n) := by
  induction n generalizing a with
  | zero => rfl
  | succ n ih =>
    rw [readBytes, readByte_of_lt (by omega), ih (by omega), read_succ]
    rfl

def HasOptions (m : Mem) (len : ℕ) : Prop :=
  pktHdrSize + cookieSize ≤ len ∧ read m pktHdrSize cookieSize = magicCookie

theorem getOptionStart_of_has (h : HasOptions m len) :
    getOptionStart m len =
      some (some (pktHdrSize + cookieSize, len - pktHdrSize - cookieSize)) := by
  obtain ⟨hlen, hcookie⟩ := h
  rw [getOptionStart, if_neg (by omega), if_neg (by omega), readBytes_eq hlen, hcookie]
  rfl

theorem getOptionStart_of_not (h : ¬HasOptions m len) : getOptionStart m len = some none := by
  rw [getOptionStart]
  by_cases hhdr : len < pktHdrSize
  · rw [if_pos hhdr]
  rw [if_neg hhdr]
  by_cases hcookie : len - pktHdrSize < cookieSize
  · rw [if_pos hcookie]
  have hlen : pktHdrSize + cookieSize ≤ len := by omega
  rw [if_neg hcookie, readBytes_eq hlen]
  exact if_pos fun hsame => h ⟨hlen, hsame⟩

/-! ## Walking -/

section Walk

variable {S : Type} {walker : S → ℕ → S × ℤ} {keeps : S → Prop}

def Kept (keeps : S → Prop) (res : S × Option (ℕ × ℕ)) : Prop :=
  keeps res.1 ∧ ∀ optlen, res.2 = some optlen → Bounded optlen

variable {s : S}

theorem kept_none (hs : keeps s) : Kept keeps (s, none) := ⟨hs, fun _ h => by cases h⟩

theorem kept_some (hs : keeps s) (hbounded : Bounded optlen) : Kept keeps (s, some optlen) := by
  refine ⟨hs, fun optlen' h => ?_⟩
  cases h
  exact hbounded

theorem walkArea_keeps {start : ℕ}
    (hcall : ∀ s opt, keeps s → Within m start stop opt → keeps (walker s opt).1)
    (hlen : stop ≤ len) (hstart : start ≤ opt) (hopt : opt ≤ stop) (hfuel : stop < opt + fuel)
    (hs : keeps s) (hbounded : Bounded optlen) :
    ∃ res, walkArea m len walker stop fuel opt s optlen = some res ∧ Kept keeps res := by
  induction fuel generalizing opt s optlen with
  | zero => omega
  | succ fuel ih =>
    have htwo : optHdrSize = 2 := rfl
    rw [walkArea]
    by_cases hend : stop ≤ opt
    · rw [if_pos hend]
      exact ⟨_, rfl, kept_some hs hbounded⟩
    rw [if_neg hend]
    by_cases hshort : stop ≤ opt + optHdrSize
    · rw [if_pos hshort]
      exact ⟨_, rfl, kept_none hs⟩
    rw [if_neg hshort, readByte_of_lt (i := opt) (by omega),
      readByte_of_lt (i := opt + 1) (by omega)]
    simp only [bind_eq_bind, bind_some]
    by_cases hpad : m opt = optPadding
    · rw [if_pos hpad]
      exact ih (by omega) (by omega) (by omega) hs hbounded
    rw [if_neg hpad]
    by_cases hstopped : m opt = optEnd
    · rw [if_pos hstopped]
      exact ⟨_, rfl, kept_some hs hbounded⟩
    rw [if_neg hstopped]
    by_cases hlong : stop ≤ opt + optHdrSize + (m (opt + 1)).toNat
    · rw [if_pos hlong]
      exact ⟨_, rfl, kept_none hs⟩
    rw [if_neg hlong]
    by_cases hoverload : m opt = optOverload
    · rw [if_pos hoverload]
      by_cases hone : m (opt + 1) = 1
      · rw [if_neg (not_not.2 hone), readByte_of_lt (by omega), bind_some]
        exact ih (by omega) (by omega) (by omega) hs (bounded_overload _ hbounded)
      · rw [if_pos hone]
        exact ⟨_, rfl, kept_none hs⟩
    rw [if_neg hoverload]
    have hwithin : Within m start stop opt := by
      refine ⟨hstart, ?_⟩
      rw [optSize, if_neg hstopped]
      omega
    have hcalled := hcall s opt hs hwithin
    by_cases hfailed : (walker s opt).2 ≤ -1
    · rw [if_pos hfailed]
      exact ⟨_, rfl, kept_none hcalled⟩
    rw [if_neg hfailed]
    by_cases hzero : (walker s opt).2 = 0
    · rw [if_pos hzero]
      exact ⟨_, rfl, kept_some hcalled hbounded⟩
    · rw [if_neg hzero]
      exact ih (by omega) (by omega) (by omega) hcalled hbounded

theorem walkArea_area (hcall : ∀ s opt, keeps s → InArea m len opt → keeps (walker s opt).1)
    {start full : ℕ} (harea : (start, full) ∈ areas len) (hlen : full ≤ len) (hstart : start ≤ stop)
    (hstop : stop ≤ full) (hs : keeps s) (hbounded : Bounded optlen) :
    ∃ res, walkArea m len walker stop (len + 1) start s optlen = some res ∧ Kept keeps res :=
  walkArea_keeps
    (fun s opt hs hwithin => hcall s opt hs ⟨_, harea, hwithin.1, hwithin.2.trans hstop⟩)
    (hstop.trans hlen) le_rfl hstart (by omega) hs hbounded

theorem walkOptions_keeps (hcall : ∀ s opt, keeps s → InArea m len opt → keeps (walker s opt).1)
    (hs : keeps s) : ∃ res, walkOptions m len walker s = some res ∧ keeps res.1 := by
  rw [walkOptions]
  by_cases hhas : HasOptions m len
  · have hlen := hhas.1
    have hsum : pktHdrSize + cookieSize = 240 := rfl
    have hrest : pktHdrSize + cookieSize + (len - pktHdrSize - cookieSize) = len := by omega
    have hfile : fileAt + fileSize ≤ len := (by decide : 236 ≤ 240).trans hlen
    have hsname : snameAt + snameSize ≤ len := (by decide : 108 ≤ 240).trans hlen
    rw [getOptionStart_of_has hhas]
    simp only [bind_eq_bind, bind_some, hrest]
    obtain ⟨⟨s₀, next₀⟩, hrun₀, hs₀, hnext₀⟩ := walkArea_area hcall (mem_cons_self ..)
      le_rfl hlen le_rfl hs bounded_zero
    rw [hrun₀, bind_some]
    cases next₀ with
    | none => exact ⟨_, rfl, hs₀⟩
    | some optlen₁ =>
      have hbounded₁ := hnext₀ optlen₁ rfl
      obtain ⟨⟨s₁, next₁⟩, hrun₁, hs₁, hnext₁⟩ := walkArea_area hcall
        (.tail _ (mem_cons_self ..)) hfile (Nat.le_add_right ..)
        (Nat.add_le_add_left hbounded₁.1 fileAt) hs₀ hbounded₁
      simp only [hrun₁, bind_some]
      cases next₁ with
      | none => exact ⟨_, rfl, hs₁⟩
      | some optlen₂ =>
        have hbounded₂ := hnext₁ optlen₂ rfl
        obtain ⟨⟨s₂, next₂⟩, hrun₂, hs₂, -⟩ := walkArea_area hcall
          (.tail _ (.tail _ (mem_singleton_self _))) hsname
          (Nat.le_add_right ..) (Nat.add_le_add_left hbounded₂.2 snameAt) hs₁ hbounded₂
        simp only [hrun₂, bind_some]
        cases next₂ with
        | none | some optlen₃ => exact ⟨_, rfl, hs₂⟩
  · rw [getOptionStart_of_not hhas]
    exact ⟨_, rfl, hs⟩

end Walk

/-! ## Finding -/

/-- A search for the option comes to an overload option that has a length of one and ends with
it. -/
inductive CutOverload (code : ℤ) : List UInt8 → Prop where
  | here (h : (optOverload.toNat : ℤ) ≠ code) : CutOverload code [optOverload, 1]
  | padding {bytes : List UInt8} (h : CutOverload code bytes) :
      CutOverload code (optPadding :: bytes)
  | option {c length : UInt8} {value bytes : List UInt8} (hpad : c ≠ optPadding)
      (hend : c ≠ optEnd) (hother : (c.toNat : ℤ) ≠ code) (hlength : value.length = length.toNat)
      (hone : c = optOverload → length = 1) (h : CutOverload code bytes) :
      CutOverload code (c :: length :: (value ++ bytes))

theorem not_cutOverload_nil : ¬CutOverload code [] := fun h => by cases h

theorem cutOverload_padding : CutOverload code (optPadding :: bytes) ↔ CutOverload code bytes := by
  constructor
  · intro h
    cases h with
    | padding h => exact h
    | option hpad => exact absurd rfl hpad
  · exact .padding

theorem not_cutOverload_end : ¬CutOverload code (optEnd :: bytes) := by
  intro h
  cases h with
  | option _ hend => exact hend rfl

theorem not_cutOverload_found {c : UInt8} (hpad : c ≠ optPadding)
    (hfound : (c.toNat : ℤ) = code) : ¬CutOverload code (c :: bytes) := by
  intro h
  cases h with
  | here hne => exact hne hfound
  | padding => exact hpad rfl
  | option _ _ hother => exact hother hfound

theorem not_cutOverload_single {c : UInt8} (hpad : c ≠ optPadding) : ¬CutOverload code [c] := by
  intro h
  cases h with
  | padding => exact hpad rfl

theorem cutOverload_read (hpad : m opt ≠ optPadding) (hend : m opt ≠ optEnd)
    (hother : ((m opt).toNat : ℤ) ≠ code) :
    CutOverload code (m opt :: m (opt + 1) :: read m (opt + 2) n) ↔
      (m opt = optOverload → m (opt + 1) = 1) ∧
        (m opt = optOverload ∧ n = 0 ∨ (m (opt + 1)).toNat ≤ n ∧
          CutOverload code
            (read m (opt + 2 + (m (opt + 1)).toNat) (n - (m (opt + 1)).toNat))) := by
  constructor
  · generalize hbytes : m opt :: m (opt + 1) :: read m (opt + 2) n = bytes
    intro h
    cases h with
    | here hne =>
      obtain ⟨hcode, hrest⟩ := List.cons.inj hbytes
      obtain ⟨hone, hnil⟩ := List.cons.inj hrest
      refine ⟨fun _ => hone, .inl ⟨hcode, ?_⟩⟩
      rw [← length_read m (opt + 2) n, hnil]
      rfl
    | padding => exact absurd (List.cons.inj hbytes).1 hpad
    | @option c length value bytes _ _ _ hlength hone h =>
      obtain ⟨rfl, hrest⟩ := List.cons.inj hbytes
      obtain ⟨rfl, hvalue⟩ := List.cons.inj hrest
      have hcount : n = value.length + bytes.length := by
        rw [← length_append, ← hvalue, length_read]
      have hle : (m (opt + 1)).toNat ≤ n := by omega
      refine ⟨hone, .inr ⟨hle, ?_⟩⟩
      rw [← Nat.add_sub_cancel' hle, read_add] at hvalue
      obtain ⟨-, hbehind⟩ := append_inj hvalue (by rw [length_read, hlength])
      rwa [hbehind]
  · rintro ⟨hone, ⟨hoverload, rfl⟩ | ⟨hle, h⟩⟩
    · rw [hone hoverload, hoverload]
      rw [hoverload] at hother
      exact .here hother
    · rw [← Nat.add_sub_cancel' hle, read_add]
      exact .option hpad hend hother (length_read ..) hone h

def FindsIn (m : Mem) (start stop : ℕ) : ℕ ⊕ (ℕ × ℕ) → Prop
  | .inl found => Within m start stop found
  | .inr optlen => Bounded optlen

variable (fuel code) in
/-- The scan of an area finds an option in it or gets to its end, or it reads the byte behind the
packet. -/
theorem findArea_cases {start : ℕ} (hlen : stop ≤ len) (hstart : start ≤ opt)
    (hfuel : stop < opt + fuel) (hpos : 0 < fuel) (hbounded : Bounded optlen) :
    (∃ res, findArea m len code stop fuel opt optlen = some res ∧ FindsIn m start stop res ∧
        (stop = len → ¬CutOverload code (read m opt (stop - opt)))) ∨
      findArea m len code stop fuel opt optlen = none ∧ stop = len ∧
        CutOverload code (read m opt (stop - opt)) := by
  induction fuel generalizing opt optlen with
  | zero => cases hpos
  | succ fuel ih =>
    have htwo : optHdrSize = 2 := rfl
    rw [findArea]
    by_cases hend : stop ≤ opt
    · have hnil : stop - opt = 0 := by omega
      rw [if_pos hend, hnil]
      exact .inl ⟨_, rfl, hbounded, fun _ => not_cutOverload_nil⟩
    have hcount : stop - opt = stop - (opt + 1) + 1 := by omega
    rw [if_neg hend, readByte_of_lt (i := opt) (by omega), hcount, read_succ]
    simp only [bind_eq_bind, bind_some]
    by_cases hpad : m opt = optPadding
    · rw [if_pos hpad, hpad, cutOverload_padding]
      exact ih (by omega) (by omega) (by omega) hbounded
    rw [if_neg hpad]
    by_cases hstopped : m opt = optEnd
    · rw [if_pos hstopped, hstopped]
      by_cases hcode : code = optEnd.toNat
      · have hwithin : Within m start stop opt := by
          refine ⟨hstart, ?_⟩
          rw [optSize, if_pos hstopped]
          omega
        rw [if_pos hcode]
        exact .inl ⟨_, rfl, hwithin, fun _ => not_cutOverload_end⟩
      · rw [if_neg hcode]
        exact .inl ⟨_, rfl, hbounded, fun _ => not_cutOverload_end⟩
    rw [if_neg hstopped]
    by_cases hshort : stop < opt + optHdrSize
    · have hone : stop - (opt + 1) = 0 := by omega
      rw [if_pos hshort, hone]
      exact .inl ⟨_, rfl, hbounded, fun _ => not_cutOverload_single hpad⟩
    rw [if_neg hshort, readByte_of_lt (i := opt + 1) (by omega), bind_some]
    by_cases hfound : ((m opt).toNat : ℤ) = code
    · rw [if_pos hfound]
      by_cases hlong : stop < opt + optHdrSize + (m (opt + 1)).toNat
      · rw [if_pos hlong]
        exact .inl ⟨_, rfl, hbounded, fun _ => not_cutOverload_found hpad hfound⟩
      have hwithin : Within m start stop opt := by
        refine ⟨hstart, ?_⟩
        rw [optSize, if_neg hstopped]
        omega
      rw [if_neg hlong]
      exact .inl ⟨_, rfl, hwithin, fun _ => not_cutOverload_found hpad hfound⟩
    have hcount' : stop - (opt + 1) = stop - (opt + 2) + 1 := by omega
    have hbehind : ∀ n, stop - (opt + 2) - n = stop - (opt + 2 + n) := fun n => by omega
    rw [if_neg hfound, hcount', read_succ, cutOverload_read hpad hstopped hfound, hbehind, htwo]
    -- the scan goes on behind the value, where there may be nothing left
    have hnext : ∀ {optlen}, Bounded optlen →
        (∃ res, findArea m len code stop fuel (opt + 2 + (m (opt + 1)).toNat) optlen = some res ∧
          FindsIn m start stop res ∧ (stop = len → ¬((m (opt + 1)).toNat ≤ stop - (opt + 2) ∧
            CutOverload code (read m (opt + 2 + (m (opt + 1)).toNat)
              (stop - (opt + 2 + (m (opt + 1)).toNat)))))) ∨
        findArea m len code stop fuel (opt + 2 + (m (opt + 1)).toNat) optlen = none ∧
          stop = len ∧ (m (opt + 1)).toNat ≤ stop - (opt + 2) ∧
            CutOverload code (read m (opt + 2 + (m (opt + 1)).toNat)
              (stop - (opt + 2 + (m (opt + 1)).toNat))) := by
      intro optlen hbounded
      obtain ⟨res, hres, hfinds, hnot⟩ | ⟨hnone, hwhole, hcut⟩ :=
        @ih (opt + 2 + (m (opt + 1)).toNat) _ (by omega) (by omega) (by omega) hbounded
      · exact .inl ⟨res, hres, hfinds, fun hwhole h => hnot hwhole h.2⟩
      · refine .inr ⟨hnone, hwhole, ?_, hcut⟩
        by_contra hlong
        have hnil : stop - (opt + 2 + (m (opt + 1)).toNat) = 0 := by omega
        rw [hnil] at hcut
        exact not_cutOverload_nil hcut
    by_cases hoverload : m opt = optOverload
    · rw [if_pos hoverload]
      by_cases hone : m (opt + 1) = 1
      · have hrule : (m opt = optOverload → m (opt + 1) = 1) ↔ True :=
          iff_true_intro fun _ => hone
        rw [if_neg (not_not.2 hone), hrule, true_and]
        by_cases hinside : opt + 2 < len
        · rw [readByte_of_lt hinside, bind_some]
          obtain ⟨res, hres, hfinds, hnot⟩ | ⟨hnone, hwhole, hle, hcut⟩ :=
            hnext (bounded_overload (m (opt + 2)) hbounded)
          · refine .inl ⟨res, hres, hfinds, fun hwhole h => hnot hwhole (h.resolve_left ?_)⟩
            exact fun hlast => by omega
          · exact .inr ⟨hnone, hwhole, .inr ⟨hle, hcut⟩⟩
        · rw [readByte_of_le (not_lt.1 hinside)]
          exact .inr ⟨rfl, by omega, .inl ⟨hoverload, by omega⟩⟩
      · rw [if_pos hone]
        exact .inl ⟨_, rfl, hbounded, fun _ h => hone (h.1 hoverload)⟩
    · have hrule : (m opt = optOverload → m (opt + 1) = 1) ↔ True :=
        iff_true_intro fun h => absurd h hoverload
      rw [if_neg hoverload, hrule, true_and]
      obtain ⟨res, hres, hfinds, hnot⟩ | ⟨hnone, hwhole, hle, hcut⟩ := hnext hbounded
      · refine .inl ⟨res, hres, hfinds, fun hwhole h => hnot hwhole (h.resolve_left ?_)⟩
        exact fun hlast => hoverload hlast.1
      · exact .inr ⟨hnone, hwhole, .inr ⟨hle, hcut⟩⟩

variable (code) in
theorem findArea_field {start full : ℕ} (harea : (start, full) ∈ areas len) (hlen : full < len)
    (hstop : stop ≤ full) (hbounded : Bounded optlen) :
    ∃ res, findArea m len code stop (len + 1) start optlen = some res ∧ match res with
      | .inl found => InArea m len found
      | .inr optlen => Bounded optlen := by
  obtain ⟨res, hres, hfinds, -⟩ | ⟨-, hwhole, -⟩ := findArea_cases (len + 1) code
    (hstop.trans hlen.le) (le_refl start) (by omega) (Nat.succ_pos _) hbounded
  · refine ⟨res, hres, ?_⟩
    cases res with
    | inl found => exact ⟨_, harea, hfinds.1, hfinds.2.trans hstop⟩
    | inr optlen => exact hfinds
  · omega

theorem findOption_cases (m : Mem) (len : ℕ) (code : ℤ) :
    (∃ found, findOption m len code = some found ∧ (∀ opt, found = some opt → InArea m len opt) ∧
        ¬(HasOptions m len ∧ CutOverload code (read m 240 (len - 240)))) ∨
      findOption m len code = none ∧ HasOptions m len ∧
        CutOverload code (read m 240 (len - 240)) := by
  rw [findOption]
  by_cases hhas : HasOptions m len
  · have hlen := hhas.1
    have hsum : pktHdrSize + cookieSize = 240 := rfl
    have hrest : 240 + (len - pktHdrSize - cookieSize) = len := by omega
    have hfile : fileAt + fileSize < len := (by decide : 236 < 240).trans_le hlen
    have hsname : snameAt + snameSize < len := (by decide : 108 < 240).trans_le hlen
    have hnone : ∀ opt, (none : Option ℕ) = some opt → InArea m len opt := fun _ h => by cases h
    have hsome : ∀ {found}, InArea m len found →
        ∀ opt, some found = some opt → InArea m len opt := by
      rintro found hfound opt ⟨⟩
      exact hfound
    rw [getOptionStart_of_has hhas, hsum]
    simp only [bind_eq_bind, bind_some, hrest]
    obtain ⟨res₀, hres₀, hfinds₀, hnot⟩ | ⟨hnone, -, hcut⟩ := findArea_cases (m := m) (len + 1)
      code (le_refl len) (le_refl 240) (by omega) (Nat.succ_pos _) bounded_zero
    · have hregular : ¬(HasOptions m len ∧ CutOverload code (read m 240 (len - 240))) :=
        fun h => hnot rfl h.2
      rw [hres₀, bind_some]
      left
      cases res₀ with
      | inl found =>
        exact ⟨_, rfl, hsome ⟨(240, len), mem_cons_self .., hfinds₀⟩, hregular⟩
      | inr optlen₁ =>
        obtain ⟨res₁, hres₁, hfinds₁⟩ := findArea_field (m := m) code
          (.tail _ (mem_cons_self ..)) hfile
          (Nat.add_le_add_left hfinds₀.1 fileAt) hfinds₀
        simp only [hres₁, bind_some]
        cases res₁ with
        | inl found => exact ⟨_, rfl, hsome hfinds₁, hregular⟩
        | inr optlen₂ =>
          have hbounded : Bounded optlen₂ := hfinds₁
          obtain ⟨res₂, hres₂, hfinds₂⟩ := findArea_field (m := m) code
            (.tail _ (.tail _ (mem_singleton_self _)))
            hsname (Nat.add_le_add_left hbounded.2 snameAt) hbounded
          simp only [hres₂, bind_some]
          cases res₂ with
          | inl found => exact ⟨_, rfl, hsome hfinds₂, hregular⟩
          | inr optlen₃ => exact ⟨_, rfl, hnone, hregular⟩
    · rw [hnone]
      exact .inr ⟨rfl, hhas, hcut⟩
  · rw [getOptionStart_of_not hhas]
    exact .inl ⟨_, rfl, fun _ h => by (cases h), fun h => hhas h.1⟩

/-! ## Suboptions of relay agents -/

/-- A search for the suboption comes to one with its code that is shorter than it says. -/
inductive CutSuboption (code : ℤ) : List UInt8 → Prop where
  | here {c length : UInt8} {value : List UInt8} (hcode : (c.toNat : ℤ) = code)
      (hshort : value.length < length.toNat) : CutSuboption code (c :: length :: value)
  | other {c length : UInt8} {value bytes : List UInt8} (hother : (c.toNat : ℤ) ≠ code)
      (hlength : value.length = length.toNat) (h : CutSuboption code bytes) :
      CutSuboption code (c :: length :: (value ++ bytes))

theorem cutSuboption_read {ptr : ℕ} :
    CutSuboption code (m ptr :: m (ptr + 1) :: read m (ptr + 2) n) ↔
      if ((m ptr).toNat : ℤ) = code then n < (m (ptr + 1)).toNat
      else (m (ptr + 1)).toNat ≤ n ∧ CutSuboption code
        (read m (ptr + 2 + (m (ptr + 1)).toNat) (n - (m (ptr + 1)).toNat)) := by
  constructor
  · generalize hbytes : m ptr :: m (ptr + 1) :: read m (ptr + 2) n = bytes
    intro h
    cases h with
    | here hcode hshort =>
      obtain ⟨rfl, hrest⟩ := List.cons.inj hbytes
      obtain ⟨rfl, hvalue⟩ := List.cons.inj hrest
      rw [← hvalue, length_read] at hshort
      rwa [if_pos hcode]
    | @other c length value bytes hother hlength h =>
      obtain ⟨rfl, hrest⟩ := List.cons.inj hbytes
      obtain ⟨rfl, hvalue⟩ := List.cons.inj hrest
      have hcount : n = value.length + bytes.length := by
        rw [← length_append, ← hvalue, length_read]
      have hle : (m (ptr + 1)).toNat ≤ n := by omega
      rw [if_neg hother]
      refine ⟨hle, ?_⟩
      rw [← Nat.add_sub_cancel' hle, read_add] at hvalue
      obtain ⟨-, hbehind⟩ := append_inj hvalue (by rw [length_read, hlength])
      rwa [hbehind]
  · intro h
    by_cases hcode : ((m ptr).toNat : ℤ) = code
    · rw [if_pos hcode] at h
      exact .here hcode (by rwa [length_read])
    · rw [if_neg hcode] at h
      obtain ⟨hle, h⟩ := h
      rw [← Nat.add_sub_cancel' hle, read_add]
      exact .other hcode (length_read ..) h

/-- The two bytes in front of the value are in the area too. -/
def SuboptionWithin (len : ℕ) (found : Option (ℕ × UInt8)) : Prop :=
  ∀ ptr olen, found = some (ptr, olen) → 2 ≤ ptr ∧ ptr + olen.toNat ≤ len

theorem suboptionWithin_none (len : ℕ) : SuboptionWithin len none := fun _ _ h => by cases h

theorem relayLoop_spec (m : Mem) (len : ℕ) (code : ℤ) (fuel ptr : ℕ) (hfuel : len < ptr + fuel)
    (hpos : 0 < fuel) :
    ∃ found, relayLoop m len code fuel ptr = some found ∧
      (SuboptionWithin len found ↔ ¬CutSuboption code (read m ptr (len - ptr))) := by
  induction fuel generalizing ptr with
  | zero => cases hpos
  | succ fuel ih =>
    rw [relayLoop]
    by_cases hend : len ≤ ptr
    · have hnil : len - ptr = 0 := by omega
      rw [if_pos hend, hnil]
      exact ⟨_, rfl, iff_of_true (suboptionWithin_none len) fun h => by cases h⟩
    have hcount : len - ptr = len - (ptr + 1) + 1 := by omega
    rw [if_neg hend, readByte_of_lt (i := ptr) (by omega), hcount, read_succ]
    simp only [bind_eq_bind, bind_some]
    by_cases hshort : len ≤ ptr + 1
    · have hnil : len - (ptr + 1) = 0 := by omega
      rw [if_pos hshort, hnil]
      exact ⟨_, rfl, iff_of_true (suboptionWithin_none len) fun h => by cases h⟩
    have hcount' : len - (ptr + 1) = len - (ptr + 2) + 1 := by omega
    have hbehind : len - (ptr + 2) - (m (ptr + 1)).toNat =
        len - (ptr + 2 + (m (ptr + 1)).toNat) := by omega
    rw [if_neg hshort, readByte_of_lt (i := ptr + 1) (by omega), bind_some, hcount',
      read_succ, cutSuboption_read, hbehind]
    by_cases hcode : ((m ptr).toNat : ℤ) = code
    · rw [if_pos hcode, if_pos hcode]
      refine ⟨_, rfl, ?_⟩
      constructor
      · intro hwithin
        have hle := (hwithin _ _ rfl).2
        omega
      · rintro hnot _ _ ⟨⟩
        exact ⟨Nat.le_add_left 2 ptr, by omega⟩
    · rw [if_neg hcode, if_neg hcode]
      obtain ⟨found, hfound, hwithin⟩ :=
        ih (ptr + 2 + (m (ptr + 1)).toNat) (by omega) (by omega)
      refine ⟨found, hfound, hwithin.trans (not_congr ⟨fun h => ⟨?_, h⟩, fun h => h.2⟩)⟩
      by_contra hlong
      have hnil : len - (ptr + 2 + (m (ptr + 1)).toNat) = 0 := by omega
      rw [hnil] at h
      cases h

/-- Where the options begin: behind the header, which is longer in messages of relay agents -/
def optionsAt6 (m : Mem) : ℕ :=
  if m 0 = msgRelayforw ∨ m 0 = msgRelayrepl then relay6HdrSize else pkt6HdrSize

def Within6 (m : Mem) (len opt : ℕ) : Prop :=
  optionsAt6 m ≤ opt ∧ opt + opt6HdrSize + ((m (opt + 2)).toNat * 256 + (m (opt + 3)).toNat) ≤ len

theorem ntoh16_of_lt {a : ℕ} (h : a + 1 < len) :
    ntoh16 m len a = some ((m a).toNat * 256 + (m (a + 1)).toNat) := by
  rw [ntoh16, readByte_of_lt (by omega), readByte_of_lt h]
  rfl

theorem find6Loop_spec {rem : ℕ} (hstart : optionsAt6 m ≤ opt) (hend : opt + rem = len)
    (hfuel : rem < fuel) : ∃ found, find6Loop m len code fuel opt rem = some found ∧
      ∀ q, found = some q → Within6 m len q := by
  induction fuel generalizing opt rem with
  | zero => cases hfuel
  | succ fuel ih =>
    have hfour : opt6HdrSize = 4 := rfl
    have hnone : ∀ q, (none : Option ℕ) = some q → Within6 m len q := fun _ h => by cases h
    rw [find6Loop]
    by_cases hroom : rem < opt6HdrSize
    · rw [if_pos hroom]
      exact ⟨_, rfl, hnone⟩
    rw [if_neg hroom, ntoh16_of_lt (a := opt) (by omega), ntoh16_of_lt (a := opt + 2) (by omega)]
    simp only [bind_eq_bind, bind_some]
    by_cases hcode : (((m opt).toNat * 256 + (m (opt + 1)).toNat : ℕ) : ℤ) = code
    · rw [if_pos hcode]
      by_cases hlong : rem - opt6HdrSize < (m (opt + 2)).toNat * 256 + (m (opt + 2 + 1)).toNat
      · rw [if_pos hlong]
        exact ⟨_, rfl, hnone⟩
      rw [if_neg hlong]
      refine ⟨_, rfl, ?_⟩
      rintro q ⟨⟩
      refine ⟨hstart, ?_⟩
      change ¬rem - opt6HdrSize < (m (opt + 2)).toNat * 256 + (m (opt + 3)).toNat at hlong
      omega
    · rw [if_neg hcode]
      by_cases hlong : rem < opt6HdrSize + ((m (opt + 2)).toNat * 256 + (m (opt + 2 + 1)).toNat)
      · rw [if_pos hlong]
        exact ⟨_, rfl, hnone⟩
      · rw [if_neg hlong]
        exact ih (by omega) (by omega) (by omega)

theorem find6Option_spec (m : Mem) (len : ℕ) (code : ℤ) :
    ∃ found, find6Option m len code = some found ∧ ∀ q, found = some q → Within6 m len q := by
  have hnone : ∀ q, (none : Option ℕ) = some q → Within6 m len q := fun _ h => by cases h
  have hfour : pkt6HdrSize = 4 := rfl
  have hrelay : relay6HdrSize = 34 := rfl
  rw [find6Option]
  by_cases hshort : len < pkt6HdrSize
  · rw [if_pos hshort]
    exact ⟨_, rfl, hnone⟩
  rw [if_neg hshort, readByte_of_lt (by omega)]
  simp only [bind_eq_bind, bind_some]
  by_cases htype : m 0 = msgRelayforw ∨ m 0 = msgRelayrepl
  · rw [if_pos htype]
    by_cases hlong : len < relay6HdrSize
    · rw [if_pos hlong]
      exact ⟨_, rfl, hnone⟩
    · rw [if_neg hlong]
      exact find6Loop_spec (if_pos htype).le (by omega) (by omega)
  · rw [if_neg htype]
    exact find6Loop_spec (if_neg htype).le (by omega) (by omega)

/-- The scans of the packet `m`, and of the suboptions `sub` of a relay agent, end without a byte
outside being read, and what they return or report lies in the area that is scanned. -/
structure Contained (m : Mem) (len : ℕ) (sub : Mem) (subLen : UInt8) (code : ℤ) : Prop where
  findOption : ∃ found, findOption m len code = some found ∧
    ∀ opt, found = some opt → InArea m len opt
  walkOptions : ∀ {S : Type} (walker : S → ℕ → S × ℤ) (keeps : S → Prop) (s : S),
    (∀ s opt, keeps s → InArea m len opt → keeps (walker s opt).1) → keeps s →
      ∃ res, walkOptions m len walker s = some res ∧ keeps res.1
  getRelaySuboption : ∃ found, getRelaySuboption sub subLen code = some found ∧
    SuboptionWithin subLen.toNat found
  find6Option : ∃ found, find6Option m len code = some found ∧
    ∀ opt, found = some opt → Within6 m len opt

/-- This is so exactly if the options do not end with an overload option that is cut and the
suboption is not longer than what is left. -/
theorem contained_iff (m : Mem) (len : ℕ) (sub : Mem) (subLen : UInt8) (code : ℤ) :
    Contained m len sub subLen code ↔
      ¬(HasOptions m len ∧ CutOverload code (read m 240 (len - 240))) ∧
        ¬CutSuboption code (read sub 0 subLen.toNat) := by
  obtain ⟨found, hfound, hwithin⟩ := relayLoop_spec sub subLen.toNat code
    (subLen.toNat + 1) 0 (by omega) (by omega)
  constructor
  · rintro ⟨⟨opt, hopt, -⟩, -, ⟨sub', hsub', hin⟩, -⟩
    constructor
    · obtain ⟨_, -, -, hnot⟩ | ⟨hnone, -⟩ := findOption_cases m len code
      · exact hnot
      · rw [hnone] at hopt
        cases hopt
    · rw [getRelaySuboption, hfound] at hsub'
      cases hsub'
      exact hwithin.1 hin
  · rintro ⟨hoverload, hsub⟩
    refine ⟨?_, fun _ _ _ hcall hs => walkOptions_keeps hcall hs,
      ⟨found, hfound, hwithin.2 hsub⟩, find6Option_spec m len code⟩
    obtain ⟨opt, hopt, hin, -⟩ | ⟨-, hcut⟩ := findOption_cases m len code
    · exact ⟨opt, hopt, hin⟩
    · exact absurd hcut hoverload

def cutPacket : Mem := write (write (fun _ => 0) pktHdrSize magicCookie) 240 [optOverload, 1]

/-- The byte behind this packet is read, and a suboption of five bytes is found where there is only
one byte. -/
theorem not_contained : ¬Contained cutPacket 242 (write (fun _ => 0) 0 [1, 5, 9]) 3 53 ∧
    ¬Contained (fun _ => 0) 0 (write (fun _ => 0) 0 [1, 5, 9]) 3 1 := by
  constructor
  · intro h
    obtain ⟨found, hfound, -⟩ := h.findOption
    have hnone : findOption cutPacket 242 53 = none := by decide +kernel
    rw [hnone] at hfound
    cases hfound
  · intro h
    obtain ⟨found, hfound, hwithin⟩ := h.getRelaySuboption
    have hsome : getRelaySuboption (write (fun _ => 0) 0 [1, 5, 9]) 3 1 = some (some (2, 5)) := by
      decide +kernel
    rw [hsome] at hfound
    cases hfound
    exact absurd (hwithin 2 5 rfl) (by decide)

end Qse.Dhcp
