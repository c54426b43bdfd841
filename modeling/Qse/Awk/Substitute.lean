import Qse.Sed.Matches

/-!
# `sub` and `gsub`

A translation of `__substitute` in `lib/awk/fnc.c`. A pointer into the target is its offset, and the
buffer for the new text does not run out of memory.
-/

open List

namespace Qse.Awk

open Sed (Match MatchAt Piece leftmost pieces piecesBehind)

/-- What the loop of `__substitute` changes -/
structure Substitution where
  cur : ℕ
  pmat : Option (ℕ × ℕ)
  subCount : ℕ
  new : List Char

def replacement (mat : List Char) : List Char → List Char
  | [] => []
  | '\\' :: '&' :: s1 => '&' :: replacement mat s1
  | '&' :: s1 => mat ++ replacement mat s1
  | c :: s1 => c :: replacement mat s1

def Substitution.skipOneChar (s2 : List Char) (l : Substitution) : Substitution :=
  { l with
    new := l.new ++ (s2.drop l.cur).take 1
    cur := l.cur + 1 }

/-- The match is empty and "still at the end of the previous match". -/
def Substitution.touches (l : Substitution) (mat : Match) : Bool :=
  mat.1.eo - mat.1.so = 0 ∧ l.pmat.any fun pmat => l.cur + mat.1.so = pmat.1 + pmat.2

def Substitution.replace (s1 s2 : List Char) (l : Substitution) (mat : Match) : Substitution :=
  let cur := s2.drop l.cur
  let len := mat.1.eo - mat.1.so
  { cur := l.cur + mat.1.so + len
    pmat := some (l.cur + mat.1.so, len)
    subCount := l.subCount + 1
    new := l.new ++ cur.take mat.1.so ++ replacement (mat.1.text cur) s1 }

/-- "special treatment is needed if match length is 0" -/
def Substitution.advance (s1 s2 : List Char) (l : Substitution) (mat : Match) : Substitution :=
  if mat.1.eo - mat.1.so = 0 then (l.replace s1 s2 mat).skipOneChar s2 else l.replace s1 s2 mat

def wanted (maxCount subCount : ℕ) : Bool := maxCount = 0 ∨ subCount < maxCount

section Loop

variable {E : Type} (matchrex : Bool → List Char → Except E (Option Match)) (maxCount : ℕ)
  (s1 s2 : List Char)

/-- The loop of `__substitute`, for at most `fuel` rounds -/
def substituteLoop : ℕ → Substitution → Except E Substitution
  | 0, l => .ok l
  | fuel + 1, l =>
    if s2.length < l.cur then .ok l
    else do
      let found ←
        if wanted maxCount l.subCount then matchrex (l.cur != 0) (s2.drop l.cur) else .ok none
      match found with
      | none => .ok { l with new := l.new ++ s2.drop l.cur }
      | some mat =>
        if l.touches mat then substituteLoop fuel (l.skipOneChar s2)
        else substituteLoop fuel (l.advance s1 s2 mat)

end Loop

/-- What `__substitute` uses of a run -/
structure SubstRtx (State Ref Rex E : Type) where
  ignorecase : State → Bool
  /-- `inrec.line` -/
  line : State → List Char
  /-- `qse_awk_rtx_valtostrdup` of a reference -/
  valtostr : State → Ref → Except E (List Char)
  /-- `qse_awk_buildrex`, with or without regard to the case -/
  buildrex : Bool → List Char → Except E Rex
  /-- `qse_awk_matchrex`, of a text that is all of the target or not -/
  matchrex : Rex → Bool → List Char → Except E (Option Match)
  /-- `qse_awk_rtx_setrec` of the field 0 -/
  setrec : State → List Char → Except E State
  setrefval : State → Ref → List Char → Except E State

/-- The first argument, which is an expression with its two codes, or what it is converted to -/
inductive RexArg (Rex E : Type) where
  | rex (code : Bool → Rex)
  | text (text : Except E (List Char))

section Substitute

variable {State Ref Rex E : Type} (rtx : SubstRtx State Ref Rex E)

def operands (a0 : RexArg Rex E) (a1 : Except E (List Char)) (a2 : Option Ref) (st : State) :
    Except E (Rex × List Char × List Char) :=
  match a0 with
  | .rex code => do
    let s1 ← a1
    let s2 ← (a2.map (rtx.valtostr st)).getD (.ok (rtx.line st))
    .ok (code (rtx.ignorecase st), s1, s2)
  | .text text => do
    let s0 ← text
    let s1 ← a1
    let s2 ← (a2.map (rtx.valtostr st)).getD (.ok (rtx.line st))
    let rex ← rtx.buildrex (rtx.ignorecase st) s0
    .ok (rex, s1, s2)

def assignNew (a2 : Option Ref) (st : State) (new : List Char) : Except E State :=
  match a2 with
  | none => rtx.setrec st new
  | some ref => rtx.setrefval st ref new

/-- `__substitute`. A round moves `cur` on, so the fuel is enough. -/
def substitute (maxCount : ℕ) (a0 : RexArg Rex E) (a1 : Except E (List Char)) (a2 : Option Ref)
    (st : State) : Except E (ℕ × State) := do
  let (rex, s1, s2) ← operands rtx a0 a1 a2 st
  let l ← substituteLoop (rtx.matchrex rex) maxCount s1 s2 (s2.length + 2) ⟨0, none, 0, []⟩
  let st ← if 0 < l.subCount then assignNew rtx a2 st l.new else .ok st
  .ok (l.subCount, st)

/-- `qse_awk_fnc_gsub` and `qse_awk_fnc_sub` -/
def gsub := substitute rtx 0

def sub := substitute rtx 1

end Substitute

section Asked

variable (maxCount : ℕ) (s1 : List Char)

@[grind =] def replaced : ℕ → List Piece → List Char
  | _, [] => []
  | n, .kept c _ :: more => c :: replaced n more
  | n, .found text _ :: more =>
    if wanted maxCount n then replacement text s1 ++ replaced (n + 1) more
    else text ++ replaced n more

@[grind =] def counted : ℕ → List Piece → ℕ
  | n, [] => n
  | n, .kept _ _ :: more => counted n more
  | n, .found _ _ :: more => if wanted maxCount n then counted (n + 1) more else counted n more

def matchCount : List Piece → ℕ
  | [] => 0
  | .kept _ _ :: more => matchCount more
  | .found _ _ :: more => matchCount more + 1

def askedCount (ps : List Piece) : ℕ :=
  if maxCount = 0 then matchCount ps else min maxCount (matchCount ps)

variable {maxCount : ℕ} {s1 : List Char}

theorem wanted_iff {n : ℕ} : wanted maxCount n = true ↔ maxCount = 0 ∨ n < maxCount :=
  decide_eq_true_iff

theorem counted_eq (maxCount n : ℕ) (ps : List Piece) (hn : maxCount = 0 ∨ n ≤ maxCount) :
    counted maxCount n ps =
      if maxCount = 0 then n + matchCount ps else min maxCount (n + matchCount ps) := by
  induction ps generalizing n with
  | nil =>
    rw [counted, matchCount, Nat.add_zero]
    split <;> omega
  | cons p ps ih =>
    cases p with
    | kept c emptied =>
      rw [counted, matchCount]
      exact ih n hn
    | found text groups =>
      rw [counted, matchCount]
      by_cases hwanted : wanted maxCount n = true
      · have hmore := wanted_iff.1 hwanted
        rw [if_pos hwanted, ih (n + 1) (by omega), Nat.add_right_comm, Nat.add_assoc]
      · have hdone := mt wanted_iff.2 hwanted
        rw [if_neg hwanted, ih n hn]
        split <;> omega

theorem replaced_of_not_wanted (s1 : List Char) {n : ℕ} (h : wanted maxCount n = false)
    (ps : List Piece) :
    replaced maxCount s1 n ps = ps.flatMap Piece.text ∧ counted maxCount n ps = n := by
  induction ps with
  | nil => exact ⟨rfl, rfl⟩
  | cons p ps ih =>
    cases p with
    | kept c emptied =>
      rw [replaced, counted, ih.1, ih.2]
      exact ⟨rfl, rfl⟩
    | found text groups =>
      rw [replaced, counted, h, ih.1, ih.2]
      exact ⟨rfl, rfl⟩

theorem replaced_kept (maxCount : ℕ) (s1 : List Char) (n : ℕ) (gap : List Char) (ps : List Piece) :
    replaced maxCount s1 n (gap.map (Piece.kept · false) ++ ps) = gap ++ replaced maxCount s1 n ps ∧
      counted maxCount n (gap.map (Piece.kept · false) ++ ps) = counted maxCount n ps := by
  induction gap with
  | nil => exact ⟨rfl, rfl⟩
  | cons c gap ih =>
    rw [map_cons, cons_append, replaced, counted, ih.1, ih.2]
    exact ⟨rfl, rfl⟩

end Asked

namespace Substitution

variable {matchAt : MatchAt} {maxCount : ℕ} {s1 s2 : List Char} {l : Substitution}

def left (matchAt : MatchAt) (s2 : List Char) (l : Substitution) : List Piece :=
  if l.cur ≤ s2.length then
    pieces matchAt (l.pmat.any fun pmat => pmat.1 + pmat.2 = l.cur) (.start (l.cur != 0))
      (s2.drop l.cur)
  else []

/-- The previous match does not reach beyond `cur`. -/
def Ordered (l : Substitution) : Prop := ∀ pmat ∈ l.pmat, pmat.1 + pmat.2 ≤ l.cur

def Leads (matchAt : MatchAt) (maxCount : ℕ) (s1 s2 : List Char) (l : Substitution)
    (new : List Char) (count : ℕ) : Prop :=
  l.new ++ replaced maxCount s1 l.subCount (l.left matchAt s2) = new ∧
    counted maxCount l.subCount (l.left matchAt s2) = count

theorem left_skipOneChar (matchAt : MatchAt) (maxCount : ℕ) (s1 : List Char) (hordered : l.Ordered)
    (hcur : l.cur ≤ s2.length) :
    (l.skipOneChar s2).Leads matchAt maxCount s1 s2
      (l.new ++ replaced maxCount s1 l.subCount (piecesBehind matchAt 0 (s2.drop l.cur)))
      (counted maxCount l.subCount (piecesBehind matchAt 0 (s2.drop l.cur))) := by
  rcases Nat.lt_or_eq_of_le hcur with hlt | heq
  · obtain ⟨c, hc⟩ := Sed.drop_eq_cons_of_lt hlt
    have hpmat : (l.pmat.any fun pmat => decide (pmat.1 + pmat.2 = l.cur + 1)) = false := by
      cases hp : l.pmat with
      | none => rfl
      | some pmat =>
        have hle := hordered pmat hp
        exact decide_eq_false (by omega)
    have hleft : (l.skipOneChar s2).left matchAt s2 =
        pieces matchAt false (.start true) (s2.drop (l.cur + 1)) := by
      have hne : (l.cur + 1 != 0) = true := rfl
      change (if l.cur + 1 ≤ s2.length then pieces matchAt
        (l.pmat.any fun pmat => decide (pmat.1 + pmat.2 = l.cur + 1)) (.start (l.cur + 1 != 0))
          (s2.drop (l.cur + 1)) else []) = _
      have hle : l.cur + 1 ≤ s2.length := hlt
      rw [if_pos hle, hpmat, hne]
    rw [Leads, hleft, hc, piecesBehind, if_pos rfl, replaced, counted, skipOneChar, hc]
    exact ⟨append_assoc .., rfl⟩
  · have hnil : s2.drop l.cur = [] := drop_of_length_le (by omega)
    have hleft : (l.skipOneChar s2).left matchAt s2 = [] := by
      refine if_neg ?_
      change ¬l.cur + 1 ≤ s2.length
      omega
    rw [Leads, hleft, hnil, piecesBehind, if_pos rfl, replaced, counted, skipOneChar, hnil,
      take_nil, append_nil]
    exact ⟨rfl, rfl⟩

section Found

variable (hfits : ∀ front s m, matchAt front s = some m → m.1 ≤ s.length)
  (hcur : l.cur ≤ s2.length) {mat : Match}
  (hfound : leftmost matchAt (.start (l.cur != 0)) (s2.drop l.cur) = some mat)

include hfits hcur hfound

theorem replace_le (s1 : List Char) : (l.replace s1 s2 mat).cur ≤ s2.length := by
  obtain ⟨hle, hlen⟩ := Sed.leftmost_le hfits hfound
  rw [length_drop] at hlen
  have hnext : (l.replace s1 s2 mat).cur = l.cur + mat.1.so + (mat.1.eo - mat.1.so) := rfl
  omega

theorem left_replace (hwanted : wanted maxCount l.subCount = true)
    (hcounts : (l.pmat.any fun pmat => decide (pmat.1 + pmat.2 = l.cur)) = false ∨
      0 < mat.1.so ∨ 0 < mat.1.eo - mat.1.so) {new : List Char} {count : ℕ}
    (hleads : l.Leads matchAt maxCount s1 s2 new count) :
    (l.replace s1 s2 mat).new ++ replaced maxCount s1 (l.subCount + 1)
        (piecesBehind matchAt (mat.1.eo - mat.1.so) (s2.drop (l.replace s1 s2 mat).cur)) = new ∧
      counted maxCount (l.subCount + 1)
        (piecesBehind matchAt (mat.1.eo - mat.1.so) (s2.drop (l.replace s1 s2 mat).cur)) =
          count := by
  have hleft : l.left matchAt s2 = _ :=
    (if_pos hcur).trans (Sed.pieces_of_leftmost hfits hfound hcounts)
  have hbehind : (s2.drop l.cur).drop (mat.1.so + (mat.1.eo - mat.1.so)) =
      s2.drop (l.replace s1 s2 mat).cur := by
    rw [drop_drop, ← Nat.add_assoc]
    rfl
  obtain ⟨hnew, hcount⟩ := hleads
  rw [hleft, (replaced_kept maxCount s1 _ _ _).1, replaced, if_pos hwanted, hbehind] at hnew
  rw [hleft, (replaced_kept maxCount s1 _ _ _).2, counted, if_pos hwanted, hbehind] at hcount
  refine ⟨?_, hcount⟩
  rw [← hnew, ← append_assoc, ← append_assoc]
  rfl

theorem left_advance (hwanted : wanted maxCount l.subCount = true)
    (hcounts : (l.pmat.any fun pmat => decide (pmat.1 + pmat.2 = l.cur)) = false ∨
      0 < mat.1.so ∨ 0 < mat.1.eo - mat.1.so) {new : List Char} {count : ℕ}
    (hleads : l.Leads matchAt maxCount s1 s2 new count) :
    (l.advance s1 s2 mat).Ordered ∧ l.cur < (l.advance s1 s2 mat).cur ∧
      (l.advance s1 s2 mat).Leads matchAt maxCount s1 s2 new count := by
  obtain ⟨hnew, hcount⟩ := left_replace hfits hcur hfound hwanted hcounts hleads
  have hend := replace_le hfits hcur hfound s1
  have hordered : (l.replace s1 s2 mat).Ordered := by
    rintro pmat hmem
    cases hmem
    exact Nat.le_refl _
  have hnext : (l.replace s1 s2 mat).cur = l.cur + mat.1.so + (mat.1.eo - mat.1.so) := rfl
  by_cases hzero : mat.1.eo - mat.1.so = 0
  · -- the character behind an empty match is passed, too
    have hskip := left_skipOneChar matchAt maxCount s1 hordered hend
    have hsub : (l.replace s1 s2 mat).subCount = l.subCount + 1 := rfl
    rw [hzero] at hnew hcount
    rw [hsub, hnew, hcount] at hskip
    rw [advance, if_pos hzero]
    refine ⟨fun pmat hmem => Nat.le_succ_of_le (hordered pmat hmem), ?_, hskip⟩
    exact Nat.lt_succ_of_le (by omega)
  have htouched : ((l.replace s1 s2 mat).pmat.any fun pmat =>
      decide (pmat.1 + pmat.2 = (l.replace s1 s2 mat).cur)) = true :=
    decide_eq_true rfl
  have hne : ((l.replace s1 s2 mat).cur != 0) = true := by
    rw [hnext, bne_iff_ne]
    omega
  have hleft : (l.replace s1 s2 mat).left matchAt s2 = piecesBehind matchAt
      (mat.1.eo - mat.1.so) (s2.drop (l.replace s1 s2 mat).cur) := by
    rw [left, if_pos hend, htouched, hne]
    exact (if_neg hzero).symm
  rw [advance, if_neg hzero, Leads, hleft]
  exact ⟨hordered, by omega, hnew, hcount⟩

end Found

theorem touches_iff (hordered : l.Ordered) {mat : Match} : l.touches mat = true ↔
    (l.pmat.any fun pmat => decide (pmat.1 + pmat.2 = l.cur)) = true ∧ mat.1.so = 0 ∧
      mat.1.eo - mat.1.so = 0 := by
  rw [touches, decide_eq_true_iff]
  cases hpmat : l.pmat with
  | none => simp
  | some pmat =>
    have hle := hordered pmat hpmat
    simp only [Option.any_some, decide_eq_true_eq]
    omega

variable {E : Type} {matchrex : Bool → List Char → Except E (Option Match)}

theorem substituteLoop_eq
    (hleft : ∀ notbol s, matchrex notbol s = .ok (leftmost matchAt (.start notbol) s))
    (hfits : ∀ front s m, matchAt front s = some m → m.1 ≤ s.length) {fuel : ℕ}
    (hordered : l.Ordered) (hfuel : s2.length + 2 ≤ fuel + l.cur) {new : List Char} {count : ℕ}
    (hleads : l.Leads matchAt maxCount s1 s2 new count) :
    ∃ l', substituteLoop matchrex maxCount s1 s2 fuel l = .ok l' ∧ l'.new = new ∧
      l'.subCount = count := by
  induction fuel generalizing l with
  | zero =>
    rw [Leads, left, if_neg (by omega)] at hleads
    refine ⟨l, rfl, ?_, hleads.2⟩
    rw [← hleads.1, replaced, append_nil]
  | succ fuel ih =>
    rw [substituteLoop]
    by_cases hcur : s2.length < l.cur
    · rw [Leads, left, if_neg (by omega)] at hleads
      refine ⟨l, if_pos hcur, ?_, hleads.2⟩
      rw [← hleads.1, replaced, append_nil]
    have hcur' : l.cur ≤ s2.length := Nat.le_of_not_lt hcur
    have hpieces : l.left matchAt s2 = pieces matchAt
        (l.pmat.any fun pmat => pmat.1 + pmat.2 = l.cur) (.start (l.cur != 0)) (s2.drop l.cur) :=
      if_pos hcur'
    rw [if_neg hcur]
    by_cases hwanted : wanted maxCount l.subCount = true
    · rw [if_pos hwanted, hleft]
      cases hfound : leftmost matchAt (.start (l.cur != 0)) (s2.drop l.cur) with
      | none =>
        have hkept := replaced_kept maxCount s1 l.subCount (s2.drop l.cur) []
        rw [append_nil] at hkept
        rw [Leads, hpieces, Sed.pieces_of_leftmost_none hfound, hkept.1, hkept.2] at hleads
        refine ⟨_, rfl, ?_, hleads.2⟩
        rw [← hleads.1, replaced, append_nil]
      | some mat =>
        by_cases htouches : l.touches mat = true
        · obtain ⟨htouched, hso, hlen⟩ := (touches_iff hordered).1 htouches
          rw [Leads, hpieces, htouched, Sed.pieces_of_touching hfound hso hlen] at hleads
          have hskip := left_skipOneChar matchAt maxCount s1 hordered hcur'
          rw [hleads.1, hleads.2] at hskip
          obtain ⟨l', hloop, hresult⟩ := ih (l := l.skipOneChar s2)
            (fun pmat hmem => Nat.le_succ_of_le (hordered pmat hmem))
            (by change s2.length + 2 ≤ fuel + (l.cur + 1); omega) hskip
          refine ⟨l', ?_, hresult⟩
          simpa only [bind, Except.bind, if_pos htouches] using hloop
        have hcounts : (l.pmat.any fun pmat => decide (pmat.1 + pmat.2 = l.cur)) = false ∨
            0 < mat.1.so ∨ 0 < mat.1.eo - mat.1.so := by
          have hnot := mt (touches_iff hordered).2 htouches
          rw [Bool.eq_false_iff]
          by_contra hall
          push Not at hall
          exact hnot ⟨hall.1, by omega, by omega⟩
        obtain ⟨hordered', hlt, hleads'⟩ :=
          left_advance hfits hcur' hfound hwanted hcounts hleads
        obtain ⟨l', hloop, hresult⟩ := ih hordered' (by omega) hleads'
        refine ⟨l', ?_, hresult⟩
        simpa only [bind, Except.bind, if_neg htouches] using hloop
    · rw [if_neg hwanted]
      obtain ⟨hrest, hcount⟩ := replaced_of_not_wanted s1
        (Bool.eq_false_iff.2 hwanted) (l.left matchAt s2)
      rw [Leads, hrest, hcount, hpieces, Sed.flatMap_text_pieces] at hleads
      exact ⟨_, rfl, hleads⟩

theorem substituteLoop_start
    (hleft : ∀ notbol s, matchrex notbol s = .ok (leftmost matchAt (.start notbol) s))
    (hfits : ∀ front s m, matchAt front s = some m → m.1 ≤ s.length) (maxCount : ℕ)
    (s1 s2 : List Char) :
    ∃ l, substituteLoop matchrex maxCount s1 s2 (s2.length + 2) ⟨0, none, 0, []⟩ = .ok l ∧
      l.new = replaced maxCount s1 0 (pieces matchAt false (.start false) s2) ∧
      l.subCount = askedCount maxCount (pieces matchAt false (.start false) s2) := by
  have hstart : Substitution.left matchAt s2 ⟨0, none, 0, []⟩ =
      pieces matchAt false (.start false) s2 :=
    if_pos (Nat.zero_le _)
  have hcount := counted_eq maxCount 0 (pieces matchAt false (.start false) s2)
    (.inr (Nat.zero_le _))
  rw [Nat.zero_add] at hcount
  refine substituteLoop_eq hleft hfits (fun _ h => (by cases h)) (Nat.le_refl _) ⟨?_, ?_⟩
  · rw [hstart, nil_append]
  · rw [hstart, hcount]
    rfl

end Substitution

section Call

variable {State Ref Rex E : Type}

def asked (rtx : SubstRtx State Ref Rex E) (matchAt : Rex → MatchAt) (maxCount : ℕ)
    (a2 : Option Ref) (st : State) : Rex × List Char × List Char → Except E (ℕ × State)
  | (rex, s1, s2) =>
    let ps := pieces (matchAt rex) false (.start false) s2
    match askedCount maxCount ps with
    | 0 => .ok (0, st)
    | n + 1 => (assignNew rtx a2 st (replaced maxCount s1 0 ps)).map (n + 1, ·)

/-- A call replaces the first or all of the matches, and assigns the new text if there are any.
The pieces are those of the target. -/
theorem substitute_eq {rtx : SubstRtx State Ref Rex E} {matchAt : Rex → MatchAt}
    (hleft : ∀ rex notbol s,
      rtx.matchrex rex notbol s = .ok (leftmost (matchAt rex) (.start notbol) s))
    (hfits : ∀ rex front s m, matchAt rex front s = some m → m.1 ≤ s.length) (maxCount : ℕ)
    (a0 : RexArg Rex E) (a1 : Except E (List Char)) (a2 : Option Ref) (st : State) :
    substitute rtx maxCount a0 a1 a2 st =
        (operands rtx a0 a1 a2 st).bind (asked rtx matchAt maxCount a2 st) ∧
      ∀ rex s2, (pieces (matchAt rex) false (.start false) s2).flatMap Piece.text = s2 := by
  refine ⟨?_, fun rex s2 => Sed.flatMap_text_pieces ..⟩
  rw [substitute]
  cases operands rtx a0 a1 a2 st with
  | error e => rfl
  | ok ops =>
    obtain ⟨rex, s1, s2⟩ := ops
    obtain ⟨l, hloop, hnew, hcount⟩ :=
      Substitution.substituteLoop_start (hleft rex) (hfits rex) maxCount s1 s2
    simp only [bind, Except.bind, asked, hloop, ← hcount, ← hnew]
    cases l.subCount with
    | zero => rfl
    | succ n =>
      rw [if_pos (Nat.succ_pos n)]
      cases assignNew rtx a2 st l.new with
      | error e | ok st' => rfl

def lineRtx : SubstRtx (List Char) Unit Char Unit where
  ignorecase _ := false
  line st := st
  valtostr st _ := .ok st
  buildrex _ s0 := .ok (s0.headD 'x')
  matchrex c notbol s := .ok (leftmost (Sed.manyAt c) (.start notbol) s)
  setrec _ text := .ok text
  setrefval _ _ text := .ok text

/-- `gsub(/x*/, "<&>")`, where no empty match is behind the match that is not -/
theorem substitute_eq_many :
    substitute lineRtx 0 (.rex fun _ => 'x') (.ok ['<', '&', '>']) none ['a', 'x', 'b'] =
      .ok (3, ['<', '>', 'a', '<', 'x', '>', 'b', '<', '>']) := by
  have hspec := (@substitute_eq _ _ _ _ lineRtx Sed.manyAt (fun _ _ _ => rfl)
    (fun c => (Sed.isLeftmost_many c).fits) 0 (.rex fun _ => 'x') (.ok ['<', '&', '>']) none
    ['a', 'x', 'b']).1
  rw [hspec]
  simp [operands, lineRtx, bind, Except.bind, asked, pieces, Sed.manyAt, askedCount, matchCount,
    replaced, wanted, replacement, assignNew, Except.map]

end Call

end Qse.Awk
