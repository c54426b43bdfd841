import Qse.Awk.IntText
import Qse.StrDyn.Edits

/-!
# Integer values as strings

A translation of `val_int_to_str` of `lib/awk/val.c`. The block that `tmp` points into is gone once
a request for memory has been made, so that writing through it yields `none`, as does an operation
that leaves the integers.
-/

open List Option Option

namespace Qse.Awk.IntToStr

open Cells IntText StrDyn

variable (e : StrDyn.Env)

/-- `qse_awk_rtx_valtostr_out_t` -/
inductive Out where
  /-- `QSE_AWK_RTX_VALTOSTR_CPL` and `QSE_AWK_RTX_VALTOSTR_CPLCPY` -/
  | cplcpy (buf : List ℕ)
  /-- `QSE_AWK_RTX_VALTOSTR_CPLDUP` -/
  | cpldup
  /-- `QSE_AWK_RTX_VALTOSTR_STRP` -/
  | strp (s : StrDyn)
  /-- `QSE_AWK_RTX_VALTOSTR_STRPCAT` -/
  | strpcat (s : StrDyn)

inductive Result where
  /-- -1 with `QSE_AWK_EINVAL`, and the size needed -/
  | einval (len : ℕ)
  /-- -1 with `QSE_AWK_ENOMEM` -/
  | enomem
  | cpl (ptr : List ℕ) (len : ℕ)
  | str (s : StrDyn)

def rlen (orgval : ℤ) : Option ℕ :=
  if orgval = 0 then some 1
  else if orgval < 0 then do
    let t ← neg orgval
    some (lenLoop 10 t.toNat t.toNat 1)
  else some (lenLoop 10 orgval.toNat orgval.toNat 0)

/-- The part behind the `switch`, for a `tmp` that is so many characters from the beginning -/
def fill (orgval : ℤ) (tmp rlen : ℕ) (buf : List ℕ) : Option (List ℕ) :=
  if orgval = 0 then put buf tmp 48
  else do
    let t ← if orgval < 0 then neg orgval else some orgval
    let (rlen, buf) ← digitLoop 10 t.toNat t.toNat (tmp + rlen) buf
    if orgval < 0 then put buf (rlen - 1) 45 else some buf

/-- The string is extended, and the characters are written through `tmp`. -/
def fillStr (n : ℕ) (orgval : ℤ) (tmp rlen : ℕ) (s : StrDyn) : Option Result := do
  let (r, n', s) ← nccat e 32 rlen n s
  if r = StrDyn.nil then some .enomem
  else if n' = n then do
    let buf ← s.ptr
    let buf ← fill orgval tmp rlen buf
    some (.str { s with ptr := some buf })
  else none

def valIntToStr (n : ℕ) (orgval : ℤ) (out : Out) : Option Result := do
  let rlen ← rlen orgval
  match out with
  | .cplcpy buf =>
    if buf.length ≤ rlen then some (.einval (rlen + 1))
    else do
      let tmp ← put buf rlen 0
      let tmp ← fill orgval 0 rlen tmp
      some (.cpl tmp rlen)
  | .cpldup =>
    match e.memory n with
    | none => some .enomem
    | some junk => do
      let tmp ← put ((List.range (rlen + 1)).map junk) rlen 0
      let tmp ← fill orgval 0 rlen tmp
      some (.cpl tmp rlen)
  | .strp s => do
    let s ← clear e s
    assert e (s.len = 0)
    fillStr e n orgval 0 rlen s
  | .strpcat s => fillStr e n orgval s.len rlen s

def decimal (v : ℤ) : List ℕ := text v 10 []

def Result.IsText (v : ℤ) : Result → Prop
  | .cpl ptr len => len = (decimal v).length ∧ ptr.take len = decimal v ∧ ptr[len]? = some 0
  | _ => False

/-- Earlier contents are `cs`. -/
def Out.Before (cs : List ℕ) : Out → Prop
  | .strp s | .strpcat s => Holds s cs
  | _ => True

/-- A fixed buffer is too small and the result says so, or the text is delivered. -/
def Delivers (v : ℤ) (cs : List ℕ) (r : Result) : Out → Prop
  | .cplcpy buf => r.IsText v ∨
      buf.length ≤ (decimal v).length ∧ r = .einval ((decimal v).length + 1)
  | .cpldup => r.IsText v
  | .strp _ => ∃ s, r = .str s ∧ Holds s (decimal v)
  | .strpcat _ => ∃ s, r = .str s ∧ Holds s (cs ++ decimal v)

def Meets (n : ℕ) (v : ℤ) (cs : List ℕ) (out : Out) : Prop :=
  ∃ r, valIntToStr e n v out = some r ∧ Delivers v cs r out

/-- A copy gets its memory, and a string has room for the text without growing. -/
def Out.HasRoom (n : ℕ) (v : ℤ) : Out → Prop
  | .cplcpy _ => True
  | .cpldup => e.memory n ≠ none
  | .strp s => (decimal v).length ≤ s.capa
  | .strpcat s => s.len + (decimal v).length ≤ s.capa

variable {e} {n n' r k c capa mincapa : ℕ} {v : ℤ} {s s' : StrDyn} {as bs cs buf : List ℕ}

theorem decimal_neg (hneg : v < 0) :
    decimal v = 45 :: (Nat.digits 10 v.natAbs).reverse.map digitChar := by
  rw [decimal, text, IntText.digits, if_pos hneg, if_neg (by omega)]
  rfl

theorem decimal_pos (hpos : 0 < v) :
    decimal v = (Nat.digits 10 v.toNat).reverse.map digitChar := by
  have hsame : v.natAbs = v.toNat := by omega
  rw [decimal, text, IntText.digits, if_neg (by omega), if_neg (by omega), hsame]
  rfl

theorem decimal_ne_nil (v : ℤ) : 0 < (decimal v).length := by
  rcases lt_trichotomy v 0 with hneg | rfl | hpos
  · rw [decimal_neg hneg, length_cons]
    exact Nat.succ_pos _
  · decide
  · have hne : v.toNat ≠ 0 := by omega
    rw [decimal_pos hpos, length_map, length_reverse, Nat.length_digits 10 _ (by decide) hne]
    exact Nat.succ_pos _

theorem rlen_min : rlen intMin = none := rfl

theorem rlen_eq (hmin : v ≠ intMin) : rlen v = some (decimal v).length := by
  have hloop (t len : ℕ) : lenLoop 10 t t len = len + (Nat.digits 10 t).length :=
    lenLoop_eq (by decide) (le_refl t)
  rcases lt_trichotomy v 0 with hneg | rfl | hpos
  · have hsame : (-v).toNat = v.natAbs := by omega
    rw [rlen, if_neg hneg.ne, if_pos hneg, neg, if_neg hmin, bind_eq_bind, bind_some, hloop,
      hsame, decimal_neg hneg, length_cons, length_map, length_reverse, add_comm]
  · rfl
  · rw [rlen, if_neg hpos.ne', if_neg hpos.not_gt, hloop, decimal_pos hpos, length_map,
      length_reverse, zero_add]

theorem fill_eq (hmin : v ≠ intMin) (hlength : bs.length = (decimal v).length) :
    fill v as.length (decimal v).length (as ++ (bs ++ cs)) = some (as ++ (decimal v ++ cs)) := by
  have hloop (t : ℕ) (as : List ℕ) {bs : List ℕ} (hlength : bs.length = (Nat.digits 10 t).length) :
      digitLoop 10 t t (as.length + bs.length) (as ++ (bs ++ cs)) =
        some (as.length, as ++ ((Nat.digits 10 t).reverse.map digitChar ++ cs)) :=
    digitLoop_eq (by decide) (le_refl t) hlength
  rcases lt_trichotomy v 0 with hneg | rfl | hpos
  · have hsame : (-v).toNat = v.natAbs := by omega
    rw [decimal_neg hneg, length_cons, length_map, length_reverse] at hlength
    obtain ⟨b, bs, rfl⟩ := exists_cons_of_length_eq_add_one hlength
    have hdigits := hloop v.natAbs (as ++ [b]) (Nat.succ.inj hlength)
    have hlen : as.length + (decimal v).length = (as ++ [b]).length + bs.length := by
      rw [decimal_neg hneg, length_append, length_cons, length_map, length_reverse,
        ← Nat.succ.inj hlength, length_singleton]
      omega
    have hbuf : as ++ (b :: bs ++ cs) = as ++ [b] ++ (bs ++ cs) := by simp
    have hput := @put_append _ as ((Nat.digits 10 v.natAbs).reverse.map digitChar ++ cs) b 45
    rw [fill, if_neg hneg.ne, if_pos hneg, neg, if_neg hmin, hlen, hbuf]
    simp only [bind_eq_bind, bind_some, hsame, hdigits, if_pos hneg]
    rw [length_append, length_singleton, Nat.add_sub_cancel, append_assoc, singleton_append, hput,
      decimal_neg hneg, cons_append]
  · obtain ⟨b, rfl⟩ := length_eq_one_iff.1 hlength
    exact put_append b 48
  · have hlen : bs.length = (Nat.digits 10 v.toNat).length := by
      rw [hlength, decimal_pos hpos, length_map, length_reverse]
    have hdigits := hloop v.toNat as hlen
    rw [fill, if_neg hpos.ne', if_neg hpos.not_gt, ← hlength]
    simp only [bind_eq_bind, bind_some, hdigits, if_neg hpos.not_gt]
    rw [decimal_pos hpos]

theorem fill_buffer (hmin : v ≠ intMin) (hroom : (decimal v).length < buf.length) :
    ∃ tmp ptr, put buf (decimal v).length 0 = some tmp ∧
      fill v 0 (decimal v).length tmp = some ptr ∧
        (Result.cpl ptr (decimal v).length).IsText v := by
  obtain ⟨bs, b, cs, rfl, hbs⟩ := @exists_cut ℕ [] buf (decimal v).length rfl (by simpa using hroom)
  have hfill := @fill_eq v [] bs (0 :: cs) hmin hbs
  rw [length_nil, nil_append, nil_append] at hfill
  refine ⟨bs ++ 0 :: cs, _, ?_, hfill, rfl, ?_, ?_⟩
  · rw [nil_append, ← hbs, put_append]
  · rw [take_left]
  · rw [getElem?_append_right le_rfl, Nat.sub_self]
    rfl

theorem setcapa_next (h : setcapa e n s capa = some (r, n', s')) :
    n ≤ n' ∧ (capa ≠ s.capa → n < n') := by
  rw [setcapa] at h
  split at h
  · rename_i hsame
    cases h
    exact ⟨le_rfl, fun hne => absurd hsame hne⟩
  obtain ⟨tmp, -, h⟩ := bind_eq_some_iff.1 h
  cases tmp with
  | none =>
    cases h
    exact ⟨Nat.le_succ _, fun _ => lt_add_one _⟩
  | some tmp =>
    dsimp only at h
    split at h
    · obtain ⟨tmp', -, h⟩ := bind_eq_some_iff.1 h
      cases h
      exact ⟨Nat.le_succ _, fun _ => lt_add_one _⟩
    · cases h
      exact ⟨Nat.le_succ _, fun _ => lt_add_one _⟩

theorem retry_next {ok : Bool} (h : retry e mincapa capa n s = some (ok, n', s')) :
    n ≤ n' ∧ (capa ≠ s.capa → n < n') := by
  induction capa generalizing n s with
  | zero =>
    rw [retry] at h
    obtain ⟨⟨r, n₁, s₁⟩, hset, h⟩ := bind_eq_some_iff.1 h
    cases h
    exact setcapa_next hset
  | succ capa ih =>
    rw [retry] at h
    obtain ⟨⟨r, n₁, s₁⟩, hset, h⟩ := bind_eq_some_iff.1 h
    obtain ⟨hle, hlt⟩ := setcapa_next hset
    dsimp only at h
    split_ifs at h
    · cases h
      exact ⟨hle, hlt⟩
    · cases h
      exact ⟨hle, hlt⟩
    · have hlater := (ih h).1
      exact ⟨hle.trans hlater, fun hne => (hlt hne).trans_le hlater⟩

theorem ncat_next {chars : List ℕ} (h : ncat e n s chars = some (r, n', s')) :
    n ≤ n' ∧ (Holds s cs → s.capa < s.len + chars.length → chars.length = 1 → n < n') := by
  rw [ncat] at h
  obtain ⟨⟨ok, n₁, s₁⟩, hresize, h⟩ := bind_eq_some_iff.1 h
  have hlast : n' = n₁ := by
    dsimp only at h
    split at h
    · obtain ⟨s₂, -, h⟩ := bind_eq_some_iff.1 h
      cases h
      rfl
    · cases h
      rfl
  subst hlast
  rw [resizeForNcat] at hresize
  split at hresize
  · obtain ⟨hle, hlt⟩ := retry_next hresize
    refine ⟨hle, fun hs hmore hone => hlt ?_⟩
    have hbound := hs.bound
    have hlen := hs.len
    have hcs := hs.le
    rw [StrDyn.nil] at hbound
    have hmin := le_ncapa s (MachineWord.wordAdd s.len chars.length)
    rw [MachineWord.wordAdd_eq (by omega)] at hmin ⊢
    omega
  rename_i hroom
  split at hresize
  · obtain ⟨-, -, hresize⟩ := bind_eq_some_iff.1 hresize
    obtain ⟨-, -, hresize⟩ := bind_eq_some_iff.1 hresize
    obtain ⟨⟨r, n₁, s₁⟩, hset, hresize⟩ := bind_eq_some_iff.1 hresize
    cases hresize
    obtain ⟨hle, hlt⟩ := setcapa_next hset
    exact ⟨hle, fun _ _ _ => hlt (by omega)⟩
  · cases hresize
    refine ⟨le_rfl, fun hs hmore hone => ?_⟩
    have hbound := hs.bound
    have hlen := hs.len
    have hcs := hs.le
    rw [StrDyn.nil] at hbound
    rw [MachineWord.wordSub_eq (by omega) (by omega)] at hroom
    omega

theorem nccat_next (h : nccat e c k n s = some (r, n', s')) : n ≤ n' := by
  induction k generalizing n s with
  | zero =>
    cases h
    exact le_rfl
  | succ k ih =>
    rw [nccat] at h
    obtain ⟨⟨r₁, n₁, s₁⟩, hncat, h⟩ := bind_eq_some_iff.1 h
    obtain ⟨hle, -⟩ : n ≤ n₁ ∧ (Holds s [] → _) := ncat_next hncat
    dsimp only at h
    split at h
    · cases h
      exact hle
    · exact hle.trans (ih h)

theorem ncat_room (hs : Holds s cs) (hroom : s.len < s.capa) (c : ℕ) :
    ∃ s', ncat e n s [c] = some (s.len + 1, n, s') ∧ s'.capa = s.capa ∧ Holds s' (cs ++ [c]) := by
  have hlen := hs.len
  have hbound := hs.bound
  rw [StrDyn.nil] at hbound
  have hsub : MachineWord.wordSub s.capa s.len = s.capa - s.len :=
    MachineWord.wordSub_eq (by omega) (by omega)
  obtain ⟨s', hextend, hs', hcapa⟩ := hs.toFills.extend [c] (hs.buffer (by omega))
    (by rw [length_singleton]; omega)
  have hlen' : s'.len = s.len + 1 := by rw [hs'.len, length_append, length_singleton, hlen]
  refine ⟨s', ?_, hcapa, hs'⟩
  rw [ncat, resizeForNcat, length_singleton, hsub, if_neg (by omega), if_neg (by omega)]
  simp only [bind_eq_bind, bind_some, if_true, if_neg (show ¬s.capa - s.len < 1 by omega),
    hsub, take_one, head?_cons, toList_some, hextend, hlen']

theorem nccat_room (hs : Holds s cs) (hroom : s.len + k ≤ s.capa) :
    ∃ s', nccat e c k n s = some (s.len + k, n, s') ∧ s.len + k ≠ StrDyn.nil ∧
      Holds s' (cs ++ List.replicate k c) := by
  have hbound := hs.bound
  induction k generalizing s cs with
  | zero => exact ⟨s, rfl, by omega, by rwa [replicate_zero, append_nil]⟩
  | succ k ih =>
    obtain ⟨s₁, hncat, hcapa, hs₁⟩ := ncat_room (e := e) (n := n) hs (by omega) c
    have hlen : s₁.len = s.len + 1 := by
      rw [hs₁.len, length_append, length_singleton, hs.len]
    obtain ⟨s', hmore, hne, hs'⟩ := ih hs₁ (by omega) hs₁.bound
    rw [append_assoc, singleton_append, ← replicate_succ] at hs'
    refine ⟨s', ?_, by omega, hs'⟩
    rw [nccat]
    simp only [bind_eq_bind, bind_some, hncat, hmore,
      if_neg (show s.len + 1 ≠ StrDyn.nil by omega), hlen]
    rw [add_assoc, add_comm 1 k]

theorem nccat_moves (hs : Holds s cs) (hroom : s.capa < s.len + k)
    (h : nccat e c k n s = some (r, n', s')) : r = StrDyn.nil ∨ n < n' := by
  induction k generalizing n s cs with
  | zero =>
    have hlen := hs.len
    have hle := hs.le
    omega
  | succ k ih =>
    rw [nccat] at h
    obtain ⟨⟨r₁, n₁, s₁⟩, hncat, h⟩ := bind_eq_some_iff.1 h
    dsimp only at h
    split at h
    · cases h
      exact .inl rfl
    by_cases hfull : s.len < s.capa
    · obtain ⟨s₂, hncat', hcapa, hs₂⟩ := ncat_room (e := e) (n := n) hs hfull c
      rw [hncat'] at hncat
      cases hncat
      have hlen : s₁.len = s.len + 1 := by
        rw [hs₂.len, length_append, length_singleton, hs.len]
      exact ih hs₂ (by omega) h
    · have hgrown := (ncat_next hncat).2 hs (by rw [length_singleton]; omega) rfl
      exact .inr (hgrown.trans_le (nccat_next h))

theorem fillStr_room (hs : Holds s cs) (hmin : v ≠ intMin)
    (hroom : s.len + (decimal v).length ≤ s.capa) :
    ∃ s', fillStr e n v s.len (decimal v).length s = some (.str s') ∧
      Holds s' (cs ++ decimal v) := by
  obtain ⟨s', hrun, hne, hs'⟩ := nccat_room (e := e) (n := n) (c := 32) hs hroom
  have hpos := decimal_ne_nil v
  have hlen' : s'.len = (cs ++ decimal v).length := by simp [hs'.len]
  have hcapa := hs'.le
  obtain ⟨buf, hptr, -⟩ := hs'.buffer_terminated (hs'.buffer (by
    rw [length_append, length_replicate] at hcapa
    omega))
  obtain ⟨rest, rfl⟩ := hs'.buffer_eq hptr
  have hfill := @fill_eq v cs (List.replicate (decimal v).length 32) (0 :: rest) hmin
    length_replicate
  rw [← hs.len] at hfill
  rw [append_assoc] at hptr
  refine ⟨{ s' with ptr := some (cs ++ decimal v ++ 0 :: rest) }, ?_, ?_⟩
  · rw [fillStr, hrun]
    simp only [bind_eq_bind, bind_some, if_neg hne, if_true, hptr, hfill, append_assoc]
  · refine holds_of_eq rfl hlen' ?_ hs'.bound
    have hlength := (hs'.buffered _ hptr).1
    simpa using hlength

theorem fillStr_cramped (hs : Holds s cs) (hroom : s.capa < s.len + k) {tmp : ℕ} {t : StrDyn} :
    fillStr e n v tmp k s ≠ some (.str t) := by
  intro h
  obtain ⟨⟨r, n', s'⟩, hrun, h⟩ := bind_eq_some_iff.1 h
  dsimp only at h
  split_ifs at h with hfailed hsame
  · cases h
  · rcases nccat_moves hs hroom hrun with hnil | hlt
    · exact hfailed hnil
    · omega

theorem clear_holds (hs : Holds s cs) (h : clear e s = some s') :
    Holds s' [] ∧ s'.capa = s.capa ∧ s'.len = 0 := by
  have hassert : e.asserts = true → s.ptr ≠ none → 1 ≤ s.capa := by
    intro hasserts hbuffer
    obtain ⟨buf, hptr⟩ := ne_none_iff_exists'.1 hbuffer
    by_contra hzero
    simp [clear, hptr, StrDyn.assert, hasserts, hzero] at h
  obtain ⟨s₁, hrun, hs₁⟩ := hs.clear hassert
  obtain rfl : s₁ = s' := some.inj (hrun.symm.trans h)
  refine ⟨hs₁, ?_, hs₁.len⟩
  rw [clear] at h
  split at h
  · cases h
    rfl
  · obtain ⟨-, -, h⟩ := bind_eq_some_iff.1 h
    obtain ⟨buf, -, h⟩ := bind_eq_some_iff.1 h
    cases h
    rfl

/-- The text is delivered, or a fixed buffer is too small, if and only if the value is not the
smallest one and there is room for the text. -/
theorem meets_iff_room (e : StrDyn.Env) (n : ℕ) (v : ℤ) {out : Out} (hout : out.Before cs) :
    Meets e n v cs out ↔ v ≠ intMin ∧ out.HasRoom e n v := by
  by_cases hmin : v = intMin
  · subst hmin
    refine iff_of_false ?_ fun h => h.1 rfl
    rintro ⟨r, hrun, -⟩
    rw [valIntToStr, rlen_min] at hrun
    cases hrun
  rw [and_iff_right hmin, Meets]
  simp only [valIntToStr, rlen_eq hmin, bind_eq_bind, bind_some]
  cases out with
  | cplcpy buf =>
    refine iff_of_true ?_ trivial
    by_cases hsmall : buf.length ≤ (decimal v).length
    · exact ⟨_, if_pos hsmall, .inr ⟨hsmall, rfl⟩⟩
    · obtain ⟨tmp, ptr, hput, hfill, htext⟩ := fill_buffer hmin (Nat.lt_of_not_le hsmall)
      refine ⟨_, ?_, .inl htext⟩
      simp only [if_neg hsmall, hput, bind_some, hfill]
  | cpldup =>
    rw [Out.HasRoom]
    cases hmemory : e.memory n with
    | none =>
      refine iff_of_false ?_ fun h => h rfl
      rintro ⟨r, ⟨⟩, ⟨⟩⟩
    | some junk =>
      refine iff_of_true ?_ (some_ne_none junk)
      obtain ⟨tmp, ptr, hput, hfill, htext⟩ :=
        @fill_buffer v ((List.range ((decimal v).length + 1)).map junk) hmin (by simp)
      refine ⟨.cpl ptr (decimal v).length, ?_, htext⟩
      simp only [hput, bind_some, hfill]
  | strp s =>
    constructor
    · rintro ⟨r, hrun, s', rfl, -⟩
      by_contra hroom
      obtain ⟨s₁, hclear, hrun⟩ := bind_eq_some_iff.1 hrun
      obtain ⟨-, -, hrun⟩ := bind_eq_some_iff.1 hrun
      obtain ⟨hs₁, hcapa, hlen⟩ := clear_holds hout hclear
      have hcramped : s₁.capa < s₁.len + (decimal v).length := by
        rw [hcapa, hlen, zero_add]
        exact Nat.lt_of_not_le hroom
      exact fillStr_cramped hs₁ hcramped hrun
    · intro hroom
      have hpos := decimal_ne_nil v
      have hroom : (decimal v).length ≤ s.capa := hroom
      obtain ⟨s₁, hclear, hs₁⟩ := Holds.clear (e := e) hout fun _ _ => hpos.trans_le hroom
      obtain ⟨-, hcapa, hlen⟩ := clear_holds hout hclear
      obtain ⟨s', hfill, hs'⟩ := fillStr_room (e := e) (n := n) hs₁ hmin (by omega)
      have hassert : StrDyn.assert e (s₁.len = 0) = some () := by simp [StrDyn.assert, hlen]
      rw [hlen] at hfill
      refine ⟨_, ?_, s', rfl, hs'⟩
      simp only [hclear, bind_some, hassert, hfill]
  | strpcat s =>
    constructor
    · rintro ⟨r, hrun, s', rfl, -⟩
      by_contra hroom
      exact fillStr_cramped hout (Nat.lt_of_not_le hroom) hrun
    · intro hroom
      obtain ⟨s', hfill, hs'⟩ := fillStr_room (e := e) (n := n) hout hmin hroom
      exact ⟨_, hfill, s', rfl, hs'⟩

theorem holds_unbuffered : Holds ⟨none, 0, 0, true⟩ [] where
  len := rfl
  le := le_rfl
  bound := by decide
  unbuffered _ := rfl
  buffered buf h := by cases h
  terminated buf h := by cases h

def zeros : StrDyn.Env := ⟨4, by decide, by decide, true, fun _ => some fun _ => 0⟩

def assignment : StrDyn := ⟨some [97, 61, 0, 9, 9, 9], 2, 5, true⟩

theorem holds_assignment : Holds assignment [97, 61] where
  len := rfl
  le := by decide
  bound := by decide
  unbuffered h := by cases h
  buffered buf h := by cases h; exact ⟨rfl, rfl⟩
  terminated buf h := by cases h; rfl

theorem meets_iff_room_appended :
    Meets zeros 0 (-75) [97, 61] (.strpcat assignment) ∧
      ¬Meets zeros 0 (-7500) [97, 61] (.strpcat assignment) := by
  have hbefore : (Out.strpcat assignment).Before [97, 61] := holds_assignment
  constructor
  · have hroom : assignment.len + (decimal (-75)).length ≤ assignment.capa := by decide
    exact (meets_iff_room zeros 0 (-75) hbefore).2 ⟨by decide, hroom⟩
  · have hfull : ¬assignment.len + (decimal (-7500)).length ≤ assignment.capa := by decide
    exact fun h => hfull ((meets_iff_room zeros 0 (-7500) hbefore).1 h).2

/-- The digit of 7 is not delivered to a string without a buffer. -/
theorem not_meets_seven :
    ¬∀ (e : StrDyn.Env) (n : ℕ) (v : ℤ) (cs : List ℕ) (out : Out),
      out.Before cs → Meets e n v cs out := by
  intro h
  obtain ⟨r, hrun, s', rfl, -⟩ := h zeros 0 7 [] (.strp ⟨none, 0, 0, true⟩) holds_unbuffered
  have hnone : valIntToStr zeros 0 7 (.strp ⟨none, 0, 0, true⟩) = none := by decide +kernel
  rw [hnone] at hrun
  cases hrun

end Qse.Awk.IntToStr
