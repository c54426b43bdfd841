import Qse.StrDyn.Model
import Mathlib.Tactic.Cases

/-!
# The calls one by one

What a call leaves in the buffer when its requests for memory are in order, each with the
characters that the string had before.
-/

open List Option

namespace Qse.StrDyn

open Cells MachineWord

variable {e : Env} {s s' : StrDyn} {cs chars : List ℕ} {n capa len k : ℕ} {junk : ℕ → ℕ}

structure Fills (s : StrDyn) (cs : List ℕ) : Prop where
  len : s.len = cs.length
  le : cs.length ≤ s.capa
  bound : s.capa < nil
  unbuffered : s.ptr = none → s.capa = 0
  buffered : ∀ buf, s.ptr = some buf → buf.length = s.capa + 1 ∧ buf.take cs.length = cs

def Terminated (s : StrDyn) : Prop := ∀ buf, s.ptr = some buf → buf[s.len]? = some 0

structure Holds (s : StrDyn) (cs : List ℕ) : Prop extends Fills s cs where
  terminated : Terminated s

def Sized (e : Env) (capa : ℕ) : Prop := e.width * (capa + 1) < 2 ^ 64

instance (e : Env) (capa : ℕ) : Decidable (Sized e capa) :=
  inferInstanceAs (Decidable (e.width * (capa + 1) < 2 ^ 64))

theorem Sized.mono {capa' : ℕ} (h : Sized e capa) (hle : capa' ≤ capa) : Sized e capa' :=
  lt_of_le_of_lt (Nat.mul_le_mul_left _ (Nat.succ_le_succ hle)) h

theorem Sized.lt (h : Sized e capa) : capa < nil := by
  have hle : 1 * (capa + 1) ≤ e.width * (capa + 1) := Nat.mul_le_mul_right _ e.width_pos
  have hlt : e.width * (capa + 1) < 2 ^ 64 := h
  rw [nil]
  omega

theorem sized_one (e : Env) : Sized e 1 := by
  have hle := e.width_le
  rw [Sized]
  omega

theorem Sized.cells (h : Sized e capa) : cells e capa = capa + 1 := by
  rw [StrDyn.cells, Nat.mod_eq_of_lt h, Nat.mul_div_cancel_left _ e.width_pos]

theorem Holds.buffer_eq (hs : Holds s cs) {buf : List ℕ} (hptr : s.ptr = some buf) :
    ∃ rest, buf = cs ++ 0 :: rest := by
  obtain ⟨hlength, htake⟩ := hs.buffered buf hptr
  have hle := hs.le
  have hlt : cs.length < buf.length := by omega
  have hzero := hs.terminated buf hptr
  rw [hs.len, getElem?_eq_getElem hlt, some.injEq] at hzero
  refine ⟨buf.drop (cs.length + 1), ?_⟩
  calc
    buf = buf.take cs.length ++ buf.drop cs.length := (take_append_drop ..).symm
    _ = cs ++ 0 :: buf.drop (cs.length + 1) := by rw [htake, drop_eq_getElem_cons hlt, hzero]

theorem holds_of_eq {rest : List ℕ} (hptr : s.ptr = some (cs ++ 0 :: rest))
    (hlen : s.len = cs.length) (hlength : (cs ++ 0 :: rest).length = s.capa + 1)
    (hbound : s.capa < nil) : Holds s cs := by
  have hle : cs.length ≤ s.capa := by
    rw [length_append, length_cons] at hlength
    omega
  refine ⟨⟨hlen, hle, hbound, fun hnone => ?_, fun buf hbuf => ?_⟩, fun buf hbuf => ?_⟩
  · rw [hnone] at hptr
    cases hptr
  · rw [hptr, some.injEq] at hbuf
    exact hbuf ▸ ⟨hlength, take_left⟩
  · rw [hptr, some.injEq] at hbuf
    rw [← hbuf, hlen, getElem?_append_right le_rfl, Nat.sub_self]
    rfl

theorem Fills.extend (hs : Fills s cs) (chars : List ℕ) (hbuffer : s.ptr ≠ none)
    (hroom : cs.length + chars.length ≤ s.capa) :
    ∃ s', extend s chars = some s' ∧ Holds s' (cs ++ chars) ∧ s'.capa = s.capa := by
  obtain ⟨buf, hptr⟩ := ne_none_iff_exists'.mp hbuffer
  obtain ⟨hlength, htake⟩ := hs.buffered buf hptr
  obtain ⟨old, b, rest, hbuf, hold⟩ := exists_cut htake (k := chars.length) (by omega)
  have hblit : blit buf s.len chars = some (cs ++ (chars ++ b :: rest)) := by
    rw [hbuf, hs.len]
    exact blit_append hold
  have hput : put (cs ++ (chars ++ b :: rest)) (s.len + chars.length) 0 =
      some (cs ++ chars ++ 0 :: rest) := by
    rw [hs.len, ← append_assoc, ← length_append]
    exact put_append b 0
  refine ⟨{ s with ptr := some (cs ++ chars ++ 0 :: rest), len := s.len + chars.length }, ?_, ?_,
    rfl⟩
  · rw [StrDyn.extend, hptr]
    simp only [bind_eq_bind, bind_some, hblit, hput]
  · have htotal : (cs ++ chars ++ 0 :: rest).length = s.capa + 1 := by
      rw [← hlength, hbuf]
      simp [hold]
    refine holds_of_eq rfl ?_ htotal hs.bound
    rw [length_append, hs.len]

theorem Fills.truncate (hs : Fills s cs) (len : ℕ) (hbuffer : s.ptr ≠ none)
    (hcut : len ≤ cs.length) :
    ∃ buf buf', s.ptr = some buf ∧ put buf len 0 = some buf' ∧
      Holds { s with ptr := some buf', len := len } (cs.take len) := by
  have hle := hs.le
  obtain ⟨buf, hptr⟩ := ne_none_iff_exists'.mp hbuffer
  obtain ⟨hlength, htake⟩ := hs.buffered buf hptr
  have hshort : len = (cs.take len).length := by
    rw [length_take]
    omega
  have hkeep : buf.take (cs.take len).length = cs.take len := by
    rw [← hshort, ← htake, take_take]
    congr 1
    omega
  obtain ⟨old, b, rest, hbuf, hnil⟩ := exists_cut hkeep (k := 0) (by omega)
  rw [eq_nil_of_length_eq_zero hnil, nil_append] at hbuf
  refine ⟨buf, cs.take len ++ 0 :: rest, hptr, ?_, holds_of_eq rfl hshort ?_ hs.bound⟩
  · calc
      put buf len 0 = put (cs.take len ++ b :: rest) (cs.take len).length 0 := by
        rw [← hbuf, ← hshort]
      _ = some (cs.take len ++ 0 :: rest) := put_append b 0
  · rw [← hlength, hbuf, length_append, length_append, length_cons, length_cons]

theorem setcapa_same (e : Env) (n : ℕ) (s : StrDyn) :
    setcapa e n s s.capa = some (s.capa, n, s) := if_pos rfl

theorem setcapa_refused (hne : capa ≠ s.capa) (hmemory : e.memory n = none) :
    setcapa e n s capa = some (nil, n + 1, s) := by
  have hresized : resized e n s capa = some none := by
    rw [resized, alloc, hmemory]
    cases s.ptr with
    | none => rfl
    | some buf => simp [reallocate, hmemory]
  rw [setcapa, if_neg hne, hresized]
  rfl

theorem Fills.resized (hs : Fills s cs) (hmemory : e.memory n = some junk) (hsized : Sized e capa) :
    ∃ tmp, resized e n s capa = some (some tmp) ∧ tmp.length = capa + 1 ∧
      (∀ buf, s.ptr = some buf → ∀ i ≤ s.len, i ≤ capa → tmp[i]? = buf[i]?) ∧
      (s.ptr = none → tmp[0]? = some (junk 0)) := by
  have halloc : alloc e n capa = some ((List.range (capa + 1)).map junk) := by
    rw [alloc, hmemory, hsized.cells]
    rfl
  have hlen : s.len ≤ s.capa := hs.len ▸ hs.le
  rw [StrDyn.resized, halloc]
  cases hptr : s.ptr with
  | none =>
    refine ⟨_, rfl, by simp, fun buf hbuf => ?_, fun _ => by simp⟩
    cases hbuf
  | some buf =>
    obtain ⟨hlength, -⟩ := hs.buffered buf hptr
    cases hrealloc : s.realloc with
    | true =>
      refine ⟨(List.range (capa + 1)).map fun i => buf.getD i (junk i), ?_, by simp, ?_, ?_⟩
      · simp [reallocate, hmemory, hsized.cells]
      · rintro _ ⟨⟩ i hi hle
        have hi' : i < buf.length := by omega
        simp [Nat.lt_succ_of_le hle, getElem?_eq_getElem hi']
      · intro hnone
        cases hnone
    | false =>
      generalize hncopy : (if s.len ≤ capa then s.len else capa) = ncopy
      have hle : ncopy ≤ s.len ∧ ncopy ≤ capa ∧ ∀ i ≤ s.len, i ≤ capa → i ≤ ncopy := by
        split at hncopy
        · exact ⟨by omega, by omega, fun i _ _ => by omega⟩
        · exact ⟨by omega, by omega, fun i _ _ => by omega⟩
      obtain ⟨hle, hle', hmax⟩ := hle
      have hslice : slice buf 0 (ncopy + 1) = some (buf.take (ncopy + 1)) := by
        rw [slice, if_pos (by omega), drop_zero]
      have hblit : blit ((List.range (capa + 1)).map junk) 0 (buf.take (ncopy + 1)) =
          some (buf.take (ncopy + 1) ++ ((List.range (capa + 1)).map junk).drop (ncopy + 1)) := by
        have htake : (buf.take (ncopy + 1)).length = ncopy + 1 := by
          rw [length_take]
          omega
        rw [blit, htake, if_pos (by simp; omega), zero_add]
        rfl
      refine ⟨buf.take (ncopy + 1) ++ ((List.range (capa + 1)).map junk).drop (ncopy + 1), ?_,
        ?_, ?_, ?_⟩
      · simp [hslice, hblit]
      · simp
        omega
      · rintro _ ⟨⟩ i hi hicapa
        have hi' := hmax i hi hicapa
        rw [getElem?_append_left (by rw [length_take]; omega),
          getElem?_take_of_lt (Nat.lt_succ_of_le hi')]
      · intro hnone
        cases hnone

theorem Fills.setcapa (hs : Fills s cs) (hne : capa ≠ s.capa) (hmemory : e.memory n = some junk)
    (hsized : Sized e capa) :
    ∃ s', setcapa e n s capa = some (capa, n + 1, s') ∧ Fills s' (cs.take capa) ∧ s'.ptr ≠ none ∧
      s'.capa = capa ∧
      ((∃ buf, s.ptr = some buf ∧ buf[s.len]? = some 0) ∨ s.ptr = none ∧ junk 0 = 0 →
        Terminated s') := by
  obtain ⟨tmp, hresized, hlength, hsame, hfresh⟩ := hs.resized hmemory hsized
  have hkeep : tmp.take (cs.take capa).length = cs.take capa := by
    cases hptr : s.ptr with
    | none =>
      have hnil : cs = [] := by
        apply eq_nil_of_length_eq_zero
        have hzero := hs.unbuffered hptr
        have hle := hs.le
        omega
      rw [hnil]
      simp
    | some buf =>
      obtain ⟨hbuf, htake⟩ := hs.buffered buf hptr
      have hchars {i : ℕ} (hi : i < cs.length) : buf[i]? = cs[i]? := by
        rw [← htake, getElem?_take_of_lt hi]
      apply ext_getElem?
      intro i
      by_cases hi : i < (cs.take capa).length
      · rw [length_take] at hi
        rw [getElem?_take_of_lt (by rw [length_take]; exact hi),
          getElem?_take_of_lt (by omega), ← hchars (by omega)]
        have hlen := hs.len
        exact hsame buf hptr i (by omega) (by omega)
      · rw [getElem?_eq_none (by rw [length_take]; omega), getElem?_eq_none (by omega)]
  have hfills {buf : List ℕ} (hbuf : buf.length = capa + 1)
      (htake : buf.take (cs.take capa).length = cs.take capa) {len : ℕ}
      (hlen : len = (cs.take capa).length) :
      Fills { s with ptr := some buf, len := len, capa := capa } (cs.take capa) := by
    refine ⟨hlen, ?_, hsized.lt, ?_, ?_⟩
    · rw [length_take]
      exact Nat.min_le_left _ _
    · intro hnone
      cases hnone
    · rintro _ ⟨⟩
      exact ⟨hbuf, htake⟩
  rw [StrDyn.setcapa, if_neg hne, hresized]
  by_cases hlt : capa < s.len
  · have hlen : capa = (cs.take capa).length := by
      rw [length_take, ← hs.len]
      omega
    refine ⟨{ s with ptr := some (tmp.set capa 0), len := capa, capa := capa }, ?_,
      hfills (by rw [length_set, hlength]) ?_ hlen, ?_, rfl, fun _ => ?_⟩
    · have hput : put tmp capa 0 = some (tmp.set capa 0) := if_pos (by omega)
      simp [hlt, hput]
    · rw [← hlen, take_set_of_le le_rfl]
      rw [← hlen] at hkeep
      exact hkeep
    · intro hnone
      cases hnone
    · rintro _ ⟨⟩
      rw [getElem?_set_self (by omega)]
  · have hlen : s.len = (cs.take capa).length := by
      rw [length_take, ← hs.len]
      omega
    refine ⟨{ s with ptr := some tmp, len := s.len, capa := capa }, ?_, hfills hlength hkeep hlen,
      ?_,
      rfl, ?_⟩
    · simp [hlt]
    · intro hnone
      cases hnone
    · rintro (⟨buf, hptr, hzero⟩ | ⟨hptr, hzero⟩) _ ⟨⟩
      · exact (hsame buf hptr s.len le_rfl (by omega)).trans hzero
      · have hstart : s.len = 0 := by
          have hcapa := hs.unbuffered hptr
          have hle := hs.le
          rw [hs.len]
          omega
        change tmp[s.len]? = some 0
        rw [hstart, hfresh hptr, hzero]

/-- A call returns -1 and leaves the string as it was, or it returns `r` and the string stands for
`cs`. -/
def Settles (s : StrDyn) (x : Option (ℕ × ℕ × StrDyn)) (r : ℕ) (cs : List ℕ) : Prop :=
  ∃ n s', x = some (nil, n, s') ∧ s' = s ∨ x = some (r, n, s') ∧ r ≠ nil ∧ Holds s' cs

def Asks (e : Env) (n : ℕ) (s : StrDyn) (capa : ℕ) : Prop :=
  capa = s.capa ∨ e.memory n = none ∨ Sized e capa

theorem Holds.buffer_terminated (hs : Holds s cs) (hbuffer : s.ptr ≠ none) :
    ∃ buf, s.ptr = some buf ∧ buf[s.len]? = some 0 := by
  obtain ⟨buf, hptr⟩ := ne_none_iff_exists'.mp hbuffer
  exact ⟨buf, hptr, hs.terminated buf hptr⟩

def Blank (e : Env) (n : ℕ) (s : StrDyn) : Prop :=
  s.ptr = none → ∀ junk, e.memory n = some junk → junk 0 = 0

theorem Holds.setcapa (hs : Holds s cs) (hasks : Asks e n s capa)
    (hblank : capa ≠ s.capa → Blank e n s) :
    Settles s (setcapa e n s capa) capa (cs.take capa) := by
  by_cases hne : capa = s.capa
  · subst hne
    refine ⟨n, s, .inr ⟨setcapa_same e n s, Nat.ne_of_lt hs.bound, ?_⟩⟩
    rw [take_of_length_le hs.le]
    exact hs
  cases hmemory : e.memory n with
  | none => exact ⟨n + 1, s, .inl ⟨setcapa_refused hne hmemory, rfl⟩⟩
  | some junk =>
    have hsized : Sized e capa := by
      rcases hasks with heq | hnone | hsized
      · exact absurd heq hne
      · rw [hmemory] at hnone
        cases hnone
      · exact hsized
    obtain ⟨s', hrun, hfills, -, -, hterminated⟩ := hs.toFills.setcapa hne hmemory hsized
    refine ⟨n + 1, s', .inr ⟨hrun, Nat.ne_of_lt hsized.lt, hfills, hterminated ?_⟩⟩
    by_cases hptr : s.ptr = none
    · exact .inr ⟨hptr, hblank hne hptr junk hmemory⟩
    · exact .inl (hs.buffer_terminated hptr)

theorem Fills.enlarge (hs : Fills s cs) (capa : ℕ) (hlt : s.capa < capa) (hasks : Asks e n s capa) :
    StrDyn.setcapa e n s capa = some (nil, n + 1, s) ∧ e.memory n = none ∨
      ∃ s', StrDyn.setcapa e n s capa = some (capa, n + 1, s') ∧ capa ≠ nil ∧ Fills s' cs ∧
        s'.ptr ≠ none ∧ s'.capa = capa ∧ e.memory n ≠ none := by
  have hne : capa ≠ s.capa := Nat.ne_of_gt hlt
  cases hmemory : e.memory n with
  | none => exact .inl ⟨setcapa_refused hne hmemory, rfl⟩
  | some junk =>
    have hsized : Sized e capa := by
      rcases hasks with heq | hnone | hsized
      · exact absurd heq hne
      · rw [hmemory] at hnone
        cases hnone
      · exact hsized
    obtain ⟨s', hrun, hfills, hbuffer, hcapa, -⟩ := hs.setcapa hne hmemory hsized
    rw [take_of_length_le (hs.le.trans (le_of_lt hlt))] at hfills
    refine .inr ⟨s', hrun, Nat.ne_of_lt hsized.lt, hfills, hbuffer, hcapa, ?_⟩
    intro hnone
    cases hnone

theorem Fills.buffer (hs : Fills s cs) (hpos : 0 < s.capa) : s.ptr ≠ none := by
  intro hnone
  have hzero := hs.unbuffered hnone
  omega

theorem Holds.setlen (hs : Holds s cs) (hasks : s.capa < len → Asks e n s len) :
    Settles s (setlen e n s len) len (cs.take len ++ List.replicate (len - cs.length) 32) := by
  have hlen := hs.len
  have hle := hs.le
  have hbound := hs.bound
  rw [StrDyn.setlen]
  by_cases heq : len = s.len
  · refine ⟨n, s, .inr ⟨if_pos heq, by omega, ?_⟩⟩
    rw [heq, hlen, take_length, Nat.sub_self, replicate_zero, append_nil]
    exact hs
  rw [if_neg heq]
  by_cases hlt : len < s.len
  · obtain ⟨buf, buf', hptr, hput, ht⟩ := hs.toFills.truncate len (hs.buffer (by omega))
      (by omega)
    have hnone : len - cs.length = 0 := by omega
    rw [hnone, replicate_zero, append_nil]
    refine ⟨n, _, .inr ⟨?_, by omega, ht⟩⟩
    simp [hlt, hptr, hput]
  rw [if_neg hlt]
  have hwhole : cs.take len = cs := take_of_length_le (by omega)
  have hfill {t : StrDyn} (ht : Fills t cs) (hbuffer : t.ptr ≠ none) (hroom : len ≤ t.capa) :
      ∃ t', extend t (List.replicate (len - t.len) 32) = some t' ∧ t'.len = len ∧
        Holds t' (cs.take len ++ List.replicate (len - cs.length) 32) := by
    have htlen := ht.len
    obtain ⟨t', hrun, ht', -⟩ := ht.extend (List.replicate (len - t.len) 32) hbuffer
      (by rw [length_replicate]; omega)
    rw [htlen] at ht' ⊢
    rw [htlen] at hrun
    refine ⟨t', hrun, ?_, hwhole.symm ▸ ht'⟩
    rw [ht'.len, length_append, length_replicate]
    omega
  by_cases hmore : s.capa < len
  · rcases hs.toFills.enlarge _ hmore (hasks hmore) with
      ⟨hrun, -⟩ | ⟨t, hrun, hne, ht, hbuffer, hcapa, -⟩
    · exact ⟨n + 1, s, .inl ⟨by simp [hmore, hrun], rfl⟩⟩
    · obtain ⟨t', hextend, htlen, ht'⟩ := hfill ht hbuffer (le_of_eq hcapa.symm)
      exact ⟨n + 1, t', .inr ⟨by simp [hmore, hrun, hne, hextend, htlen], hne, ht'⟩⟩
  · obtain ⟨t', hextend, htlen, ht'⟩ := hfill hs.toFills (hs.buffer (by omega)) (by omega)
    refine ⟨n, t', .inr ⟨?_, by omega, ht'⟩⟩
    simp [hmore, hextend, htlen, nil]

theorem Fills.forget (hs : Fills s cs) : Fills { s with len := 0 } [] where
  len := rfl
  le := Nat.zero_le _
  bound := hs.bound
  unbuffered := hs.unbuffered
  buffered buf hptr := ⟨(hs.buffered buf hptr).1, rfl⟩

theorem Holds.ncpy (hs : Holds s cs) (hasks : s.capa < chars.length → Asks e n s chars.length) :
    Settles s (ncpy e n s chars) chars.length chars := by
  have hcopy {t : StrDyn} (ht : Fills t cs) (hbuffer : t.ptr ≠ none)
      (hroom : chars.length ≤ t.capa) :
      ∃ buf buf' buf'', t.ptr = some buf ∧ blit buf 0 chars = some buf' ∧
        put buf' chars.length 0 = some buf'' ∧
        Holds { t with ptr := some buf'', len := chars.length } chars := by
    obtain ⟨t', hrun, ht', -⟩ := ht.forget.extend chars hbuffer
      (by rw [length_nil, zero_add]; exact hroom)
    obtain ⟨buf, hptr⟩ := ne_none_iff_exists'.mp hbuffer
    simp only [StrDyn.extend, hptr, bind_eq_bind, bind_some, zero_add,
      bind_eq_some_iff, some.injEq] at hrun
    obtain ⟨buf', hblit, buf'', hput, rfl⟩ := hrun
    exact ⟨buf, buf', buf'', hptr, hblit, hput, ht'⟩
  have hne : chars.length ≤ s.capa → chars.length ≠ nil := by
    have hbound := hs.bound
    omega
  rw [StrDyn.ncpy]
  by_cases hmore : s.capa < chars.length ∨ s.capa ≤ 0
  · generalize hcapa : (if s.capa ≤ 0 ∧ chars.length ≤ 0 then 1 else chars.length) = capa
    have hask : s.capa < capa ∧ chars.length ≤ capa ∧ Asks e n s capa := by
      split at hcapa
      · exact ⟨by omega, by omega, hcapa ▸ .inr (.inr (sized_one e))⟩
      · exact ⟨by omega, by omega, hcapa ▸ hasks (by omega)⟩
    obtain ⟨hlt, hle, hask⟩ := hask
    rcases hs.toFills.enlarge _ hlt hask with ⟨hrun, -⟩ | ⟨t, hrun, hnil, ht, hbuffer, htcapa, -⟩
    · refine ⟨n + 1, s, .inl ⟨?_, rfl⟩⟩
      simp only [if_pos hmore, hrun]
      simp
    · obtain ⟨buf, buf', buf'', hptr, hblit, hput, ht'⟩ := hcopy ht hbuffer (by omega)
      have hbound := ht.bound
      refine ⟨n + 1, _, .inr ⟨?_, by omega, ht'⟩⟩
      simp only [if_pos hmore, hrun]
      simp [hnil, hptr, hblit, hput]
  · obtain ⟨buf, buf', buf'', hptr, hblit, hput, ht'⟩ :=
      hcopy hs.toFills (hs.buffer (by omega)) (by omega)
    refine ⟨n, _, .inr ⟨?_, hne (by omega), ht'⟩⟩
    simp only [if_neg hmore]
    simp [hptr, hblit, hput, nil]

theorem Holds.clear (hs : Holds s cs) (hassert : e.asserts = true → s.ptr ≠ none → 1 ≤ s.capa) :
    ∃ s', clear e s = some s' ∧ Holds s' [] := by
  rw [StrDyn.clear]
  cases hptr : s.ptr with
  | none =>
    have hfills := hs.toFills.forget
    rw [hptr] at hfills
    refine ⟨_, rfl, hfills, fun buf hbuf => ?_⟩
    cases hbuf
  | some buf =>
    have hok : assert e (1 ≤ s.capa) = some () := by
      rw [assert, if_neg]
      rintro ⟨hasserts, hnot⟩
      apply hnot
      apply hassert hasserts
      rw [hptr]
      exact some_ne_none buf
    obtain ⟨buf', buf'', hbuf', hput, ht⟩ :=
      hs.toFills.truncate 0 (hptr ▸ some_ne_none buf) (Nat.zero_le _)
    rw [hptr, some.injEq] at hbuf'
    subst hbuf'
    exact ⟨_, by simp [hok, hput], ht⟩

end Qse.StrDyn
