import Qse.StrDyn.Calls

/-!
# The calls that edit a string

What `resize_for_ncat` makes room for, and what the calls that add, delete and replace characters
leave.
-/

open List

namespace Qse.StrDyn

open Cells MachineWord

variable {e : Env} {s s' : StrDyn} {cs as bs ds chars : List ℕ} {n c capa len k : ℕ}

def Refused (e : Env) (n : ℕ) (s : StrDyn) (k : ℕ) : Prop :=
  if s.capa < s.len + k then
    ∀ i ≤ ncapa s (s.len + k) - (s.len + k), e.memory (n + i) = none
  else s.capa = 0 ∧ e.memory n = none

def Extends (e : Env) (s : StrDyn) (k : ℕ) : Prop :=
  (s.capa < s.len + k → s.len + k < 2 ^ 64 ∧ Sized e (ncapa s (s.len + k))) ∧
    (e.asserts = true → s.capa = 0 → k = 0 → s.ptr = none)

theorem le_ncapa (s : StrDyn) (mincapa : ℕ) : mincapa ≤ ncapa s mincapa := by
  rw [ncapa]
  split
  · rename_i hlt
    exact le_of_lt hlt
  · exact le_rfl

theorem Fills.retry (hs : Fills s cs) {mincapa : ℕ} (hmin : s.capa < mincapa)
    (hle : mincapa ≤ capa) (hsized : Sized e capa) :
    (∃ n', retry e mincapa capa n s = some (false, n', s) ∧
      ∀ i ≤ capa - mincapa, e.memory (n + i) = none) ∨
    ∃ n' s', retry e mincapa capa n s = some (true, n', s') ∧ Fills s' cs ∧ s'.ptr ≠ none ∧
      mincapa ≤ s'.capa ∧ ¬∀ i ≤ capa - mincapa, e.memory (n + i) = none := by
  induction capa generalizing n with
  | zero => omega
  | succ capa ih =>
    rw [StrDyn.retry]
    rcases hs.enlarge (n := n) _ (lt_of_lt_of_le hmin hle) (.inr (.inr hsized)) with
      ⟨hrun, hrefused⟩ | ⟨s', hrun, hne, hs', hbuffer, hcapa, hgranted⟩
    · by_cases hlast : capa + 1 ≤ mincapa
      · refine .inl ⟨n + 1, by simp [hrun, hlast], fun i hi => ?_⟩
        obtain rfl : i = 0 := by omega
        exact hrefused
      · have hstep : capa + 1 - mincapa = capa - mincapa + 1 := by omega
        have hall : (∀ i ≤ capa + 1 - mincapa, e.memory (n + i) = none) ↔
            ∀ i ≤ capa - mincapa, e.memory (n + 1 + i) = none := by
          constructor
          · intro hall i hi
            rw [add_assoc, add_comm 1 i]
            exact hall (i + 1) (by omega)
          · intro hall i hi
            cases i with
            | zero => exact hrefused
            | succ i =>
              have hi' := hall i (by omega)
              rwa [add_assoc, add_comm 1 i] at hi'
        rw [hall]
        rcases ih (n := n + 1) (by omega) (hsized.mono (Nat.le_succ _)) with
          ⟨n', hretry, hnone⟩ | ⟨n', s', hretry, hs'⟩
        · exact .inl ⟨n', by simp [hrun, hlast, hretry], hnone⟩
        · exact .inr ⟨n', s', by simp [hrun, hlast, hretry], hs'⟩
    · refine .inr ⟨n + 1, s', by simp [hrun, hne], hs', hbuffer, by omega, fun hall => ?_⟩
      exact hgranted (hall 0 (Nat.zero_le _))

theorem Holds.resizeForNcat (hs : Holds s cs) (hext : Extends e s k) :
    (∃ n', resizeForNcat e n s k = some (false, n', s) ∧ Refused e n s k) ∨
    ∃ n' s', resizeForNcat e n s k = some (true, n', s') ∧ Fills s' cs ∧ s'.ptr ≠ none ∧
      cs.length + k ≤ s'.capa ∧ ¬Refused e n s k := by
  have hlen := hs.len
  have hle := hs.le
  have hbound := hs.bound
  rw [nil] at hbound
  have hroom : wordSub s.capa s.len = s.capa - s.len := wordSub_eq (by omega) (by omega)
  rw [StrDyn.resizeForNcat, hroom, Refused]
  by_cases hmore : s.capa < s.len + k
  · obtain ⟨hlt, hsized⟩ := hext.1 hmore
    rw [if_pos (by omega), wordAdd_eq hlt, if_pos hmore]
    rcases hs.toFills.retry (n := n) hmore (le_ncapa s _) hsized with
      hrefused | ⟨n', s', hrun, hs', hbuffer, hcapa, hgranted⟩
    · exact .inl hrefused
    · exact .inr ⟨n', s', hrun, hs', hbuffer, by omega, hgranted⟩
  rw [if_neg (by omega), if_neg hmore]
  by_cases hzero : s.capa ≤ 0 ∧ k ≤ 0
  · have hassert : assert e (s.ptr = none) = some () := by
      rw [assert, if_neg]
      rintro ⟨hasserts, hnot⟩
      exact hnot (hext.2 hasserts (by omega) (by omega))
    have hassert' : assert e (s.len ≤ 0) = some () := by
      rw [assert, if_neg]
      rintro ⟨-, hnot⟩
      omega
    rw [if_pos hzero, hassert, hassert']
    rcases hs.toFills.enlarge (n := n) 1 (by omega) (.inr (.inr (sized_one e))) with
      ⟨hrun, hrefused⟩ | ⟨s', hrun, hne, hs', hbuffer, hcapa, hgranted⟩
    · exact .inl ⟨n + 1, by simp [hrun], by omega, hrefused⟩
    · exact .inr ⟨n + 1, s', by simp [hrun, hne], hs', hbuffer, by omega, fun h => hgranted h.2⟩
  · rw [if_neg hzero]
    refine .inr ⟨n, s, rfl, hs.toFills, hs.buffer (by omega), by omega, fun h => ?_⟩
    omega

theorem Holds.roomy (hs : Holds s cs) (hext : Extends e s k) :
    (∃ n', StrDyn.resizeForNcat e n s k = some (false, n', s) ∧ Refused e n s k) ∨
    ∃ n' t, StrDyn.resizeForNcat e n s k = some (true, n', t) ∧ ¬wordSub t.capa t.len < k ∧
      cs.length + k ≠ nil ∧ ¬Refused e n s k ∧ ∀ chars, chars.length = k →
        ∃ s', extend t chars = some s' ∧ s'.len = cs.length + k ∧ Holds s' (cs ++ chars) := by
  rcases hs.resizeForNcat (n := n) hext with
    ⟨n', hrun, hrefused⟩ | ⟨n', t, hrun, ht, hbuffer, hroom, hgranted⟩
  · exact .inl ⟨n', hrun, hrefused⟩
  have htlen := ht.len
  have hbound := ht.bound
  have hcapa : wordSub t.capa t.len = t.capa - t.len :=
    wordSub_eq (by omega) (by rw [nil] at hbound; omega)
  refine .inr ⟨n', t, hrun, by omega, by omega, hgranted, fun chars hlength => ?_⟩
  obtain ⟨s', hextend, hs', -⟩ := ht.extend chars hbuffer (hlength ▸ hroom)
  refine ⟨s', hextend, ?_, hs'⟩
  rw [hs'.len, length_append, hlength]

theorem Holds.ncat_cases (hs : Holds s cs) (chars : List ℕ) (hext : Extends e s chars.length) :
    (∃ n', ncat e n s chars = some (nil, n', s) ∧ Refused e n s chars.length) ∨
    ∃ n' s', ncat e n s chars = some (cs.length + chars.length, n', s') ∧
      cs.length + chars.length ≠ nil ∧ Holds s' (cs ++ chars) ∧ ¬Refused e n s chars.length := by
  rcases hs.roomy (n := n) hext with ⟨n', hrun, hrefused⟩ | ⟨n', t, hrun, hroom, hne, hgranted,
    hadd⟩
  · exact .inl ⟨n', by simp [StrDyn.ncat, hrun], hrefused⟩
  · obtain ⟨s', hextend, hlen, hs'⟩ := hadd chars rfl
    refine .inr ⟨n', s', ?_, hne, hs', hgranted⟩
    simp [StrDyn.ncat, hrun, hroom, hextend, hlen]

theorem Holds.ncat (hs : Holds s cs) (hext : Extends e s chars.length) :
    Settles s (ncat e n s chars) (cs.length + chars.length) (cs ++ chars) := by
  rcases hs.ncat_cases (n := n) chars hext with ⟨n', hrun, -⟩ | ⟨n', s', hrun, hne, hs', -⟩
  · exact ⟨n', s, .inl ⟨hrun, rfl⟩⟩
  · exact ⟨n', s', .inr ⟨hrun, hne, hs'⟩⟩

theorem Holds.nrcat (hs : Holds s cs) (hext : Extends e s chars.length) :
    Settles s (nrcat e n s chars) (cs.length + chars.length) (cs ++ chars.reverse) := by
  rcases hs.roomy (n := n) hext with ⟨n', hrun, -⟩ | ⟨n', t, hrun, hroom, hne, -, hadd⟩
  · exact ⟨n', s, .inl ⟨by simp [StrDyn.nrcat, hrun], rfl⟩⟩
  · obtain ⟨s', hextend, hlen, hs'⟩ := hadd chars.reverse length_reverse
    refine ⟨n', s', .inr ⟨?_, hne, hs'⟩⟩
    simp [StrDyn.nrcat, hrun, hroom, hextend, hlen]

def Smooth (e : Env) (c : ℕ) : ℕ → ℕ → StrDyn → Prop
  | 0, _, _ => True
  | k + 1, n, s => Extends e s 1 ∧ ¬Refused e n s 1 ∧
      ∀ r n' s', StrDyn.ncat e n s [c] = some (r, n', s') → Smooth e c k n' s'

theorem Holds.nccat_smooth (hs : Holds s cs) (hsmooth : Smooth e c k n s) :
    ∃ n' s', nccat e c k n s = some (cs.length + k, n', s') ∧ cs.length + k ≠ nil ∧
      Holds s' (cs ++ List.replicate k c) := by
  induction k generalizing n s cs with
  | zero =>
    refine ⟨n, s, ?_, ?_, ?_⟩
    · rw [nccat, hs.len]
      rfl
    · have hle := hs.le
      have hbound := hs.bound
      omega
    · rw [replicate_zero, append_nil]
      exact hs
  | succ k ih =>
    obtain ⟨hext, hgranted, hrest⟩ := hsmooth
    rcases hs.ncat_cases (n := n) [c] hext with
      ⟨n', -, hrefused⟩ | ⟨n', s', hrun, hne, hs', -⟩
    · exact absurd hrefused hgranted
    obtain ⟨n'', s'', hloop, hne', hs''⟩ := ih hs' (hrest _ _ _ hrun)
    rw [length_append, length_singleton, add_assoc, add_comm 1] at hloop hne'
    refine ⟨n'', s'', ?_, hne', ?_⟩
    · simp only [length_singleton] at hrun hne
      simp [nccat, hrun, hne, hloop]
    · rw [replicate_succ, append_cons]
      exact hs''

theorem Holds.nccat (hs : Holds s cs)
    (hmeets : k ≠ 0 ∧ Extends e s 1 ∧ Refused e n s 1 ∨ Smooth e c k n s) :
    Settles s (nccat e c k n s) (cs.length + k) (cs ++ List.replicate k c) := by
  rcases hmeets with ⟨hk, hext, hrefused⟩ | hsmooth
  · obtain ⟨k, rfl⟩ := Nat.exists_eq_succ_of_ne_zero hk
    rcases hs.ncat_cases (n := n) [c] hext with ⟨n', hrun, -⟩ | ⟨n', s', -, -, -, hnot⟩
    · exact ⟨n', s, .inl ⟨by simp [StrDyn.nccat, hrun], rfl⟩⟩
    · exact absurd hrefused hnot
  · obtain ⟨n', s', hrun, hne, hs'⟩ := hs.nccat_smooth hsmooth
    exact ⟨n', s', .inr ⟨hrun, hne, hs'⟩⟩

theorem exists_cuts (cs : List ℕ) (i k : ℕ) (hle : i + k ≤ cs.length) :
    ∃ as bs ds, cs = as ++ (bs ++ ds) ∧ as.length = i ∧ bs.length = k ∧ cs.take i = as ∧
      cs.drop (i + k) = ds := by
  refine ⟨cs.take i, (cs.drop i).take k, cs.drop (i + k), ?_, ?_, ?_, rfl, rfl⟩
  · rw [← drop_drop, take_append_drop, take_append_drop]
  · rw [length_take]
    omega
  · rw [length_take, length_drop]
    omega

theorem Holds.del (hs : Holds s cs) (index size : ℕ)
    (hword : s.ptr = none ∨ s.len ≤ index ∨ index + size < 2 ^ 64) :
    ∃ s', del s index size = some (s'.len, s') ∧
      Holds s' (cs.take index ++ cs.drop (index + size)) := by
  have hlen := hs.len
  have hle := hs.le
  have hbound := hs.bound
  have hkeep (h : cs.length ≤ index ∨ size = 0) : cs.take index ++ cs.drop (index + size) = cs := by
    rcases h with h | h
    · rw [take_of_length_le h, drop_of_length_le (by omega), append_nil]
    · rw [h, add_zero, take_append_drop]
  rw [StrDyn.del]
  cases hptr : s.ptr with
  | none =>
    have hcapa := hs.unbuffered hptr
    rw [hkeep (.inl (by omega))]
    exact ⟨s, rfl, hs⟩
  | some buf =>
    by_cases hin : index < s.len ∧ 0 < size
    · obtain ⟨hindex, hsize⟩ := hin
      have hword' : index + size < 2 ^ 64 := by
        rcases hword with hnone | hbeyond | hword
        · rw [hptr] at hnone
          cases hnone
        · omega
        · exact hword
      by_cases hend : s.len ≤ index + size
      · obtain ⟨buf', buf'', hbuf', hput, ht⟩ :=
          hs.toFills.truncate index (hptr ▸ Option.some_ne_none buf) (by omega)
        rw [hptr, Option.some.injEq] at hbuf'
        subst hbuf'
        rw [drop_of_length_le (by omega), append_nil]
        refine ⟨_, ?_, ht⟩
        simp [hindex, hsize, wordAdd_eq hword', hend, hput]
      obtain ⟨as, bs, ds, hcs, has, hbs, htake, hdrop⟩ := exists_cuts cs index size (by omega)
      obtain ⟨rest, rfl⟩ := hs.buffer_eq hptr
      obtain ⟨hlength, -⟩ := hs.buffered _ hptr
      -- what the copied characters leave behind is as long as what is deleted
      obtain ⟨x, xs, hleft⟩ : ∃ x xs, (bs ++ ds).drop ds.length = x :: xs := by
        apply exists_cons_of_length_pos
        rw [length_drop, length_append]
        omega
      have htotal : s.len = as.length + (bs.length + ds.length) := by
        rw [hlen, hcs, length_append, length_append]
      have hrest : s.len - (index + size) = ds.length := by omega
      have hcopy : copy (cs ++ 0 :: rest) index (index + size) ds.length =
          some (as ++ (ds ++ x :: (xs ++ 0 :: rest))) := by
        rw [hcs, append_assoc, append_assoc, ← has, ← hbs, ← cons_append, ← hleft]
        exact copy_append
      have hput : put (as ++ (ds ++ x :: (xs ++ 0 :: rest))) (index + ds.length) 0 =
          some (as ++ (ds ++ 0 :: (xs ++ 0 :: rest))) := by
        rw [← has, ← append_assoc, ← append_assoc as, ← length_append]
        exact put_append x 0
      have hshort : wordSub s.len size = s.len - size := by
        rw [nil] at hbound
        exact wordSub_eq (by omega) (by omega)
      rw [htake, hdrop]
      refine ⟨{ s with
        ptr := some (as ++ (ds ++ 0 :: (xs ++ 0 :: rest)))
        len := s.len - size }, ?_, holds_of_eq (congrArg some (append_assoc ..).symm) ?_ ?_
          hbound⟩
      · simp [hindex, hsize, wordAdd_eq hword', hend, hrest, hcopy, hput, hshort]
      · change s.len - size = (as ++ ds).length
        rw [length_append]
        omega
      · have hxs := congrArg List.length hleft
        rw [← hlength, hcs]
        simp only [length_append, length_cons, length_drop] at hxs ⊢
        omega
    · rw [hkeep (by omega)]
      exact ⟨s, by simp only [if_neg hin], hs⟩

theorem Holds.overwrite (hs : Holds s (as ++ (bs ++ ds))) (chars : List ℕ)
    (hlength : bs.length = chars.length) (hbuffer : s.ptr ≠ none) :
    ∃ buf buf', s.ptr = some buf ∧ blit buf as.length chars = some buf' ∧
      Holds { s with ptr := some buf' } (as ++ (chars ++ ds)) := by
  obtain ⟨buf, hptr⟩ := Option.ne_none_iff_exists'.mp hbuffer
  obtain ⟨rest, rfl⟩ := hs.buffer_eq hptr
  obtain ⟨htotal, -⟩ := hs.buffered _ hptr
  have hassoc (xs : List ℕ) : as ++ (xs ++ ds) ++ 0 :: rest = as ++ (xs ++ (ds ++ 0 :: rest)) := by
    rw [append_assoc, append_assoc]
  refine ⟨_, as ++ (chars ++ ds) ++ 0 :: rest, hptr, ?_, holds_of_eq rfl ?_ ?_ hs.bound⟩
  · rw [hassoc, hassoc]
    exact blit_append hlength
  · rw [hs.len, length_append, length_append, hlength, length_append, length_append]
  · rw [← htotal, hassoc, hassoc]
    simp [hlength]

theorem Holds.replaced (hs : Holds s (as ++ (bs ++ ds))) (hlength : bs.length = chars.length)
    (n : ℕ) :
    ∃ s', (if 0 < chars.length then do
        let buf ← s.ptr
        let buf ← blit buf as.length chars
        some (s.len, n, { s with ptr := some buf })
      else some (s.len, n, s)) = some ((as ++ (chars ++ ds)).length, n, s') ∧
        Holds s' (as ++ (chars ++ ds)) := by
  have hlen : s.len = (as ++ (chars ++ ds)).length := by
    rw [hs.len]
    simp [hlength]
  have hle := hs.le
  simp only [length_append] at hle
  by_cases hpos : 0 < chars.length
  · obtain ⟨buf, buf', hptr, hblit, hs'⟩ := hs.overwrite _ hlength (hs.buffer (by omega))
    refine ⟨_, ?_, hs'⟩
    rw [if_pos hpos, hlen]
    simp [hptr, hblit]
  · have hchars : chars = [] := eq_nil_of_length_eq_zero (by omega)
    have hbs : bs = [] := eq_nil_of_length_eq_zero (by omega)
    refine ⟨s, ?_, ?_⟩
    · rw [if_neg hpos, hlen]
    · rw [hchars, ← hbs]
      exact hs

theorem Holds.widened (hs : Holds s (as ++ (bs ++ ds))) (hlonger : bs.length < k)
    (hasks : s.capa < as.length + k + ds.length → Asks e n s (as.length + k + ds.length)) :
    ∃ n', StrDyn.setlen e n s (as.length + k + ds.length) = some (nil, n', s) ∨
      ∃ t, StrDyn.setlen e n s (as.length + k + ds.length) =
          some (as.length + k + ds.length, n', t) ∧ as.length + k + ds.length ≠ nil ∧
        ∃ buf buf' mid, t.ptr = some buf ∧ slice buf (as.length + bs.length) ds.length = some ds ∧
          blit buf (as.length + k) ds = some buf' ∧ mid.length = k ∧
          Holds { t with ptr := some buf' } (as ++ (mid ++ ds)) := by
  have hcs : (as ++ (bs ++ ds)).length = as.length + (bs.length + ds.length) := by
    rw [length_append, length_append]
  obtain ⟨n', t, ⟨hrun, rfl⟩ | ⟨hrun, hne, ht⟩⟩ := hs.setlen hasks
  · exact ⟨n', .inl hrun⟩
  refine ⟨n', .inr ⟨t, hrun, hne, ?_⟩⟩
  rw [take_of_length_le (by omega)] at ht
  generalize hspaces : List.replicate (as.length + k + ds.length - (as ++ (bs ++ ds)).length) 32 =
    spaces at ht
  have hmore : spaces.length = k - bs.length := by
    rw [← hspaces, length_replicate]
    omega
  have hwhole : (as ++ (bs ++ ds) ++ spaces).length = as.length + k + ds.length := by
    rw [length_append]
    omega
  obtain ⟨xs, ys, zs, hxs, hx, hy, -, hz⟩ :=
    exists_cuts (as ++ (bs ++ ds) ++ spaces) (as.length + k) ds.length (by omega)
  rw [drop_of_length_le (by omega)] at hz
  have hbuffer : t.ptr ≠ none := by
    have hle := ht.le
    exact ht.buffer (by omega)
  have ht' := ht
  rw [hxs] at ht'
  obtain ⟨buf, buf', hptr, hblit, hmoved⟩ := ht'.overwrite ds hy hbuffer
  obtain ⟨rest, hbuf⟩ := ht.buffer_eq hptr
  refine ⟨buf, buf', xs.drop as.length, hptr, ?_, hx ▸ hblit, ?_, ?_⟩
  · have hparts : buf = as ++ bs ++ (ds ++ (spaces ++ 0 :: rest)) := by
      rw [hbuf]
      simp
    rw [hparts, ← length_append]
    exact slice_append
  · rw [length_drop]
    omega
  · have hfront : xs.take as.length = as := by
      calc
        xs.take as.length = (xs ++ (ys ++ zs)).take as.length :=
          (take_append_of_le_length (by omega)).symm
        _ = as := by rw [← hxs, append_assoc, take_left]
    have hsplit : as ++ xs.drop as.length = xs := by
      calc
        as ++ xs.drop as.length = xs.take as.length ++ xs.drop as.length := by rw [hfront]
        _ = xs := take_append_drop ..
    rw [← hz, append_nil] at hmoved
    rw [← append_assoc, hsplit]
    exact hmoved

def Amends (e : Env) (n : ℕ) (s : StrDyn) (pos len : ℕ) (repl : List ℕ) : Prop :=
  let total := s.len - min (s.len - min s.len pos) len + (StrDyn.chars repl).length
  s.capa < total → total < 2 ^ 64 ∧ Asks e n s total

theorem Holds.amend {pos : ℕ} {repl : List ℕ} (hs : Holds s cs)
    (hmeets : Amends e n s pos len repl) :
    Settles s (amend e n s pos len repl)
      (cs.take pos ++ (StrDyn.chars repl ++ cs.drop (pos + len))).length
      (cs.take pos ++ (StrDyn.chars repl ++ cs.drop (pos + len))) := by
  have hlen := hs.len
  have hle := hs.le
  have hbound := hs.bound
  rw [nil] at hbound
  rw [Amends] at hmeets
  rw [StrDyn.amend]
  generalize StrDyn.chars repl = chars at hmeets ⊢
  generalize hpos : (if s.len ≤ pos then s.len else pos) = pos'
  generalize hcut : (if s.len - pos' < len then s.len - pos' else len) = len'
  have hpos' : pos' = min s.len pos := by
    split at hpos <;> omega
  have hlen' : len' = min (s.len - pos') len := by
    split at hcut <;> omega
  rw [← hpos', ← hlen'] at hmeets
  obtain ⟨as, bs, ds, rfl, rfl, rfl, htake, hdrop⟩ := exists_cuts cs pos' len' (by omega)
  rw [length_append, length_append] at hlen hle
  have htake' : (as ++ (bs ++ ds)).take pos = as := by
    by_cases hin : pos ≤ s.len
    · have heq : pos = as.length := by omega
      rw [heq]
      exact htake
    · obtain ⟨rfl, rfl⟩ : bs = [] ∧ ds = [] :=
        ⟨eq_nil_of_length_eq_zero (by omega), eq_nil_of_length_eq_zero (by omega)⟩
      rw [append_nil, append_nil, take_of_length_le (by omega)]
  have hdrop' : (as ++ (bs ++ ds)).drop (pos + len) = ds := by
    by_cases hin : pos + len ≤ s.len
    · have heq : pos + len = as.length + bs.length := by omega
      rw [heq]
      exact hdrop
    · obtain rfl : ds = [] := eq_nil_of_length_eq_zero (by omega)
      apply drop_of_length_le
      rw [append_nil, length_append]
      rw [length_nil] at hlen
      omega
  rw [htake', hdrop']
  -- each way of making room ends with the last step
  have hlast {t : StrDyn} {mid : List ℕ} (ht : Holds t (as ++ (mid ++ ds)))
      (hmid : mid.length = chars.length) (n' : ℕ) : ∃ s', (if 0 < chars.length then do
          let buf ← t.ptr
          let buf ← blit buf as.length chars
          some (t.len, n', { t with ptr := some buf })
        else some (t.len, n', t)) = some ((as ++ (chars ++ ds)).length, n', s') ∧
          (as ++ (chars ++ ds)).length ≠ nil ∧ Holds s' (as ++ (chars ++ ds)) := by
    obtain ⟨s', hrun, hs'⟩ := ht.replaced hmid n'
    have hle' := hs'.le
    have hbound' := hs'.bound
    exact ⟨s', hrun, by omega, hs'⟩
  rcases Nat.lt_trichotomy chars.length bs.length with hshorter | hequal | hlonger
  · obtain ⟨t, hdel, ht⟩ := hs.del as.length (bs.length - chars.length)
      (.inr (.inr (by omega)))
    have hfront : (as ++ (bs ++ ds)).take as.length = as := take_left
    have hback : (as ++ (bs ++ ds)).drop (as.length + (bs.length - chars.length)) =
        bs.drop (bs.length - chars.length) ++ ds := by
      rw [drop_append, drop_of_length_le (by omega), nil_append,
        drop_append_of_le_length (by omega)]
      congr 2
      omega
    rw [hfront, hback] at ht
    obtain ⟨s', hrun, hne, hs'⟩ := hlast ht (by rw [length_drop]; omega) n
    refine ⟨n, s', .inr ⟨?_, hne, hs'⟩⟩
    rw [← hrun]
    simp [hshorter, hdel, nil]
  · obtain ⟨s', hrun, hne, hs'⟩ := hlast hs hequal.symm n
    refine ⟨n, s', .inr ⟨?_, hne, hs'⟩⟩
    rw [← hrun]
    simp [hequal, nil]
  · have htotal : s.len - bs.length + chars.length = as.length + chars.length + ds.length := by
      omega
    rw [htotal] at hmeets
    have hword : wordSub (wordAdd s.len chars.length) bs.length =
        as.length + chars.length + ds.length := by
      have hlt : as.length + chars.length + ds.length < 2 ^ 64 := by
        by_cases hmore : s.capa < as.length + chars.length + ds.length
        · exact (hmeets hmore).1
        · omega
      rw [wordSub, wordAdd]
      omega
    have hrest : s.len - (as.length + bs.length) = ds.length := by omega
    obtain ⟨n', hrun | ⟨t, hrun, hnil, buf, buf', mid, hptr, hslice, hblit, hmid, ht⟩⟩ :=
      hs.widened (n := n) hlonger fun hmore => (hmeets hmore).2
    · refine ⟨n', s, .inl ⟨?_, rfl⟩⟩
      simp [hlonger, Nat.lt_asymm hlonger, hword, hrun]
    · obtain ⟨s', hlast, hne, hs'⟩ := hlast ht hmid n'
      refine ⟨n', s', .inr ⟨?_, hne, hs'⟩⟩
      have hzero : 0 ≠ nil := by decide
      rw [← hlast]
      simp [hlonger, Nat.lt_asymm hlonger, hword, hrun, hnil, hptr, hrest, hslice, hblit, hzero]

end Qse.StrDyn
