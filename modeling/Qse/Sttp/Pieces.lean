import Qse.Sttp.Steps

/-!
# Commands in pieces

However the bytes of commands are cut into calls of `feed`, the commands are handled in order,
as long as no call without any data comes while a character is cut.
-/

open List

namespace Qse.SttpFeed

open Fallible

variable {ct : Ctype} {env : Env} {a b m : Reader} {cs : List UInt32} {later : List UInt8}

def Partial (l : List UInt8) : Prop :=
  ∃ n, Utf8.utf8touc .four l = (n + 1, none) ∧ l.length ≤ n ∧ n < 4

def LeftOver (l : List UInt8) : Prop := l = [] ∨ Partial l

theorem not_partial_nil : ¬Partial [] := by
  rintro ⟨n, h, -⟩
  cases h

variable {l : List UInt8} {c : UInt32}

theorem LeftOver.length_le (h : LeftOver l) : l.length ≤ 3 := by
  rcases h with rfl | ⟨n, -, hlen, hsmall⟩
  · exact Nat.zero_le 3
  · omega

theorem Partial.not_encoding (h : Partial l) : ¬∃ cs, Utf8.encode cs = some l := by
  rintro ⟨cs, hcs⟩
  cases l with
  | nil => exact not_partial_nil h
  | cons x xs =>
    rw [← append_nil (x :: xs)] at hcs
    obtain ⟨n, hn, -⟩ := h
    rcases Utf8.utf8touc_encode hcs with ⟨k, w, ws, -, hw, -⟩ | ⟨-, hne⟩
    · rw [hn] at hw
      cases (Prod.mk.inj hw).2
    · exact hne rfl

theorem put_injective {s : Sttp} (h : s.put a = s.put b) : a = b := by
  obtain ⟨stack, command, token, clock, handled⟩ := a
  obtain ⟨stack', command', token', clock', handled'⟩ := b
  simp only [Sttp.put, Sttp.mk.injEq, World.mk.injEq] at h
  obtain ⟨rfl, rfl, rfl, -, -, -, -, -, rfl, rfl, -⟩ := h
  rfl

theorem Takes.eq_of_space (h : Takes ct env a c m) (hstack : a.stack = [])
    (hspace : isSpaceChar ct c = true) : a = m := by
  have hrun := h (Sttp.new ⟨0, [], []⟩)
  have hskip : takeChar ct env c ((Sttp.new ⟨0, [], []⟩).put a) =
      (some ⟨⟩, (Sttp.new ⟨0, [], []⟩).put a) := by
    show (if a.stack = [] ∧ isSpaceChar ct c = true then pure ⟨⟩ else handleChar ct env 2 c :
      SttpM PUnit) _ = _
    rw [if_pos ⟨hstack, hspace⟩]
    rfl
  rw [hskip] at hrun
  exact put_injective (Prod.mk.inj hrun).2

theorem feedChunk_char {x : UInt8} {rest : List UInt8} {k : ℕ}
    (hchar : Utf8.utf8touc .four (x :: rest) = (k + 1, some c)) (htakes : Takes ct env a c m)
    (n : ℕ) (ever : Bool) : (∀ s : Sttp, feedChunk ct env (n + 1) (x :: rest) ever (s.put a) =
        feedChunk ct env n (rest.drop k) ever (s.put a)) ∧ a = m ∨
      (ever = true ∧ ∀ s : Sttp, feedChunk ct env (n + 1) (x :: rest) ever (s.put a) =
        (some (true, x :: rest), s.put a)) ∨
      ∀ s : Sttp, feedChunk ct env (n + 1) (x :: rest) ever (s.put a) =
        feedChunk ct env n (rest.drop k) (decide (m.stack = [])) (s.put m) := by
  have hturn (s : Sttp) : feedChunk ct env (n + 1) (x :: rest) ever (s.put a) =
      (if a.stack = [] ∧ isSpaceChar ct c then feedChunk ct env n (rest.drop k) ever
        else if ever then pure (true, x :: rest)
        else do
          handleChar ct env 2 c
          let stack ← ask fun s => s.stack
          feedChunk ct env n (rest.drop k) (stack = []) :
        SttpM (Bool × List UInt8)) (s.put a) := by
    rw [feedChunk, hchar]
    rfl
  by_cases hskip : a.stack = [] ∧ isSpaceChar ct c = true
  · refine .inl ⟨fun s => ?_, htakes.eq_of_space hskip.1 hskip.2⟩
    rw [hturn, if_pos hskip]
  refine .inr ?_
  cases ever with
  | true =>
    refine .inl ⟨rfl, fun s => ?_⟩
    rw [hturn, if_neg hskip, if_pos rfl]
    rfl
  | false =>
    refine .inr fun s => ?_
    have hrun := htakes s
    have hhandle : takeChar ct env c (s.put a) = handleChar ct env 2 c (s.put a) := by
      show (if a.stack = [] ∧ isSpaceChar ct c = true then pure ⟨⟩
        else handleChar ct env 2 c : SttpM PUnit) _ = _
      rw [if_neg hskip]
    rw [hhandle] at hrun
    rw [hturn, if_neg hskip, if_neg Bool.false_ne_true]
    exact (bind_some hrun).trans rfl

theorem feedChunk_partial (h : Partial l) (n : ℕ) (ever : Bool) (s : Sttp) :
    feedChunk ct env (n + 1) l ever s = (some (ever, l), s) := by
  cases l with
  | nil => exact absurd h not_partial_nil
  | cons x xs =>
    obtain ⟨k, hk, -⟩ := h
    rw [feedChunk, hk]
    rfl

structure Before (ct : Ctype) (env : Env) (b a : Reader) (cs : List UInt32)
    (bytes : List UInt8) : Prop where
  reads : Reads ct env a cs b
  bytes : Utf8.encode cs = some bytes

def Progress (cs : List UInt32) (data : List UInt8) (cs' : List UInt32) (left : List UInt8) :
    Prop :=
  ∃ done front, cs = done ++ cs' ∧ data = front ++ left ∧ Utf8.encode done = some front

variable {cs' cs'' : List UInt32} {data left left' : List UInt8}

theorem Progress.refl (cs : List UInt32) (data : List UInt8) : Progress cs data cs data :=
  ⟨[], [], rfl, rfl, rfl⟩

theorem Progress.trans (h : Progress cs data cs' left) (h' : Progress cs' left cs'' left') :
    Progress cs data cs'' left' := by
  obtain ⟨done, front, rfl, rfl, hdone⟩ := h
  obtain ⟨done', front', rfl, rfl, hdone'⟩ := h'
  exact ⟨done ++ done', front ++ front', by rw [append_assoc], by rw [append_assoc],
    Utf8.encode_append hdone hdone'⟩

theorem Progress.char {x : UInt8} {rest : List UInt8} {k : ℕ} {c : UInt32} {ws : List UInt32}
    (hcs : Utf8.encode (c :: ws) = some (x :: rest ++ later))
    (hws : Utf8.encode ws = some (rest.drop k ++ later)) :
    Progress (c :: ws) (x :: rest) ws (rest.drop k) := by
  have hsplit : x :: rest = x :: rest.take k ++ rest.drop k := by
    rw [cons_append, take_append_drop]
  obtain ⟨as, more, has, hmore, heq⟩ := Utf8.encode_cons.1 hcs
  obtain rfl : rest.drop k ++ later = more := Option.some.inj (hws.symm.trans hmore)
  rw [hsplit, append_assoc] at heq
  have hbytes : Utf8.encode [c] = some (x :: rest.take k) :=
    Utf8.encode_cons.2 ⟨as, [], has, rfl, by
      rw [append_nil, append_cancel_right heq]⟩
  exact ⟨[c], x :: rest.take k, rfl, hsplit, hbytes⟩

theorem feedChunk_reads : ∀ (n : ℕ) {cs : List UInt32} {data : List UInt8} {a : Reader}
    (ever : Bool), data.length ≤ n → Before ct env b a cs (data ++ later) →
    ∃ m completed cs' left, Before ct env b m cs' (left ++ later) ∧
      Progress cs data cs' left ∧ (completed = true → ever = true ∨ left.length < data.length) ∧
      (completed = false → LeftOver left) ∧
      ∀ s : Sttp, feedChunk ct env n data ever (s.put a) = (some (completed, left), s.put m)
  | n, cs, [], a, ever, _, hbefore => by
    refine ⟨a, ever, cs, [], hbefore, .refl cs [], .inl, fun _ => .inl rfl, fun s => ?_⟩
    cases n <;> rfl
  | n + 1, cs, x :: rest, a, ever, hlen, hbefore => by
    rw [length_cons] at hlen
    rcases Utf8.utf8touc_encode hbefore.bytes with
      ⟨k, c, ws, rfl, hchar, hk, hws⟩ | ⟨⟨k, hk, hlow, hup⟩, -⟩
    · obtain ⟨m, htakes, hreads⟩ := hbefore.reads
      have hshort : (rest.drop k).length ≤ n := by
        rw [length_drop]
        omega
      have hstep : Progress (c :: ws) (x :: rest) ws (rest.drop k) := .char hbefore.bytes hws
      have hnext (ever : Bool) := feedChunk_reads n ever hshort ⟨hreads, hws⟩
      rcases feedChunk_char hchar htakes n ever with ⟨hrun, rfl⟩ | ⟨hever, hrun⟩ | hrun
      · obtain ⟨m', completed, cs', left, hbefore', hprogress, hcompleted, hleft, hrest⟩ :=
          hnext ever
        refine ⟨m', completed, cs', left, hbefore', hstep.trans hprogress, ?_, hleft,
          fun s => (hrun s).trans (hrest s)⟩
        intro hdone
        refine (hcompleted hdone).imp_right fun hlt => ?_
        rw [length_drop] at hlt
        rw [length_cons]
        omega
      · refine ⟨a, true, c :: ws, x :: rest, hbefore, .refl _ _, fun _ => .inl hever, ?_, hrun⟩
        rintro ⟨⟩
      · obtain ⟨m', completed, cs', left, hbefore', hprogress, hcompleted, hleft, hrest⟩ :=
          hnext (decide (m.stack = []))
        refine ⟨m', completed, cs', left, hbefore', hstep.trans hprogress, ?_, hleft,
          fun s => (hrun s).trans (hrest s)⟩
        intro _
        obtain ⟨done, front, -, hfront, -⟩ := hprogress
        have hcount := congrArg List.length hfront
        rw [length_append, length_drop] at hcount
        rw [length_cons]
        exact .inr (by omega)
    · have hpartial : Partial (x :: rest) := ⟨k, hk, hlow, hup⟩
      exact ⟨a, ever, cs, x :: rest, hbefore, .refl _ _, .inl,
        fun _ => .inr hpartial, fun s => feedChunk_partial hpartial n ever (s.put a)⟩

def Sttp.keep (s : Sttp) (l : List UInt8) : Sttp := { s with rdLo := l }

theorem keepByte_keep (hl : l.length < mblenMax) (x : UInt8) (s : Sttp) :
    keepByte x (s.keep l) = (some ⟨⟩, s.keep (l ++ [x])) := by
  show (if l.length < mblenMax then change fun s => { s with rdLo := s.rdLo ++ [x] }
    else undefinedBehavior : SttpM PUnit) (s.keep l) = _
  rw [if_pos hl]
  rfl

theorem keepBytes_keep : ∀ (xs : List UInt8) {l : List UInt8}, (l ++ xs).length ≤ mblenMax →
    ∀ s : Sttp, keepBytes xs (s.keep l) = (some ⟨⟩, s.keep (l ++ xs))
  | [], l, _, s => by
    rw [append_nil]
    rfl
  | x :: xs, l, hl, s => by
    have hfits : l.length < mblenMax := by
      rw [length_append, length_cons] at hl
      omega
    have hrest := keepBytes_keep xs (l := l ++ [x])
      (by rwa [append_assoc, singleton_append]) s
    rw [append_assoc, singleton_append] at hrest
    exact (bind_some (keepByte_keep hfits x s)).trans hrest

theorem feedData_reads : ∀ (n : ℕ) {cs : List UInt32} {data : List UInt8} {a : Reader},
    data.length ≤ n → Before ct env b a cs (data ++ later) →
    ∃ m cs' left, Before ct env b m cs' (left ++ later) ∧ Progress cs data cs' left ∧
      LeftOver left ∧
      ∀ s : Sttp, feedData ct env false n data ((s.keep []).put a) = (some [], (s.keep left).put m)
  | n, cs, [], a, _, hbefore => by
    refine ⟨a, cs, [], hbefore, .refl cs [], .inl rfl, fun s => ?_⟩
    cases n <;> rfl
  | n + 1, cs, x :: rest, a, hlen, hbefore => by
    obtain ⟨m, completed, cs', left, hbefore', hprogress, hcompleted, hleft, hchunk⟩ :=
      feedChunk_reads (rest.length + 1) false le_rfl hbefore
    have hrun (s : Sttp) : feedData ct env false (n + 1) (x :: rest) ((s.keep []).put a) =
        (if completed then feedData ct env false n left
          else do
            keepBytes left
            pure [] : SttpM (List UInt8)) ((s.keep []).put m) :=
      bind_some (hchunk (s.keep []))
    cases completed with
    | true =>
      have hshort : left.length < rest.length + 1 :=
        (hcompleted rfl).resolve_left Bool.false_ne_true
      rw [length_cons] at hlen
      obtain ⟨m', cs'', left', hbefore'', hprogress', hleft', hdata⟩ :=
        feedData_reads n (by omega) hbefore'
      exact ⟨m', cs'', left', hbefore'', hprogress.trans hprogress', hleft',
        fun s => (hrun s).trans (hdata s)⟩
    | false =>
      have hfew := (hleft rfl).length_le
      have hfits : ([] ++ left).length ≤ mblenMax := by
        rw [nil_append, mblenMax]
        omega
      refine ⟨m, cs', left, hbefore', hprogress, hleft rfl, fun s => (hrun s).trans ?_⟩
      exact (bind_some (keepBytes_keep left hfits (s.put m))).trans rfl

theorem feedChunk_single {x : UInt8} {rest : List UInt8}
    (hchar : Utf8.utf8touc .four (x :: rest) = (rest.length + 1, some c))
    (htakes : Takes ct env a c m) (n : ℕ) : ∃ completed, ∀ s : Sttp,
      feedChunk ct env (n + 1) (x :: rest) false (s.put a) = (some (completed, []), s.put m) := by
  have hnil (ever : Bool) (s : Sttp) : feedChunk ct env n (rest.drop rest.length) ever s =
      (some (ever, []), s) := by
    rw [drop_length]
    cases n <;> rfl
  rcases feedChunk_char hchar htakes n false with ⟨hrun, rfl⟩ | ⟨hever, -⟩ | hrun
  · exact ⟨false, fun s => (hrun s).trans (hnil false _)⟩
  · cases hever
  · exact ⟨decide (m.stack = []), fun s => (hrun s).trans (hnil _ _)⟩

theorem feedLeftOver_cons {x y : UInt8} {ys : List UInt8} (hroom : (y :: ys).length < mblenMax)
    (rest : List UInt8) (s : Sttp) :
    feedLeftOver ct env (x :: rest) ((s.keep (y :: ys)).put a) = (do
      let (completed, rest') ← feedChunk ct env ((ys ++ [x]).length + 1) (y :: (ys ++ [x])) false
      if completed = false ∧ rest'.length = (y :: (ys ++ [x])).length then
        if rest = [] then pure none else feedLeftOver ct env rest
      else if rest'.length = 0 then do
        change fun s => { s with rdLo := [] }
        pure (some rest)
      else undefinedBehavior : SttpM (Option (List UInt8)))
      ((s.keep (y :: (ys ++ [x]))).put a) :=
  bind_some (keepByte_keep hroom x (s.put a))

theorem feedLeftOver_reads : ∀ {data l : List UInt8}, data ≠ [] → Partial l →
    Before ct env b a cs (l ++ data ++ later) →
    (Partial (l ++ data) ∧ ∀ s : Sttp, feedLeftOver ct env data ((s.keep l).put a) =
      (some none, (s.keep (l ++ data)).put a)) ∨
    ∃ m cs' rest, Before ct env b m cs' (rest ++ later) ∧ Progress cs (l ++ data) cs' rest ∧
      ∀ s : Sttp, feedLeftOver ct env data ((s.keep l).put a) =
        (some (some rest), (s.keep []).put m)
  | [], l, hne, _, _ => absurd rfl hne
  | x :: rest, [], _, hpartial, _ => absurd hpartial not_partial_nil
  | x :: rest, y :: ys, _, hpartial, hbefore => by
    have hbytes : y :: ys ++ x :: rest = y :: (ys ++ [x]) ++ rest := by
      rw [cons_append, cons_append, append_assoc, singleton_append]
    have hlen : (ys ++ [x]).length = ys.length + 1 := by
      rw [length_append, length_singleton]
    obtain ⟨k, hk, hlow, hup⟩ := hpartial
    rw [length_cons] at hlow
    have hroom : (y :: ys).length < mblenMax := by
      rw [length_cons, mblenMax]
      omega
    have hrun (s : Sttp) := @feedLeftOver_cons ct env a x y ys hroom rest s
    rw [hbytes] at hbefore
    have hcs := hbefore.bytes
    rw [append_assoc] at hcs
    rcases Utf8.utf8touc_encode hcs with
      ⟨n, c, ws, rfl, hchar, hn, hws⟩ | ⟨⟨n, hn, hlow', hup'⟩, -⟩
    · -- the byte completes the character
      obtain rfl : n = k := Utf8.utf8touc_length hchar hk
      obtain rfl : n = (ys ++ [x]).length := by omega
      obtain ⟨m, htakes, hreads⟩ := hbefore.reads
      obtain ⟨completed, hchunk⟩ := feedChunk_single hchar htakes (ys ++ [x]).length
      rw [drop_length, nil_append] at hws
      refine .inr ⟨m, ws, rest, ⟨hreads, hws⟩, ?_, fun s => ?_⟩
      · have hone := @Progress.char (rest ++ later) _ _ (ys ++ [x]).length _ _ hcs
          (by rw [drop_length]; exact hws)
        obtain ⟨done, front, hsplit, hfront, hdone⟩ := hone
        rw [drop_length, append_nil] at hfront
        exact ⟨done, front, hsplit, by rw [hbytes, hfront], hdone⟩
      · refine (hrun s).trans ((bind_some (hchunk _)).trans ?_)
        dsimp only
        rw [if_neg (by rw [length_nil, length_cons]; omega)]
        rfl
    · -- there are still too few
      have hpartial' : Partial (y :: (ys ++ [x])) := ⟨n, hn, hlow', hup'⟩
      have hturn (s : Sttp) : feedLeftOver ct env (x :: rest) ((s.keep (y :: ys)).put a) =
          (if rest = [] then pure none else feedLeftOver ct env rest :
            SttpM (Option (List UInt8))) ((s.keep (y :: (ys ++ [x]))).put a) := by
        have hfed (n : ℕ) (s : Sttp) : feedChunk ct env (n + 1) (y :: (ys ++ [x])) false s = _ :=
          feedChunk_partial hpartial' n false s
        refine (hrun s).trans ((bind_some (hfed _ _)).trans ?_)
        dsimp only
        rw [if_pos ⟨rfl, rfl⟩]
      rw [hbytes]
      cases rest with
      | nil =>
        rw [append_nil]
        exact .inl ⟨hpartial', fun s => (hturn s).trans rfl⟩
      | cons z zs =>
        rcases feedLeftOver_reads (cons_ne_nil z zs) hpartial' hbefore with
          ⟨hall, hrest⟩ | ⟨m, cs', rest, hbefore', hprogress, hrest⟩
        · exact .inl ⟨hall, fun s => (hturn s).trans (hrest s)⟩
        · exact .inr ⟨m, cs', rest, hbefore', hprogress, fun s => (hturn s).trans (hrest s)⟩

theorem feed_leftOver {s : Sttp} (hs : s.rdLo ≠ []) (data : List UInt8) :
    feed ct env false data s = (do
      let left ← feedLeftOver ct env data
      match left with
      | none => pure 0
      | some data => do
        let rest ← feedData ct env false data.length data
        pure rest.length : SttpM ℕ) s := by
  have hrun : feed ct env false data s = (if s.rdLo = [] then do
        let rest ← feedData ct env false data.length data
        pure rest.length
      else do
        let left ← feedLeftOver ct env data
        match left with
        | none => pure 0
        | some data => do
          let rest ← feedData ct env false data.length data
          pure rest.length : SttpM ℕ) s := rfl
  rw [hrun, if_neg hs]

theorem feed_reads (hl : LeftOver l) (hdata : l ≠ [] → data ≠ [])
    (hbefore : Before ct env b a cs (l ++ data ++ later)) :
    ∃ m cs' left, Before ct env b m cs' (left ++ later) ∧ Progress cs (l ++ data) cs' left ∧
      LeftOver left ∧
      ∀ s : Sttp, feed ct env false data ((s.keep l).put a) = (some 0, (s.keep left).put m) := by
  rcases hl with rfl | hpartial
  · rw [nil_append] at hbefore
    obtain ⟨m, cs', left, hbefore', hprogress, hleft, hrun⟩ :=
      feedData_reads data.length le_rfl hbefore
    exact ⟨m, cs', left, hbefore', hprogress, hleft, fun s => (bind_some (hrun s)).trans rfl⟩
  have hne : l ≠ [] := by
    rintro rfl
    exact not_partial_nil hpartial
  have hrun (s : Sttp) := @feed_leftOver ct env ((s.keep l).put a) hne data
  rcases feedLeftOver_reads (hdata hne) hpartial hbefore with
    ⟨hall, hleft⟩ | ⟨m, cs', rest, hbefore', hprogress, hleft⟩
  · exact ⟨a, cs, l ++ data, hbefore, .refl _ _, .inr hall,
      fun s => (hrun s).trans ((bind_some (hleft s)).trans rfl)⟩
  · obtain ⟨m', cs'', left, hbefore'', hprogress', hleft', hdata⟩ :=
      feedData_reads rest.length le_rfl hbefore'
    refine ⟨m', cs'', left, hbefore'', hprogress.trans hprogress', hleft', fun s => ?_⟩
    exact (hrun s).trans ((bind_some (hleft s)).trans ((bind_some (hdata s)).trans rfl))

end Qse.SttpFeed
