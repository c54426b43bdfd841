import Qse.Http.Feed
import Mathlib.Data.List.Infix

/-!
# The reader between two calls

Two pieces are read like the two in one, except where a chunk length is cut behind a space: digits
that follow then go on with the number.
-/

open List

namespace Qse.Http

/-- What can be told of a call: a failure leaves no state to go on from, but the messages
that came before it count. -/
def report {α : Type} : Except (Errnum × Htrd) α → Except (Errnum × List Re × List Attrs) α
  | .ok a => .ok a
  | .error (e, htrd) => .error (e, htrd.poked, htrd.heads)

/-- The reader is in the middle of a chunk length, `prev` ends behind the digits and `next`
begins with one more. -/
def BrokenLength (htrd : Htrd) (prev next : List UInt8) : Prop :=
  htrd.resumeAt = .dechunkResume ∧ 0 < htrd.chunk.count ∧
    (∀ c ∈ prev.getLast?, xdigitToNum c = none) ∧ ∃ c ∈ next.head?, (xdigitToNum c).isSome = true

/-! ## Chunk lengths -/

theorem readDigits_append (chunk : Chunk) (a b : List UInt8) :
    readDigits chunk (a ++ b) =
      if (readDigits chunk a).2 = [] then readDigits (readDigits chunk a).1 b
      else ((readDigits chunk a).1, (readDigits chunk a).2 ++ b) := by
  induction a generalizing chunk with
  | nil => rfl
  | cons c a ih =>
    rw [cons_append, readDigits, readDigits]
    cases xdigitToNum c with
    | none => rfl
    | some n => exact ih _

theorem readDigits_phase (chunk : Chunk) (ptr : List UInt8) :
    (readDigits chunk ptr).1.phase = chunk.phase := by
  induction ptr generalizing chunk with
  | nil => rfl
  | cons c ptr ih =>
    rw [readDigits]
    cases xdigitToNum c with
    | none => rfl
    | some n => exact ih _

variable {ptr a : List UInt8} {htrd : Htrd}

theorem readDigits_of_head (h : ∀ c ∈ ptr.head?, xdigitToNum c = none)
    (chunk : Chunk) : readDigits chunk ptr = (chunk, ptr) := by
  cases ptr with
  | nil => rfl
  | cons c ptr => rw [readDigits, h c rfl]

theorem readDigits_count (chunk : Chunk) (ptr : List UInt8) :
    ∃ digits, ptr = digits ++ (readDigits chunk ptr).2 ∧
      (∀ c ∈ digits, (xdigitToNum c).isSome = true) ∧
      (readDigits chunk ptr).1.count = chunk.count + digits.length ∧
      (digits = [] → (readDigits chunk ptr).1 = chunk) := by
  induction ptr generalizing chunk with
  | nil => exact ⟨[], rfl, by simp, rfl, fun _ => rfl⟩
  | cons c ptr ih =>
    rw [readDigits]
    cases hc : xdigitToNum c with
    | none => exact ⟨[], rfl, by simp, rfl, fun _ => rfl⟩
    | some n =>
      obtain ⟨digits, hptr, hdigits, hcount, -⟩ :=
        ih { chunk with len := (chunk.len * 16 + n) % 2 ^ 64, count := chunk.count + 1 }
      refine ⟨c :: digits, by rw [cons_append, ← hptr], ?_, ?_, by simp⟩
      · exact forall_mem_cons.mpr ⟨by simp [hc], hdigits⟩
      · simp only [hcount, length_cons]
        omega

theorem xdigitToNum_of_isSpaceOctet {c : UInt8} (h : isSpaceOctet c = true) :
    xdigitToNum c = none := by
  have hspace : ∀ c, isSpaceOctet c = true → xdigitToNum c = none :=
    forall_byte (by decide +kernel)
  exact hspace c h

theorem xdigitToNum_lf : xdigitToNum (mt '\n') = none := by decide

@[grind =] def skipLeading (count : ℕ) (ptr : List UInt8) : List UInt8 :=
  if count = 0 then ptr.dropWhile isSpaceOctet else ptr

theorem skipLeading_suffix (count : ℕ) (ptr : List UInt8) : skipLeading count ptr <:+ ptr := by
  rw [skipLeading]
  split
  · exact dropWhile_suffix _
  · exact suffix_refl _

theorem skipLeading_append {count : ℕ} (h : skipLeading count a ≠ [])
    (b : List UInt8) : skipLeading count (a ++ b) = skipLeading count a ++ b := by
  rw [skipLeading] at h ⊢
  rw [skipLeading]
  split
  · rw [if_pos ‹_›] at h
    rw [dropWhile_append, if_neg (by simpa [List.isEmpty_iff] using h)]
  · rfl

theorem skipLeading_append_of_eq_nil {count : ℕ} (h : skipLeading count a = []) (b : List UInt8) :
    skipLeading count (a ++ b) = skipLeading count b := by
  rw [skipLeading] at h ⊢
  rw [skipLeading]
  split
  · rw [if_pos ‹_›] at h
    rw [dropWhile_append, h]
    rfl
  · rw [if_neg ‹_›] at h
    rw [h]
    rfl

@[grind =] def endOfLength (htrd : Htrd) : Chunk × List UInt8 →
    Except (Errnum × Htrd) (Htrd × List UInt8)
  | (chunk, ptr) =>
    match ptr.dropWhile isSpaceOctet with
    | [] => .ok ({ htrd with chunk := chunk }, [])
    | c :: ptr =>
      if c = mt '\n' then
        let phase :=
          if chunk.count = 0 then .done else if chunk.len = 0 then .trailers else .data
        .ok ({ htrd with chunk := { chunk with phase := phase }, need := chunk.len }, ptr)
      else .error (.badre, { htrd with chunk := chunk })

theorem getchunklen_eq (htrd : Htrd) (ptr : List UInt8) :
    getchunklen htrd ptr =
      endOfLength htrd (readDigits htrd.chunk (skipLeading htrd.chunk.count ptr)) :=
  rfl

theorem endOfLength_spaces {rest : List UInt8} (h : ∀ c ∈ rest, isSpaceOctet c = true)
    (htrd : Htrd) (chunk : Chunk) (b : List UInt8) :
    endOfLength htrd (chunk, rest ++ b) = endOfLength htrd (chunk, b) := by
  rw [endOfLength, endOfLength, dropWhile_append_of_pos h]

theorem endOfLength_append {chunk : Chunk} (h : ptr.dropWhile isSpaceOctet ≠ []) (b : List UInt8) :
    endOfLength htrd (chunk, ptr ++ b) = match endOfLength htrd (chunk, ptr) with
      | .error e => .error e
      | .ok (htrd', rest) => .ok (htrd', rest ++ b) := by
  rw [endOfLength, endOfLength, dropWhile_append, if_neg (by simpa [List.isEmpty_iff] using h)]
  cases hrest : ptr.dropWhile isSpaceOctet with
  | nil => exact absurd hrest h
  | cons c rest =>
    simp only [cons_append]
    split <;> rfl

theorem getchunklen_rest {htrd' : Htrd} {rest : List UInt8}
    (h : getchunklen htrd ptr = .ok (htrd', rest)) : rest.length ≤ ptr.length - 1 := by
  rw [getchunklen_eq] at h
  obtain ⟨digits, hskip, -⟩ := readDigits_count htrd.chunk (skipLeading htrd.chunk.count ptr)
  cases hread : readDigits htrd.chunk (skipLeading htrd.chunk.count ptr) with
  | mk chunk behind
  rw [hread] at h hskip
  have hsuffix : behind <:+ ptr :=
    List.IsSuffix.trans ⟨digits, hskip.symm⟩ (skipLeading_suffix _ ptr)
  have hdrop := (dropWhile_suffix isSpaceOctet (l := behind)).length_le
  have hlen := hsuffix.length_le
  rw [endOfLength] at h
  cases hbehind : behind.dropWhile isSpaceOctet with
  | nil =>
    rw [hbehind] at h
    cases h
    exact Nat.zero_le _
  | cons c tail =>
    rw [hbehind] at h
    rw [hbehind, length_cons] at hdrop
    simp only at h
    split at h
    · cases h
      omega
    · cases h

def Chunk.phaseAfter (chunk : Chunk) : Phase :=
  if chunk.count = 0 then .done else if chunk.len = 0 then .trailers else .data

/-- What comes of a chunk length in a piece `a` and in `a ++ b`: if it does not end in the
piece, it is carried on with in the next one, unless it is cut behind a space. -/
inductive LengthJoin (htrd : Htrd) (a b : List UInt8) :
    Except (Errnum × Htrd) (Htrd × List UInt8) → Except (Errnum × Htrd) (Htrd × List UInt8) →
      Prop where
  | failed (e : Errnum × Htrd) : LengthJoin htrd a b (.error e) (.error e)
  | ended (chunk : Chunk) (hzero : chunk.count = 0 → chunk.len = 0) {rest : List UInt8}
      (hlt : rest.length < a.length) (hrest : rest <:+ a) :
      LengthJoin htrd a b
        (.ok ({ htrd with
          chunk := { chunk with phase := chunk.phaseAfter }
          need := chunk.len }, rest))
        (.ok ({ htrd with
          chunk := { chunk with phase := chunk.phaseAfter }
          need := chunk.len }, rest ++ b))
  | unended (chunk : Chunk) (hphase : chunk.phase = .len)
      (hzero : chunk.count = 0 → chunk.len = 0)
      (hwhole : ¬BrokenLength { htrd with chunk := chunk } a b) :
      LengthJoin htrd a b (.ok ({ htrd with chunk := chunk }, []))
        (getchunklen { htrd with chunk := chunk } b)
  | broken (chunk : Chunk) (hphase : chunk.phase = .len)
      (hzero : chunk.count = 0 → chunk.len = 0)
      (hbroken : BrokenLength { htrd with chunk := chunk } a b) :
      LengthJoin htrd a b (.ok ({ htrd with chunk := chunk }, []))
        (.error (.badre, { htrd with chunk := chunk }))

theorem getchunklen_join (hneed : htrd.need = 0) (hphase : htrd.chunk.phase = .len)
    (hzero : htrd.chunk.count = 0 → htrd.chunk.len = 0) (ha : a ≠ []) (b : List UInt8) :
    LengthJoin htrd a b (getchunklen htrd a) (getchunklen htrd (a ++ b)) := by
  have hlen := readDigits_phase htrd.chunk (skipLeading htrd.chunk.count a)
  obtain ⟨digits, hskip, hdigits, hcount, hnone⟩ :=
    readDigits_count htrd.chunk (skipLeading htrd.chunk.count a)
  rw [getchunklen_eq, getchunklen_eq]
  cases hread : readDigits htrd.chunk (skipLeading htrd.chunk.count a) with
  | mk chunk rest
  rw [hread] at hlen hskip hcount hnone
  have hsuffix : rest <:+ a :=
    List.IsSuffix.trans ⟨digits, hskip.symm⟩ (skipLeading_suffix _ a)
  have hzero' : chunk.count = 0 → chunk.len = 0 := by
    intro h0
    rw [h0] at hcount
    have hnil : digits = [] := length_eq_zero_iff.mp (by omega)
    have hsame : chunk = htrd.chunk := hnone hnil
    rw [hsame] at h0 ⊢
    exact hzero h0
  by_cases hempty : skipLeading htrd.chunk.count a = []
  · rw [hempty] at hread
    cases hread
    rw [skipLeading_append_of_eq_nil hempty]
    refine .unended htrd.chunk hphase hzero fun hbroken => ?_
    rw [skipLeading, if_neg hbroken.2.1.ne'] at hempty
    exact ha hempty
  rw [skipLeading_append hempty, readDigits_append, hread]
  cases hrest : rest.dropWhile isSpaceOctet with
  | cons c tail =>
    have hne : rest ≠ [] := by
      rintro rfl
      cases hrest
    have hbehind : c :: tail <:+ rest := hrest ▸ dropWhile_suffix _
    have htail : tail <:+ rest := (suffix_cons c tail).trans hbehind
    have hlt : tail.length < a.length := by
      have h1 := hsuffix.length_le
      have h2 := hbehind.length_le
      simp only [length_cons] at h2
      omega
    rw [if_neg hne, endOfLength_append (by simp [hrest]), endOfLength, hrest]
    simp only
    split
    · exact .ended chunk hzero' hlt (htail.trans hsuffix)
    · exact .failed _
  | nil =>
    have hspaces : ∀ c ∈ rest, isSpaceOctet c = true := by
      rwa [dropWhile_eq_nil_iff] at hrest
    have hpos : 0 < chunk.count := by
      rcases Nat.eq_zero_or_pos chunk.count with h0 | hpos
      · have hcount' : chunk.count = htrd.chunk.count + digits.length := hcount
        have hnil : digits = [] := length_eq_zero_iff.mp (by omega)
        rw [hnil, nil_append] at hskip
        rw [skipLeading, if_pos (by omega)] at hskip hempty
        rw [← show _ = rest from hskip, dropWhile_idempotent] at hrest
        exact absurd hrest hempty
      · exact hpos
    rw [endOfLength, hrest]
    by_cases hne : rest = []
    · rw [if_pos hne]
      have hcarry : getchunklen { htrd with chunk := chunk } b =
          endOfLength htrd (readDigits chunk b) := by
        rw [getchunklen_eq, skipLeading, if_neg hpos.ne']
        rfl
      rw [← hcarry]
      refine .unended chunk (hlen.trans hphase) hzero' fun hbroken => ?_
      have hskip' : skipLeading htrd.chunk.count a = digits := by
        rw [hskip, hne, append_nil]
      have hnonempty : digits ≠ [] := hskip' ▸ hempty
      obtain ⟨pre, hpre⟩ := skipLeading_suffix htrd.chunk.count a
      have hlast : digits.getLast hnonempty ∈ a.getLast? := by
        rw [← hpre, hskip', getLast?_append_of_ne_nil _ hnonempty]
        exact getLast?_eq_some_getLast hnonempty
      have hdigit := hdigits _ (getLast_mem hnonempty)
      rw [hbroken.2.2.1 _ hlast] at hdigit
      cases hdigit
    · rw [if_neg hne, endOfLength_spaces hspaces]
      by_cases hnext : ∀ c ∈ b.head?, xdigitToNum c = none
      · have hcarry : getchunklen { htrd with chunk := chunk } b =
            endOfLength htrd (chunk, b) := by
          rw [getchunklen_eq, skipLeading, if_neg hpos.ne', readDigits_of_head hnext]
          rfl
        rw [← hcarry]
        refine .unended chunk (hlen.trans hphase) hzero' fun hbroken => ?_
        obtain ⟨c, hc, hdigit⟩ := hbroken.2.2.2
        rw [hnext c hc] at hdigit
        cases hdigit
      obtain ⟨c, hc, hdigit⟩ : ∃ c ∈ b.head?, xdigitToNum c ≠ none := by
        simpa using hnext
      have hlast : ∀ c ∈ a.getLast?, xdigitToNum c = none := by
        intro c hc
        obtain ⟨pre, rfl⟩ := hsuffix
        rw [getLast?_append_of_ne_nil _ hne] at hc
        exact xdigitToNum_of_isSpaceOctet (hspaces c (mem_of_getLast? hc))
      have hfail : endOfLength htrd (chunk, b) =
          .error (.badre, { htrd with chunk := chunk }) := by
        cases b with
        | nil => cases hc
        | cons c' b =>
          cases hc
          have hnotspace : ¬isSpaceOctet c = true :=
            fun hspace => hdigit (xdigitToNum_of_isSpaceOctet hspace)
          have hnotlf : c ≠ mt '\n' := fun heq => hdigit (heq ▸ xdigitToNum_lf)
          rw [endOfLength, dropWhile_cons_of_neg hnotspace]
          simp only
          rw [if_neg hnotlf]
      rw [hfail]
      have hresume : ({ htrd with chunk := chunk } : Htrd).resumeAt = .dechunkResume := by
        simp [Htrd.resumeAt, hneed, show chunk.phase = .len from hlen.trans hphase]
      exact .broken chunk (hlen.trans hphase) hzero'
        ⟨hresume, hpos, hlast, c, hc, Option.isSome_iff_ne_none.mpr hdigit⟩

/-! ## Trailers -/

theorem getTrailingHeaders_seen (htrd : Htrd) (moved seen ptr : List UInt8) :
    report (getTrailingHeaders { htrd with tra := htrd.tra ++ moved } seen ptr) =
      report (getTrailingHeaders htrd (moved ++ seen) ptr) := by
  induction ptr generalizing htrd seen with
  | nil => simp [getTrailingHeaders]
  | cons c ptr ih =>
    rw [getTrailingHeaders, getTrailingHeaders]
    split
    · rfl
    split
    · split
      · simpa using ih { htrd with crlf := 2 } (seen ++ [c])
      · simp only [append_assoc]
        cases parseHeaders htrd.option htrd.option.trailers
          ((htrd.tra ++ (moved ++ (seen ++ [c]))).length + 1) htrd.re
          (htrd.tra ++ (moved ++ (seen ++ [c]))) <;> rfl
    · split
      · simpa using ih { htrd with crlf := seeCR htrd.crlf } (seen ++ [c])
      · simpa using ih { htrd with crlf := 0 } (seen ++ [c])

structure SameButTrailers (htrd htrd' : Htrd) : Prop where
  option : htrd'.option = htrd.option
  suspended : htrd'.suspended = htrd.suspended
  dummified : htrd'.dummified = htrd.dummified
  untilClose : htrd'.untilClose = htrd.untilClose
  need : htrd'.need = htrd.need
  heads : htrd'.heads = htrd.heads

/-- What comes of trailers in a piece `a` and in `a ++ b`: if they do not end in the piece,
they are carried on with in the next one. -/
inductive TrailersJoin (htrd : Htrd) (a b : List UInt8) :
    Except (Errnum × Htrd) (Htrd × List UInt8) → Except (Errnum × Htrd) (Htrd × List UInt8) →
      Prop where
  | failed (e : Errnum × Htrd) : TrailersJoin htrd a b (.error e) (.error e)
  | ended {htrd' : Htrd} {rest : List UInt8} (hsame : SameButTrailers htrd htrd')
      (hphase : htrd'.chunk.phase = .done) (hlt : rest.length < a.length) (hrest : rest <:+ a) :
      TrailersJoin htrd a b (.ok (htrd', rest)) (.ok (htrd', rest ++ b))
  | unended {htrd' : Htrd} {out : Except (Errnum × Htrd) (Htrd × List UInt8)}
      (hsame : SameButTrailers htrd htrd') (hphase : htrd'.chunk.phase = htrd.chunk.phase)
      (hout : report out = report (getTrailingHeaders htrd' [] b)) :
      TrailersJoin htrd a b (.ok (htrd', [])) out

theorem TrailersJoin.cons {htrd : Htrd} {a b : List UInt8} {crlf : ℕ}
    {out out' : Except (Errnum × Htrd) (Htrd × List UInt8)}
    (h : TrailersJoin { htrd with crlf := crlf } a b out out') (c : UInt8) :
    TrailersJoin htrd (c :: a) b out out' := by
  cases h with
  | failed e => exact .failed e
  | ended hsame hphase hlt hrest =>
    exact .ended ⟨hsame.option, hsame.suspended, hsame.dummified, hsame.untilClose, hsame.need,
      hsame.heads⟩ hphase (Nat.lt_succ_of_lt hlt) (hrest.trans (suffix_cons c a))
  | unended hsame hphase hout =>
    exact .unended ⟨hsame.option, hsame.suspended, hsame.dummified, hsame.untilClose,
      hsame.need, hsame.heads⟩ hphase hout

theorem getTrailingHeaders_join (htrd : Htrd) (seen a b : List UInt8) :
    TrailersJoin htrd a b (getTrailingHeaders htrd seen a)
      (getTrailingHeaders htrd seen (a ++ b)) := by
  induction a generalizing htrd seen with
  | nil =>
    refine .unended ⟨rfl, rfl, rfl, rfl, rfl, rfl⟩ rfl ?_
    rw [getTrailingHeaders_seen, append_nil, nil_append]
  | cons c a ih =>
    rw [cons_append, getTrailingHeaders, getTrailingHeaders]
    split
    · exact .failed _
    split
    · split
      · exact (ih _ _).cons c
      · simp only
        cases parseHeaders htrd.option htrd.option.trailers
          ((htrd.tra ++ seen ++ [c]).length + 1) htrd.re (htrd.tra ++ seen ++ [c]) with
        | error e => exact .failed _
        | ok re =>
          exact .ended ⟨rfl, rfl, rfl, rfl, rfl, rfl⟩ rfl (Nat.lt_succ_self _)
            (suffix_cons c a)
    · split
      · exact (ih _ _).cons c
      · exact (ih _ _).cons c

theorem scan_seen (k : Label → Htrd → List UInt8 → Outcome) (htrd : Htrd)
    (moved seen ptr : List UInt8) :
    report (scan k { htrd with raw := htrd.raw ++ moved } seen ptr) =
      report (scan k htrd (moved ++ seen) ptr) := by
  induction ptr generalizing htrd seen with
  | nil => simp [scan]
  | cons c ptr ih =>
    rw [scan, scan]
    split
    · rfl
    split
    · split
      · simpa using ih { htrd with crlf := 2 } (seen ++ [c])
      · simp [headerComplete]
    · split
      · simpa using ih { htrd with crlf := seeCR htrd.crlf } (seen ++ [c])
      · simpa using ih { htrd with plen := htrd.plen + 1, crlf := 0 } (seen ++ [c])

end Qse.Http
