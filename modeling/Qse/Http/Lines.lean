import Qse.Http.Framing
import Qse.Http.Jumps

/-!
# Lines of a message

How the reader takes what a message is made of: lines up to an empty one, fields, and the
length lines of chunks.
-/

open List

namespace Qse.Http

def lineEnd : List UInt8 := [mt '\r', mt '\n']

/-- The octets of a line but for its `LF`. -/
def Plain (line : List UInt8) : Prop := ∀ c ∈ line, c ≠ 0 ∧ c ≠ mt '\n'

/-- An empty line but for its `LF`. -/
def Blank (line : List UInt8) : Prop := line = [] ∨ line = [mt '\r']

theorem Blank.plain {line : List UInt8} (h : Blank line) : Plain line := by
  rcases h with rfl | rfl
  · exact fun c hc => nomatch hc
  · unfold Plain
    decide +kernel

inductive Block : List UInt8 → Prop where
  | blank {line : List UInt8} (h : Blank line) : Block (line ++ [mt '\n'])
  | line {line text : List UInt8} (hplain : Plain line) (hblank : ¬Blank line) (h : Block text) :
      Block (line ++ mt '\n' :: text)

def crlfStep (crlf : ℕ) (c : UInt8) : ℕ := if c = mt '\r' then seeCR crlf else 0

/-- `fed.s.crlf` behind octets other than LF. -/
def crlfAfter (crlf : ℕ) (line : List UInt8) : ℕ := line.foldl crlfStep crlf

theorem crlfStep_le_one {crlf : ℕ} (h : crlf ≠ 2) (c : UInt8) : crlfStep crlf c ≤ 1 := by
  rw [crlfStep, seeCR]
  split
  · split <;> omega
  · exact Nat.zero_le _

theorem crlfAfter_le_one {crlf : ℕ} (h : crlf ≤ 1) (line : List UInt8) :
    crlfAfter crlf line ≤ 1 := by
  induction line generalizing crlf with
  | nil => exact h
  | cons c line ih => exact ih (crlfStep_le_one (by omega) c)

theorem crlfAfter_two_le_one_iff (line : List UInt8) : crlfAfter 2 line ≤ 1 ↔ ¬Blank line := by
  match line with
  | [] => simp [crlfAfter, Blank]
  | [c] =>
    by_cases hc : c = mt '\r' <;> simp [crlfAfter, crlfStep, seeCR, Blank, hc]
  | c :: c' :: line =>
    have hblank : ¬Blank (c :: c' :: line) := by simp [Blank]
    have hne : crlfStep 2 c ≠ 2 := by
      rw [crlfStep, seeCR]
      split <;> simp
    exact iff_of_true (crlfAfter_le_one (crlfStep_le_one hne c') line) hblank

theorem scan_line (k : Label → Htrd → List UInt8 → Outcome) (htrd : Htrd) (seen : List UInt8)
    {line : List UInt8} (hplain : Plain line) (ptr : List UInt8) :
    ∃ plen, scan k htrd seen (line ++ ptr) =
      scan k { htrd with crlf := crlfAfter htrd.crlf line, plen := plen } (seen ++ line) ptr := by
  induction line generalizing htrd seen with
  | nil => exact ⟨htrd.plen, by simp [crlfAfter]⟩
  | cons c line ih =>
    obtain ⟨⟨h0, hlf⟩, hplain'⟩ := forall_mem_cons.mp hplain
    rw [cons_append, scan, if_neg h0, if_neg hlf]
    by_cases hcr : c = mt '\r'
    · obtain ⟨plen, hscan⟩ := ih { htrd with crlf := seeCR htrd.crlf } (seen ++ [c]) hplain'
      refine ⟨plen, ?_⟩
      rw [if_pos hcr, hscan]
      simp [crlfAfter, crlfStep, hcr]
    · obtain ⟨plen, hscan⟩ :=
        ih { htrd with plen := htrd.plen + 1, crlf := 0 } (seen ++ [c]) hplain'
      refine ⟨plen, ?_⟩
      rw [if_neg hcr, hscan]
      simp [crlfAfter, crlfStep, hcr]

theorem scan_block (k : Label → Htrd → List UInt8 → Outcome) {text : List UInt8}
    (h : Block text) {htrd : Htrd} (hcrlf : htrd.crlf = 2) (seen rest : List UInt8) :
    scan k htrd seen (text ++ rest) = headerComplete k htrd (seen ++ text) rest := by
  induction h generalizing htrd seen with
  | @blank line hblank =>
    obtain ⟨plen, hscan⟩ := scan_line k htrd seen hblank.plain ([mt '\n'] ++ rest)
    have htwo : ¬crlfAfter htrd.crlf line ≤ 1 := by
      rw [hcrlf, crlfAfter_two_le_one_iff]
      exact not_not.mpr hblank
    rw [append_assoc, hscan, singleton_append, scan, if_neg (by decide), if_pos rfl,
      if_neg htwo, append_assoc]
    rfl
  | @line line text hplain hblank hblock ih =>
    obtain ⟨plen, hscan⟩ := scan_line k htrd seen hplain (mt '\n' :: (text ++ rest))
    have hone : crlfAfter htrd.crlf line ≤ 1 := by
      rw [hcrlf, crlfAfter_two_le_one_iff]
      exact hblank
    rw [append_assoc, cons_append, hscan, scan, if_neg (by decide), if_pos rfl, if_pos hone, ih rfl]
    simp [headerComplete]

theorem scan_header (k : Label → Htrd → List UInt8 → Outcome) {first text : List UInt8}
    (hfirst : Plain first) (h : Block text) {htrd : Htrd} (hcrlf : htrd.crlf = 0)
    (rest : List UInt8) :
    scan k htrd [] (first ++ mt '\n' :: (text ++ rest)) =
      headerComplete k htrd (first ++ mt '\n' :: text) rest := by
  obtain ⟨plen, hscan⟩ := scan_line k htrd [] hfirst (mt '\n' :: (text ++ rest))
  have hone : crlfAfter htrd.crlf first ≤ 1 := crlfAfter_le_one (by omega) first
  rw [hscan, scan, if_neg (by decide), if_pos rfl, if_pos hone, scan_block k h rfl]
  simp [headerComplete]

theorem getTrailingHeaders_line (htrd : Htrd) (seen : List UInt8) {line : List UInt8}
    (hplain : Plain line) (ptr : List UInt8) :
    getTrailingHeaders htrd seen (line ++ ptr) =
      getTrailingHeaders { htrd with crlf := crlfAfter htrd.crlf line } (seen ++ line) ptr := by
  induction line generalizing htrd seen with
  | nil => simp [crlfAfter]
  | cons c line ih =>
    obtain ⟨⟨h0, hlf⟩, hplain'⟩ := forall_mem_cons.mp hplain
    rw [cons_append, getTrailingHeaders, if_neg h0, if_neg hlf]
    by_cases hcr : c = mt '\r'
    · rw [if_pos hcr, ih _ _ hplain']
      simp [crlfAfter, crlfStep, hcr]
    · rw [if_neg hcr, ih _ _ hplain']
      simp [crlfAfter, crlfStep, hcr]

theorem getTrailingHeaders_block {text : List UInt8} (h : Block text) {htrd : Htrd}
    (hcrlf : htrd.crlf = 2) (seen rest : List UInt8) :
    report (getTrailingHeaders htrd seen (text ++ rest)) =
      match parseHeaders htrd.option htrd.option.trailers
        ((htrd.tra ++ seen ++ text).length + 1) htrd.re (htrd.tra ++ seen ++ text) with
      | .error e => .error (e, htrd.poked, htrd.heads)
      | .ok re => .ok ({ htrd with
          crlf := 0
          tra := htrd.tra ++ seen ++ text
          re := re
          chunk := { htrd.chunk with phase := .done } }, rest) := by
  induction h generalizing htrd seen with
  | @blank line hblank =>
    have htwo : ¬crlfAfter htrd.crlf line ≤ 1 := by
      rw [hcrlf, crlfAfter_two_le_one_iff]
      exact not_not.mpr hblank
    rw [append_assoc, getTrailingHeaders_line htrd seen hblank.plain, singleton_append,
      getTrailingHeaders, if_neg (by decide), if_pos rfl, if_neg htwo]
    simp only [append_assoc]
    cases parseHeaders htrd.option htrd.option.trailers
      ((htrd.tra ++ (seen ++ (line ++ [mt '\n']))).length + 1) htrd.re
      (htrd.tra ++ (seen ++ (line ++ [mt '\n']))) <;> rfl
  | @line line text hplain hblank hblock ih =>
    have hone : crlfAfter htrd.crlf line ≤ 1 := by
      rw [hcrlf, crlfAfter_two_le_one_iff]
      exact hblank
    rw [append_assoc, cons_append, getTrailingHeaders_line htrd seen hplain,
      getTrailingHeaders, if_neg (by decide), if_pos rfl, if_pos hone, ih rfl]
    simp

def IsHex (digits : List UInt8) : Prop :=
  digits ≠ [] ∧ ∀ c ∈ digits, (xdigitToNum c).isSome = true

def hexadecimal (digits : List UInt8) : ℕ :=
  digits.foldl (fun n c => n * 16 + (xdigitToNum c).getD 0) 0

theorem readDigits_hex (chunk : Chunk) {digits : List UInt8}
    (h : ∀ c ∈ digits, (xdigitToNum c).isSome = true) {ptr : List UInt8}
    (hptr : ∀ c ∈ ptr.head?, xdigitToNum c = none) (hlen : chunk.len < 2 ^ 64) :
    readDigits chunk (digits ++ ptr) =
      ({ chunk with
        len := digits.foldl (fun n c => n * 16 + (xdigitToNum c).getD 0) chunk.len % 2 ^ 64
        count := chunk.count + digits.length }, ptr) := by
  induction digits generalizing chunk with
  | nil =>
    rw [nil_append, readDigits_of_head hptr, foldl_nil, Nat.mod_eq_of_lt hlen]
    rfl
  | cons c digits ih =>
    obtain ⟨hc, hdigits⟩ := forall_mem_cons.mp h
    obtain ⟨n, hn⟩ := Option.isSome_iff_exists.mp hc
    rw [cons_append, readDigits, hn]
    simp only
    rw [ih _ hdigits (Nat.mod_lt _ (by decide)), MachineWord.foldl_digits_mod, foldl_cons, hn,
      length_cons, Option.getD_some, add_assoc, add_comm 1]

theorem getchunklen_line {digits : List UInt8} (h : IsHex digits) (htrd : Htrd) (ptr : List UInt8) :
    getchunklen { htrd with chunk := ⟨0, 0, .len⟩ } (digits ++ (lineEnd ++ ptr)) =
      .ok ({ htrd with
        chunk := ⟨hexadecimal digits % 2 ^ 64, digits.length,
          if hexadecimal digits % 2 ^ 64 = 0 then .trailers else .data⟩
        need := hexadecimal digits % 2 ^ 64 }, ptr) := by
  obtain ⟨hne, hdigits⟩ := h
  have hskip : skipLeading 0 (digits ++ (lineEnd ++ ptr)) = digits ++ (lineEnd ++ ptr) := by
    obtain ⟨c, digits, rfl⟩ := exists_cons_of_ne_nil hne
    have hc := hdigits c (.head _)
    have hnot : ¬isSpaceOctet c = true := by
      intro hspace
      rw [xdigitToNum_of_isSpaceOctet hspace] at hc
      cases hc
    rw [skipLeading, if_pos rfl, cons_append, dropWhile_cons_of_neg hnot]
  have hnext : ∀ c ∈ (lineEnd ++ ptr).head?, xdigitToNum c = none := by
    intro c hc
    cases hc
    rfl
  have hread : readDigits ⟨0, 0, .len⟩ (digits ++ (lineEnd ++ ptr)) =
      (⟨hexadecimal digits % 2 ^ 64, digits.length, .len⟩, lineEnd ++ ptr) := by
    rw [readDigits_hex _ hdigits hnext (Nat.two_pow_pos 64)]
    simp [hexadecimal]
  have hdrop : (lineEnd ++ ptr).dropWhile isSpaceOctet = mt '\n' :: ptr := rfl
  have hcount : ¬digits.length = 0 := by simpa using hne
  rw [getchunklen_eq]
  simp only
  rw [hskip, hread, endOfLength, hdrop]
  simp only [if_true]
  rw [if_neg hcount]

/-- A field as it is written: nothing in it ends it early, and no spaces at its ends. -/
structure Neat (field : Field) : Prop where
  name : Plain field.1 ∧ mt ':' ∉ field.1
  nameEnds : field.1 ≠ [] ∧ (∀ c ∈ field.1.head?, isWhspaceOctet c = false) ∧
    ∀ c ∈ field.1.getLast?, isSpaceOctet c = false
  value : Plain field.2
  valueEnds : (∀ c ∈ field.2.head?, isSpaceOctet c = false) ∧
    ∀ c ∈ field.2.getLast?, isSpaceOctet c = false

def fieldLine (field : Field) : List UInt8 :=
  field.1 ++ mt ':' :: mt ' ' :: (field.2 ++ lineEnd)

def fieldLines (fields : List Field) : List UInt8 := fields.flatMap fieldLine ++ lineEnd

theorem trimEnd_append {s spaces : List UInt8} (h : ∀ c ∈ s.getLast?, isSpaceOctet c = false)
    (hspaces : ∀ c ∈ spaces, isSpaceOctet c = true) : trimEnd (s ++ spaces) = s := by
  have hself : s.rdropWhile isSpaceOctet = s := by
    refine rdropWhile_eq_self_iff.mpr fun hne => ?_
    rw [h _ (getLast?_eq_some_getLast hne)]
    exact Bool.false_ne_true
  rw [trimEnd, List.rdropWhile, reverse_append, dropWhile_append_of_pos]
  · exact hself
  · exact fun c hc => hspaces c (mem_reverse.mp hc)

theorem dropWhile_value {value : List UInt8} (h : ∀ c ∈ value.head?, isSpaceOctet c = false)
    (ptr : List UInt8) :
    ∃ spaces, (∀ c ∈ spaces, isSpaceOctet c = true) ∧ mt '\n' ∉ spaces ∧
      (mt ' ' :: (value ++ (lineEnd ++ ptr))).dropWhile isSpaceOctet =
        value ++ spaces ++ mt '\n' :: ptr := by
  cases value with
  | nil => exact ⟨[], by simp, by simp, rfl⟩
  | cons c value =>
    have hc : ¬isSpaceOctet c = true := by
      rw [h c rfl]
      exact Bool.false_ne_true
    refine ⟨[mt '\r'], by decide +kernel, by decide, ?_⟩
    rw [dropWhile_cons_of_pos (by decide), cons_append, dropWhile_cons_of_neg hc]
    simp [lineEnd]

theorem readField_line {field : Field} (h : Neat field) (strict : Bool) {ptr : List UInt8}
    (hptr : startsWith isPurespaceOctet ptr = false) :
    readField strict (fieldLine field ++ ptr) = .ok (some field, ptr) := by
  obtain ⟨name, value⟩ := field
  obtain ⟨spaces, hspaces, hlf, hdrop⟩ := dropWhile_value h.valueEnds.1 ptr
  have hname : ∀ c ∈ name, decide (c ≠ mt '\n' ∧ c ≠ mt ':') = true := by
    intro c hc
    have hcolon : c ≠ mt ':' := by
      rintro rfl
      exact h.name.2 hc
    exact decide_eq_true ⟨(h.name.1 c hc).2, hcolon⟩
  have hvalue : ∀ c ∈ value ++ spaces, decide (c ≠ mt '\n') = true := by
    intro c hc
    rcases mem_append.mp hc with hc | hc
    · exact decide_eq_true (h.value c hc).2
    · refine decide_eq_true ?_
      rintro rfl
      exact hlf hc
  have htext : fieldLine (name, value) ++ ptr =
      name ++ mt ':' :: mt ' ' :: (value ++ (lineEnd ++ ptr)) := by
    simp [fieldLine]
  have hnameEnd : trimEnd name = name := by
    have htrim : trimEnd (name ++ []) = name := trimEnd_append h.nameEnds.2.2 (by simp)
    rwa [append_nil] at htrim
  rw [htext, readField, takeWhile_append_of_pos hname, dropWhile_append_of_pos hname,
    takeWhile_cons_of_neg (by decide), dropWhile_cons_of_neg (by decide)]
  simp only [if_true]
  rw [hdrop, dropWhile_append_of_pos hvalue, takeWhile_append_of_pos hvalue,
    takeWhile_cons_of_neg (by decide), dropWhile_cons_of_neg (by decide)]
  simp only
  rw [hptr, append_nil, append_nil, trimEnd_append h.valueEnds.2 hspaces, hnameEnd]
  rfl

variable {fields : List Field}

theorem startsWith_fieldLines (h : ∀ field ∈ fields, Neat field) :
    startsWith isPurespaceOctet (fieldLines fields) = false := by
  cases fields with
  | nil => rfl
  | cons field fields =>
    obtain ⟨hne, hhead, -⟩ := (h field (.head _)).nameEnds
    obtain ⟨⟨_ | ⟨c, name⟩, value⟩, rfl⟩ : ∃ f, f = field := ⟨_, rfl⟩
    · exact absurd rfl hne
    have hc : isWhspaceOctet c = false := hhead c rfl
    have hpure : isPurespaceOctet c = false := by
      revert hc
      simp only [isWhspaceOctet, isPurespaceOctet, Bool.or_eq_false_iff]
      exact fun hc => hc.1.1
    simpa [fieldLines, fieldLine, startsWith] using hpure

theorem readFields_lines (h : ∀ field ∈ fields, Neat field) (strict : Bool) {fuel : ℕ}
    (hfuel : fields.length < fuel) :
    readFields strict fuel (fieldLines fields) = .ok fields := by
  induction fields generalizing fuel with
  | nil =>
    obtain _ | fuel := fuel
    · exact absurd hfuel (lt_irrefl 0)
    · rfl
  | cons field fields ih =>
    obtain _ | fuel := fuel
    · exact absurd hfuel (Nat.not_lt_zero _)
    obtain ⟨hfield, hfields⟩ := forall_mem_cons.mp h
    have htext : fieldLines (field :: fields) = fieldLine field ++ fieldLines fields := by
      simp [fieldLines]
    obtain ⟨c, line, hline, hc⟩ : ∃ c line, fieldLine field ++ fieldLines fields = c :: line ∧
        isWhspaceOctet c = false := by
      obtain ⟨hne, hhead, -⟩ := hfield.nameEnds
      obtain ⟨⟨_ | ⟨c, name⟩, value⟩, rfl⟩ : ∃ f, f = field := ⟨_, rfl⟩
      · exact absurd rfl hne
      · exact ⟨c, _, rfl, hhead c rfl⟩
    have hread := readField_line hfield strict (startsWith_fieldLines hfields)
    rw [hline] at hread
    rw [htext, readFields, hline, dropWhile_cons_of_neg (by simp [hc])]
    simp only
    rw [hread]
    simp only
    rw [ih hfields (Nat.lt_of_succ_lt_succ hfuel)]
    rfl

theorem block_fieldLines (h : ∀ field ∈ fields, Neat field) : Block (fieldLines fields) := by
  induction fields with
  | nil =>
    have hblank : Blank [mt '\r'] := .inr rfl
    exact .blank hblank
  | cons field fields ih =>
    obtain ⟨hfield, hfields⟩ := forall_mem_cons.mp h
    have htext : fieldLines (field :: fields) =
        (field.1 ++ mt ':' :: mt ' ' :: (field.2 ++ [mt '\r'])) ++
          mt '\n' :: fieldLines fields := by
      simp [fieldLines, fieldLine, lineEnd]
    have hplain : Plain (field.1 ++ mt ':' :: mt ' ' :: (field.2 ++ [mt '\r'])) := by
      intro c hc
      simp only [mem_append, mem_cons, not_mem_nil, or_false] at hc
      rcases hc with hc | rfl | rfl | hc | rfl
      · exact hfield.name.1 c hc
      · decide
      · decide
      · exact hfield.value c hc
      · decide
    have hblank : ¬Blank (field.1 ++ mt ':' :: mt ' ' :: (field.2 ++ [mt '\r'])) := by
      intro hblank
      have hlen : (field.1 ++ mt ':' :: mt ' ' :: (field.2 ++ [mt '\r'])).length ≤ 1 := by
        rcases hblank with heq | heq <;> simp [heq]
      simp only [length_append, length_cons] at hlen
      omega
    rw [htext]
    exact .line hplain hblank (ih hfields)

end Qse.Http
