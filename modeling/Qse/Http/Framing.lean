import Qse.Http.Header
import Qse.Support.MachineWord

/-!
# How a header frames the body

The fields of a header are captured one by one. After the last one the flags must tell how the body
is delimited.
-/

open List

namespace Qse.Http

theorem toupper_toupper (c : UInt8) : toupper (toupper c) = toupper c := by
  revert c
  exact forall_byte (by decide +kernel)

theorem mbsxncasecmp_map (s1 s2 : List UInt8) :
    mbsxncasecmp (s1.map toupper) (s2.map toupper) = mbsxncasecmp s1 s2 := by
  induction s1 generalizing s2 with
  | nil => cases s2 <;> rfl
  | cons c1 s1 ih =>
    cases s2 with
    | nil => rfl
    | cons c2 s2 =>
      simp only [map_cons, mbsxncasecmp, toupper_toupper]
      rw [ih]

theorem mbsxncasecmp_eq_iff {s1 s2 : List UInt8} :
    mbsxncasecmp s1 s2 = .eq ↔ s1.map toupper = s2.map toupper := by
  induction s1 generalizing s2 with
  | nil => cases s2 <;> simp [mbsxncasecmp]
  | cons c1 s1 ih =>
    cases s2 with
    | nil => simp [mbsxncasecmp]
    | cons c2 s2 =>
      rw [mbsxncasecmp]
      by_cases heq : toupper c1 = toupper c2
      · simp [heq, ih]
      · rcases UInt8.lt_or_lt_of_ne heq with hlt | hgt
        · simp [hlt, UInt8.lt_asymm hlt, heq]
        · simp [hgt, heq]

/-! ## The fields that matter -/

def HasKey (key : String) (field : List UInt8 × List UInt8) : Prop :=
  mbsxncasecmp field.1 (octets key) = .eq

instance (key : String) (field : List UInt8 × List UInt8) : Decidable (HasKey key field) :=
  inferInstanceAs (Decidable (_ = _))

variable {α : Type} {name value p rest : List UInt8} {fuel : ℕ} {re re' : Re}
  {values : List (List UInt8)} {opts : Options}

theorem searchKeyHeader_map (tab : List (List UInt8 × α)) (name : List UInt8)
    (fuel base count : ℕ) :
    searchKeyHeader (tab.map fun e => (e.1.map toupper, e.2)) (name.map toupper) fuel base count =
      searchKeyHeader tab name fuel base count := by
  induction fuel generalizing base count with
  | zero => rfl
  | succ fuel ih =>
    simp only [searchKeyHeader, getElem?_map]
    cases tab[base + count / 2]? with
    | none => rfl
    | some e => simp only [Option.map_some, mbsxncasecmp_map, ih]

theorem mem_of_searchKeyHeader {tab : List (List UInt8 × α)} {base count : ℕ} {handler : α}
    (h : searchKeyHeader tab name fuel base count = some handler) :
    ∃ key, (key, handler) ∈ tab ∧ mbsxncasecmp name key = .eq := by
  induction fuel generalizing base count with
  | zero => cases h
  | succ fuel ih =>
    rw [searchKeyHeader] at h
    split at h
    · cases h
    simp only at h
    split at h
    · cases h
    rename_i key found hmid
    split at h
    · cases h
      exact ⟨key, mem_of_getElem? hmid, ‹_›⟩
    · exact ih h
    · exact ih h

theorem captureKeyHeader_length (re : Re) (h : HasKey "Content-Length" (name, value))
    (values : List (List UInt8)) :
    captureKeyHeader re name values = captureContentLength re values := by
  have hname : name.map toupper = (octets "Content-Length").map toupper :=
    mbsxncasecmp_eq_iff.mp h
  rw [captureKeyHeader, ← searchKeyHeader_map, hname, searchKeyHeader_map]
  rfl

theorem captureKeyHeader_encoding (re : Re) (h : HasKey "Transfer-Encoding" (name, value))
    (values : List (List UInt8)) :
    captureKeyHeader re name values = captureTransferEncoding re values := by
  have hname : name.map toupper = (octets "Transfer-Encoding").map toupper :=
    mbsxncasecmp_eq_iff.mp h
  rw [captureKeyHeader, ← searchKeyHeader_map, hname, searchKeyHeader_map]
  rfl

theorem captureKeyHeader_other (hlength : ¬HasKey "Content-Length" (name, value))
    (hencoding : ¬HasKey "Transfer-Encoding" (name, value))
    (h : captureKeyHeader re name values = .ok re') :
    re'.flags.chunked = re.flags.chunked ∧ re'.flags.length = re.flags.length ∧
      re'.contentLength = re.contentLength := by
  rw [captureKeyHeader] at h
  split at h
  · rename_i handler hfound
    obtain ⟨key, hmem, hkey⟩ := mem_of_searchKeyHeader hfound
    simp only [keyHeaders, mem_cons, Prod.mk.injEq, not_mem_nil, or_false] at hmem
    rcases hmem with ⟨rfl, rfl⟩ | ⟨rfl, rfl⟩ | ⟨rfl, rfl⟩ | ⟨rfl, rfl⟩ | ⟨rfl, rfl⟩
    · simp only [captureConnection] at h
      split at h
      · cases h
        exact ⟨rfl, rfl, rfl⟩
      · split at h
        · cases h
          exact ⟨rfl, rfl, rfl⟩
        · split at h <;> cases h <;> exact ⟨rfl, rfl, rfl⟩
    · exact absurd hkey hlength
    · cases h
      exact ⟨rfl, rfl, rfl⟩
    · cases h
      exact ⟨rfl, rfl, rfl⟩
    · exact absurd hkey hencoding
  · cases h
    exact ⟨rfl, rfl, rfl⟩

theorem not_hasKey_both {field : List UInt8 × List UInt8} (h : HasKey "Content-Length" field) :
    ¬HasKey "Transfer-Encoding" field := by
  intro h'
  have heq := (mbsxncasecmp_eq_iff.mp h).symm.trans (mbsxncasecmp_eq_iff.mp h')
  revert heq
  decide

/-! ## One field -/

def decimal (s : List UInt8) : ℕ := s.foldl (fun n c => n * 10 + (digitToNum c).getD 0) 0

theorem readLength_eq {len n : ℕ} {s : List UInt8} (hlen : len < 2 ^ 64)
    (h : readLength len s = some n) :
    n = s.foldl (fun n c => n * 10 + (digitToNum c).getD 0) len % 2 ^ 64 := by
  induction s generalizing len with
  | nil =>
    cases h
    exact (Nat.mod_eq_of_lt hlen).symm
  | cons c s ih =>
    rw [readLength] at h
    split at h
    · cases h
    rename_i num hnum
    simp only at h
    split at h
    · cases h
    · rw [ih (Nat.mod_lt _ (by decide)) h, MachineWord.foldl_digits_mod, foldl_cons, hnum]
      rfl

theorem Table.getLast_values_insert (tab : Table) (name value : List UInt8) :
    ((tab.insert name value).values name).getLast?.getD [] = value := by
  rw [Table.insert]
  split
  · rename_i hany
    induction tab with
    | nil => cases hany
    | cons pair tab ih =>
      rw [map_cons]
      by_cases hpair : pair.1 = name
      · simp [Table.values, hpair]
      · have htail : (tab.any fun pair => pair.1 = name) = true := by
          simpa [hpair] using hany
        rw [if_neg hpair]
        simpa [Table.values, hpair] using ih htail
  · rename_i hany
    have hnone : (tab.find? fun pair => pair.1 = name) = none := by
      rw [find?_eq_none]
      intro pair hmem hpair
      exact hany (any_eq_true.mpr ⟨pair, hmem, hpair⟩)
    simp [Table.values, find?_append, hnone]

theorem insertField_eq (trailer : Bool) (re : Re) (name value : List UInt8) :
    ∃ re1 values, re1.flags = re.flags ∧ re1.contentLength = re.contentLength ∧
      values.getLast?.getD [] = value ∧
      insertField trailer re name value = captureKeyHeader re1 name values := by
  cases trailer with
  | false => exact ⟨{ re with hdrtab := re.hdrtab.insert name value }, _, rfl, rfl,
      re.hdrtab.getLast_values_insert name value, rfl⟩
  | true => exact ⟨{ re with trailers := re.trailers.insert name value }, _, rfl, rfl,
      re.trailers.getLast_values_insert name value, rfl⟩

theorem captureContentLength_ok (h : captureContentLength re values = .ok re') :
    re'.flags.chunked = re.flags.chunked ∧ re'.flags.length = true ∧
      re'.contentLength = decimal (values.getLast?.getD []) % 2 ^ 64 := by
  simp only [captureContentLength] at h
  split at h
  · cases h
  rename_i len hlen
  split at h
  · cases h
  · split at h
    · cases h
    · cases h
      exact ⟨rfl, rfl, readLength_eq (by decide) hlen⟩

theorem captureTransferEncoding_ok (h : captureTransferEncoding re values = .ok re') :
    re.flags.length = false ∧ re'.flags.chunked = true ∧ re'.flags.length = false ∧
      re'.contentLength = re.contentLength := by
  rw [captureTransferEncoding] at h
  split at h
  · split at h
    · cases h
    · rename_i hlength
      cases h
      have hnone : re.flags.length = false := Bool.eq_false_iff.mpr hlength
      exact ⟨hnone, rfl, hnone, rfl⟩
  · cases h

section Field

variable {trailer : Bool} {re re' : Re} {name value : List UInt8}
  (h : insertField trailer re name value = .ok re')

include h

theorem insertField_length (hkey : HasKey "Content-Length" (name, value)) :
    re'.flags.chunked = re.flags.chunked ∧ re'.flags.length = true ∧
      re'.contentLength = decimal value % 2 ^ 64 := by
  obtain ⟨re1, values, hflags, -, hvalue, heq⟩ := insertField_eq trailer re name value
  rw [heq, captureKeyHeader_length re1 hkey] at h
  have hok := captureContentLength_ok h
  rw [hflags, hvalue] at hok
  exact hok

theorem insertField_encoding (hkey : HasKey "Transfer-Encoding" (name, value)) :
    re.flags.length = false ∧ re'.flags.chunked = true ∧ re'.flags.length = false ∧
      re'.contentLength = re.contentLength := by
  obtain ⟨re1, values, hflags, hlen, -, heq⟩ := insertField_eq trailer re name value
  rw [heq, captureKeyHeader_encoding re1 hkey] at h
  have hok := captureTransferEncoding_ok h
  rw [hflags, hlen] at hok
  exact hok

theorem insertField_other (hlength : ¬HasKey "Content-Length" (name, value))
    (hencoding : ¬HasKey "Transfer-Encoding" (name, value)) :
    re'.flags.chunked = re.flags.chunked ∧ re'.flags.length = re.flags.length ∧
      re'.contentLength = re.contentLength := by
  obtain ⟨re1, values, hflags, hlen, -, heq⟩ := insertField_eq trailer re name value
  rw [heq] at h
  have hother := captureKeyHeader_other hlength hencoding h
  rw [hflags, hlen] at hother
  exact hother

end Field

/-! ## A run of fields -/

abbrev Field := List UInt8 × List UInt8

def insertFields (trailer : Bool) : Re → List Field → Except Errnum Re
  | re, [] => .ok re
  | re, field :: fields =>
    match insertField trailer re field.1 field.2 with
    | .error e => .error e
    | .ok re => insertFields trailer re fields

def EncodingLast (fields : List Field) : Prop :=
  fields.Pairwise fun f g => HasKey "Transfer-Encoding" f → ¬HasKey "Content-Length" g

instance (fields : List Field) : Decidable (EncodingLast fields) :=
  inferInstanceAs (Decidable (fields.Pairwise _))

section Fields

variable {trailer : Bool} {re re' : Re} {fields : List Field}
  (h : insertFields trailer re fields = .ok re')

include h

theorem insertFields_flags :
    (re'.flags.chunked = true ↔
      re.flags.chunked = true ∨ ∃ f ∈ fields, HasKey "Transfer-Encoding" f) ∧
    (re'.flags.length = true ↔
      re.flags.length = true ∨ ∃ f ∈ fields, HasKey "Content-Length" f) := by
  induction fields generalizing re with
  | nil =>
    cases h
    simp
  | cons field fields ih =>
    rw [insertFields] at h
    split at h
    · cases h
    rename_i re1 hfield
    obtain ⟨hchunked, hlength⟩ := ih h
    rw [hchunked, hlength]
    by_cases hlen : HasKey "Content-Length" field
    · have hnot := not_hasKey_both hlen
      obtain ⟨hc, hl, -⟩ := insertField_length hfield hlen
      simp [hc, hl, hlen, hnot]
    · by_cases henc : HasKey "Transfer-Encoding" field
      · obtain ⟨hl0, hc, hl, -⟩ := insertField_encoding hfield henc
        simp [hl0, hc, hl, hlen, henc]
      · obtain ⟨hc, hl, -⟩ := insertField_other hfield hlen henc
        simp [hc, hl, hlen, henc]

theorem insertFields_both :
    (re'.flags.chunked = true ∧ re'.flags.length = true ↔
      (re.flags.chunked = true ∧ re.flags.length = true) ∨
      (re.flags.chunked = true ∧ ∃ f ∈ fields, HasKey "Content-Length" f) ∨
      ¬EncodingLast fields) := by
  induction fields generalizing re with
  | nil =>
    cases h
    simp [EncodingLast]
  | cons field fields ih =>
    rw [insertFields] at h
    split at h
    · cases h
    rename_i re1 hfield
    rw [ih h, EncodingLast, EncodingLast, pairwise_cons, exists_mem_cons_iff]
    by_cases hlen : HasKey "Content-Length" field
    · have hnotenc := not_hasKey_both hlen
      obtain ⟨hc, hl, -⟩ := insertField_length hfield hlen
      rw [hc, hl]
      by_cases hbefore : re.flags.chunked = true <;> simp [hbefore, hlen, hnotenc]
    by_cases henc : HasKey "Transfer-Encoding" field
    · obtain ⟨hl0, hc, hl, -⟩ := insertField_encoding hfield henc
      rw [hc, hl, hl0]
      have hhead : (∀ g ∈ fields, HasKey "Transfer-Encoding" field →
          ¬HasKey "Content-Length" g) ↔ ¬∃ f ∈ fields, HasKey "Content-Length" f := by
        simp [henc]
      rw [hhead]
      by_cases hbehind : ∃ f ∈ fields, HasKey "Content-Length" f
      · simp only [hbehind, not_true, false_and, not_false_iff, and_self, or_true, true_or]
      · simp only [hbehind, hlen, not_false_iff, true_and, and_false, or_self, false_or,
          reduceCtorEq]
    · obtain ⟨hc, hl, -⟩ := insertField_other hfield hlen henc
      rw [hc, hl]
      simp [hlen, henc]

theorem insertFields_contentLength :
    (∃ f ∈ fields, HasKey "Content-Length" f ∧ re'.contentLength = decimal f.2 % 2 ^ 64) ∨
      re'.contentLength = re.contentLength ∧ ∀ f ∈ fields, ¬HasKey "Content-Length" f := by
  induction fields generalizing re with
  | nil =>
    cases h
    exact .inr ⟨rfl, by simp⟩
  | cons field fields ih =>
    rw [insertFields] at h
    split at h
    · cases h
    rename_i re1 hfield
    rcases ih h with ⟨f, hmem, hf⟩ | ⟨hsame, hnone⟩
    · exact .inl ⟨f, .tail _ hmem, hf⟩
    by_cases hlen : HasKey "Content-Length" field
    · obtain ⟨-, -, hvalue⟩ := insertField_length hfield hlen
      exact .inl ⟨field, .head _, hlen, hsame.trans hvalue⟩
    · refine .inr ⟨hsame.trans ?_, forall_mem_cons.mpr ⟨hlen, hnone⟩⟩
      by_cases henc : HasKey "Transfer-Encoding" field
      · exact (insertField_encoding hfield henc).2.2.2
      · exact (insertField_other hfield hlen henc).2.2

end Fields

/-! ## The header as a whole -/

def readFields (strict : Bool) : ℕ → List UInt8 → Except Errnum (List Field)
  | 0, _ => .error .badhdr
  | fuel + 1, p =>
    match p.dropWhile isWhspaceOctet with
    | [] => .ok []
    | c :: p =>
      match readField strict (c :: p) with
      | .error e => .error e
      | .ok (field, p) =>
        match readFields strict fuel p with
        | .error e => .error e
        | .ok fields => .ok (field.toList ++ fields)

theorem parseHeaders_of_readFields (trailer : Bool) (re : Re) {fields : List Field}
    (h : readFields opts.strict fuel p = .ok fields) :
    parseHeaders opts trailer fuel re p = insertFields trailer re fields := by
  induction fuel generalizing re p fields with
  | zero => cases h
  | succ fuel ih =>
    rw [readFields] at h
    rw [parseHeaders]
    cases hdrop : p.dropWhile isWhspaceOctet with
    | nil =>
      rw [hdrop] at h
      cases h
      rfl
    | cons c p =>
      rw [hdrop] at h
      simp only [parseHeaderField] at h ⊢
      cases hread : readField opts.strict (c :: p) with
      | error e =>
        rw [hread] at h
        cases h
      | ok read =>
        obtain ⟨field, p⟩ := read
        rw [hread] at h
        simp only at h
        cases hmore : readFields opts.strict fuel p with
        | error e =>
          rw [hmore] at h
          cases h
        | ok more =>
          rw [hmore] at h
          cases h
          cases field with
          | none => exact ih re hmore
          | some field =>
            simp only [Option.toList_some, singleton_append, insertFields]
            cases insertField trailer re field.1 field.2 with
            | error e => rfl
            | ok re1 => exact ih re1 hmore

theorem readFields_of_parseHeaders {trailer : Bool}
    (h : parseHeaders opts trailer fuel re p = .ok re') :
    ∃ fields, readFields opts.strict fuel p = .ok fields := by
  induction fuel generalizing re p with
  | zero => cases h
  | succ fuel ih =>
    rw [parseHeaders] at h
    rw [readFields]
    cases hdrop : p.dropWhile isWhspaceOctet with
    | nil => exact ⟨[], rfl⟩
    | cons c p =>
      rw [hdrop] at h
      simp only [parseHeaderField] at h ⊢
      cases hread : readField opts.strict (c :: p) with
      | error e =>
        rw [hread] at h
        cases h
      | ok read =>
        obtain ⟨field, p⟩ := read
        obtain ⟨re1, hmore⟩ : ∃ re1, parseHeaders opts trailer fuel re1 p = .ok re' := by
          rw [hread] at h
          cases field with
          | none => exact ⟨re, h⟩
          | some field =>
            simp only at h
            cases hinsert : insertField trailer re field.1 field.2 with
            | error e =>
              rw [hinsert] at h
              cases h
            | ok re1 =>
              rw [hinsert] at h
              exact ⟨re1, h⟩
        obtain ⟨fields, hfields⟩ := ih hmore
        exact ⟨field.toList ++ fields, by simp only [hfields]⟩

def Re.withLine (re parsed : Re) : Re :=
  { re with
    major := parsed.major
    minor := parsed.minor
    verstr := parsed.verstr
    line := parsed.line }

theorem parseRequestLine_ok {method : List UInt8}
    (h : parseRequestLine opts method re p = .ok (re', rest)) (re1 : Re) :
    parseRequestLine opts method re1 p = .ok (re1.withLine re', rest) := by
  simp only [parseRequestLine] at h ⊢
  split at h
  · cases h
  split at h
  · split at h
    · split at h
      · split at h
        · cases h
        · split at h
          · cases h
            simp only [*]
            rfl
          · cases h
      · cases h
    · cases h
  · cases h

theorem parseStatusLine_ok (h : parseStatusLine name re p = .ok (re', rest)) (re1 : Re) :
    parseStatusLine name re1 p = .ok (re1.withLine re', rest) := by
  simp only [parseStatusLine] at h ⊢
  split at h
  · split at h
    · split at h
      · split at h
        · cases h
        · split at h
          · cases h
          · cases h
            simp only [*]
            rfl
      · cases h
    · cases h
  · cases h

def parseLine (opts : Options) (p : List UInt8) (re : Re) : Except Errnum (Re × List UInt8) :=
  let name := p.takeWhile isAlphaOctet
  let p := p.dropWhile isAlphaOctet
  if opts.request then
    if startsWith isSpaceOctet p then
      parseRequestLine opts name re (p.dropWhile isSpaceOctet)
    else .error .badre
  else if opts.response ∧ name = octets "HTTP" then parseStatusLine name re p
  else .error .badre

theorem parseInitialLine_eq (opts : Options) (re : Re) (p : List UInt8) :
    parseInitialLine opts re p = if p.takeWhile isAlphaOctet = [] then .error .badre
      else
        match parseLine opts p re with
        | .error e => .error e
        | .ok (re, p) =>
          if 1 < re.major ∨ (re.major = 1 ∧ 1 ≤ re.minor) then
            .ok ({ re with flags := { re.flags with keepalive := true } }, p)
          else .ok (re, p) :=
  rfl

theorem parseLine_ok (h : parseLine opts p re = .ok (re', rest)) (re1 : Re) :
    parseLine opts p re1 = .ok (re1.withLine re', rest) := by
  simp only [parseLine] at h ⊢
  by_cases hrequest : opts.request = true
  · rw [if_pos hrequest] at h ⊢
    split at h
    · rw [if_pos ‹_›]
      exact parseRequestLine_ok h re1
    · cases h
  · rw [if_neg hrequest] at h ⊢
    split at h
    · rw [if_pos ‹_›]
      exact parseStatusLine_ok h re1
    · cases h

theorem parseInitialLine_ok (h : parseInitialLine opts re p = .ok (re', rest)) :
    (∃ parsed keepalive, re' = { re.withLine parsed with
      flags := { re.flags with keepalive := keepalive } }) ∧
    ∀ re1, ∃ re1', parseInitialLine opts re1 p = .ok (re1', rest) := by
  rw [parseInitialLine_eq] at h
  split at h
  · cases h
  rename_i hname
  split at h
  · cases h
  rename_i re0 rest0 hok
  have hsame := parseLine_ok hok re
  rw [hok] at hsame
  have hre0 : re0 = re.withLine re0 := by
    injection hsame with hsame
    exact congrArg Prod.fst hsame
  refine ⟨⟨re0, ?_⟩, fun re1 => ?_⟩
  · split at h
    · cases h
      rw [hre0]
      exact ⟨true, rfl⟩
    · cases h
      rw [hre0]
      exact ⟨re.flags.keepalive, rfl⟩
  · rw [parseInitialLine_eq, if_neg hname, parseLine_ok hok re1]
    have hrest : rest0 = rest := by
      split at h <;> cases h <;> rfl
    simp only [hrest]
    split
    · exact ⟨_, rfl⟩
    · exact ⟨_, rfl⟩

def headerFields (opts : Options) (raw : List UInt8) : Except Errnum (List Field) :=
  let p := raw.dropWhile isSpaceOctet
  if opts.skipInitialLine then readFields opts.strict (p.length + 1) p
  else
    match parseInitialLine opts Re.init p with
    | .error e => .error e
    | .ok (_, p) => readFields opts.strict (p.length + 1) p

theorem parseInitialLineAndHeaders_ok {raw : List UInt8}
    (h : parseInitialLineAndHeaders opts re raw = .ok re') :
    ∃ fields parsed keepalive, headerFields opts raw = .ok fields ∧
      insertFields false { re.withLine parsed with
        flags := { re.flags with keepalive := keepalive } } fields = .ok re' := by
  rw [parseInitialLineAndHeaders] at h
  rw [headerFields]
  split at h
  · rw [if_pos ‹_›]
    obtain ⟨fields, hread⟩ := readFields_of_parseHeaders h
    rw [parseHeaders_of_readFields _ _ hread] at h
    exact ⟨fields, re, re.flags.keepalive, hread, h⟩
  · split at h
    · cases h
    · rename_i re0 rest hline
      obtain ⟨⟨parsed, keepalive, rfl⟩, hrest⟩ := parseInitialLine_ok hline
      obtain ⟨re1, hrest⟩ := hrest Re.init
      obtain ⟨fields, hread⟩ := readFields_of_parseHeaders h
      rw [parseHeaders_of_readFields _ _ hread] at h
      refine ⟨fields, parsed, keepalive, ?_, h⟩
      simp only [*, if_false, Bool.false_eq_true]

/-! ## How the body is delimited -/

structure Framed (fields : List Field) (re : Re) : Prop where
  single : ¬(re.flags.chunked = true ∧ re.flags.length = true)
  length : re.flags.length = true → ∀ f ∈ fields, HasKey "Content-Length" f →
    decimal f.2 = re.contentLength

/-- No `Content-Length` stands behind a `Transfer-Encoding`, and all of them are the same
number, which a `qse_size_t` can hold. -/
structure Consistent (fields : List Field) : Prop where
  order : EncodingLast fields
  value : ∃ n < 2 ^ 64, ∀ f ∈ fields, HasKey "Content-Length" f → decimal f.2 = n

/-- A header that is accepted frames the body if and only if its fields are consistent. -/
theorem framed_iff_consistent (opts : Options) (re re' : Re) (raw : List UInt8)
    (h : parseInitialLineAndHeaders opts re.clear.1 raw = .ok re') :
    ∃ fields, headerFields opts raw = .ok fields ∧ (Framed fields re' ↔ Consistent fields) := by
  obtain ⟨fields, parsed, keepalive, hread, hinsert⟩ := parseInitialLineAndHeaders_ok h
  have hclear : re.clear.1.flags.chunked = false ∧ re.clear.1.flags.length = false := by
    rw [Re.clear]
    split <;> exact ⟨rfl, rfl⟩
  have hboth := insertFields_both hinsert
  have hflags := (insertFields_flags hinsert).2
  simp only [hclear, Bool.false_eq_true, false_and, false_or] at hboth hflags
  refine ⟨fields, hread, fun hframed => ⟨?_, ?_⟩, fun hcons => ⟨?_, fun hset f hmem hkey => ?_⟩⟩
  · exact Classical.byContradiction fun hlast => hframed.single (hboth.mpr hlast)
  · rcases insertFields_contentLength hinsert with ⟨f, hmem, hkey, hvalue⟩ | ⟨-, hnone⟩
    · have hset := hflags.mpr ⟨f, hmem, hkey⟩
      refine ⟨re'.contentLength, ?_, hframed.length hset⟩
      rw [hvalue]
      exact Nat.mod_lt _ (by decide)
    · exact ⟨0, by decide, fun f hmem hkey => absurd hkey (hnone f hmem)⟩
  · exact fun hset => hboth.mp hset hcons.order
  · obtain ⟨n, hn, hvalues⟩ := hcons.value
    rcases insertFields_contentLength hinsert with ⟨g, hg, hgkey, hvalue⟩ | ⟨-, hnone⟩
    · rw [hvalues f hmem hkey, hvalue, hvalues g hg hgkey, Nat.mod_eq_of_lt hn]
    · exact absurd hkey (hnone f hmem)

/-- `qse_htrd_init` -/
def defaultOptions : Options where
  skipInitialLine := false
  canonQPath := false
  peekOnly := false
  request := true
  response := true
  trailers := false
  strict := false

theorem exists_ok_of_isOk {ε : Type} {e : Except ε α} (h : e.isOk = true) : ∃ a, e = .ok a := by
  cases e with
  | error e => cases h
  | ok a => exact ⟨a, rfl⟩

/-- A header with two lengths that agree. -/
theorem framed_iff_consistent_two_lengths :
    ∃ re', parseInitialLineAndHeaders defaultOptions Re.init.clear.1
        (octets "POST / HTTP/1.1\nContent-Length: 5\ncontent-length: 05\n\n") = .ok re' ∧
      ∃ fields, Framed fields re' ∧ fields.length = 2 := by
  obtain ⟨re', hre⟩ := exists_ok_of_isOk (e := parseInitialLineAndHeaders defaultOptions
    Re.init.clear.1 (octets "POST / HTTP/1.1\nContent-Length: 5\ncontent-length: 05\n\n"))
    (by decide +kernel)
  obtain ⟨fields, hread, hiff⟩ := framed_iff_consistent _ _ _ _ hre
  have hfields : headerFields defaultOptions
      (octets "POST / HTTP/1.1\nContent-Length: 5\ncontent-length: 05\n\n") =
        .ok [(octets "Content-Length", [53]), (octets "content-length", [48, 53])] := by
    decide +kernel
  rw [hfields] at hread
  cases hread
  exact ⟨re', hre, _, hiff.mpr ⟨by decide, 5, by decide, by decide⟩, rfl⟩

/-- A zero length behind the encoding is let through, and both flags are set. -/
theorem not_framed_zero_length : ¬∀ (opts : Options) (re re' : Re) (raw : List UInt8),
    parseInitialLineAndHeaders opts re.clear.1 raw = .ok re' →
      ∀ fields, headerFields opts raw = .ok fields → Framed fields re' := by
  intro hclaim
  have hboth : ((parseInitialLineAndHeaders defaultOptions Re.init.clear.1
      (octets "GET / HTTP/1.1\nTransfer-Encoding: chunked\nContent-Length: 0\n\n")).toOption.map
        fun re => re.flags.chunked && re.flags.length) = some true := by
    decide +kernel
  obtain ⟨re', hre⟩ := exists_ok_of_isOk (e := parseInitialLineAndHeaders defaultOptions
    Re.init.clear.1
    (octets "GET / HTTP/1.1\nTransfer-Encoding: chunked\nContent-Length: 0\n\n"))
    (by decide +kernel)
  obtain ⟨fields, -, -, hread, -⟩ := parseInitialLineAndHeaders_ok hre
  rw [hre] at hboth
  have hflags : re'.flags.chunked = true ∧ re'.flags.length = true := by
    simpa [Except.toOption] using hboth
  exact (hclaim _ _ _ _ hre fields hread).single hflags

end Qse.Http
