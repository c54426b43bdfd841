import Qse.Http.Lines
import Qse.Http.Pieces

/-!
# Chunked messages

A message whose body is sent in chunks is delivered with what the chunks hold, and the
next message begins right behind it.
-/

open List

namespace Qse.Http

/-! ## Trailers that are let through -/

def Re.body (re : Re) : List UInt8 × Option Concb × Bool × Bool :=
  (re.content, re.concb, re.completed, re.discarded)

variable {re re' : Re} {htrd : Htrd} {more : List UInt8} {opts : Options}

theorem captureKeyHeader_body {name : List UInt8} {values : List (List UInt8)}
    (h : captureKeyHeader re name values = .ok re') : re'.body = re.body := by
  rw [captureKeyHeader] at h
  split at h
  · rename_i handler hfound
    obtain ⟨key, hmem, -⟩ := mem_of_searchKeyHeader hfound
    simp only [keyHeaders, mem_cons, Prod.mk.injEq, not_mem_nil, or_false] at hmem
    rcases hmem with ⟨-, rfl⟩ | ⟨-, rfl⟩ | ⟨-, rfl⟩ | ⟨-, rfl⟩ | ⟨-, rfl⟩
    · simp only [captureConnection] at h
      split at h
      · cases h
        rfl
      · split at h
        · cases h
          rfl
        · split at h <;> cases h <;> rfl
    · simp only [captureContentLength] at h
      split at h
      · cases h
      split at h
      · cases h
      · split at h
        · cases h
        · cases h
          rfl
    · cases h
      rfl
    · cases h
      rfl
    · rw [captureTransferEncoding] at h
      split at h
      · split at h
        · cases h
        · cases h
          rfl
      · cases h
  · cases h
    rfl

theorem insertFields_body {trailer : Bool} {fields : List Field}
    (h : insertFields trailer re fields = .ok re') : re'.body = re.body := by
  induction fields generalizing re with
  | nil =>
    cases h
    rfl
  | cons field fields ih =>
    rw [insertFields] at h
    cases hfield : insertField trailer re field.1 field.2 with
    | error e =>
      rw [hfield] at h
      cases h
    | ok re1 =>
      rw [hfield] at h
      have hbody : re1.body = re.body := by
        rw [insertField] at hfield
        rw [captureKeyHeader_body hfield]
        cases trailer <;> rfl
      rw [ih h, hbody]

/-- The fields do not contradict that the body is chunked; `length` tells whether a length
has been set. -/
def TrailersAllowed : Bool → List Field → Prop
  | _, [] => True
  | length, field :: fields =>
    if HasKey "Content-Length" field then
      field.2 ≠ [] ∧ readLength 0 field.2 = some 0 ∧ TrailersAllowed true fields
    else if HasKey "Transfer-Encoding" field then
      length = false ∧ mbsxncasecmp field.2 (octets "chunked") = .eq ∧ TrailersAllowed false fields
    else TrailersAllowed length fields

theorem insertField_other_isOk (trailer : Bool) (re : Re) {name value : List UInt8}
    (hlength : ¬HasKey "Content-Length" (name, value))
    (hencoding : ¬HasKey "Transfer-Encoding" (name, value)) :
    ∃ re', insertField trailer re name value = .ok re' := by
  obtain ⟨re1, values, -, -, -, heq⟩ := insertField_eq trailer re name value
  rw [heq, captureKeyHeader]
  split
  · rename_i handler hfound
    obtain ⟨key, hmem, hkey⟩ := mem_of_searchKeyHeader hfound
    simp only [keyHeaders, mem_cons, Prod.mk.injEq, not_mem_nil, or_false] at hmem
    rcases hmem with ⟨rfl, rfl⟩ | ⟨rfl, rfl⟩ | ⟨rfl, rfl⟩ | ⟨rfl, rfl⟩ | ⟨rfl, rfl⟩
    · simp only [captureConnection]
      split
      · exact ⟨_, rfl⟩
      · split
        · exact ⟨_, rfl⟩
        · split <;> exact ⟨_, rfl⟩
    · exact absurd hkey hlength
    · exact ⟨_, rfl⟩
    · exact ⟨_, rfl⟩
    · exact absurd hkey hencoding
  · exact ⟨_, rfl⟩

theorem insertFields_isOk_iff {trailer : Bool} {re : Re} (hchunked : re.flags.chunked = true)
    (fields : List Field) :
    (∃ re', insertFields trailer re fields = .ok re') ↔ TrailersAllowed re.flags.length fields := by
  induction fields generalizing re with
  | nil => exact iff_of_true ⟨re, rfl⟩ trivial
  | cons field fields ih =>
    obtain ⟨re1, values, hflags, -, hvalue, heq⟩ :=
      insertField_eq trailer re field.1 field.2
    rw [insertFields, TrailersAllowed]
    by_cases hlength : HasKey "Content-Length" field
    · rw [if_pos hlength, heq, captureKeyHeader_length re1 hlength, captureContentLength, hvalue,
        hflags, hchunked]
      simp only [true_and]
      cases hread : readLength 0 field.2 with
      | none => simp
      | some len =>
        by_cases hnil : field.2 = []
        · simp [hnil]
        by_cases hzero : len = 0
        · subst hzero
          simp only [hnil, not_false_eq_true, lt_irrefl, if_false, ne_eq, true_and]
          exact @ih { re1 with
            flags := { re.flags with length := true }
            contentLength := 0 } hchunked
        · simp [hnil, Nat.pos_of_ne_zero hzero, hzero]
    · rw [if_neg hlength]
      by_cases hencoding : HasKey "Transfer-Encoding" field
      · rw [if_pos hencoding, heq, captureKeyHeader_encoding re1 hencoding,
          captureTransferEncoding, hvalue, hflags]
        by_cases hvalue' : mbsxncasecmp field.2 (octets "chunked") = .eq
        · cases hset : re.flags.length with
          | true => simp [hvalue']
          | false =>
            simp only [hvalue', if_true, Bool.false_eq_true, if_false, true_and]
            refine (@ih { re1 with flags := { re.flags with chunked := true } } rfl).trans ?_
            exact iff_of_eq (congrArg (TrailersAllowed · fields) hset)
        · simp [hvalue']
      · rw [if_neg hencoding]
        obtain ⟨re', hok⟩ := insertField_other_isOk trailer re hlength hencoding
        obtain ⟨hchunked', hlength', -⟩ := insertField_other hok hlength hencoding
        rw [hok, ← hlength']
        exact ih (hchunked'.trans hchunked)

/-! ## Messages -/

/-- The text of a message: the header, for each chunk the digits of its length and the
octets it holds, the digits of the last length, and the trailers. -/
structure Chunked where
  head : List UInt8
  chunks : List (List UInt8 × List UInt8)
  last : List UInt8
  trailers : List Field

def chunkText (chunk : List UInt8 × List UInt8) : List UInt8 :=
  chunk.1 ++ (lineEnd ++ (chunk.2 ++ lineEnd))

namespace Chunked

def text (m : Chunked) : List UInt8 :=
  m.head ++ (m.chunks.flatMap chunkText ++ (m.last ++ (lineEnd ++ fieldLines m.trailers)))

def content (m : Chunked) : List UInt8 := m.chunks.flatMap Prod.snd

/-- The header ends at its end, and a length before each chunk is that of the chunk. -/
structure WellFormed (m : Chunked) : Prop where
  head : ∃ first text, Plain first ∧ Block text ∧ m.head = first ++ mt '\n' :: text
  chunks : ∀ chunk ∈ m.chunks, IsHex chunk.1 ∧ hexadecimal chunk.1 = chunk.2.length ∧ chunk.2 ≠ []
  last : IsHex m.last ∧ hexadecimal m.last = 0
  trailers : ∀ field ∈ m.trailers, Neat field

end Chunked

def Htrd.withContent (htrd : Htrd) (data : List UInt8) : Htrd :=
  { pushContent htrd data with need := 0 }

theorem withContent_nil (hneed : htrd.need = 0) : htrd.withContent [] = htrd := by
  have hre : (htrd.re.addcontent [] true).2.1 = htrd.re := by
    rw [Re.addcontent]
    split
    · split
      · rfl
      · simp
    · rfl
  rw [Htrd.withContent, pushContent, hre, ← hneed]

theorem withContent_append (htrd : Htrd) (p q : List UInt8) :
    (htrd.withContent p).withContent q = htrd.withContent (p ++ q) := by
  rw [Htrd.withContent, Htrd.withContent, Htrd.withContent, ← pushContent_append]
  rfl

theorem afterContent_lineEnd (hphase : htrd.chunk.phase = .data) (hmore : more ≠ []) :
    afterContent run htrd (lineEnd ++ more) = dechunkStart run htrd more := by
  have hdrop : (lineEnd ++ more).dropWhile isSpaceOctet = mt '\n' :: more := rfl
  rw [afterContent, if_pos hphase, dechunkCrlf, hdrop]
  simp only [if_true]
  rw [if_pos hmore, run_eq (by simp)]
  rfl

theorem dechunkStart_chunk (huntil : htrd.untilClose = false) {chunk : List UInt8 × List UInt8}
    (hdigits : IsHex chunk.1) (hlen : hexadecimal chunk.1 = chunk.2.length) (hdata : chunk.2 ≠ [])
    (hfits : chunk.2.length < 2 ^ 64) (hmore : more ≠ []) :
    dechunkStart run htrd (chunkText chunk ++ more) =
      dechunkStart run (htrd.withContent chunk.2) more := by
  have hpos : 0 < chunk.2.length := length_pos_iff.mpr hdata
  have htext : chunkText chunk ++ more =
      chunk.1 ++ (lineEnd ++ (chunk.2 ++ (lineEnd ++ more))) := by
    simp [chunkText]
  have hmod : hexadecimal chunk.1 % 2 ^ 64 = chunk.2.length := by
    rw [hlen, Nat.mod_eq_of_lt hfits]
  have hne : chunk.2 ++ (lineEnd ++ more) ≠ [] := by simp [hdata]
  have hge : chunk.2.length ≤ (chunk.2 ++ (lineEnd ++ more)).length := by simp
  have huntil' : ({ htrd with
      chunk := ⟨chunk.2.length, chunk.1.length, .data⟩
      need := chunk.2.length } : Htrd).untilClose = false := huntil
  change afterLength run (getchunklen { htrd with chunk := ⟨0, 0, .len⟩ } _) = _
  rw [htext, getchunklen_line hdigits, hmod, if_neg hpos.ne', afterLength, if_neg (by simp),
    if_neg (by simp), readContent, if_pos hpos, contentResume_of_ge _ huntil' hne hge]
  simp only [take_left, drop_left]
  rw [afterContent_lineEnd rfl hmore]
  rfl

theorem dechunkStart_chunks (huntil : htrd.untilClose = false) (hneed : htrd.need = 0)
    {chunks : List (List UInt8 × List UInt8)}
    (hchunks : ∀ chunk ∈ chunks, IsHex chunk.1 ∧ hexadecimal chunk.1 = chunk.2.length ∧
      chunk.2 ≠ []) (hfits : ∀ chunk ∈ chunks, chunk.2.length < 2 ^ 64) (hmore : more ≠ []) :
    dechunkStart run htrd (chunks.flatMap chunkText ++ more) =
      dechunkStart run (htrd.withContent (chunks.flatMap Prod.snd)) more := by
  induction chunks generalizing htrd with
  | nil => rw [flatMap_nil, flatMap_nil, withContent_nil hneed, nil_append]
  | cons chunk chunks ih =>
    obtain ⟨⟨hdigits, hlen, hdata⟩, hchunks'⟩ := forall_mem_cons.mp hchunks
    obtain ⟨hfits1, hfits'⟩ := forall_mem_cons.mp hfits
    rw [flatMap_cons, flatMap_cons, append_assoc,
      dechunkStart_chunk huntil hdigits hlen hdata hfits1 (by simp [hmore]),
      @ih (htrd.withContent chunk.2) huntil rfl hchunks' hfits', withContent_append]

theorem length_le_fieldLines (fields : List Field) :
    fields.length ≤ (fieldLines fields).length := by
  induction fields with
  | nil => exact Nat.zero_le _
  | cons field fields ih =>
    simp only [fieldLines, flatMap_cons, fieldLine, length_append, length_cons] at ih ⊢
    omega

def Htrd.behind (htrd : Htrd) (m : Chunked) (re : Re) : Htrd :=
  { htrd with
    crlf := 0
    need := 0
    tra := fieldLines m.trailers
    re := re
    chunk := ⟨0, m.last.length, .done⟩ }

theorem dechunkStart_last (htra : htrd.tra = []) {m : Chunked} (hm : m.WellFormed)
    (rest : List UInt8) :
    report (dechunkStart run htrd (m.last ++ (lineEnd ++ (fieldLines m.trailers ++ rest)))) =
      match insertFields htrd.option.trailers htrd.re m.trailers with
      | .error e => .error (e, htrd.poked, htrd.heads)
      | .ok re => report (complete run (htrd.behind m re) rest) := by
  have hzero : hexadecimal m.last % 2 ^ 64 = 0 := by rw [hm.last.2, Nat.zero_mod]
  change report (afterLength run (getchunklen { htrd with chunk := ⟨0, 0, .len⟩ } _)) = _
  rw [getchunklen_line hm.last.1, hzero, if_pos rfl, afterLength, if_neg (by simp), if_pos rfl]
  change report (afterTrailers run (getTrailingHeaders { htrd with
    need := 0
    crlf := 2
    chunk := ⟨0, m.last.length, .trailers⟩ } [] _)) = _
  have hread := @getTrailingHeaders_block _ (block_fieldLines hm.trailers) { htrd with
    need := 0
    crlf := 2
    chunk := ⟨0, m.last.length, .trailers⟩ } rfl [] rest
  have hfields := readFields_lines hm.trailers htrd.option.strict
    (Nat.lt_succ_of_le (length_le_fieldLines m.trailers))
  simp only [htra, append_nil, nil_append] at hread ⊢
  rw [parseHeaders_of_readFields _ _ hfields] at hread
  cases hinsert : insertFields htrd.option.trailers htrd.re m.trailers with
  | error e =>
    rw [hinsert] at hread
    have hsame : report (.error (e, htrd) : Except (Errnum × Htrd) (Htrd × List UInt8)) =
        .error (e, htrd.poked, htrd.heads) := rfl
    rw [report_afterTrailers (hread.trans hsame.symm)]
    rfl
  | ok re =>
    rw [hinsert] at hread
    have hsame : report (.ok (htrd.behind m re, rest) :
        Except (Errnum × Htrd) (Htrd × List UInt8)) = .ok (htrd.behind m re, rest) := rfl
    rw [report_afterTrailers (hread.trans hsame.symm)]
    rfl

/-! ## One call -/

structure Fresh (opts : Options) (htrd : Htrd) : Prop where
  quiet : Quiet opts htrd
  cleared : clearFeed htrd = htrd
  re : htrd.re = Re.init
  heads : ∀ flags ∈ htrd.heads, Framable opts flags

theorem fresh_init (opts : Options) : Fresh opts (Htrd.init opts) :=
  ⟨⟨rfl, rfl, rfl, rfl⟩, rfl, rfl, fun _ h => nomatch h⟩

def Htrd.started (htrd : Htrd) (m : Chunked) (re : Re) : Htrd :=
  { htrd with
    clean := false
    crlf := 0
    plen := 0
    raw := m.head
    re := re
    heads := htrd.heads ++ [re.flags] }

theorem addcontent_of_body (hbody : re.body = Re.init.body) (data : List UInt8) :
    (re.addcontent data true).2.1 = { re with content := data } := by
  have hcontent : re.content = [] := congrArg Prod.fst hbody
  have hconcb : re.concb = none := congrArg (fun body => body.2.1) hbody
  have hpending : re.pending = true := by
    have hcompleted : re.completed = false := congrArg (fun body => body.2.2.1) hbody
    have hdiscarded : re.discarded = false := congrArg (fun body => body.2.2.2) hbody
    rw [Re.pending, hcompleted, hdiscarded]
    rfl
  rw [Re.addcontent, if_pos hpending, hconcb]
  simp [hcontent]

theorem headerComplete_ok (k : Label → Htrd → List UInt8 → Outcome) {seen : List UInt8}
    (hfeed : htrd.option.peekOnly = false)
    (hre : parseInitialLineAndHeaders htrd.option htrd.re (htrd.raw ++ seen) = .ok re)
    (ptr : List UInt8) :
    headerComplete k htrd seen ptr =
      startBody k { htrd with
        crlf := 0
        plen := 0
        raw := htrd.raw ++ seen
        re := re
        heads := htrd.heads ++ [re.flags] } ptr := by
  simp only [headerComplete, hre, hfeed, Bool.false_eq_true, if_false]

theorem parseInitialLineAndHeaders_body {raw : List UInt8}
    (h : parseInitialLineAndHeaders opts re raw = .ok re') : re'.body = re.body := by
  obtain ⟨fields, parsed, keepalive, -, hinsert⟩ := parseInitialLineAndHeaders_ok h
  have hbody := insertFields_body hinsert
  exact hbody

section Message

variable {opts : Options} (hpeek : opts.peekOnly = false) {htrd : Htrd}
  (hfresh : Fresh opts htrd) {m : Chunked} (hm : m.WellFormed) {re : Re}
  (hre : parseInitialLineAndHeaders opts Re.init m.head = .ok re)
  (hchunked : re.flags.chunked = true)
  (hfits : ∀ chunk ∈ m.chunks, chunk.2.length < 2 ^ 64)

include hpeek hfresh hm hre hchunked hfits

theorem feed_chunked (rest : List UInt8) :
    report (feed htrd (m.text ++ rest)) =
      match insertFields opts.trailers { re with content := m.content } m.trailers with
      | .error e => .error (e, htrd.poked, htrd.heads ++ [re.flags])
      | .ok re' =>
        report (complete run
          (((htrd.started m re).withContent m.content).behind m re') rest) := by
  have hneed : htrd.need = 0 := (congrArg Htrd.need hfresh.cleared).symm
  have hcrlf : htrd.crlf = 0 := (congrArg Htrd.crlf hfresh.cleared).symm
  have hraw : htrd.raw = [] := (congrArg Htrd.raw hfresh.cleared).symm
  have htra : htrd.tra = [] := (congrArg Htrd.tra hfresh.cleared).symm
  have hphase : htrd.chunk.phase = .done :=
    (congrArg (fun htrd => htrd.chunk.phase) hfresh.cleared).symm
  have hcrlf' : ({ htrd with clean := false } : Htrd).crlf = 0 := hcrlf
  have hresume : htrd.resumeAt = .top := by
    rw [Htrd.resumeAt, hneed, hphase]
    rfl
  have hentered : htrd.entered = { htrd with clean := false } := if_pos hresume
  obtain ⟨first, block, hfirst, hblock, hhead⟩ := hm.head
  have htext : m.text ++ rest = first ++ mt '\n' :: (block ++ (m.chunks.flatMap chunkText ++
      (m.last ++ (lineEnd ++ (fieldLines m.trailers ++ rest))))) := by
    simp [Chunked.text, hhead]
  have hhead' : parseInitialLineAndHeaders htrd.option htrd.re
      (htrd.raw ++ (first ++ mt '\n' :: block)) = .ok re := by
    rw [hfresh.quiet.option, hfresh.re, hraw, nil_append, ← hhead, hre]
  have hbody : re.body = Re.init.body := parseInitialLineAndHeaders_body hre
  have hcontent : ((htrd.started m re).withContent m.content).re =
      { re with content := m.content } := addcontent_of_body hbody m.content
  have hoption : ((htrd.started m re).withContent m.content).option = opts := hfresh.quiet.option
  rw [feed_eq_run hfresh.quiet, hentered, hresume, run_eq (by simp), htext]
  change report (scan run { htrd with clean := false } [] _) = _
  have hfeed : ({ htrd with clean := false } : Htrd).option.peekOnly = false := by
    rw [← hpeek, ← hfresh.quiet.option]
  rw [scan_header run hfirst hblock hcrlf', headerComplete_ok run hfeed hhead', hraw,
    nil_append, ← hhead]
  change report (startBody run (htrd.started m re) _) = _
  have hstarted : (htrd.started m re).re.flags.chunked = true := hchunked
  have huntil : (htrd.started m re).untilClose = false := hfresh.quiet.untilClose
  have hneed' : (htrd.started m re).need = 0 := hneed
  have htra' : ((htrd.started m re).withContent m.content).tra = [] := htra
  rw [startBody, if_pos hstarted, dechunkStart_chunks huntil hneed' hm.chunks hfits
    (by simp [lineEnd])]
  change report (dechunkStart run ((htrd.started m re).withContent m.content) _) = _
  rw [dechunkStart_last htra' hm, hoption]
  change (match insertFields opts.trailers ((htrd.started m re).withContent m.content).re
    m.trailers with | .error e => _ | .ok re => _) = _
  rw [hcontent]
  rfl

end Message

/-! ## Any pieces -/

def dropOctets : ℕ → List (List UInt8) → List (List UInt8)
  | _, [] => []
  | n, piece :: pieces =>
    if piece.length ≤ n then dropOctets (n - piece.length) pieces
    else piece.drop n :: pieces

theorem dropOctets_zero {pieces : List (List UInt8)} (hne : ∀ piece ∈ pieces, piece ≠ []) :
    dropOctets 0 pieces = pieces := by
  cases pieces with
  | nil => rfl
  | cons piece pieces =>
    have hpos := length_pos_iff.mpr (hne piece (.head _))
    rw [dropOctets, if_neg (by omega), drop_zero]

theorem report_feedAll_cons {htrd' : Htrd} {piece piece' : List UInt8}
    (h : report (feed htrd piece) = report (feed htrd' piece')) (pieces : List (List UInt8)) :
    report (feedAll htrd (piece :: pieces)) = report (feedAll htrd' (piece' :: pieces)) := by
  rw [feedAll, feedAll]
  cases hfeed : feed htrd piece with
  | error e =>
    rw [hfeed] at h
    cases hfeed' : feed htrd' piece' with
    | error e' =>
      rw [hfeed'] at h
      exact h
    | ok _ =>
      rw [hfeed'] at h
      cases h
  | ok _ =>
    rw [hfeed] at h
    cases hfeed' : feed htrd' piece' with
    | error e' =>
      rw [hfeed'] at h
      cases h
    | ok _ =>
      rw [hfeed'] at h
      cases h
      rfl

theorem eq_ok_of_report {out : Outcome} (h : report out = .ok htrd) : out = .ok htrd := by
  cases out with
  | error e => cases h
  | ok htrd' =>
    cases h
    rfl

/-- If a text takes the reader to a state in one call, whatever follows it in the call, then
it does so in any pieces. -/
theorem feedAll_through (hpeek : opts.peekOnly = false) {fin : Htrd}
    (hheads : ∀ flags ∈ fin.heads, Framable opts flags) (hrest : Resting opts htrd)
    {text : List UInt8} (htext : text ≠ []) (hafter : ∀ rest, report (feed htrd (text ++ rest)) =
      report (if rest = [] then .ok fin else feed fin rest)) {pieces : List (List UInt8)}
    (hne : ∀ piece ∈ pieces, piece ≠ []) {rest : List UInt8}
    (hflat : pieces.flatten = text ++ rest) :
    report (feedAll htrd pieces) = report (feedAll fin (dropOctets text.length pieces)) := by
  induction pieces generalizing htrd text with
  | nil => simp [htext] at hflat
  | cons piece pieces ih =>
    obtain ⟨hpiece, hpieces⟩ := forall_mem_cons.mp hne
    rw [flatten_cons] at hflat
    rw [dropOctets]
    rcases append_eq_append_iff.mp hflat with ⟨more, rfl, hmore⟩ | ⟨past, rfl, hpast⟩
    · -- the piece ends within the text or at its end
      by_cases hnil : more = []
      · subst hnil
        have hend := hafter []
        rw [if_pos rfl, append_nil, append_nil] at hend
        rw [append_nil, if_pos le_rfl, Nat.sub_self, dropOctets_zero hpieces, feedAll,
          eq_ok_of_report hend]
      have hend := hafter []
      rw [if_pos rfl, append_nil] at hend
      have hend' := eq_ok_of_report hend
      have hjoin := feed_joins hpeek hpiece hnil hrest fun flags _ hmem =>
        hheads flags (by rwa [hend'] at hmem)
      rw [hend'] at hjoin
      cases hfeed : feed htrd piece with
      | error e =>
        rw [hfeed] at hjoin
        cases hjoin with
        | failed hout => cases hout
      | ok htrd' =>
        rw [hfeed] at hjoin
        cases hjoin with
        | broken _ _ hout => cases hout
        | joined hrest' hwhole hout =>
          have hmore' := eq_ok_of_report hout.symm
          have hheads' : ∀ flags ∈ htrd'.heads, Framable opts flags := fun flags hmem =>
            hheads flags (by
              have hmem' := heads_feed htrd' more hmem
              rwa [hmore'] at hmem')
          have hafter' : ∀ rest, report (feed htrd' (more ++ rest)) =
              report (if rest = [] then .ok fin else feed fin rest) := by
            intro rest
            have hjoin := feed_joins hpeek hpiece (b := more ++ rest) (by simp [hnil]) hrest
              fun flags hmem _ => hheads' flags (by rwa [hfeed] at hmem)
            rw [hfeed, ← append_assoc] at hjoin
            cases hjoin with
            | joined _ _ hout => rw [← hout, hafter rest]
            | broken _ hbroken _ =>
              exact absurd ((brokenLength_append hnil rest).mp hbroken) hwhole
          rw [feedAll, hfeed, if_pos (by simp), length_append, Nat.add_sub_cancel_left]
          exact ih hrest' hnil hafter' hpieces hmore
    · -- the piece goes to the end of the text or beyond it
      have hpast' := hafter past
      by_cases hnil : past = []
      · rw [hnil, if_pos rfl] at hpast'
        rw [hnil, append_nil, if_pos le_rfl, Nat.sub_self,
          dropOctets_zero hpieces, feedAll]
        rw [append_nil] at hpast'
        rw [eq_ok_of_report hpast']
      · have hpos := length_pos_iff.mpr hnil
        rw [if_neg hnil] at hpast'
        rw [if_neg (by rw [length_append]; omega), drop_left]
        exact report_feedAll_cons hpast' pieces

/-! ## The message and what follows it -/

theorem Fresh.resting (hfresh : Fresh opts htrd) : Resting opts htrd := by
  have hneed : htrd.need = 0 := (congrArg Htrd.need hfresh.cleared).symm
  have hphase : htrd.chunk.phase = .done :=
    (congrArg (fun htrd => htrd.chunk.phase) hfresh.cleared).symm
  have hresume : htrd.resumeAt = .top := by
    rw [Htrd.resumeAt, hneed, hphase]
    rfl
  have hentered : htrd.entered = { htrd with clean := false } := if_pos hresume
  refine ⟨hfresh.quiet, ?_⟩
  rw [hresume, hentered]
  exact ⟨hneed, hphase, rfl⟩

theorem fresh_finished (hquiet : Quiet opts htrd) (hbody : htrd.re.body.2 = Re.init.body.2)
    (hheads : ∀ flags ∈ htrd.heads, Framable opts flags) : Fresh opts htrd.finished := by
  have hconcb : htrd.re.concb = none := congrArg Prod.fst hbody
  have hpending : htrd.re.pending = true := by
    have hcompleted : htrd.re.completed = false := congrArg (fun body => body.2.1) hbody
    have hdiscarded : htrd.re.discarded = false := congrArg (fun body => body.2.2) hbody
    rw [Re.pending, hcompleted, hdiscarded]
    rfl
  have hre : htrd.finished.re = Re.init := by
    change htrd.re.completecontent.1.clear.1 = Re.init
    rw [Re.completecontent, if_pos hpending, Re.clear, if_neg (by simp [Re.pending]), hconcb]
    rfl
  refine ⟨hquiet.finished, ?_, hre, hheads⟩
  have hclear : htrd.finished.re.clear.1 = htrd.finished.re := by
    rw [hre]
    rfl
  calc clearFeed htrd.finished
      = { htrd.finished with re := htrd.finished.re.clear.1 } := rfl
    _ = htrd.finished := by rw [hclear]

/-- A message with the text `text` is delivered with the content `content` in any pieces, and
the first octet behind it is where the next message begins. -/
def Delivered (opts : Options) (htrd : Htrd) (text content : List UInt8) : Prop :=
  ∃ msg htrd', Fresh opts htrd' ∧ htrd'.poked = htrd.poked ++ [msg] ∧ msg.content = content ∧
    ∀ rest pieces, (∀ piece ∈ pieces, piece ≠ []) → pieces.flatten = text ++ rest →
      report (feedAll htrd pieces) = report (feedAll htrd' (dropOctets text.length pieces))

/-- A line of digits is read as the length that it tells, or it is refused. -/
def SizeKept (digits : List UInt8) : Prop :=
  ∀ (htrd : Htrd) (ptr : List UInt8) (htrd' : Htrd) (ptr' : List UInt8),
    getchunklen { htrd with chunk := ⟨0, 0, .len⟩ } (digits ++ (lineEnd ++ ptr)) =
      .ok (htrd', ptr') → htrd'.need = hexadecimal digits

theorem sizeKept_iff {digits : List UInt8} (hdigits : IsHex digits) :
    SizeKept digits ↔ hexadecimal digits < 2 ^ 64 := by
  constructor
  · intro hkept
    have hneed := hkept (Htrd.init ⟨false, false, false, false, false, false, false⟩) [] _ _
      (getchunklen_line hdigits _ [])
    rw [← hneed]
    exact Nat.mod_lt _ (by decide)
  · intro hlt htrd ptr htrd' ptr' hline
    rw [getchunklen_line hdigits] at hline
    cases hline
    exact Nat.mod_eq_of_lt hlt

section Message

variable {opts : Options} (hpeek : opts.peekOnly = false) {htrd : Htrd}
  (hfresh : Fresh opts htrd) {m : Chunked} (hm : m.WellFormed) {re : Re}
  (hre : parseInitialLineAndHeaders opts Re.init m.head = .ok re)
  (hchunked : re.flags.chunked = true)
  (hfits : ∀ chunk ∈ m.chunks, chunk.2.length < 2 ^ 64)

include hpeek hfresh hm hre hchunked hfits

theorem delivered_of_trailersAllowed (hallowed : TrailersAllowed re.flags.length m.trailers) :
    Delivered opts htrd m.text m.content := by
  have hchunked' : ({ re with content := m.content } : Re).flags.chunked = true := hchunked
  obtain ⟨re', hinsert⟩ :=
    (@insertFields_isOk_iff opts.trailers _ hchunked' m.trailers).mpr hallowed
  have hfeed := feed_chunked hpeek hfresh hm hre hchunked hfits
  rw [hinsert] at hfeed
  have hquiet : Quiet opts (((htrd.started m re).withContent m.content).behind m re') :=
    ⟨hfresh.quiet.option, hfresh.quiet.suspended, hfresh.quiet.dummified, hfresh.quiet.untilClose⟩
  have hbody : re'.body = ({ re with content := m.content } : Re).body :=
    insertFields_body hinsert
  have hbody' : re.body = Re.init.body := parseInitialLineAndHeaders_body hre
  have hrest : re'.body.2 = Re.init.body.2 := by
    rw [hbody, ← hbody']
    rfl
  have hheads : ∀ flags ∈ htrd.heads ++ [re.flags], Framable opts flags := by
    intro flags hmem
    rcases mem_append.mp hmem with hmem | hmem
    · exact hfresh.heads flags hmem
    · rw [mem_singleton.mp hmem]
      exact fun _ => .inl hchunked
  have hfin := fresh_finished hquiet hrest hheads
  refine ⟨re'.completecontent.1, _, hfin, rfl, ?_, ?_⟩
  · have hcontent : re'.completecontent.1.content = re'.content := by
      rw [Re.completecontent]
      split <;> rfl
    rw [hcontent]
    exact congrArg Prod.fst hbody
  · intro rest pieces hne hflat
    have htext : m.text ≠ [] := by
      obtain ⟨first, block, -, -, hhead⟩ := hm.head
      simp [Chunked.text, hhead]
    refine feedAll_through hpeek hfin.heads hfresh.resting htext (fun rest => ?_) hne hflat
    refine (hfeed rest).trans ?_
    change report (complete run _ rest) = _
    rw [complete_eq hquiet]
    split
    · rfl
    · rw [feed_eq_run hfin.quiet]
      rfl

theorem trailersAllowed_of_delivered (hdelivered : Delivered opts htrd m.text m.content) :
    TrailersAllowed re.flags.length m.trailers := by
  have hchunked' : ({ re with content := m.content } : Re).flags.chunked = true := hchunked
  refine (@insertFields_isOk_iff opts.trailers _ hchunked' m.trailers).mp ?_
  obtain ⟨msg, htrd', -, -, -, hpieces⟩ := hdelivered
  have hfeed := feed_chunked hpeek hfresh hm hre hchunked hfits []
  cases hinsert : insertFields opts.trailers { re with content := m.content } m.trailers with
  | ok re' => exact ⟨re', rfl⟩
  | error e =>
    have htext : m.text ≠ [] := by
      obtain ⟨first, block, -, -, hhead⟩ := hm.head
      simp [Chunked.text, hhead]
    have hone := hpieces [] [m.text] (by simpa using htext) (by simp)
    rw [dropOctets, if_pos le_rfl, Nat.sub_self, dropOctets] at hone
    rw [hinsert, append_nil] at hfeed
    cases hone' : feed htrd m.text with
    | error e' =>
      rw [feedAll, feedAll, hone'] at hone
      cases hone
    | ok htrd'' =>
      rw [hone'] at hfeed
      cases hfeed

end Message

/-- A message is delivered as its chunks say, and none of their lengths is read as another
one, if each fits in a `qse_size_t` and the trailers do not contradict the header. A length
that does not fit is read as another one. -/
theorem delivered_iff_fits {opts : Options} (hpeek : opts.peekOnly = false) {htrd : Htrd}
    (hfresh : Fresh opts htrd) {m : Chunked} (hm : m.WellFormed) {re : Re}
    (hre : parseInitialLineAndHeaders opts Re.init m.head = .ok re)
    (hchunked : re.flags.chunked = true) :
    (Delivered opts htrd m.text m.content ∧ (∀ chunk ∈ m.chunks, SizeKept chunk.1) ↔
      (∀ chunk ∈ m.chunks, hexadecimal chunk.1 < 2 ^ 64) ∧
        TrailersAllowed re.flags.length m.trailers) ∧
    ∀ digits, IsHex digits → (SizeKept digits ↔ hexadecimal digits < 2 ^ 64) := by
  have hkept : (∀ chunk ∈ m.chunks, SizeKept chunk.1) ↔
      ∀ chunk ∈ m.chunks, hexadecimal chunk.1 < 2 ^ 64 :=
    forall₂_congr fun chunk hmem => sizeKept_iff (hm.chunks chunk hmem).1
  have hfits : (∀ chunk ∈ m.chunks, hexadecimal chunk.1 < 2 ^ 64) →
      ∀ chunk ∈ m.chunks, chunk.2.length < 2 ^ 64 := fun hfits chunk hmem => by
    rw [← (hm.chunks chunk hmem).2.1]
    exact hfits chunk hmem
  refine ⟨⟨fun ⟨hdelivered, hsizes⟩ => ?_, fun ⟨hsizes, hallowed⟩ => ?_⟩,
    fun digits => sizeKept_iff⟩
  · have hsizes' := hkept.mp hsizes
    exact ⟨hsizes', trailersAllowed_of_delivered hpeek hfresh hm hre hchunked (hfits hsizes')
      hdelivered⟩
  · exact ⟨delivered_of_trailersAllowed hpeek hfresh hm hre hchunked (hfits hsizes) hallowed,
      hkept.mpr hsizes⟩

def twoChunks : Chunked where
  head := octets "POST / HTTP/1.1\nTransfer-Encoding: chunked\n\n"
  chunks := [(octets "3", octets "abc"), (octets "02", octets "\r\n")]
  last := octets "0"
  trailers := [(octets "Tag", octets "x")]

theorem wellFormed_twoChunks : twoChunks.WellFormed where
  head := by
    refine ⟨octets "POST / HTTP/1.1", octets "Transfer-Encoding: chunked\n\n", ?_, ?_, rfl⟩
    · unfold Plain
      decide +kernel
    · refine @Block.line (octets "Transfer-Encoding: chunked") (octets "\n") ?_ ?_ ?_
      · unfold Plain
        decide +kernel
      · unfold Blank
        decide +kernel
      · exact .blank (.inl rfl)
  chunks := by
    unfold IsHex
    decide +kernel
  last := by
    unfold IsHex
    decide +kernel
  trailers := by
    intro field hmem
    rw [mem_singleton.mp hmem]
    constructor
    all_goals first | (unfold Plain; decide +kernel) | decide +kernel

/-- The two chunks are delivered, and the trailer ends the message. -/
theorem delivered_iff_fits_twoChunks :
    Delivered clientOptions (Htrd.init clientOptions) twoChunks.text (octets "abc\r\n") ∧
      SizeKept (octets "ffffffffffffffff") := by
  obtain ⟨re, hre⟩ := exists_ok_of_isOk (e := parseInitialLineAndHeaders clientOptions Re.init
    twoChunks.head) (by decide +kernel)
  have hflags : re.flags = ⟨true, false, true, false, false⟩ := by
    have hflags : (parseInitialLineAndHeaders clientOptions Re.init twoChunks.head).toOption.map
        Re.flags = some ⟨true, false, true, false, false⟩ := by
      decide +kernel
    rw [hre] at hflags
    exact Option.some.inj hflags
  obtain ⟨hiff, hsizes⟩ := delivered_iff_fits rfl (fresh_init clientOptions) wellFormed_twoChunks
    hre (by rw [hflags])
  have hallowed : TrailersAllowed re.flags.length twoChunks.trailers := by
    rw [hflags]
    simp only [twoChunks, TrailersAllowed]
    decide
  refine ⟨(hiff.mpr ⟨by decide, hallowed⟩).1, (hsizes _ ?_).mpr (by decide)⟩
  unfold IsHex
  decide +kernel

/-- A length of 2^64 + 1 is read as 1. -/
theorem not_sizeKept : ¬∀ digits, IsHex digits → SizeKept digits := by
  intro hclaim
  have hdigits : IsHex (octets "10000000000000001") := by
    unfold IsHex
    decide +kernel
  have hneed := hclaim _ hdigits (Htrd.init clientOptions) [] _ _ (getchunklen_line hdigits _ [])
  revert hneed
  decide

end Qse.Http
