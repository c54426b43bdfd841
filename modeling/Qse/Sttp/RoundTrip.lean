import Qse.Sttp.Pieces
import Mathlib.Data.List.TakeWhile

/-!
# Commands that are sent and received

What is written for commands is fed to another object, in pieces.
-/

open List

namespace Qse.SttpFeed

open Fallible

variable {ct : Ctype} {env : Env}

/-! ## Pieces -/

theorem feed_nothing {l : List UInt8} (hl : l ≠ []) (s : Sttp) (hs : s.rdLo = l) :
    (feed ct env false [] s).1 = none := by
  rewrite [feed_leftOver (by rwa [hs])]
  rfl

/-- No call without data comes while a character is cut. `bytes` have come before. -/
def NoneInside (bytes : List UInt8) (pieces : List (List UInt8)) : Prop :=
  ∀ before after, pieces = before ++ [] :: after →
    ∃ cs, Utf8.encode cs = some (bytes ++ before.flatten)

theorem noneInside_nil (bytes : List UInt8) : NoneInside bytes [] := by
  intro before after h
  cases before <;> cases h

theorem noneInside_cons (bytes piece : List UInt8) (pieces : List (List UInt8)) :
    NoneInside bytes (piece :: pieces) ↔
      (piece = [] → ∃ cs, Utf8.encode cs = some bytes) ∧ NoneInside (bytes ++ piece) pieces := by
  constructor
  · intro h
    constructor
    · rintro rfl
      obtain ⟨cs, hcs⟩ := h [] pieces rfl
      rw [flatten_nil, append_nil] at hcs
      exact ⟨cs, hcs⟩
    · rintro before after rfl
      obtain ⟨cs, hcs⟩ := h (piece :: before) after rfl
      rw [flatten_cons, ← append_assoc] at hcs
      exact ⟨cs, hcs⟩
  · rintro ⟨hfirst, hrest⟩ before after heq
    cases before with
    | nil =>
      obtain ⟨rfl, rfl⟩ := List.cons.inj heq
      obtain ⟨cs, hcs⟩ := hfirst rfl
      exact ⟨cs, by rw [flatten_nil, append_nil, hcs]⟩
    | cons piece' before =>
      obtain ⟨rfl, rfl⟩ := List.cons.inj heq
      obtain ⟨cs, hcs⟩ := hrest before after rfl
      exact ⟨cs, by rw [flatten_cons, ← append_assoc, hcs]⟩

theorem encode_eq_nil {cs : List UInt32} (h : Utf8.encode cs = some []) : cs = [] := by
  cases cs with
  | nil => rfl
  | cons w ws =>
    obtain ⟨as, more, has, -, heq⟩ := Utf8.encode_cons.1 h
    obtain ⟨n, hlen, -⟩ := Utf8.utf8touc_of_uctoutf8 has
    obtain ⟨rfl, -⟩ := append_eq_nil_iff.1 heq.symm
    cases hlen

theorem feedPieces_iff {b : Reader} : ∀ (pieces : List (List UInt8)) {l front : List UInt8}
    {cs done : List UInt32} {a : Reader}, LeftOver l →
    Before ct env b a cs (l ++ pieces.flatten) → Utf8.encode done = some front → ∀ s : Sttp,
    ((feedPieces ct env pieces ((s.keep l).put a)).1 = some ⟨⟩ ↔ NoneInside (front ++ l) pieces) ∧
    ((feedPieces ct env pieces ((s.keep l).put a)).1 = some ⟨⟩ →
      (feedPieces ct env pieces ((s.keep l).put a)).2 = (s.keep []).put b)
  | [], l, front, cs, done, a, hl, hbefore, hdone, s => by
    have hcs := hbefore.bytes
    rw [flatten_nil, append_nil] at hcs
    obtain rfl : l = [] := hl.resolve_right fun hpartial =>
      hpartial.not_encoding ⟨cs, hcs⟩
    obtain rfl := encode_eq_nil hcs
    obtain rfl : a = b := hbefore.reads
    exact ⟨iff_of_true rfl (noneInside_nil _), fun _ => rfl⟩
  | piece :: pieces, l, front, cs, done, a, hl, hbefore, hdone, s => by
    rw [noneInside_cons]
    by_cases hbad : l ≠ [] ∧ piece = []
    · obtain ⟨hne, rfl⟩ := hbad
      have hfail := @feed_nothing ct env _ hne ((s.keep l).put a) rfl
      have hnone : (feedPieces ct env ([] :: pieces) ((s.keep l).put a)).1 = none := by
        cases hrun : feed ct env false [] ((s.keep l).put a) with
        | mk r s' =>
          rw [hrun] at hfail
          obtain rfl : r = none := hfail
          exact congrArg Prod.fst (bind_none hrun)
      have hcut : ¬∃ cs, Utf8.encode cs = some (front ++ l) := by
        rintro ⟨ws, hws⟩
        obtain ⟨ws', -, hws'⟩ := Utf8.encode_of_append hdone hws
        exact (hl.resolve_left hne).not_encoding ⟨ws', hws'⟩
      rw [hnone]
      exact ⟨iff_of_false (by rintro ⟨⟩) fun h => hcut (h.1 rfl), by rintro ⟨⟩⟩
    · rw [flatten_cons, ← append_assoc] at hbefore
      have hdata : l ≠ [] → piece ≠ [] := fun hne hnil => hbad ⟨hne, hnil⟩
      obtain ⟨m, cs', left, hbefore', hprogress, hleft, hrun⟩ := feed_reads hl hdata hbefore
      obtain ⟨done', front', -, hsplit, hdone'⟩ := hprogress
      obtain ⟨hiff, hstate⟩ := feedPieces_iff pieces hleft hbefore'
        (Utf8.encode_append hdone hdone') s
      have hrest : feedPieces ct env (piece :: pieces) ((s.keep l).put a) =
          feedPieces ct env pieces ((s.keep left).put m) :=
        bind_some (hrun s)
      have hbytes : front ++ front' ++ left = front ++ l ++ piece := by
        rw [append_assoc, ← hsplit, append_assoc]
      have hfirst : piece = [] → ∃ cs, Utf8.encode cs = some (front ++ l) := by
        intro hnil
        have hl : l = [] := not_not.mp fun hne => hbad ⟨hne, hnil⟩
        exact ⟨done, by rw [hl, append_nil, hdone]⟩
      rw [hrest, hiff, hbytes]
      exact ⟨(and_iff_right hfirst).symm, fun h => hstate (hiff.2 (by rwa [hbytes]))⟩

/-! ## Writing -/

def Sttp.output (s : Sttp) : List UInt8 := s.world.written ++ s.wrBuf

def Writes (x : SttpM PUnit) (cs : List UInt32) : Prop :=
  ∃ bytes, Utf8.encode cs = some bytes ∧ ∀ s : Sttp, ∃ s', x s = (some ⟨⟩, s') ∧
    s'.output = s.output ++ bytes ∧ s'.wrArgCount = s.wrArgCount

theorem Writes.bind {x y : SttpM PUnit} {cs ds : List UInt32} (hx : Writes x cs)
    (hy : Writes y ds) : Writes (x >>= fun _ => y) (cs ++ ds) := by
  obtain ⟨bytes, hcs, hx⟩ := hx
  obtain ⟨bytes', hds, hy⟩ := hy
  refine ⟨bytes ++ bytes', Utf8.encode_append hcs hds, fun s => ?_⟩
  obtain ⟨s', hrun, hout, hcount⟩ := hx s
  obtain ⟨s'', hrun', hout', hcount'⟩ := hy s'
  exact ⟨s'', (bind_some hrun).trans hrun', by rw [hout', hout, append_assoc], hcount'.trans hcount⟩

theorem writes_nothing : Writes (pure ⟨⟩) [] :=
  ⟨[], rfl, fun s => ⟨s, rfl, (append_nil _).symm, rfl⟩⟩

theorem flush_willing (henv : env.Willing) (s : Sttp) :
    flush env s = (some ⟨⟩, { s with
      wrBuf := []
      world := { s.world with written := s.output } }) := by
  have hrun : flush env s = (if env.writeBytes s.world.written s.wrBuf
      then change fun s => { s with wrBuf := [] } else fail : SttpM PUnit)
      { s with world := { s.world with written := s.world.written ++ s.wrBuf } } := rfl
  rw [hrun, henv.passes, if_pos rfl]
  rfl

theorem flushIf_willing (henv : env.Willing) (now : Bool) (s : Sttp) :
    ∃ s', flushIf env now s = (some ⟨⟩, s') ∧ s'.output = s.output ∧
      s'.wrArgCount = s.wrArgCount ∧ (now = true → s'.wrBuf = []) ∧
      (now = false → s'.wrBuf = s.wrBuf) := by
  cases now with
  | true =>
    exact ⟨_, flush_willing henv s, append_nil _, rfl, fun _ => rfl, by rintro ⟨⟩⟩
  | false => exact ⟨s, rfl, rfl, rfl, by rintro ⟨⟩, fun _ => rfl⟩

theorem writeByte_willing (henv : env.Willing) (x : UInt8) (s : Sttp) :
    ∃ s', writeByte env x s = (some ⟨⟩, s') ∧ s'.output = s.output ++ [x] ∧
      s'.wrArgCount = s.wrArgCount := by
  obtain ⟨s', hrun, hout, hcount, -⟩ :=
    flushIf_willing henv (decide (wrBufSize ≤ s.wrBuf.length)) s
  refine ⟨{ s' with wrBuf := s'.wrBuf ++ [x] }, (bind_some rfl).trans (bind_some hrun), ?_, hcount⟩
  rw [← hout]
  exact (append_assoc _ _ _).symm

theorem writeBytes_willing (henv : env.Willing) : ∀ (bytes : List UInt8) (s : Sttp),
    ∃ s', writeBytes env bytes s = (some ⟨⟩, s') ∧ s'.output = s.output ++ bytes ∧
      s'.wrArgCount = s.wrArgCount
  | [], s => ⟨s, rfl, (append_nil _).symm, rfl⟩
  | x :: xs, s => by
    obtain ⟨s', hrun, hout, hcount⟩ := writeByte_willing henv x s
    obtain ⟨s'', hrun', hout', hcount'⟩ := writeBytes_willing henv xs s'
    refine ⟨s'', (bind_some hrun).trans hrun', ?_, hcount'.trans hcount⟩
    rw [hout', hout, append_assoc, singleton_append]

variable {c : UInt32}

theorem uctoutf8_mblenMax {bytes : List UInt8}
    (h : (Utf8.uctoutf8 c Utf8.utf8LenMax).2 = some bytes) :
    (Utf8.uctoutf8 c mblenMax).2 = some bytes := by
  have hsmall : ∀ cur ∈ Utf8.utf8Table, cur.length ≤ Utf8.utf8LenMax ∧ cur.length ≤ mblenMax := by
    decide
  rw [Utf8.uctoutf8] at h ⊢
  split at h
  · cases h
  · rename_i cur hslot
    obtain ⟨hlen, hlen'⟩ := hsmall cur (Utf8.getUtf8Slot_eq_some.1 hslot).1
    rw [if_pos hlen] at h
    rw [if_pos hlen']
    exact h

theorem writes_char (henv : env.Willing) (hc : Utf8.Encodable c) :
    Writes (writeChar env c) [c] := by
  obtain ⟨bytes, hbytes⟩ := hc.exists_bytes
  have hrun : writeChar env c = writeBytes env bytes := by
    rw [writeChar, uctoutf8_mblenMax hbytes]
  refine ⟨bytes, Utf8.encode_cons.2 ⟨bytes, [], hbytes, rfl, (append_nil _).symm⟩, ?_⟩
  rw [hrun]
  exact writeBytes_willing henv bytes

theorem writes_chars (henv : env.Willing) : ∀ {cs : List UInt32},
    (∀ c ∈ cs, Utf8.Encodable c) → Writes (writeChars env cs) cs
  | [], _ => writes_nothing
  | c :: _, hcs =>
    (writes_char henv (hcs c (.head _))).bind
      (writes_chars henv fun d hd => hcs d (mem_cons_of_mem c hd))

theorem encodable_of_le (hc : c ≤ 0x10FFFF) : Utf8.Encodable c := by
  obtain ⟨cur, hcur, hlow, hup⟩ : ∃ cur ∈ Utf8.utf8Table, cur.lower ≤ c ∧ c ≤ cur.upper := by
    simp only [Utf8.utf8Table, mem_cons, not_mem_nil, or_false, exists_eq_or_imp,
      exists_eq_left, UInt32.le_iff_toNat_le] at hc ⊢
    change c.toNat ≤ 1114111 at hc
    change (0 ≤ c.toNat ∧ c.toNat ≤ 127) ∨ (128 ≤ c.toNat ∧ c.toNat ≤ 2047) ∨
      (2048 ≤ c.toNat ∧ c.toNat ≤ 65535) ∨ (65536 ≤ c.toNat ∧ c.toNat ≤ 1114111)
    omega
  have hlen : ∀ cur ∈ Utf8.utf8Table, cur.length ≤ Utf8.utf8LenMax ∧ cur.length ≠ 0 := by decide
  obtain ⟨hfits, hpos⟩ := hlen cur hcur
  rw [Utf8.Encodable, Utf8.uctoutf8, Utf8.getUtf8Slot_eq_some.2 ⟨hcur, hlow, hup⟩]
  dsimp only
  rw [if_pos hfits]
  exact hpos

theorem encodable_ascii (hc : c < 128) : Utf8.Encodable c := by
  apply encodable_of_le
  rw [UInt32.le_iff_toNat_le]
  have hlt : c.toNat < 128 := UInt32.lt_iff_toNat_lt.1 hc
  change c.toNat ≤ 1114111
  omega

theorem encodable_ident (hc : isIdentChar ct c = true) : Utf8.Encodable c := by
  simp only [isIdentChar, Bool.or_eq_true, beq_iff_eq] at hc
  rcases hc with ((((halnum | rfl) | rfl) | rfl) | rfl) | rfl
  · exact encodable_of_le (ct.alnum_unicode c halnum)
  all_goals exact encodable_ascii (by decide)

theorem cstr_name {name : List UInt32} (hname : ∀ c ∈ name, isIdentChar ct c = true) :
    cstr name = name := by
  apply takeWhile_eq_self_iff.2
  intro c hc
  rw [decide_eq_true_eq]
  rintro rfl
  have hzero : isIdentChar ct 0 = false := isIdentChar_ascii (by decide)
  rw [hname 0 hc] at hzero
  cases hzero

theorem writes_escaped (henv : env.Willing) : ∀ {arg : List UInt32},
    (∀ c ∈ arg, Utf8.Encodable c) → Writes (writeEscaped env arg) (escapedText arg)
  | [], _ => writes_nothing
  | c :: cs, harg => by
    refine (writes_chars henv ?_).bind
      (writes_escaped henv fun d hd => harg d (mem_cons_of_mem c hd))
    intro d hd
    split at hd
    · rcases mem_cons.1 hd with rfl | hd
      · exact encodable_ascii (by decide)
      · rw [mem_singleton.1 hd]
        exact harg c (.head _)
    · rw [mem_singleton.1 hd]
      exact harg c (.head _)

theorem writes_string (henv : env.Willing) {arg : List UInt32}
    (harg : ∀ c ∈ arg, Utf8.Encodable c) :
    Writes (do
      writeChars env [' '.val, '"'.val]
      writeEscaped env arg
      writeChar env '"'.val) (' '.val :: argText arg) := by
  have hfront : Writes (writeChars env [' '.val, '"'.val]) [' '.val, '"'.val] := by
    apply writes_chars henv
    have hascii : ∀ c ∈ [' '.val, '"'.val], c < 128 := all_iff_forall_prop.1 (by decide)
    exact fun c hc => encodable_ascii (hascii c hc)
  exact hfront.bind ((writes_escaped henv harg).bind
    (writes_char henv (encodable_ascii (by decide))))

def textOfArg (count : ℕ) (arg : List UInt32) : List UInt32 :=
  (if 0 < count then [','.val] else []) ++ ' '.val :: argText arg

theorem writeStringArg_willing (henv : env.Willing) {arg : List UInt32}
    (harg : ∀ c ∈ arg, Utf8.Encodable c) (count : ℕ) :
    ∃ bytes, Utf8.encode (textOfArg count arg) = some bytes ∧
      ∀ s : Sttp, s.wrArgCount = count → ∃ s', writeStringArg env arg s = (some ⟨⟩, s') ∧
        s'.output = s.output ++ bytes ∧ s'.wrArgCount = count + 1 := by
  have hcomma : Writes (if 0 < count then writeChar env ','.val else pure ⟨⟩ : SttpM PUnit)
      (if 0 < count then [','.val] else []) := by
    split
    · exact writes_char henv (encodable_ascii (by decide))
    · exact writes_nothing
  obtain ⟨bytes, hbytes, hcomma⟩ := hcomma
  obtain ⟨bytes', hbytes', hstring⟩ := writes_string henv harg
  refine ⟨bytes ++ bytes', Utf8.encode_append hbytes hbytes', fun s hs => ?_⟩
  obtain ⟨s', hs', hout, hcount⟩ := hcomma s
  obtain ⟨s'', hs'', hout', hcount'⟩ := hstring s'
  have hfirst : writeComma env s = (some ⟨⟩, s') := by
    subst hs
    exact hs'
  have hnext : (do
      writeChars env [' '.val, '"'.val]
      writeEscaped env arg
      writeChar env '"'.val
      change fun s => { s with wrArgCount := s.wrArgCount + 1 } : SttpM PUnit) s' =
        (some ⟨⟩, { s'' with wrArgCount := s''.wrArgCount + 1 }) := by
    rw [← bind_bind, ← bind_bind, bind_bind (writeChars env _)]
    exact (bind_some hs'').trans rfl
  refine ⟨_, (bind_some hfirst).trans hnext, ?_, ?_⟩
  · exact hout'.trans (by rw [hout, append_assoc])
  · show s''.wrArgCount + 1 = count + 1
    rw [hcount', hcount, hs]

def textOfArgs (count : ℕ) (args : List (List UInt32)) : List UInt32 :=
  if 0 < count then moreText args else argsText args

theorem textOfArgs_cons (count : ℕ) (arg : List UInt32) (args : List (List UInt32)) :
    textOfArgs count (arg :: args) = textOfArg count arg ++ textOfArgs (count + 1) args := by
  have hmore : textOfArgs (count + 1) args = moreText args := if_pos (Nat.succ_pos count)
  rw [hmore]
  unfold textOfArgs textOfArg
  split
  · rfl
  · rfl

theorem writeArgs_willing (henv : env.Willing) : ∀ {args : List (List UInt32)},
    (∀ arg ∈ args, ∀ c ∈ arg, Utf8.Encodable c) → ∀ count : ℕ,
    ∃ bytes, Utf8.encode (textOfArgs count args) = some bytes ∧
      ∀ s : Sttp, s.wrArgCount = count → ∃ s', writeArgs env args s = (some ⟨⟩, s') ∧
        s'.output = s.output ++ bytes
  | [], _, count => by
    refine ⟨[], ?_, fun s _ => ⟨s, rfl, (append_nil _).symm⟩⟩
    unfold textOfArgs
    split <;> rfl
  | arg :: args, hargs, count => by
    obtain ⟨bytes, hbytes, hfirst⟩ :=
      writeStringArg_willing henv (hargs arg (.head _)) count
    obtain ⟨bytes', hbytes', hrest⟩ := writeArgs_willing henv
      (fun arg' harg' => hargs arg' (mem_cons_of_mem arg harg')) (count + 1)
    rw [textOfArgs_cons]
    refine ⟨bytes ++ bytes', Utf8.encode_append hbytes hbytes', fun s hs => ?_⟩
    obtain ⟨s', hs', hout, hcount⟩ := hfirst s hs
    obtain ⟨s'', hs'', hout'⟩ := hrest s' hcount
    exact ⟨s'', (bind_some hs').trans hs'', by rw [hout', hout, append_assoc]⟩

theorem endWrite_willing (henv : env.Willing) :
    ∃ bytes, Utf8.encode [';'.val, '\n'.val] = some bytes ∧
      ∀ s : Sttp, ∃ s', endWrite env s = (some ⟨⟩, s') ∧
        s'.world.written = s.output ++ bytes ∧ s'.wrBuf = [] := by
  have hend : Writes (writeChars env [';'.val, '\n'.val]) [';'.val, '\n'.val] := by
    apply writes_chars henv
    have hascii : ∀ c ∈ [';'.val, '\n'.val], c < 128 := all_iff_forall_prop.1 (by decide)
    exact fun c hc => encodable_ascii (hascii c hc)
  obtain ⟨bytes, hbytes, hrun⟩ := hend
  refine ⟨bytes, hbytes, fun s => ?_⟩
  obtain ⟨s', hs', hout, -⟩ := hrun s
  obtain ⟨s'', hs'', hout', -, hflushed, hkept⟩ :=
    flushIf_willing henv (decide (0 < s'.wrBuf.length)) s'
  have hempty : s''.wrBuf = [] := by
    by_cases hlen : 0 < s'.wrBuf.length
    · exact hflushed (decide_eq_true hlen)
    · rw [hkept (decide_eq_false hlen)]
      exact eq_nil_of_length_eq_zero (by omega)
  refine ⟨s'', (bind_some hs').trans ((bind_some rfl).trans hs''), ?_, hempty⟩
  have hall : s''.world.written ++ s''.wrBuf = s.output ++ bytes := hout'.trans hout
  rwa [hempty, append_nil] at hall

def ArgsEncodable (cmd : SttpCmd) : Prop := ∀ arg ∈ cmd.args, ∀ c ∈ arg, Utf8.Encodable c

theorem sendCmdLV_willing (henv : env.Willing) {cmd : SttpCmd} (hname : IsName ct cmd.name)
    (hargs : ArgsEncodable cmd) :
    ∃ bytes, Utf8.encode (cmdText cmd) = some bytes ∧
      ∀ s : Sttp, s.wrBuf = [] → ∃ s', sendCmdLV env cmd s = (some ⟨⟩, s') ∧
        s'.world.written = s.world.written ++ bytes ∧ s'.wrBuf = [] := by
  have hcstr := cstr_name hname.2
  have hwrites : Writes (writeChars env (cstr cmd.name)) (cstr cmd.name) := by
    rw [hcstr]
    exact writes_chars henv fun c hc => encodable_ident (hname.2 c hc)
  rw [hcstr] at hwrites
  obtain ⟨bytes, hbytes, hfirst⟩ := hwrites
  obtain ⟨bytes', hbytes', hsecond⟩ := writeArgs_willing henv hargs 0
  obtain ⟨bytes'', hbytes'', hthird⟩ := endWrite_willing henv
  refine ⟨bytes ++ bytes' ++ bytes'',
    Utf8.encode_append (Utf8.encode_append hbytes hbytes') hbytes'', fun s hs => ?_⟩
  obtain ⟨s1, hs1, hout1, hcount⟩ := hfirst { s with wrArgCount := 0 }
  obtain ⟨s2, hs2, hout2⟩ := hsecond s1 hcount
  obtain ⟨s3, hs3, hwritten, hempty⟩ := hthird s2
  have hbegin : beginWrite env cmd.name s = (some ⟨⟩, s1) := by
    rw [← hcstr] at hs1
    exact (bind_some rfl).trans hs1
  refine ⟨s3, ?_, ?_, hempty⟩
  · rw [sendCmdLV, if_neg (by rw [hcstr]; exact hname.1)]
    exact (bind_some hbegin).trans ((bind_some hs2).trans hs3)
  · have hstart : ({ s with wrArgCount := 0 } : Sttp).output = s.world.written := by
      rw [Sttp.output, hs, append_nil]
    rw [hwritten, hout2, hout1, hstart, append_assoc, append_assoc, append_assoc]

theorem sendCmds_willing (henv : env.Willing) : ∀ {cmds : List SttpCmd},
    (∀ cmd ∈ cmds, IsName ct cmd.name) → (∀ cmd ∈ cmds, ArgsEncodable cmd) →
    ∃ bytes, Utf8.encode (cmdsText cmds) = some bytes ∧
      ∀ s : Sttp, s.wrBuf = [] → ∃ s', sendCmds env cmds s = (some ⟨⟩, s') ∧
        s'.world.written = s.world.written ++ bytes
  | [], _, _ => ⟨[], rfl, fun s _ => ⟨s, rfl, (append_nil _).symm⟩⟩
  | cmd :: cmds, hnames, hargs => by
    obtain ⟨bytes, hbytes, hfirst⟩ := sendCmdLV_willing henv
      (hnames cmd (.head _)) (hargs cmd (.head _))
    obtain ⟨bytes', hbytes', hrest⟩ := sendCmds_willing henv
      (fun cmd' hcmd' => hnames cmd' (mem_cons_of_mem cmd hcmd'))
      (fun cmd' hcmd' => hargs cmd' (mem_cons_of_mem cmd hcmd'))
    refine ⟨bytes ++ bytes', Utf8.encode_append hbytes hbytes', fun s hs => ?_⟩
    obtain ⟨s', hs', hwritten, hempty⟩ := hfirst s hs
    obtain ⟨s'', hs'', hwritten'⟩ := hrest s' hempty
    exact ⟨s'', (bind_some hs').trans hs'', by rw [hwritten', hwritten, append_assoc]⟩

/-! ## There and back -/

def Received (ct : Ctype) (env : Env) (world : World) (pieces : List (List UInt8))
    (cmds : List SttpCmd) : Prop :=
  (feedPieces ct env pieces (Sttp.new world)).1 = some ⟨⟩ ∧
    (feedPieces ct env pieces (Sttp.new world)).2.world.handled = world.handled ++ cmds

/-- Commands that are written are received, however their bytes are cut into pieces, exactly
if no empty piece stands inside a character. -/
theorem received_iff {out : Env} (hout : out.Willing) (henv : env.Willing)
    {cmds : List SttpCmd} (hnames : ∀ cmd ∈ cmds, IsName ct cmd.name)
    (hargs : ∀ cmd ∈ cmds, ArgsEncodable cmd) (sender receiver : World) :
    ∃ bytes, (sendCmds out cmds (Sttp.new sender)).1 = some ⟨⟩ ∧
      (sendCmds out cmds (Sttp.new sender)).2.world.written = sender.written ++ bytes ∧
      ∀ pieces : List (List UInt8), pieces.flatten = bytes →
        (Received ct env receiver pieces cmds ↔
          ∀ before after, pieces = before ++ [] :: after →
            ∃ cs, Utf8.encode cs = some before.flatten) := by
  obtain ⟨bytes, hbytes, hsend⟩ := sendCmds_willing hout hnames hargs
  obtain ⟨s, hrun, hwritten⟩ := hsend (Sttp.new sender) rfl
  refine ⟨bytes, by rw [hrun], by rw [hrun]; exact hwritten, ?_⟩
  rintro pieces rfl
  obtain ⟨n, hreads⟩ := @reads_cmdsText ct env henv _ hnames receiver.clock receiver.handled
  obtain ⟨hiff, hstate⟩ := @feedPieces_iff ct env _ pieces [] [] _ [] _ (.inl rfl)
    ⟨hreads, hbytes⟩ rfl (Sttp.new receiver)
  constructor
  · intro hreceived
    exact hiff.1 hreceived.1
  · intro hnone
    have htaken := hiff.2 hnone
    exact ⟨htaken, congrArg (fun t => t.world.handled) (hstate htaken)⟩

/-- `a "é";` -/
def accented : SttpCmd := ⟨['a'.val], [[0xE9]]⟩

theorem accented_isName : ∀ cmd ∈ [accented], IsName Ctype.ascii cmd.name := by
  intro cmd hcmd
  rw [mem_singleton.1 hcmd]
  exact ⟨by decide, all_iff_forall_prop.1 (by decide)⟩

theorem accented_argsEncodable : ∀ cmd ∈ [accented], ArgsEncodable cmd := by
  intro cmd hcmd arg harg c hc
  rw [mem_singleton.1 hcmd] at harg
  rw [mem_singleton.1 harg] at hc
  rw [mem_singleton.1 hc, Utf8.Encodable]
  decide

/-- A cut inside the character does no harm. -/
theorem received_iff_accented :
    Received Ctype.ascii Env.plain ⟨0, [], []⟩
      [[97, 32, 34, 0xC3], [0xA9, 34], [], [59, 10]] [accented] := by
  obtain ⟨bytes, -, hwritten, hreceived⟩ := @received_iff Ctype.ascii _ _ Env.plain_willing
    Env.plain_willing _ accented_isName accented_argsEncodable ⟨0, [], []⟩ ⟨0, [], []⟩
  have hbytes : (sendCmds Env.plain [accented] (Sttp.new ⟨0, [], []⟩)).2.world.written =
      [97, 32, 34, 0xC3, 0xA9, 34, 59, 10] := by
    decide +kernel
  rw [hbytes] at hwritten
  refine (hreceived [[97, 32, 34, 0xC3], [0xA9, 34], [], [59, 10]] hwritten).2 ?_
  intro before after heq
  have hbefore : before = [[97, 32, 34, 0xC3], [0xA9, 34]] := by
    rcases before with _ | ⟨x, _ | ⟨y, _ | ⟨z, _ | ⟨v, before⟩⟩⟩⟩
    · cases heq
    · cases heq
    · cases heq
      rfl
    · cases heq
    · have hlen := congrArg List.length heq
      simp only [length_cons, length_append, length_nil] at hlen
      omega
  exact ⟨['a'.val, ' '.val, '"'.val, 0xE9, '"'.val], by rw [hbefore]; decide +kernel⟩

/-- With an empty piece inside the character, a byte is read that is not there. -/
theorem not_received_accented :
    (sendCmds Env.plain [accented] (Sttp.new ⟨0, [], []⟩)).2.world.written =
        [[97, 32, 34, 0xC3], [], [0xA9, 34, 59, 10]].flatten ∧
      ¬Received Ctype.ascii Env.plain ⟨0, [], []⟩
        [[97, 32, 34, 0xC3], [], [0xA9, 34, 59, 10]] [accented] ∧
      (feedPieces Ctype.ascii Env.plain [[97, 32, 34, 0xC3], [], [0xA9, 34, 59, 10]]
        (Sttp.new ⟨0, [], []⟩)).2.broken = true := by
  refine ⟨by decide +kernel, ?_, by decide +kernel⟩
  rintro ⟨htaken, -⟩
  have hnone : (feedPieces Ctype.ascii Env.plain [[97, 32, 34, 0xC3], [], [0xA9, 34, 59, 10]]
      (Sttp.new ⟨0, [], []⟩)).1 = none := by
    decide +kernel
  rw [hnone] at htaken
  cases htaken

end Qse.SttpFeed
