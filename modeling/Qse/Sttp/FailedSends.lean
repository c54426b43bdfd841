import Qse.Sttp.RoundTrip

/-!
# Sending after a call has failed

A translation of `sendCmdV` and `sendCmdLV` of `lib/sttp/Sttp.cpp` for both types of characters, and
what the calls that fail leave in `wr_buf`.
-/

open List

namespace Qse.SttpFeed

open Fallible

/-! ## The calls -/

section Overloads

variable {χ : Type} [DecidableEq χ] (put : χ → SttpM PUnit) (lit : UInt8 → χ)

/-- `WRITE_CHAR` for one character after the other -/
def putAll : List χ → SttpM PUnit
  | [] => pure ⟨⟩
  | c :: cs => do
    put c
    putAll cs

def cstrOf (s : List χ) : List χ := s.takeWhile (· ≠ lit 0)

/-- A `\` is put before `"` and `\`. -/
def escapedOf : List χ → List χ
  | [] => []
  | c :: cs => (if c = lit 34 ∨ c = lit 92 then [lit 92, c] else [c]) ++ escapedOf cs

def quotedOf (arg : List χ) : List χ := [lit 32, lit 34] ++ escapedOf lit arg ++ [lit 34]

/-- `writeStringArg` -/
def writeStringArgOf (arg : List χ) : SttpM PUnit := do
  let wrArgCount ← ask fun s => s.wrArgCount
  putAll put (if 0 < wrArgCount then [lit 44] else [])
  putAll put (quotedOf lit arg)
  change fun s => { s with wrArgCount := s.wrArgCount + 1 }

def writeArgsOf : List (List χ) → SttpM PUnit
  | [] => pure ⟨⟩
  | arg :: args => do
    writeStringArgOf put lit arg
    writeArgsOf args

/-- `sendCmdLV`, or `sendCmdV`, which is given no lengths -/
def sendCmdOf (env : Env) (lengths : Bool) (name : List χ) (args : List (List χ)) : SttpM PUnit :=
  if cstrOf lit name = [] then pure ⟨⟩
  else do
    change fun s => { s with wrArgCount := 0 }
    putAll put (cstrOf lit name)
    writeArgsOf put lit (if lengths then args else args.map (cstrOf lit))
    putAll put [lit 59, lit 10]
    let wrBuf ← ask fun s => s.wrBuf
    flushIf env (0 < wrBuf.length)

def argsTextOf : ℕ → List (List χ) → List χ
  | _, [] => []
  | count, arg :: args =>
    (if 0 < count then [lit 44] else []) ++ quotedOf lit arg ++ argsTextOf (count + 1) args

def cmdTextOf (lengths : Bool) (name : List χ) (args : List (List χ)) : List χ :=
  if cstrOf lit name = [] then []
  else
    cstrOf lit name ++ argsTextOf lit 0 (if lengths then args else args.map (cstrOf lit)) ++
      [lit 59, lit 10]

end Overloads

/-- A call of `sendCmd`, or with lengths of `sendCmdL` -/
inductive Call where
  | mchar (lengths : Bool) (name : List UInt8) (args : List (List UInt8))
  | wchar (lengths : Bool) (name : List UInt32) (args : List (List UInt32))

variable (env : Env)

def Call.run : Call → SttpM PUnit
  | mchar lengths name args => sendCmdOf (writeByte env) id env lengths name args
  | wchar lengths name args => sendCmdOf (writeChar env) UInt8.toUInt32 env lengths name args

def Call.Null : Call → Prop
  | mchar _ name _ => cstrOf id name = []
  | wchar _ name _ => cstrOf UInt8.toUInt32 name = []

def Call.encoding : Call → Option (List UInt8)
  | mchar lengths name args => some (cmdTextOf id lengths name args)
  | wchar lengths name args => Utf8.encode (cmdTextOf UInt8.toUInt32 lengths name args)

def runCalls (calls : List Call) (s : Sttp) : Sttp := calls.foldl (fun s c => (c.run env s).2) s

section Wide

variable {env}

theorem putAll_append {χ : Type} (put : χ → SttpM PUnit) (cs ds : List χ) :
    putAll put (cs ++ ds) = putAll put cs >>= fun _ => putAll put ds := by
  induction cs with
  | nil => rfl
  | cons c cs ih => exact (congrArg (put c >>= ·) (funext fun _ => ih)).trans (bind_bind _ _ _).symm

theorem writeChars_eq (cs : List UInt32) : writeChars env cs = putAll (writeChar env) cs := by
  induction cs with
  | nil => rfl
  | cons c cs ih => exact congrArg (writeChar env c >>= ·) (funext fun _ => ih)

theorem writeEscaped_eq (cs : List UInt32) :
    writeEscaped env cs = putAll (writeChar env) (escapedOf UInt8.toUInt32 cs) := by
  induction cs with
  | nil => rfl
  | cons c cs ih =>
    rw [writeEscaped, escapedOf, putAll_append, writeChars_eq, ih]
    rfl

theorem bind_unit (x : SttpM PUnit) : (x >>= fun _ => pure ⟨⟩) = x := by
  funext s
  cases hx : x s with
  | mk r s' =>
    cases r with
    | none => exact bind_none hx
    | some a => exact bind_some hx

theorem writeStringArg_eq (arg : List UInt32) :
    writeStringArg env arg = writeStringArgOf (writeChar env) UInt8.toUInt32 arg := by
  rw [writeStringArg, writeComma, bind_bind, writeStringArgOf]
  congr 1
  funext wrArgCount
  have hcomma : (if 0 < wrArgCount then writeChar env ','.val else pure ⟨⟩ : SttpM PUnit) =
      putAll (writeChar env) (if 0 < wrArgCount then [','.val] else []) := by
    split
    · exact (bind_unit _).symm
    · rfl
  have hlast : writeChar env '"'.val = putAll (writeChar env) ['"'.val] := (bind_unit _).symm
  rw [hcomma, writeChars_eq, writeEscaped_eq, hlast, quotedOf, putAll_append, putAll_append]
  simp only [bind_bind]
  rfl

theorem writeArgs_eq (args : List (List UInt32)) :
    writeArgs env args = writeArgsOf (writeChar env) UInt8.toUInt32 args := by
  induction args with
  | nil => rfl
  | cons arg args ih => rw [writeArgs, writeArgsOf, writeStringArg_eq, ih]

theorem run_wchar_eq (cmd : SttpCmd) :
    (Call.wchar true cmd.name cmd.args).run env = sendCmdLV env cmd := by
  rw [Call.run, sendCmdOf, sendCmdLV, beginWrite, bind_bind, endWrite, writeChars_eq, writeChars_eq,
    writeArgs_eq]
  rfl

end Wide

/-! ## Calls that succeed -/

section Sends

variable {env} {χ : Type} [DecidableEq χ] {put : χ → SttpM PUnit} {lit : UInt8 → χ}
  {encode : List χ → Option (List UInt8)}

def Sends (x : SttpM PUnit) (text : Option (List UInt8)) : Prop :=
  ∀ s s' : Sttp, x s = (some ⟨⟩, s') →
    ∃ bytes, text = some bytes ∧ s'.output = s.output ++ bytes ∧ s'.wrArgCount = s.wrArgCount

structure Encodes (put : χ → SttpM PUnit) (encode : List χ → Option (List UInt8)) : Prop where
  nil : encode [] = some []
  append {cs ds : List χ} {front back : List UInt8} :
    encode cs = some front → encode ds = some back → encode (cs ++ ds) = some (front ++ back)
  sends (c : χ) : Sends (put c) (encode [c])

omit [DecidableEq χ] in
theorem Encodes.putAll (h : Encodes put encode) : ∀ cs, Sends (putAll put cs) (encode cs)
  | [], s, s', hrun => by
    cases hrun
    exact ⟨[], h.nil, (append_nil _).symm, rfl⟩
  | c :: cs, s, s', hrun => by
    obtain ⟨_, s₁, hfirst, hrest⟩ := bind_eq_some hrun
    obtain ⟨bytes, hbytes, hout, hcount⟩ := h.sends c s s₁ hfirst
    obtain ⟨bytes', hbytes', hout', hcount'⟩ := h.putAll cs s₁ s' hrest
    refine ⟨bytes ++ bytes', h.append hbytes hbytes', ?_, hcount'.trans hcount⟩
    rw [hout', hout, append_assoc]

theorem Encodes.writeStringArgOf (h : Encodes put encode) (arg : List χ) {s s' : Sttp}
    (hrun : writeStringArgOf put lit arg s = (some ⟨⟩, s')) :
    ∃ bytes, encode ((if 0 < s.wrArgCount then [lit 44] else []) ++ quotedOf lit arg) =
      some bytes ∧ s'.output = s.output ++ bytes ∧ s'.wrArgCount = s.wrArgCount + 1 := by
  obtain ⟨_, _, hask, hrun⟩ := bind_eq_some hrun
  cases hask
  obtain ⟨_, s₁, hcomma, hrun⟩ := bind_eq_some hrun
  obtain ⟨bytes, hbytes, hout, hcount⟩ := h.putAll _ s s₁ hcomma
  obtain ⟨_, s₂, hquoted, hlast⟩ := bind_eq_some hrun
  obtain ⟨bytes', hbytes', hout', hcount'⟩ := h.putAll _ s₁ s₂ hquoted
  cases hlast
  refine ⟨bytes ++ bytes', h.append hbytes hbytes', ?_, congrArg (· + 1) (hcount'.trans hcount)⟩
  rw [← append_assoc, ← hout]
  exact hout'

theorem Encodes.writeArgsOf (h : Encodes put encode) : ∀ (args : List (List χ)) {s s' : Sttp},
    writeArgsOf put lit args s = (some ⟨⟩, s') →
    ∃ bytes, encode (argsTextOf lit s.wrArgCount args) = some bytes ∧ s'.output = s.output ++ bytes
  | [], s, s', hrun => by
    cases hrun
    exact ⟨[], h.nil, (append_nil _).symm⟩
  | arg :: args, s, s', hrun => by
    obtain ⟨_, s₁, hfirst, hrest⟩ := bind_eq_some hrun
    obtain ⟨bytes, hbytes, hout, hcount⟩ := h.writeStringArgOf arg hfirst
    obtain ⟨bytes', hbytes', hout'⟩ := h.writeArgsOf args hrest
    rw [hcount] at hbytes'
    refine ⟨bytes ++ bytes', h.append hbytes hbytes', ?_⟩
    rw [hout', hout, append_assoc]

theorem flushIf_some (now : Bool) {s s' : Sttp} (hrun : flushIf env now s = (some ⟨⟩, s')) :
    s'.output = s.output ∧ s'.wrArgCount = s.wrArgCount ∧ (now = true → s'.wrBuf = []) ∧
      (now = false → s' = s) := by
  cases now with
  | false =>
    cases hrun
    exact ⟨rfl, rfl, by rintro ⟨⟩, fun _ => rfl⟩
  | true =>
    have hflush : (if env.writeBytes s.world.written s.wrBuf
        then change fun s => { s with wrBuf := [] } else fail : SttpM PUnit)
        { s with world := { s.world with written := s.output } } = (some ⟨⟩, s') := hrun
    split at hflush
    · cases hflush
      exact ⟨append_nil _, rfl, fun _ => rfl, by rintro ⟨⟩⟩
    · cases hflush

theorem Encodes.sendCmdOf (h : Encodes put encode) {lengths : Bool} {name : List χ}
    {args : List (List χ)} (hname : cstrOf lit name ≠ []) {s s' : Sttp}
    (hrun : sendCmdOf put lit env lengths name args s = (some ⟨⟩, s')) :
    ∃ bytes, encode (cmdTextOf lit lengths name args) = some bytes ∧
      s'.world.written = s.output ++ bytes ∧ s'.wrBuf = [] := by
  rw [SttpFeed.sendCmdOf, if_neg hname] at hrun
  obtain ⟨_, s₀, hstart, hrun⟩ := bind_eq_some hrun
  cases hstart
  obtain ⟨_, s₁, hbegin, hrun⟩ := bind_eq_some hrun
  obtain ⟨front, hfront, hout₁, hcount₁⟩ := h.putAll _ _ s₁ hbegin
  obtain ⟨_, s₂, hargs, hrun⟩ := bind_eq_some hrun
  obtain ⟨middle, hmiddle, hout₂⟩ := h.writeArgsOf _ hargs
  rw [hcount₁] at hmiddle
  obtain ⟨_, s₃, hend, hlast⟩ := bind_eq_some hrun
  obtain ⟨back, hback, hout₃, -⟩ := h.putAll _ s₂ s₃ hend
  obtain ⟨hout, -, hempty, hsame⟩ := flushIf_some (decide (0 < s₃.wrBuf.length)) hlast
  have hbuf : s'.wrBuf = [] := by
    cases hnow : decide (0 < s₃.wrBuf.length) with
    | true => exact hempty hnow
    | false =>
      rw [hsame hnow]
      exact eq_nil_of_length_eq_zero (Nat.eq_zero_of_not_pos (of_decide_eq_false hnow))
  refine ⟨front ++ middle ++ back, ?_, ?_, hbuf⟩
  · rw [cmdTextOf, if_neg hname]
    exact h.append (h.append hfront hmiddle) hback
  · have hall : s'.output = s.output ++ (front ++ middle ++ back) := by
      rw [hout, hout₃, hout₂, hout₁, append_assoc, append_assoc, append_assoc]
      rfl
    rw [← hall, Sttp.output, hbuf, append_nil]

theorem writeByte_some {b : UInt8} {s s' : Sttp} (hrun : writeByte env b s = (some ⟨⟩, s')) :
    s'.output = s.output ++ [b] ∧ s'.wrArgCount = s.wrArgCount := by
  obtain ⟨_, _, hask, hrun⟩ := bind_eq_some hrun
  cases hask
  obtain ⟨_, s₁, hflush, hlast⟩ := bind_eq_some hrun
  obtain ⟨hout, hcount, -⟩ :=
    flushIf_some (decide (wrBufSize ≤ s.wrBuf.length)) hflush
  cases hlast
  refine ⟨?_, hcount⟩
  rw [← hout]
  exact (append_assoc _ _ _).symm

theorem encodes_mchar : Encodes (writeByte env) some where
  nil := rfl
  append := by
    rintro cs ds front back ⟨⟩ ⟨⟩
    rfl
  sends b _ _ hrun := ⟨[b], rfl, writeByte_some hrun⟩

theorem writeBytes_some : ∀ {bytes : List UInt8} {s s' : Sttp},
    writeBytes env bytes s = (some ⟨⟩, s') →
    s'.output = s.output ++ bytes ∧ s'.wrArgCount = s.wrArgCount
  | [], s, s', hrun => by
    cases hrun
    exact ⟨(append_nil _).symm, rfl⟩
  | b :: bytes, s, s', hrun => by
    obtain ⟨_, s₁, hfirst, hrest⟩ := bind_eq_some hrun
    obtain ⟨hout, hcount⟩ := writeByte_some hfirst
    obtain ⟨hout', hcount'⟩ := writeBytes_some hrest
    refine ⟨?_, hcount'.trans hcount⟩
    rw [hout', hout, append_assoc, singleton_append]

theorem uctoutf8_size (c : UInt32) :
    (Utf8.uctoutf8 c mblenMax).2 = (Utf8.uctoutf8 c Utf8.utf8LenMax).2 := by
  have hsmall : ∀ cur ∈ Utf8.utf8Table, cur.length ≤ Utf8.utf8LenMax ∧ cur.length ≤ mblenMax := by
    decide
  rw [Utf8.uctoutf8, Utf8.uctoutf8]
  cases hslot : Utf8.getUtf8Slot c with
  | none => rfl
  | some cur =>
    obtain ⟨hlen, hlen'⟩ := hsmall cur (Utf8.getUtf8Slot_eq_some.1 hslot).1
    simp only [if_pos hlen, if_pos hlen']

theorem encodes_wchar : Encodes (writeChar env) Utf8.encode where
  nil := rfl
  append := Utf8.encode_append
  sends c s s' hrun := by
    rw [writeChar] at hrun
    cases hbytes : (Utf8.uctoutf8 c mblenMax).2 with
    | none =>
      rw [hbytes] at hrun
      cases hrun
    | some bytes =>
      rw [hbytes] at hrun
      refine ⟨bytes, ?_, writeBytes_some hrun⟩
      rw [uctoutf8_size] at hbytes
      exact Utf8.encode_cons.2 ⟨bytes, [], hbytes, rfl, (append_nil _).symm⟩

theorem Call.written {c : Call} (hnull : ¬c.Null) {s s' : Sttp}
    (hrun : c.run env s = (some ⟨⟩, s')) :
    ∃ bytes, c.encoding = some bytes ∧
      s'.world.written = s.world.written ++ (s.wrBuf ++ bytes) := by
  simp only [← append_assoc]
  cases c with
  | mchar lengths name args =>
    obtain ⟨bytes, hbytes, hwritten, -⟩ := encodes_mchar.sendCmdOf hnull hrun
    exact ⟨bytes, hbytes, hwritten⟩
  | wchar lengths name args =>
    obtain ⟨bytes, hbytes, hwritten, -⟩ := encodes_wchar.sendCmdOf hnull hrun
    exact ⟨bytes, hbytes, hwritten⟩

theorem Call.written_null {c : Call} (env : Env) (hnull : c.Null) (s : Sttp) :
    c.encoding = some [] ∧ c.run env s = (some ⟨⟩, s) := by
  cases c with
  | mchar lengths name args | wchar lengths name args =>
    rw [Null] at hnull
    rw [encoding, cmdTextOf, if_pos hnull, run, SttpFeed.sendCmdOf, if_pos hnull]
    exact ⟨rfl, rfl⟩

end Sends

/-- Behind calls of which some may have failed, one that succeeds hands over its command and
nothing else if and only if nothing has been left in the buffer, or nothing is to be sent. -/
theorem handed_iff (world : World) (calls : List Call) (c : Call) {s' : Sttp}
    (hrun : c.run env (runCalls env calls (.new world)) = (some ⟨⟩, s')) :
    (∃ bytes, c.encoding = some bytes ∧ s'.world.written =
      (runCalls env calls (.new world)).world.written ++ bytes) ↔
    c.Null ∨ (runCalls env calls (.new world)).wrBuf = [] := by
  generalize runCalls env calls (.new world) = s at hrun ⊢
  by_cases hnull : c.Null
  · obtain ⟨hencoding, hrun'⟩ := Call.written_null env hnull s
    rw [hrun'] at hrun
    cases hrun
    exact iff_of_true ⟨[], hencoding, (append_nil _).symm⟩ (.inl hnull)
  obtain ⟨bytes, hbytes, hwritten⟩ := Call.written hnull hrun
  constructor
  · rintro ⟨bytes', hbytes', hwritten'⟩
    cases hbytes.symm.trans hbytes'
    have hsame := append_cancel_left (hwritten.symm.trans hwritten')
    exact .inr (append_left_eq_self.1 hsame)
  · rintro (hnull' | hempty)
    · exact absurd hnull' hnull
    · rw [hempty] at hwritten
      exact ⟨bytes, hbytes, hwritten⟩

/-- The first bytes are refused. -/
def Env.reluctant : Env where
  room _ := true
  handleCommand _ _ := true
  writeBytes written _ := !written.isEmpty

/-- Of two calls behind one whose bytes are refused, the first sends these too and the second hands
over its own command. -/
theorem handed_iff_refused :
    ¬(∃ bytes, (Call.mchar true [98] []).encoding = some bytes ∧
        (runCalls Env.reluctant [.mchar false [97] [], .mchar true [98] []]
          (.new ⟨0, [], []⟩)).world.written =
        (runCalls Env.reluctant [.mchar false [97] []] (.new ⟨0, [], []⟩)).world.written ++ bytes) ∧
      ∃ bytes, (Call.wchar true ['b'.val] []).encoding = some bytes ∧
        (runCalls Env.reluctant [.mchar false [97] [], .mchar true [98] [],
          .wchar true ['b'.val] []] (.new ⟨0, [], []⟩)).world.written =
        (runCalls Env.reluctant [.mchar false [97] [], .mchar true [98] []]
          (.new ⟨0, [], []⟩)).world.written ++ bytes := by
  constructor
  · intro hhanded
    obtain hnull | hempty := (handed_iff Env.reluctant ⟨0, [], []⟩ [.mchar false [97] []]
      (.mchar true [98] []) rfl).1 hhanded
    · cases hnull
    · revert hempty
      decide
  · exact (handed_iff Env.reluctant ⟨0, [], []⟩ [.mchar false [97] [], .mchar true [98] []]
      (.wchar true ['b'.val] []) rfl).2 (.inr rfl)

/-- The bytes that have been refused are sent in front of the next command. -/
theorem not_handed :
    ¬∀ (env : Env) (world : World) (calls : List Call) (c : Call) (s' : Sttp),
      c.run env (runCalls env calls (.new world)) = (some ⟨⟩, s') →
      ∃ bytes, c.encoding = some bytes ∧ s'.world.written =
        (runCalls env calls (.new world)).world.written ++ bytes := by
  intro h
  obtain ⟨bytes, hbytes, hwritten⟩ := h Env.reluctant ⟨0, [], []⟩ [.mchar false [97] []]
    (.mchar true [98] []) _ rfl
  cases hbytes
  revert hwritten
  decide

end Qse.SttpFeed
