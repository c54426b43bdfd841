import Qse.Codec.Utf8
import Qse.Support.Fallible

/-!
# Sttp

A translation of `lib/sttp/Sttp.cpp` for a build with wide characters of four bytes. A `String`
is the list of its characters and a `SttpCmd` has the list of its arguments; memory for these is
there, while that for a state node may be missing.
-/

namespace Qse.SttpFeed

open Fallible

/-! ## The object -/

/-- `QSE_ISSPACE` and `QSE_ISALNUM`. They are those of C among the ASCII characters, no
character is of both classes, and what is no character of Unicode is not alphanumeric. -/
structure Ctype where
  isSpace : UInt32 → Bool
  isAlnum : UInt32 → Bool
  space_ascii : ∀ c < 128, isSpace c = (c == 32 || (9 ≤ c && c ≤ 13))
  alnum_ascii : ∀ c < 128, isAlnum c =
    ((48 ≤ c && c ≤ 57) || (65 ≤ c && c ≤ 90) || (97 ≤ c && c ≤ 122))
  alnum_not_space : ∀ c, isAlnum c = true → isSpace c = false
  alnum_unicode : ∀ c, isAlnum c = true → c ≤ 0x10FFFF

structure SttpCmd where
  name : List UInt32
  args : List (List UInt32)
deriving DecidableEq

/-- `rd_state_node_t` but for the link and for the state `STATE_START`. -/
inductive ReadState where
  | inName
  | inParamList (gotValue : Bool)
  | inParamWord
  | inParamString (escaped digitCount : ℕ) (acc qc : UInt32)
deriving DecidableEq

inductive Errnum where
  | einval
  | enomem
  | eintern
deriving DecidableEq

/-- What `setErrorFmt` and `setErrorNumber` are told: a number, a message and what stands in
it. -/
structure Errinf where
  num : Errnum
  text : String
  params : List UInt32
deriving DecidableEq

/-- What is around the object: the number of allocations so far, the commands that have been
handled and the bytes that have been written. -/
structure World where
  clock : ℕ
  handled : List SttpCmd
  written : List UInt8
deriving DecidableEq

/-- `Sttp`. The nodes of `rd_state_stack` stand above `rd_rd_state_top`, whose state is always
`STATE_START`. `broken` is a ghost field: whether a byte outside of an array has been touched
or an assertion has failed, behind which the run is not defined. -/
structure Sttp where
  stack : List ReadState
  command : SttpCmd
  token : List UInt32
  rdLo : List UInt8
  wrBuf : List UInt8
  wrArgCount : ℕ
  errinf : Option Errinf
  broken : Bool
  world : World
deriving DecidableEq

/-- What the object calls. `handleCommand` and `writeBytes` are told what they have been
given before, and false stands for -1. -/
structure Env where
  room : ℕ → Bool
  handleCommand : List SttpCmd → SttpCmd → Bool
  writeBytes : List UInt8 → List UInt8 → Bool

abbrev SttpM := Fallible Sttp

/-- `Sttp::Sttp` -/
def Sttp.new (world : World) : Sttp where
  stack := []
  command := ⟨[], []⟩
  token := []
  rdLo := []
  wrBuf := []
  wrArgCount := 0
  errinf := none
  broken := false
  world := world

def Sttp.reset (s : Sttp) : Sttp :=
  { s with stack := [], rdLo := [], wrBuf := [], wrArgCount := 0 }

def mblenMax : ℕ := 16

variable (ct : Ctype) (env : Env)

def isSpaceChar (c : UInt32) : Bool := ct.isSpace c

def isIdentChar (c : UInt32) : Bool :=
  ct.isAlnum c || c == '_'.val || c == '-'.val || c == '.'.val || c == '*'.val || c == '@'.val

/-- `setErrorFmt` and the return of -1. -/
def failWith {α : Type} (num : Errnum) (text : String) (params : List UInt32) : SttpM α := do
  change fun s => { s with errinf := some ⟨num, text, params⟩ }
  fail

def undefinedBehavior {α : Type} : SttpM α := do
  change fun s => { s with broken := true }
  fail

def pushReadState (state : ReadState) : SttpM PUnit := do
  let clock ← ask fun s => s.world.clock
  change fun s => { s with world := { s.world with clock := s.world.clock + 1 } }
  if env.room clock then change fun s => { s with stack := state :: s.stack }
  else failWith .enomem "" []

def popReadState : SttpM PUnit := change fun s => { s with stack := s.stack.tail }

def setTop (state : ReadState) : SttpM PUnit :=
  change fun s => { s with stack := state :: s.stack.tail }

def addCharToToken (c : UInt32) : SttpM PUnit := change fun s => { s with token := s.token ++ [c] }

def clearToken : SttpM PUnit := change fun s => { s with token := [] }

/-- `command.setName (token)` -/
def setName : SttpM PUnit := change fun s => { s with command := { s.command with name :=
    s.token } }

/-- `command.addArg (token)` -/
def addArg : SttpM PUnit :=
  change fun s => { s with command := { s.command with args := s.command.args ++ [s.token] } }

/-- `handle_command` and `command.clear` -/
def dispatch : SttpM PUnit := do
  let handled ← ask fun s => s.world.handled
  let command ← ask fun s => s.command
  change fun s => { s with
    command := ⟨[], []⟩
    world := { s.world with handled := handled ++ [command] } }
  if env.handleCommand handled command then pure ⟨⟩ else fail

/-! ## Characters -/

def handleStartChar (c : UInt32) : SttpM Bool :=
  if isIdentChar ct c then do
    addCharToToken c
    pushReadState env .inName
    pure true
  else failWith .einval "invalid start character 0x%lx[%jc]" [c, c]

def handleNameChar (c : UInt32) : SttpM Bool :=
  if isIdentChar ct c then do
    addCharToToken c
    pure true
  else if isSpaceChar ct c then do
    setName
    clearToken
    popReadState
    pushReadState env (.inParamList false)
    pure true
  else if c = ';'.val then do
    setName
    clearToken
    popReadState
    dispatch env
    pure true
  else failWith .einval "invalid character 0x%lx[%jc] in the command name" [c, c]

def addArgIf (gotValue : Bool) : SttpM PUnit := if gotValue then addArg else pure ⟨⟩

def handleParamListChar (gotValue : Bool) (c : UInt32) : SttpM Bool :=
  if c = ';'.val then do
    let args ← ask fun s => s.command.args
    if gotValue ∨ args.length = 0 then do
      addArgIf gotValue
      clearToken
      popReadState
      dispatch env
      pure true
    else failWith .einval "no parameter after a comma" []
  else if c = ','.val then
    if gotValue then do
      addArg
      clearToken
      setTop (.inParamList false)
      pure true
    else failWith .einval "redundant comma" []
  else if isSpaceChar ct c then pure true
  else if gotValue then failWith .einval "comma required" []
  else if c = '"'.val ∨ c = '\''.val then do
    setTop (.inParamList true)
    pushReadState env (.inParamString 0 0 0 c)
    clearToken
    pure true
  else if isIdentChar ct c then do
    setTop (.inParamList true)
    pushReadState env .inParamWord
    clearToken
    addCharToToken c
    pure true
  else failWith .einval "invalid character 0x%lx[%jc]" [c, c]

def handleParamWordChar (c : UInt32) : SttpM Bool :=
  if isIdentChar ct c then do
    addCharToToken c
    pure true
  else do
    popReadState
    pure false

def unescape (c : UInt32) : UInt32 :=
  if c = 'a'.val then 7
  else if c = 'b'.val then 8
  else if c = 'f'.val then 12
  else if c = 'n'.val then 10
  else if c = 'r'.val then 13
  else if c = 't'.val then 9
  else if c = 'v'.val then 11
  else c

/-- The digit that `c` is when `escaped` characters are looked for: an octal one when it is 3,
else a hexadecimal one. -/
def digitOf (escaped : ℕ) (c : UInt32) : Option UInt32 :=
  if escaped = 3 then
    if '0'.val ≤ c ∧ c ≤ '7'.val then some (c - '0'.val) else none
  else if '0'.val ≤ c ∧ c ≤ '9'.val then some (c - '0'.val)
  else if 'a'.val ≤ c ∧ c ≤ 'f'.val then some (c - 'a'.val + 10)
  else if 'A'.val ≤ c ∧ c ≤ 'F'.val then some (c - 'A'.val + 10)
  else none

def addSvAcc (digitCount : ℕ) (acc qc : UInt32) : SttpM PUnit := do
  addCharToToken acc
  setTop (.inParamString 0 digitCount acc qc)

def handleParamStringChar (escaped digitCount : ℕ) (acc qc c : UInt32) : SttpM Bool :=
  if 2 ≤ escaped then
    match digitOf escaped c with
    | some d => do
      let acc := acc * (if escaped = 3 then 8 else 16) + d
      if digitCount + 1 ≥ escaped then addSvAcc (digitCount + 1) acc qc
      else setTop (.inParamString escaped (digitCount + 1) acc qc)
      pure true
    | none => do
      addSvAcc digitCount acc qc
      pure false
  else if escaped = 1 then
    if '0'.val ≤ c ∧ c ≤ '8'.val then do
      setTop (.inParamString 3 0 (c - '0'.val) qc)
      pure true
    else if c = 'x'.val then do
      setTop (.inParamString 2 0 0 qc)
      pure true
    else if c = 'u'.val then do
      setTop (.inParamString 4 0 0 qc)
      pure true
    else if c = 'U'.val then do
      setTop (.inParamString 8 0 0 qc)
      pure true
    else do
      setTop (.inParamString 0 digitCount acc qc)
      addCharToToken (unescape c)
      pure true
  else if c = '\\'.val then do
    setTop (.inParamString 1 digitCount acc qc)
    pure true
  else if c = qc then do
    popReadState
    pure true
  else do
    addCharToToken c
    pure true

/-- One turn of `handle_char` -/
def handleOnce (c : UInt32) : SttpM Bool := do
  let stack ← ask fun s => s.stack
  match stack with
  | [] => handleStartChar ct env c
  | .inName :: _ => handleNameChar ct env c
  | .inParamList gotValue :: _ => handleParamListChar ct env gotValue c
  | .inParamWord :: _ => handleParamWordChar ct c
  | .inParamString escaped digitCount acc qc :: _ =>
    handleParamStringChar escaped digitCount acc qc c

def handleChar : ℕ → UInt32 → SttpM PUnit
  | 0, _ => undefinedBehavior
  | n + 1, c => do
    let x ← handleOnce ct env c
    if x then pure ⟨⟩ else handleChar n c

/-- `feed_chunk`: whether a command has been completed, and what has not been taken. A turn takes a
byte at least, so that there need not be more turns than bytes. -/
def feedChunk : ℕ → List UInt8 → Bool → SttpM (Bool × List UInt8)
  | _, [], everCompleted => pure (everCompleted, [])
  | 0, data, everCompleted => pure (everCompleted, data)
  | n + 1, b :: rest, everCompleted =>
    match Utf8.utf8touc .four (b :: rest) with
    | (0, _) => failWith .einval "invalid utf8 sequence starting with 0x%lx" [b.toUInt32]
    | (_ + 1, none) => pure (everCompleted, b :: rest)
    | (k + 1, some c) => do
      let stack ← ask fun s => s.stack
      if stack = [] ∧ isSpaceChar ct c then feedChunk n (rest.drop k) everCompleted
      else if everCompleted then pure (true, b :: rest)
      else do
        handleChar ct env 2 c
        let stack ← ask fun s => s.stack
        feedChunk n (rest.drop k) (stack = [])

/-- `rd_lo[rd_lo_len++] = ...` -/
def keepByte (b : UInt8) : SttpM PUnit := do
  let rdLo ← ask fun s => s.rdLo
  if rdLo.length < mblenMax then change fun s => { s with rdLo := s.rdLo ++ [b] }
  else undefinedBehavior

def keepBytes : List UInt8 → SttpM PUnit
  | [] => pure ⟨⟩
  | b :: bs => do
    keepByte b
    keepBytes bs

/-- The loop over what is left over from before: the data that is left then, or none if it does
not complete the sequence. It takes a byte before it looks whether there is one. -/
def feedLeftOver : List UInt8 → SttpM (Option (List UInt8))
  | [] => undefinedBehavior
  | b :: bs => do
    keepByte b
    let rdLo ← ask fun s => s.rdLo
    let (completed, rest) ← feedChunk ct env rdLo.length rdLo false
    if completed = false ∧ rest.length = rdLo.length then
      if bs = [] then pure none else feedLeftOver bs
    else if rest.length = 0 then do
      change fun s => { s with rdLo := [] }
      pure (some bs)
    else undefinedBehavior

/-- The loop over the data: what is not processed. `rem` tells that the caller asks for it. -/
def feedData (rem : Bool) : ℕ → List UInt8 → SttpM (List UInt8)
  | _, [] => pure []
  | 0, data => pure data
  | n + 1, b :: bs => do
    let (completed, rest) ← feedChunk ct env (bs.length + 1) (b :: bs) false
    if rem then pure rest
    else if completed then feedData rem n rest
    else do
      keepBytes rest
      pure []

/-- `Sttp::feed`, with what is stored through `rem`. -/
def feed (rem : Bool) (data : List UInt8) : SttpM ℕ := do
  let rdLo ← ask fun s => s.rdLo
  if rdLo = [] then do
    let rest ← feedData ct env rem data.length data
    pure rest.length
  else do
    let left ← feedLeftOver ct env data
    match left with
    | none => pure 0
    | some data => do
      let rest ← feedData ct env rem data.length data
      pure rest.length

/-- Pieces of data that are fed one behind the other without a remainder pointer, up to the
first that is refused. -/
def feedPieces : List (List UInt8) → SttpM PUnit
  | [] => pure ⟨⟩
  | piece :: pieces => do
    let _ ← feed ct env false piece
    feedPieces pieces

/-! ## Writing -/

/-- `write_bytes` with the whole of `wr_buf`. -/
def flush : SttpM PUnit := do
  let written ← ask fun s => s.world.written
  let wrBuf ← ask fun s => s.wrBuf
  change fun s => { s with world := { s.world with written := written ++ wrBuf } }
  if env.writeBytes written wrBuf then change fun s => { s with wrBuf := [] } else fail

/-- `QSE_COUNTOF(wr_buf)` -/
def wrBufSize : ℕ := 4096

def flushIf (now : Bool) : SttpM PUnit := if now then flush env else pure ⟨⟩

/-- `write_char` for a byte -/
def writeByte (c : UInt8) : SttpM PUnit := do
  let wrBuf ← ask fun s => s.wrBuf
  flushIf env (wrBufSize ≤ wrBuf.length)
  change fun s => { s with wrBuf := s.wrBuf ++ [c] }

def writeBytes : List UInt8 → SttpM PUnit
  | [] => pure ⟨⟩
  | c :: cs => do
    writeByte env c
    writeBytes cs

/-- `write_char` for a wide character -/
def writeChar (c : UInt32) : SttpM PUnit :=
  match (Utf8.uctoutf8 c mblenMax).2 with
  | none => failWith .einval "unable to convert 0x%lx to utf8" [c]
  | some bcsbuf => writeBytes env bcsbuf

def writeChars : List UInt32 → SttpM PUnit
  | [] => pure ⟨⟩
  | c :: cs => do
    writeChar env c
    writeChars cs

def cstr (s : List UInt32) : List UInt32 := s.takeWhile (· ≠ 0)

def beginWrite (cmd : List UInt32) : SttpM PUnit := do
  change fun s => { s with wrArgCount := 0 }
  writeChars env (cstr cmd)

/-- `if (wr_arg_count > 0) WRITE_CHAR(',')` -/
def writeComma : SttpM PUnit := do
  let wrArgCount ← ask fun s => s.wrArgCount
  if 0 < wrArgCount then writeChar env ','.val else pure ⟨⟩

/-- `if (*ptr == '\"' || *ptr == '\\') WRITE_CHAR('\\')` and the character. -/
def writeEscaped : List UInt32 → SttpM PUnit
  | [] => pure ⟨⟩
  | c :: cs => do
    writeChars env (if c = '"'.val ∨ c = '\\'.val then ['\\'.val, c] else [c])
    writeEscaped cs

/-- `writeStringArg` with a length -/
def writeStringArg (arg : List UInt32) : SttpM PUnit := do
  writeComma env
  writeChars env [' '.val, '"'.val]
  writeEscaped env arg
  writeChar env '"'.val
  change fun s => { s with wrArgCount := s.wrArgCount + 1 }

def endWrite : SttpM PUnit := do
  writeChars env [';'.val, '\n'.val]
  let wrBuf ← ask fun s => s.wrBuf
  flushIf env (0 < wrBuf.length)

def writeArgs : List (List UInt32) → SttpM PUnit
  | [] => pure ⟨⟩
  | arg :: args => do
    writeStringArg env arg
    writeArgs args

def sendCmdLV (cmd : SttpCmd) : SttpM PUnit :=
  if cstr cmd.name = [] then pure ⟨⟩
  else do
    beginWrite env cmd.name
    writeArgs env cmd.args
    endWrite env

def sendCmds : List SttpCmd → SttpM PUnit
  | [] => pure ⟨⟩
  | cmd :: cmds => do
    sendCmdLV env cmd
    sendCmds cmds

end Qse.SttpFeed
