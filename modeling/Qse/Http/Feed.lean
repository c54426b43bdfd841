import Qse.Http.Header

/-!
# The reader

A translation of `qse_htrd_feed` in `lib/http/htrd.c`. Each label that a `goto` leads to is a
function of the octets from `ptr` on. The two jumps back take an octet each, so they are counted by
a fuel. The callbacks `peek` and `poke` neither fail nor change the reader; the ghosts `poked` and
`heads` keep what `poke` is given and the flags that come out of each header. Memory is always
found.
-/

namespace Qse.Http

inductive Phase where
  | done
  | len
  | data
  | crlf
  | trailers
deriving DecidableEq

/-- `fed.s.chunk` -/
structure Chunk where
  len : ℕ
  count : ℕ
  phase : Phase
deriving DecidableEq

/-- `qse_htrd_t` and the ghosts. -/
structure Htrd where
  option : Options
  suspended : Bool
  dummified : Bool
  untilClose : Bool
  crlf : ℕ
  plen : ℕ
  need : ℕ
  chunk : Chunk
  raw : List UInt8
  tra : List UInt8
  re : Re
  clean : Bool
  poked : List Re
  heads : List Attrs
deriving DecidableEq

/-- `qse_htrd_init` and `qse_htrd_setopt` -/
def Htrd.init (option : Options) : Htrd where
  option := option
  suspended := false
  dummified := false
  untilClose := false
  crlf := 0
  plen := 0
  need := 0
  chunk := ⟨0, 0, .done⟩
  raw := []
  tra := []
  re := Re.init
  clean := true
  poked := []
  heads := []

abbrev Outcome := Except (Errnum × Htrd) Htrd

def pushContent (htrd : Htrd) (ptr : List UInt8) : Htrd :=
  { htrd with re := (htrd.re.addcontent ptr true).2.1 }

def clearFeed (htrd : Htrd) : Htrd :=
  { htrd with
    clean := true
    re := htrd.re.clear.1
    tra := []
    raw := []
    untilClose := false
    crlf := 0
    plen := 0
    need := 0
    chunk := ⟨0, 0, .done⟩ }

@[grind =] def readDigits (chunk : Chunk) : List UInt8 → Chunk × List UInt8
  | [] => (chunk, [])
  | c :: ptr =>
    match xdigitToNum c with
    | none => (chunk, c :: ptr)
    | some n =>
      readDigits { chunk with
        len := (chunk.len * 16 + n) % 2 ^ 64
        count := chunk.count + 1 } ptr

def getchunklen (htrd : Htrd) (ptr : List UInt8) : Except (Errnum × Htrd) (Htrd × List UInt8) :=
  let ptr := if htrd.chunk.count = 0 then ptr.dropWhile isSpaceOctet else ptr
  let (chunk, ptr) := readDigits htrd.chunk ptr
  match ptr.dropWhile isSpaceOctet with
  | [] => .ok ({ htrd with chunk := chunk }, [])
  | c :: ptr =>
    if c = mt '\n' then
      let phase :=
        if chunk.count = 0 then .done else if chunk.len = 0 then .trailers else .data
      .ok ({ htrd with chunk := { chunk with phase := phase }, need := chunk.len }, ptr)
    else .error (.badre, { htrd with chunk := chunk })

/-- What CR and LF make of `fed.s.crlf`. -/
def seeCR (crlf : ℕ) : ℕ := if crlf = 0 ∨ crlf = 2 then crlf + 1 else 1

/-- The loop of `get_trailing_headers`; `seen` is what lies between `req` and `ptr`. -/
@[grind =] def getTrailingHeaders (htrd : Htrd) (seen : List UInt8) :
    List UInt8 → Except (Errnum × Htrd) (Htrd × List UInt8)
  | [] => .ok ({ htrd with tra := htrd.tra ++ seen }, [])
  | b :: ptr =>
    if b = 0 then .error (.badre, htrd)
    else if b = mt '\n' then
      if htrd.crlf ≤ 1 then getTrailingHeaders { htrd with crlf := 2 } (seen ++ [b]) ptr
      else
        let tra := htrd.tra ++ seen ++ [b]
        match parseHeaders htrd.option htrd.option.trailers (tra.length + 1) htrd.re tra with
        | .error e => .error (e, htrd)
        | .ok re =>
          .ok ({ htrd with
            crlf := 0
            tra := tra
            re := re
            chunk := { htrd.chunk with phase := .done } }, ptr)
    else if b = mt '\r' then
      getTrailingHeaders { htrd with crlf := seeCR htrd.crlf } (seen ++ [b]) ptr
    else getTrailingHeaders { htrd with crlf := 0 } (seen ++ [b]) ptr

inductive Label where
  | top
  | dechunkStart
  | dechunkResume
  | dechunkGetTrailers
  | contentResume
  | dechunkCrlf
deriving DecidableEq

section Labels

variable (k : Label → Htrd → List UInt8 → Outcome)

/-- "the content has been received fully" -/
def complete (htrd : Htrd) (ptr : List UInt8) : Outcome :=
  let htrd := { htrd with re := htrd.re.completecontent.1 }
  let htrd := clearFeed { htrd with poked := htrd.poked ++ [htrd.re] }
  if ptr = [] then .ok htrd
  else if htrd.suspended then .error (.suspended, htrd)
  else if htrd.dummified then .ok (pushContent htrd ptr)
  else k .top { htrd with clean := false } ptr

def dechunkCrlf (htrd : Htrd) (ptr : List UInt8) : Outcome :=
  match ptr.dropWhile isSpaceOctet with
  | [] => .ok htrd
  | c :: ptr =>
    if c = mt '\n' then
      if ptr ≠ [] then k .dechunkStart htrd ptr
      else .ok { htrd with chunk := ⟨0, 0, .len⟩ }
    else .error (.badre, htrd)

/-- `if (htrd->fed.s.chunk.phase == GET_CHUNK_DATA)` and what follows it. -/
def afterContent (htrd : Htrd) (ptr : List UInt8) : Outcome :=
  if htrd.chunk.phase = .data then
    dechunkCrlf k { htrd with chunk := { htrd.chunk with phase := .crlf } } ptr
  else complete k htrd ptr

def contentResume (htrd : Htrd) (ptr : List UInt8) : Outcome :=
  let avail := ptr.length
  if avail = 0 then .ok htrd
  else if avail < htrd.need then
    let htrd := pushContent htrd ptr
    if htrd.untilClose then .ok htrd else .ok { htrd with need := htrd.need - avail }
  else
    let rest := ptr.drop htrd.need
    let htrd' := pushContent htrd (ptr.take htrd.need)
    if htrd.untilClose then afterContent k htrd' rest
    else afterContent k { htrd' with need := 0 } rest

/-- `if (htrd->fed.s.need > 0)` and what follows it. -/
def readContent (htrd : Htrd) (ptr : List UInt8) : Outcome :=
  if 0 < htrd.need then contentResume k htrd ptr else afterContent k htrd ptr

def dechunkGetTrailers (htrd : Htrd) (ptr : List UInt8) : Outcome :=
  match getTrailingHeaders htrd [] ptr with
  | .error e => .error e
  | .ok (htrd, ptr) =>
    if htrd.chunk.phase = .trailers then .ok htrd else readContent k htrd ptr

def dechunkResume (htrd : Htrd) (ptr : List UInt8) : Outcome :=
  match getchunklen htrd ptr with
  | .error e => .error e
  | .ok (htrd, ptr) =>
    if htrd.chunk.phase = .len then .ok htrd
    else if htrd.chunk.phase = .trailers then dechunkGetTrailers k { htrd with crlf := 2 } ptr
    else readContent k htrd ptr

def dechunkStart (htrd : Htrd) (ptr : List UInt8) : Outcome :=
  dechunkResume k { htrd with chunk := ⟨0, 0, .len⟩ } ptr

/-- "carry on processing content body fed together with the header" -/
def startBody (htrd : Htrd) (ptr : List UInt8) : Outcome :=
  if htrd.re.flags.chunked then dechunkStart k htrd ptr
  else if htrd.option.response ∧ htrd.re.flags.length = false ∧ htrd.re.flags.keepalive = false then
    readContent k { htrd with need := 2 ^ 64 - 1, untilClose := true } ptr
  else if htrd.option.response ∧ htrd.re.flags.length = false then
    -- "drop whatever trailing data avaiable after the header fields for this feeding"
    readContent k { htrd with need := 0 } []
  else readContent k { htrd with need := htrd.re.contentLength } ptr

/-- "we got a complete request header": `seen` is what lies between `req` and `ptr`. -/
def headerComplete (htrd : Htrd) (seen ptr : List UInt8) : Outcome :=
  let htrd := { htrd with crlf := 0, plen := 0, raw := htrd.raw ++ seen }
  match parseInitialLineAndHeaders htrd.option htrd.re htrd.raw with
  | .error e => .error (e, htrd)
  | .ok re =>
    let htrd := { htrd with re := re, heads := htrd.heads ++ [re.flags] }
    if htrd.option.peekOnly then
      let htrd := if ptr ≠ [] then pushContent htrd ptr else htrd
      .ok { htrd with re := htrd.re.completecontent.1 }
    else startBody k htrd ptr

@[grind =] def scan (htrd : Htrd) (seen : List UInt8) : List UInt8 → Outcome
  | [] => .ok { htrd with raw := htrd.raw ++ seen }
  | b :: ptr =>
    if b = 0 then .error (.badre, htrd)
    else if b = mt '\n' then
      if htrd.crlf ≤ 1 then scan { htrd with crlf := 2 } (seen ++ [b]) ptr
      else headerComplete k htrd (seen ++ [b]) ptr
    else if b = mt '\r' then scan { htrd with crlf := seeCR htrd.crlf } (seen ++ [b]) ptr
    else scan { htrd with plen := htrd.plen + 1, crlf := 0 } (seen ++ [b]) ptr

def atLabel (htrd : Htrd) (ptr : List UInt8) : Label → Outcome
  | .top => scan k htrd [] ptr
  | .dechunkStart => dechunkStart k htrd ptr
  | .dechunkResume => dechunkResume k htrd ptr
  | .dechunkGetTrailers => dechunkGetTrailers k htrd ptr
  | .contentResume => contentResume k htrd ptr
  | .dechunkCrlf => dechunkCrlf k htrd ptr

end Labels

/-- The code from a label on, for at most `fuel` jumps. -/
def jump : ℕ → Label → Htrd → List UInt8 → Outcome
  | 0, _, htrd, _ => .error (.badre, htrd)
  | fuel + 1, label, htrd, ptr => atLabel (jump fuel) htrd ptr label

def Htrd.resumeAt (htrd : Htrd) : Label :=
  if 0 < htrd.need then .contentResume
  else
    match htrd.chunk.phase with
    | .len => .dechunkResume
    | .data => .contentResume
    | .crlf => .dechunkCrlf
    | .trailers => .dechunkGetTrailers
    | .done => .top

def feed (htrd : Htrd) (req : List UInt8) : Outcome :=
  if htrd.suspended then .error (.suspended, htrd)
  else if htrd.dummified then .ok (pushContent htrd req)
  else
    let htrd := if htrd.resumeAt = .top then { htrd with clean := false } else htrd
    jump (req.length + 1) htrd.resumeAt htrd req

/-- Calls of `qse_htrd_feed` with one piece after another, up to the first that fails. -/
def feedAll (htrd : Htrd) : List (List UInt8) → Outcome
  | [] => .ok htrd
  | piece :: pieces =>
    match feed htrd piece with
    | .error e => .error e
    | .ok htrd => feedAll htrd pieces

end Qse.Http
