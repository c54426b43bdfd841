import Qse.Support.Fallible
import Mathlib.Logic.Function.Basic
import Mathlib.Algebra.Group.Int.Defs
import Mathlib.Algebra.Group.Nat.Defs

/-!
# Formatted output

A translation of `run_printf`, `output_formatted`, `qse_awk_rtx_format` and of the functions
of the same names for bytes from `lib/awk/run.c`, with `qse_fmtintmax` of
`lib/cmn/fmt-intmax.c`. Characters and bytes are numbers, and a build is taken where
characters are wide. How values are converted and what output does are parameters.

The buffers are places: those of the run, which `printf` uses, and those that `sprintf` and
the conversion of numbers to strings have of their own.
-/

open Function

namespace Qse.Awk.Format

open Fallible

/-! ## The state -/

/-- `qse_awk_val_t`, as far as it is told apart. -/
inductive Val (F O : Type) where
  | nil
  | int (l : ℤ)
  | flt (r : F)
  | str (s : List ℕ)
  | mbs (b : List ℕ)
  | other (x : O)

/-- `qse_awk_rtx_format` or `qse_awk_rtx_formatmbs` -/
inductive Kind where
  | wide
  | bytes
deriving DecidableEq

/-- Where `out` and `fbu` lead to. -/
inductive Place where
  | shared (kind : Kind)
  | own (n : ℕ)
deriving DecidableEq

structure Area where
  out : List ℕ
  fmt : List ℕ

structure Printed (V σ : Type) where
  kind : Kind
  fmt : List ℕ
  rest : σ
  outcomes : List (V × σ)
  nested : Bool
  loose : Bool
  text : List ℕ

/-- What formatting uses of a `qse_awk_rtx_t`, and the rest of it. `tmpLen` is `tmp.len`, and
`clock` counts allocations. The last four are ghost fields: whether another one has begun
since the formatting that is under way began in the same place, whether an integer has been
given a width that is none, the values of arguments with what the rest was then, and the
texts that have been handed on. -/
structure FormatRtx (V σ : Type) where
  area : Place → Area
  tmpLen : Kind → ℕ
  next : ℕ
  clock : ℕ
  rest : σ
  nested : Kind → Bool
  loose : Bool
  outcomes : List (V × σ)
  log : List (Printed V σ)

inductive Errnum where
  | enomem
  | efmtarg
  | efmtcnv
  | evaltochr
  | eionmem
  | eionmnl

/-- What the rest of the interpreter does. `none` stands for a null pointer or -1, and
`some false` of output for `PRINT_IOERR`. -/
structure Env (F O σ : Type) where
  room : ℕ → Bool
  seterr : Errnum → σ → σ
  valtoint : Val F O → σ → Option ℤ × σ
  valtoflt : Val F O → σ → Option F × σ
  /-- `qse_awk_rtx_valtostrdup` and `qse_awk_rtx_valtombsdup` -/
  valtostrdup : Kind → Val F O → σ → Option (List ℕ) × σ
  /-- What such a conversion leaves of the size of the scratch buffers. -/
  regrow : Val F O → σ → (Kind → ℕ) → Kind → ℕ
  getvalstr : Val F O → σ → Option (List ℕ) × σ
  intToChar : Kind → ℤ → ℕ
  fltToChar : Kind → F → ℕ
  /-- The modifier for a number of the type `qse_awk_flt_t`: `j` or `z`. -/
  fltModifier : ℕ
  /-- `qse_str_fcat` and `qse_mbs_fcat` -/
  fcat : Kind → List ℕ → F → List ℕ
  isPrint : ℕ → Bool
  /-- The bytes of wide characters as they lie in the memory. -/
  rawBytes : List ℕ → List ℕ
  /-- The number of bits of a `qse_awk_int_t`. -/
  intBits : ℕ
  writeio : Kind → List ℕ → List ℕ → σ → Option Bool × σ
  writeioval : List ℕ → Val F O → σ → Option Bool × σ
  flushio : List ℕ → σ → Option Bool × σ

abbrev FormatM (F O σ : Type) := Fallible (FormatRtx (Val F O) σ)

variable {F O σ : Type} (env : Env F O σ)

def T (c : Char) : ℕ := c.toNat

def setArea (p : Place) (f : Area → Area) : FormatM F O σ PUnit :=
  change fun s => { s with area := update s.area p (f (s.area p)) }

def getArea (p : Place) : FormatM F O σ Area := ask fun s => s.area p

def failWith {α : Type} (e : Errnum) : FormatM F O σ α := do
  change fun s => { s with rest := env.seterr e s.rest }
  fail

def alloc : FormatM F O σ Bool := do
  let s ← ask id
  change fun s => { s with clock := s.clock + 1 }
  pure (env.room s.clock)

/-- `OUT_STR` and `OUT_CHAR` -/
def outStr (p : Place) (t : List ℕ) : FormatM F O σ PUnit := do
  let ok ← alloc env
  if ok then setArea p fun a => { a with out := a.out ++ t } else failWith env .enomem

/-- `FMT_STR` and `FMT_CHAR` -/
def fmtStr (p : Place) (t : List ℕ) : FormatM F O σ PUnit := do
  let ok ← alloc env
  if ok then setArea p fun a => { a with fmt := a.fmt ++ t } else failWith env .enomem

def outChars (p : Place) : List ℕ → FormatM F O σ PUnit
  | [] => pure ⟨⟩
  | c :: cs => do
    outStr env p [c]
    outChars p cs

def fmtChars (p : Place) : List ℕ → FormatM F O σ PUnit
  | [] => pure ⟨⟩
  | c :: cs => do
    fmtStr env p [c]
    fmtChars p cs

/-- `GROW_WITH_INC` -/
def grow (kind : Kind) (incv : ℕ) : FormatM F O σ PUnit := do
  let ok ← alloc env
  if ok then
    change fun s =>
      { s with tmpLen := update s.tmpLen kind (s.tmpLen kind + max incv (4096 * 2)) }
  else
    change fun s => { s with tmpLen := update s.tmpLen kind 0 }
    failWith env .enomem

def convert {α : Type} (f : σ → Option α × σ) : FormatM F O σ α := fun s =>
  ((f s.rest).1, { s with rest := (f s.rest).2 })

def valtostrdup (kind : Kind) (v : Val F O) : FormatM F O σ (List ℕ) := do
  change fun s => { s with tmpLen := env.regrow v s.rest s.tmpLen }
  convert (env.valtostrdup kind v)

def recorded (p : FormatM F O σ (Val F O)) : FormatM F O σ (Val F O) := do
  let v ← p
  change fun s => { s with outcomes := s.outcomes ++ [(v, s.rest)] }
  pure v

abbrev Args (F O σ : Type) := List (FormatM F O σ (Val F O))

/-- The next argument: a node that is evaluated now, or a value that is there. -/
def takeArg : Args F O σ → FormatM F O σ (Val F O × Args F O σ)
  | [] => failWith env .efmtarg
  | p :: ps => do
    let v ← recorded p
    pure (v, ps)

/-! ## Integers -/

/-- What `base_and_flags` and the arguments beside it hold, but for the precision. -/
structure IntFormat where
  base : ℕ
  upper : Bool
  nozero : Bool
  zerolead : Bool
  fillright : Bool
  fillcenter : Bool
  fill : Option ℕ
  sign : List ℕ
  pfx : List ℕ

def digitsOf (f : IntFormat) (value : ℕ) : List ℕ :=
  (Nat.toDigits f.base value).map fun c => T (if f.upper then c.toUpper else c)

def IntFormat.body (f : IntFormat) (value : ℕ) (prec : ℤ) : List ℕ :=
  if f.nozero ∧ value = 0 then
    if f.zerolead then [T '0'] else []
  else
    let ds := digitsOf f value
    if prec > ds.length then List.replicate (prec.toNat - ds.length) (T '0') ++ ds
    else if f.zerolead ∧ value ≠ 0 then T '0' :: ds
    else ds

def IntFormat.need (f : IntFormat) (value : ℕ) (prec : ℤ) : ℕ :=
  (f.sign ++ f.pfx ++ f.body value prec).length

/-- `fmt_uintmax` with `QSE_FMTINTMAX_NOTRUNC` and `QSE_FMTINTMAX_NONULL`. There is no text
if there is not enough room. -/
def fmtUintmax (size : ℤ) (value : ℕ) (f : IntFormat) (prec : ℤ) : Option (List ℕ) :=
  let body := f.body value prec
  let reqlen := f.need value prec
  if size ≤ 0 ∨ size < reqlen then none
  else
    match f.fill with
    | none => some (f.sign ++ f.pfx ++ body)
    | some fillchar =>
      let pad := List.replicate (size.toNat - reqlen) fillchar
      if f.fillright then some (f.sign ++ f.pfx ++ body ++ pad)
      else if f.fillcenter then some (f.sign ++ pad ++ f.pfx ++ body)
      else some (pad ++ f.sign ++ f.pfx ++ body)

/-- The loop around `qse_fmtintmax`. The size that is needed is given at the second time.
If none is needed, the number that tells so is not negative. -/
def fmtTmp (kind : Kind) (size : ℤ) (value : ℕ) (f : IntFormat) (prec : ℤ) :
    FormatM F O σ (List ℕ) :=
  match fmtUintmax size value f prec with
  | some text => pure text
  | none =>
    if f.need value prec = 0 then pure []
    else do
      grow env kind (f.need value prec)
      pure ((fmtUintmax (f.need value prec) value f prec).getD [])

/-- The conversion to an `int`. -/
def toInt (x : ℤ) : ℤ := Int.bmod x (2 ^ 32)

structure Flags where
  space : Bool
  hash : Bool
  zero : Bool
  plus : Bool
  minus : Bool

def flagsOf (fs : List ℕ) : Flags where
  space := fs.contains (T ' ')
  hash := fs.contains (T '#')
  zero := fs.contains (T '0')
  plus := fs.contains (T '+')
  minus := fs.contains (T '-')

def plainSign (fl : Flags) : List ℕ :=
  if fl.plus then [T '+'] else if fl.space then [T ' '] else []

/-- How an integer is put out, and its absolute value or, if it is taken for unsigned, its
value. -/
def intFormat (c : ℕ) (fl : Flags) (l width prec : ℤ) : IntFormat × ℕ :=
  let unsigned := (l % 2 ^ env.intBits).toNat
  let dfl : IntFormat :=
    { base := 10, upper := false, nozero := l = 0 ∧ prec = 0, zerolead := false,
      fillright := width ≠ -1 ∧ fl.minus,
      fillcenter := width ≠ -1 ∧ fl.zero ∧ ¬fl.minus ∧ prec = -1,
      fill :=
        if width = -1 then none
        else if fl.zero ∧ ¬fl.minus ∧ prec = -1 then some (T '0')
        else some (T ' '),
      sign := [], pfx := [] }
  if c = T 'B' ∨ c = T 'b' then
    ({ dfl with base := 2, pfx := if l ≠ 0 ∧ fl.hash then [T '0', T 'b'] else [] }, unsigned)
  else if c = T 'X' ∨ c = T 'x' then
    ({ dfl with
        base := 16, upper := c = T 'X',
        pfx := if l ≠ 0 ∧ fl.hash then [T '0', T 'x'] else [] }, unsigned)
  else if c = T 'o' then ({ dfl with base := 8, zerolead := fl.hash }, unsigned)
  else if c = T 'u' then ({ dfl with sign := plainSign fl }, unsigned)
  else ({ dfl with sign := if l < 0 then [T '-'] else plainSign fl }, l.natAbs)

/-- `tmp` is made as long as the width. -/
def widen (kind : Kind) (width : ℤ) : FormatM F O σ PUnit := do
  let n ← ask fun s => s.tmpLen kind
  if width > n then grow env kind (width.toNat - n) else pure ⟨⟩

def fmtWidth (kind : Kind) (width : ℤ) : FormatM F O σ ℤ :=
  if 0 < width then do
    widen env kind width
    pure (toInt width)
  else do
    change fun s => { s with loose := s.loose || width ≠ -1 }
    ask fun s => s.tmpLen kind

/-- `%d` and the like, once the value is there. -/
def outInt (kind : Kind) (p : Place) (c : ℕ) (fl : Flags) (width prec l : ℤ) :
    FormatM F O σ PUnit := do
  let (f, value) := intFormat env c fl l width prec
  let size ← fmtWidth env kind width
  let text ← fmtTmp env kind size value f (toInt prec)
  outStr env p text

/-- `ch` and `ch_len`. An empty string of bytes is no character to `%c` of bytes. -/
def charOf (kind : Kind) : Val F O → Option (ℕ × ℕ)
  | .nil => some (0, 0)
  | .int l => some (env.intToChar kind l, 1)
  | .flt r => some (env.fltToChar kind r, 1)
  | .str [] => some (0, if kind = .wide then 1 else 0)
  | .str (c :: _) => some (env.intToChar kind c, 1)
  | .mbs [] => some (0, if kind = .wide then 1 else 0)
  | .mbs (c :: _) => some (env.intToChar kind c, 1)
  | .other _ => none

def pad (p : Place) (here : Bool) (width prec : ℤ) : FormatM F O σ PUnit :=
  if here then outChars env p (List.replicate (width - prec).toNat (T ' ')) else pure ⟨⟩

/-- `%c`, once the value is there. -/
def outChar (kind : Kind) (p : Place) (fl : Flags) (width prec : ℤ) (v : Val F O) :
    FormatM F O σ PUnit :=
  match charOf env kind v with
  | none => failWith env .evaltochr
  | some (ch, chLen) => do
    let prec := if prec = -1 ∨ prec = 0 ∨ prec > chLen then (chLen : ℤ) else prec
    let width := if prec > width then prec else width
    pad env p (¬fl.minus) width prec
    outChars env p (if 0 < prec then [ch] else [])
    pad env p fl.minus width prec

/-- `str_ptr` and `str_len`. `single` tells that the only argument is `val`. -/
def strOf (kind : Kind) (single : Bool) (c : ℕ) (v : Val F O) : FormatM F O σ (List ℕ) :=
  let dup := if single then failWith env .efmtcnv else valtostrdup env kind v
  match kind, v with
  | _, .nil => pure []
  | .wide, .str s => pure s
  | .wide, .mbs b => if c ≠ T 's' then pure b else dup
  | .bytes, .mbs b => pure b
  | .bytes, .str s => if c ≠ T 's' then pure (env.rawBytes s) else dup
  | _, _ => dup

def hexDigit (lower : Bool) (d : ℕ) : ℕ :=
  if d < 10 then T '0' + d else (if lower then T 'a' else T 'A') + (d - 10)

/-- `qse_bytetostr` with the radix 16 and two places. -/
def hexByte (lower : Bool) (b : ℕ) : List ℕ := [hexDigit lower (b / 16), hexDigit lower (b % 16)]

def bytePrintable (c : ℕ) : Bool := c ≤ 0x7F && c ≠ T '\\' && env.isPrint c

def pieces (conv c : ℕ) : List (List ℕ) :=
  let lower : Bool := conv = T 'k'
  if conv ≠ T 's' ∧ ¬bytePrintable env c then
    if c ≤ 0xFF then [[T '\\', T 'x'], hexByte lower c]
    else if c ≤ 0xFFFF then
      [[T '\\', T 'u'], hexByte lower (c / 2 ^ 8 % 2 ^ 8), hexByte lower (c % 2 ^ 8)]
    else
      [[T '\\', T 'U'], hexByte lower (c / 2 ^ 24 % 2 ^ 8), hexByte lower (c / 2 ^ 16 % 2 ^ 8),
        hexByte lower (c / 2 ^ 8 % 2 ^ 8), hexByte lower (c % 2 ^ 8)]
  else [[c]]

def outPieces (p : Place) : List (List ℕ) → FormatM F O σ PUnit
  | [] => pure ⟨⟩
  | t :: ts => do
    outStr env p t
    outPieces p ts

/-- `%s`, `%k` and `%K`, once the value is there. -/
def outString (kind : Kind) (p : Place) (single : Bool) (c : ℕ) (fl : Flags) (width prec : ℤ)
    (v : Val F O) : FormatM F O σ PUnit := do
  let str ← strOf env kind single c v
  let prec := if prec = -1 ∨ prec > str.length then (str.length : ℤ) else prec
  let width := if prec > width then prec else width
  pad env p (¬fl.minus) width prec
  outPieces env p ((str.take prec.toNat).flatMap (pieces env c))
  pad env p fl.minus width prec

/-! ## Format specifiers -/

def isFlag (c : ℕ) : Bool := [T ' ', T '#', T '0', T '+', T '-'].contains c

def isDigit (c : ℕ) : Bool := T '0' ≤ c && c ≤ T '9'

inductive Modifier where
  | star
  | digits (ds : List ℕ)

def scanModifier : List ℕ → Modifier × List ℕ
  | [] => (.digits [], [])
  | c :: cs =>
    if c = T '*' then (.star, cs)
    else (.digits ((c :: cs).takeWhile isDigit), (c :: cs).dropWhile isDigit)

/-- What stands between `%` and the character of the conversion. -/
structure Directive where
  flags : List ℕ
  width : Modifier
  precision : Option Modifier

def scan (cs : List ℕ) : Directive × List ℕ :=
  let width := scanModifier (cs.dropWhile isFlag)
  if width.2.head? = some (T '.') then
    let precision := scanModifier width.2.tail
    (⟨cs.takeWhile isFlag, width.1, some precision.1⟩, precision.2)
  else (⟨cs.takeWhile isFlag, width.1, none⟩, width.2)

def starText (kind : Kind) (w : ℤ) : FormatM F O σ (List ℕ) := do
  let f : IntFormat :=
    { base := 10, upper := false, nozero := false, zerolead := false, fillright := false,
      fillcenter := false, fill := none, sign := if w < 0 then [T '-'] else [], pfx := [] }
  let s ← ask id
  fmtTmp env kind (s.tmpLen kind) w.natAbs f (-1)

/-- `wp[wp_idx]`, which is `dfl` when there are no digits, and the arguments that are left. -/
def takeModifier (kind : Kind) (p : Place) (dfl : ℤ) :
    Modifier → Args F O σ → FormatM F O σ (ℤ × Args F O σ)
  | .star, args => do
    let (v, args) ← takeArg env args
    let w ← convert (env.valtoint v)
    let text ← starText env kind w
    fmtStr env p text
    pure (w, args)
  | .digits ds, args => do
    fmtChars env p ds
    pure (if ds = [] then dfl else ds.foldl (fun w c => w * 10 + (c - T '0' : ℕ)) (0 : ℤ), args)

def takePrecision (kind : Kind) (p : Place) :
    Option Modifier → Args F O σ → FormatM F O σ (ℤ × Args F O σ)
  | none, args => pure (-1, args)
  | some m, args => do
    fmtStr env p [T '.']
    takeModifier env kind p 0 m args

/-- The conversion characters for integers: `%u` is none for bytes. -/
def isIntConv (kind : Kind) (c : ℕ) : Bool :=
  [T 'd', T 'i', T 'x', T 'X', T 'b', T 'B', T 'o'].contains c || kind = .wide && c = T 'u'

def isFltConv (c : ℕ) : Bool := [T 'e', T 'E', T 'g', T 'G', T 'f'].contains c

/-- What is no conversion is put out as it stands, and `%%` as one character. -/
def outUnknown (p : Place) (c : ℕ) : FormatM F O σ PUnit := do
  let a ← getArea p
  if c ≠ T '%' then
    outStr env p a.fmt
    outStr env p [c]
  else outStr env p [c]

def convertArg (kind : Kind) (p : Place) (single : Bool) (c : ℕ) (fl : Flags) (width prec : ℤ)
    (args : Args F O σ) : FormatM F O σ (PUnit × Args F O σ) :=
  if isIntConv kind c then do
    let (v, args) ← takeArg env args
    let l ← convert (env.valtoint v)
    outInt env kind p c fl width prec l
    pure (⟨⟩, args)
  else if isFltConv c then do
    fmtStr env p [env.fltModifier]
    fmtStr env p [c]
    let (v, args) ← takeArg env args
    let r ← convert (env.valtoflt v)
    let a ← getArea p
    outStr env p (env.fcat kind a.fmt r)
    pure (⟨⟩, args)
  else if c = T 'c' then do
    let (v, args) ← takeArg env args
    outChar env kind p fl width prec v
    pure (⟨⟩, args)
  else if c = T 's' ∨ c = T 'k' ∨ c = T 'K' then do
    let (v, args) ← takeArg env args
    outString env kind p single c fl width prec v
    pure (⟨⟩, args)
  else do
    outUnknown env p c
    pure (⟨⟩, args)

def outLiteral (p : Place) (c : ℕ) : FormatM F O σ PUnit :=
  if c = T '%' then fmtStr env p [c] else outStr env p [c]

/-- The loop over the format, which gives the arguments that are left. Each turn takes one
character at least, so that `n` need not be more than the length of the format. -/
def formatLoop (kind : Kind) (p : Place) (single : Bool) :
    ℕ → List ℕ → Args F O σ → FormatM F O σ (PUnit × Args F O σ)
  | _, [], args => pure (⟨⟩, args)
  | 0, _ :: _, args => pure (⟨⟩, args)
  | n + 1, c :: cs, args => do
    let a ← getArea p
    if a.fmt = [] then
      outLiteral env p c
      formatLoop kind p single n cs args
    else
      let d := scan (c :: cs)
      fmtChars env p d.1.flags
      let (width, args) ← takeModifier env kind p (-1) d.1.width args
      let (prec, args) ← takePrecision env kind p d.1.precision args
      match d.2 with
      | [] => pure (⟨⟩, args)
      | conv :: rest => do
        let (_, args) ← convertArg env kind p single conv (flagsOf d.1.flags) width prec args
        setArea p fun a => { a with fmt := [] }
        formatLoop kind p single n rest args

/-- What follows when the buffers have been cleared: the text, and the arguments that are
left. -/
def formatInto (kind : Kind) (p : Place) (single : Bool) (fmt : List ℕ) (args : Args F O σ) :
    FormatM F O σ (List ℕ × Args F O σ) := do
  let (_, args) ← formatLoop env kind p single fmt.length fmt args
  let a ← getArea p
  outStr env p a.fmt
  let a ← getArea p
  pure (a.out, args)

/-- `qse_awk_rtx_format` and `qse_awk_rtx_formatmbs` -/
def format (kind : Kind) (p : Place) (fmt : List ℕ) (args : Args F O σ) (single : Bool) :
    FormatM F O σ (List ℕ) := do
  setArea p fun _ => ⟨[], []⟩
  let (text, _) ← formatInto env kind p single fmt args
  pure text

/-- A formatting with buffers of its own, of values that are there: that of
`qse_awk_fnc_sprintf`, or of one value in `val_flt_to_str`. -/
def formatOwn (kind : Kind) (fmt : List ℕ) (vs : List (Val F O)) (single : Bool) :
    FormatM F O σ (List ℕ) := fun s =>
  let r := format env kind (.own s.next) fmt (vs.map fun v => pure v) single
    { s with next := s.next + 1 }
  (r.1, { r.2 with next := s.next, loose := s.loose, outcomes := s.outcomes })

def formatShared (kind : Kind) (fmt : List ℕ) (args : Args F O σ) : FormatM F O σ (List ℕ) :=
  fun s =>
    let r := format env kind (.shared kind) fmt args false
      { s with nested := update s.nested kind false, loose := false, outcomes := [] }
    let noted (text : List ℕ) : Printed (Val F O) σ :=
      ⟨kind, fmt, s.rest, r.2.outcomes, r.2.nested kind, r.2.loose, text⟩
    (r.1, { r.2 with
      nested := update r.2.nested kind true
      loose := s.loose
      outcomes := s.outcomes
      log := r.2.log ++ (r.1.map noted).toList })

/-- `output_formatted` and `output_formatted_bytes` -/
def outputFormatted (kind : Kind) (dst fmt : List ℕ) (args : Args F O σ) :
    FormatM F O σ Bool := do
  let text ← formatShared env kind fmt args
  convert (env.writeio kind dst text)

def destination : Option (FormatM F O σ (Val F O)) → FormatM F O σ (List ℕ)
  | none => pure []
  | some p => do
    let v ← p
    let out ← convert (env.getvalstr v)
    if out = [] then failWith env .eionmem
    else if 0 ∈ out then failWith env .eionmnl
    else pure out

/-- `run_printf`, with the destination, the format and the arguments. -/
def runPrintf (out : Option (FormatM F O σ (Val F O))) (head : FormatM F O σ (Val F O))
    (args : Args F O σ) : FormatM F O σ Bool := do
  let dst ← destination env out
  let v ← head
  let written ← match v with
    | .str fmt => outputFormatted env .wide dst fmt args
    | .mbs fmt => outputFormatted env .bytes dst fmt args
    | _ => convert (env.writeioval dst v)
  let flushed ← convert (env.flushio dst)
  pure (written && flushed)

end Qse.Awk.Format
