import Qse.Text.Mchar
import Mathlib.Data.List.Basic

/-!
# A request or response

A translation of `qse_htre_t` and of the functions of `lib/http/htre.c` that deal with
the content. Strings are lists of octets, the tables of header fields are lists of names,
each with its values. A function that calls the content callback returns the call.
-/

namespace Qse.Http

structure Concb where
  fn : ℕ
  ctx : ℕ
deriving DecidableEq

structure Call where
  concb : Concb
  piece : Option (List UInt8)
deriving DecidableEq

abbrev Table := List (List UInt8 × List (List UInt8))

/-- The flags of `qse_htre_t` that come from the header. -/
structure Attrs where
  chunked : Bool
  length : Bool
  keepalive : Bool
  expect : Bool
  expect100 : Bool
deriving DecidableEq

/-- `u.q` and `u.s` -/
inductive Line where
  | request (method path : List UInt8) (param : Option (List UInt8))
  | response (code : Option ℕ) (codeStr mesg : List UInt8)
deriving DecidableEq

/-- `qse_htre_t`. -/
structure Re where
  major : ℕ
  minor : ℕ
  verstr : List UInt8
  line : Option Line
  flags : Attrs
  contentLength : ℕ
  status : Option (List UInt8)
  hdrtab : Table
  trailers : Table
  content : List UInt8
  concb : Option Concb
  completed : Bool
  discarded : Bool
deriving DecidableEq

def Re.init : Re where
  major := 0
  minor := 0
  verstr := []
  line := none
  flags := ⟨false, false, false, false, false⟩
  contentLength := 0
  status := none
  hdrtab := []
  trailers := []
  content := []
  concb := none
  completed := false
  discarded := false

namespace Re

def pending (re : Re) : Bool := !re.completed && !re.discarded

/-- `re->concb (re, QSE_NULL, 0, re->concb_ctx)` if there is a callback. -/
def endOfContent (re : Re) : Option Call := re.concb.map fun c => ⟨c, none⟩

/-- `qse_htre_setconcb`, and `qse_htre_unsetconcb` if there is no callback. -/
def setconcb (re : Re) (concb : Option Concb) : Re := { re with concb := concb }

/-- `qse_htre_addcontent`, where `ok` tells whether the callback or the buffer accepts the
piece. -/
def addcontent (re : Re) (piece : List UInt8) (ok : Bool) : Int × Re × Option Call :=
  if re.pending then
    match re.concb with
    | some c => (if ok then 1 else -1, re, some ⟨c, some piece⟩)
    | none =>
      if ok then (1, { re with content := re.content ++ piece }, none) else (-1, re, none)
  else (0, re, none)

def completecontent (re : Re) : Re × Option Call :=
  if re.pending then ({ re with completed := true }, re.endOfContent) else (re, none)

def discardcontent (re : Re) : Re × Option Call :=
  if re.pending then ({ re with discarded := true, content := [] }, re.endOfContent)
  else (re, none)

/-- `qse_htre_clear`. The initial line and the version string stay in place, but point into
a buffer that the next message overwrites, so they count as missing. -/
def clear (re : Re) : Re × Option Call :=
  if re.pending then (init, re.endOfContent) else ({ init with concb := re.concb }, none)

end Re

end Qse.Http
