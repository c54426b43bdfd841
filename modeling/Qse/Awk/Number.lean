import Mathlib.Data.List.TakeWhile

/-!
# Numbers in strings

A translation of `awk_strxtoint` in `lib/awk/misc-imp.h`, of what `awk_strxtoflt` there takes of
a string, and of `awk_rtx_strtonum` in `lib/awk/val-imp.h`, for wide characters and for bytes.
Characters and bytes are 32-bit words.
-/

namespace Qse.Awk

/-- `AWK_ISSPACE` and `AWK_ISDIGIT` -/
structure Ctype where
  isSpace : UInt32 → Bool
  isDigit : UInt32 → Bool

structure Flt (F : Type) where
  /-- `>` -/
  gt : F → F → Bool
  ofInt : Int64 → F
  /-- what `awk_strxtoflt` returns -/
  ofText : List UInt32 → F
  /-- what `qse_awk_rtx_format` makes of a number with `CONVFMT` -/
  format : List UInt32 → F → Option (List UInt32)

def signs : List UInt32 → Bool × List UInt32
  | [] => (false, [])
  | c :: cs =>
    if c = '-'.val then (!(signs cs).1, (signs cs).2)
    else if c = '+'.val then signs cs
    else (false, c :: cs)

def basePrefix (base : ℕ) (p : List UInt32) : ℕ × List UInt32 :=
  if base = 0 then
    match p with
    | [] => (10, p)
    | c :: p' =>
      if c = '0'.val then
        match p' with
        | [] => (8, p')
        | x :: p'' =>
          if x = 'x'.val ∨ x = 'X'.val then (16, p'')
          else if x = 'b'.val ∨ x = 'B'.val then (2, p'')
          else (8, p')
      else (10, p)
  else
    match p with
    | c :: x :: p' =>
      if base = 16 ∧ c = '0'.val ∧ (x = 'x'.val ∨ x = 'X'.val) then (base, p')
      else if base = 2 ∧ c = '0'.val ∧ (x = 'b'.val ∨ x = 'B'.val) then (base, p')
      else (base, p)
    | _ => (base, p)

def digitVal (c : UInt32) : Option ℕ :=
  if '0'.val ≤ c ∧ c ≤ '9'.val then some (c - '0'.val).toNat
  else if 'A'.val ≤ c ∧ c ≤ 'Z'.val then some ((c - 'A'.val).toNat + 10)
  else if 'a'.val ≤ c ∧ c ≤ 'z'.val then some ((c - 'a'.val).toNat + 10)
  else none

def digits (base : ℕ) : Int64 → List UInt32 → Int64 × List UInt32
  | n, [] => (n, [])
  | n, c :: cs =>
    match digitVal c with
    | none => (n, c :: cs)
    | some digit =>
      if base ≤ digit then (n, c :: cs)
      else digits base (n * Int64.ofNat base + Int64.ofNat digit) cs

section Text

variable (ctype : Ctype) (strip : Bool)

/-- `awk_strxtoint`, and what is at `*endptr`. The flag is `QSE_AWK_STRIPSTRSPC`. -/
def strxtoint (base : ℕ) (str : List UInt32) : Int64 × List UInt32 :=
  let p := if strip then str.dropWhile ctype.isSpace else str
  let (negative, p) := signs p
  let (base, p) := basePrefix base p
  let (n, p) := digits base 0 p
  (if negative then -n else n, p)

/-- What is behind a mantissa. The flag says that the point has been seen. -/
def mantissa (point : Bool) : List UInt32 → List UInt32
  | [] => []
  | c :: cs =>
    if ctype.isDigit c then mantissa point cs
    else if c = '.'.val ∧ !point then mantissa true cs
    else c :: cs

def mantissaSize (point : Bool) : List UInt32 → ℕ
  | [] => 0
  | c :: cs =>
    if ctype.isDigit c then mantissaSize point cs + 1
    else if c = '.'.val ∧ !point then mantissaSize true cs
    else 0

def exponent : List UInt32 → List UInt32
  | [] => []
  | c :: cs =>
    if c = 'E'.val ∨ c = 'e'.val then
      match cs with
      | [] => []
      | s :: cs' =>
        let p := if s = '-'.val ∨ s = '+'.val then cs' else cs
        p.dropWhile ctype.isDigit
    else c :: cs

/-- What is at `*endptr` of `awk_strxtoflt` -/
def fltEnd (str : List UInt32) : List UInt32 :=
  let p := (signs str).2
  let pexp := mantissa ctype false p
  if mantissaSize ctype false p = 0 then pexp else exponent ctype pexp

inductive Num (F : Type) where
  | int (l : Int64)
  | flt (r : F)

def isFltChar (c : UInt32) : Bool := c = '.'.val || c = 'E'.val || c = 'e'.val

/-- Where `awk_rtx_strtonum` goes on with a floating-point number -/
def looksFlt (endptr : List UInt32) : Bool :=
  match endptr with
  | [] => false
  | c :: cs =>
    if isFltChar c then true
    else if ctype.isDigit c then
      match cs.dropWhile ctype.isDigit with
      | [] => false
      | p :: _ => isFltChar p
    else false

def strtonum {F : Type} (flt : Flt F) (strict : Bool) (base : ℕ) (str : List UInt32) :
    Option (Num F) :=
  let (l, endptr) := strxtoint ctype strip base str
  if looksFlt ctype endptr then
    if strict && !(fltEnd ctype str).isEmpty then none else some (.flt (flt.ofText str))
  else if strict && !endptr.isEmpty then none
  else some (.int l)

end Text

end Qse.Awk
