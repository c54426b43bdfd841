import Qse.Awk.Value

/-!
# Comparing values

A translation of `__cmp_val` in `lib/awk/run.c` and of the functions in its table. What the
comparison of two values looks at is their types, their contents and their numeric string markers.
-/

namespace Qse.Awk

/-- `cmp_op_t` -/
inductive CmpOp where
  | none
  | eq
  | ne
  | gt
  | ge
  | lt
  | le
deriving DecidableEq

def cmpEnsureNotEqual : CmpOp → ℤ
  | .eq => 1
  | .ne => 1
  | .gt => 0
  | .lt => 0
  | .ge => -1
  | .le => 1
  | .none => -1

structure Opt (F : Type) where
  /-- `QSE_AWK_NCMPONSTR` -/
  ncmponstr : Bool
  /-- `QSE_AWK_FLEXMAP` -/
  flexmap : Bool
  /-- `QSE_AWK_STRIPSTRSPC` -/
  strip : Bool
  /-- `gbl.ignorecase` -/
  ignorecase : Bool
  /-- `gbl.convfmt` -/
  convfmt : List UInt32
  /-- the classes of wide characters, and of bytes -/
  ctype : Ctype
  mctype : Ctype
  /-- `QSE_TOWUPPER` and `QSE_TOMUPPER` -/
  towupper : UInt32 → UInt32
  tomupper : UInt32 → UInt32
  /-- what `qse_wcsntombsdupwithcmgr` makes of a string, if it can be converted -/
  mbs : List UInt32 → Option (List UInt32)
  flt : Flt F

/-- `qse_wcsxncmp` and `qse_mbsxncmp`, or with `toupper` `qse_wcsxncasecmp` and
`qse_mbsxncasecmp` -/
@[grind =] def xncmp (toupper : UInt32 → UInt32) : List UInt32 → List UInt32 → ℤ
  | [], [] => 0
  | [], _ :: _ => -1
  | _ :: _, [] => 1
  | c1 :: s1, c2 :: s2 =>
    if toupper c1 > toupper c2 then 1
    else if toupper c1 < toupper c2 then -1
    else xncmp toupper s1 s2

def intToStr (v : Int64) : List UInt32 := (toString v.toInt).toList.map Char.val

def ofBytes (bytes : List UInt8) : List UInt32 := bytes.map UInt8.toUInt32

section Compare

variable {F : Type} (opt : Opt F) (grant : Bool) (op : CmpOp)

/-- `qse_awk_rtx_valtostrdup` of a value with the text, if the memory is granted -/
def valtostrdup (text : Option (List UInt32)) : Option (List UInt32) := if grant then text else none

/-- `qse_awk_rtx_valtombsdup` of a value with the text -/
def valtombsdup (text : Option (List UInt32)) : Option (List UInt32) :=
  (valtostrdup grant text).bind opt.mbs

/-- `qse_strxncasecmp` or `qse_strxncmp` -/
def cmpText (toupper : UInt32 → UInt32) (s1 s2 : List UInt32) : ℤ :=
  xncmp (if opt.ignorecase then toupper else id) s1 s2

def cmpInt (v1 v2 : Int64) : ℤ := if v1 > v2 then 1 else if v1 < v2 then -1 else 0

def cmpFlt (f1 f2 : F) : ℤ := if opt.flt.gt f1 f2 then 1 else if opt.flt.gt f2 f1 then -1 else 0

def cmpIntNum (v1 : Int64) : Num F → ℤ
  | .int ll => cmpInt v1 ll
  | .flt rr => cmpFlt opt (opt.flt.ofInt v1) rr

/-! ## Numbers and strings -/

def cmpIntStr (v1 : Int64) (nstr : ℕ) (text : List UInt32) : Option ℤ :=
  let num := if opt.ncmponstr ∨ nstr ≠ 0 then strtonum opt.ctype opt.strip opt.flt true 0 text
    else none
  match num with
  | some num => some (cmpIntNum opt v1 num)
  | none =>
    (valtostrdup grant (some (intToStr v1))).map fun str0 => cmpText opt opt.towupper str0 text

/-- `__cmp_int_mbs`, which returns -1 if there is no memory -/
def cmpIntMbs (v1 : Int64) (nstr : ℕ) (text : List UInt32) : ℤ :=
  let num := if opt.ncmponstr ∨ nstr ≠ 0 then strtonum opt.mctype opt.strip opt.flt true 0 text
    else none
  match num with
  | some num => cmpIntNum opt v1 num
  | none =>
    match valtombsdup opt grant (some (intToStr v1)) with
    | some str0 => cmpText opt opt.tomupper str0 text
    | none => -1

/-- `__cmp_flt_str` and `__cmp_flt_mbs`, which differ in the classes of characters and in what a
number is converted to -/
def cmpFltText (ctype : Ctype) (toupper : UInt32 → UInt32) (str0 : Option (List UInt32)) (f : F)
    (nstr : ℕ) (text : List UInt32) : Option ℤ :=
  if (opt.ncmponstr ∨ nstr ≠ 0) ∧ (fltEnd ctype text).isEmpty then
    some (cmpFlt opt f (opt.flt.ofText text))
  else str0.map fun str0 => cmpText opt toupper str0 text

def cmpFltStr (f : F) : ℕ → List UInt32 → Option ℤ :=
  cmpFltText opt opt.ctype opt.towupper (valtostrdup grant (opt.flt.format opt.convfmt f)) f

def cmpFltMbs (f : F) : ℕ → List UInt32 → Option ℤ :=
  cmpFltText opt opt.mctype opt.tomupper (valtombsdup opt grant (opt.flt.format opt.convfmt f)) f

def nstrNum (nstr : ℕ) (text : List UInt32) : Except Stop (Num F) :=
  if nstr = 1 then .ok (.int (strxtoint opt.ctype opt.strip 0 text).1)
  else if nstr = 2 then .ok (.flt (opt.flt.ofText text))
  else .error .assert

def cmpStrStr (lnstr : ℕ) (ls : List UInt32) (rnstr : ℕ) (rs : List UInt32) : Except Stop ℤ :=
  if lnstr = 0 ∨ rnstr = 0 then .ok (cmpText opt opt.towupper ls rs)
  else do
    let ll ← nstrNum opt lnstr ls
    let rr ← nstrNum opt rnstr rs
    match ll, rr with
    | .int ll, rr => .ok (cmpIntNum opt ll rr)
    | .flt ll, .int rr => .ok (cmpFlt opt ll (opt.flt.ofInt rr))
    | .flt ll, .flt rr => .ok (cmpFlt opt ll rr)

/-- `__cmp_str_mbs`, which does not look at `IGNORECASE` -/
def cmpStrMbs (ls : List UInt32) (rs : List UInt32) : Option ℤ :=
  (valtombsdup opt grant (some ls)).map fun mbs => xncmp id mbs rs

def cmpEmpty (text : List UInt32) : ℤ := if text.isEmpty then 0 else 1

/-- `-n`, but for `CMP_ERROR` -/
def inverse (n : Option ℤ) : Option ℤ := n.map (- ·)

def mapSize (pairs : List (List UInt32 × Vtr)) : Int64 := Int64.ofNat pairs.length

/-- The functions in the table of `__cmp_val`. `CMP_ERROR` is `none`. -/
def cmpFunc (left right : View F) : Except Stop (Option ℤ) :=
  let notEqual : Except Stop (Option ℤ) := .ok (some (cmpEnsureNotEqual op))
  match left.content, right.content with
  | .nil, .nil => .ok (some 0)
  | .nil, .int v => .ok (some (cmpInt 0 v))
  | .nil, .flt f => .ok (some (cmpFlt opt (opt.flt.ofInt 0) f))
  | .nil, .str text => .ok (some (-cmpEmpty text))
  | .nil, .mbs text => .ok (some (-cmpEmpty (ofBytes text)))
  | .nil, .fn _ => notEqual
  | .nil, .map pairs => .ok (some (if pairs.length = 0 then 0 else -1))
  | .int v, .nil => .ok (some (cmpInt v 0))
  | .int v1, .int v2 => .ok (some (cmpInt v1 v2))
  | .int v1, .flt f => .ok (some (cmpFlt opt (opt.flt.ofInt v1) f))
  | .int v1, .str text => .ok (cmpIntStr opt grant v1 right.nstr text)
  | .int v1, .mbs text => .ok (some (cmpIntMbs opt grant v1 right.nstr (ofBytes text)))
  | .int _, .fn _ => notEqual
  | .int v1, .map pairs => .ok (some (cmpInt v1 (mapSize pairs)))
  | .flt f, .nil => .ok (some (cmpFlt opt f (opt.flt.ofInt 0)))
  | .flt f, .int v2 => .ok (some (cmpFlt opt f (opt.flt.ofInt v2)))
  | .flt f1, .flt f2 => .ok (some (cmpFlt opt f1 f2))
  | .flt f, .str text => .ok (cmpFltStr opt grant f right.nstr text)
  | .flt f, .mbs text => .ok (cmpFltMbs opt grant f right.nstr (ofBytes text))
  | .flt _, .fn _ => notEqual
  | .flt f, .map pairs => .ok (some (cmpFlt opt f (opt.flt.ofInt (mapSize pairs))))
  | .str text, .nil => .ok (some (cmpEmpty text))
  | .str text, .int v => .ok (inverse (cmpIntStr opt grant v left.nstr text))
  | .str text, .flt f => .ok (inverse (cmpFltStr opt grant f left.nstr text))
  | .str ls, .str rs => (cmpStrStr opt left.nstr ls right.nstr rs).map some
  | .str ls, .mbs rs => .ok (cmpStrMbs opt grant ls (ofBytes rs))
  | .str _, .fn _ => notEqual
  | .str _, .map _ => notEqual
  | .mbs text, .nil => .ok (some (cmpEmpty (ofBytes text)))
  | .mbs text, .int v => .ok (inverse (some (cmpIntMbs opt grant v left.nstr (ofBytes text))))
  | .mbs text, .flt f => .ok (inverse (cmpFltMbs opt grant f left.nstr (ofBytes text)))
  | .mbs ls, .str rs => .ok (inverse (cmpStrMbs opt grant rs (ofBytes ls)))
  | .mbs ls, .mbs rs => .ok (some (xncmp id (ofBytes ls) (ofBytes rs)))
  | .mbs _, .fn _ => notEqual
  | .mbs _, .map _ => notEqual
  | .fn f, .fn g => if f = g then .ok (some 0) else notEqual
  | .fn _, .nil => notEqual
  | .fn _, .int _ => notEqual
  | .fn _, .flt _ => notEqual
  | .fn _, .str _ => notEqual
  | .fn _, .mbs _ => notEqual
  | .fn _, .map _ => notEqual
  | .map pairs, .nil => .ok (inverse (some (if pairs.length = 0 then 0 else -1)))
  | .map pairs, .int v => .ok (inverse (some (cmpInt v (mapSize pairs))))
  | .map pairs, .flt f => .ok (inverse (some (cmpFlt opt f (opt.flt.ofInt (mapSize pairs)))))
  | .map _, .str _ => notEqual
  | .map _, .mbs _ => notEqual
  | .map _, .fn _ => notEqual
  | .map _, .map _ => .ok none
  -- the types behind that of a map are not in the table
  | .rex _ _, _ => .error .assert
  | .ref _ _, _ => .error .assert
  | _, .rex _ _ => .error .assert
  | _, .ref _ _ => .error .assert

def Content.isMap : Content F → Bool
  | .map _ => true
  | _ => false

/-- `__cmp_val` of what is seen of the values -/
def cmpView (left right : View F) : Except Stop (Option ℤ) :=
  if !opt.flexmap && (left.content.isMap || right.content.isMap) then .ok none
  else cmpFunc opt grant op left right

def Rtx.cmpVal (s : Rtx F) (left right : Vtr) : Except Stop (Option ℤ) :=
  match s.view left, s.view right with
  | some l, some r => cmpView opt grant op l r
  | _, _ => .error .wild

end Compare

def Ctype.ascii : Ctype where
  isSpace c := c = ' '.val || c = '\t'.val
  isDigit c := '0'.val ≤ c && c ≤ '9'.val

def Flt.ints : Flt Int64 where
  gt f g := decide (f > g)
  ofInt v := v
  ofText text := (strxtoint Ctype.ascii false 10 text).1
  format _ f := some (intToStr f)

def Opt.ints : Opt Int64 where
  ncmponstr := false
  flexmap := false
  strip := false
  ignorecase := false
  convfmt := []
  ctype := Ctype.ascii
  mctype := Ctype.ascii
  towupper := id
  tomupper := id
  mbs := some
  flt := Flt.ints

end Qse.Awk
