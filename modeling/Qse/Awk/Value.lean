import Mathlib.Data.List.Nodup
import Qse.Awk.Number
import Qse.Support.MachineWord

/-!
# Values

A translation of the functions in `lib/awk/val.c` that make values and let go of them, for a
build with wide characters, 64-bit pointers and `ENABLE_FEATURE_SCACHE`.
-/

namespace Qse.Awk

abbrev Addr := ℕ

def quickintMax : Int64 := 0x3FFFFFFFFFFFFFFF

def inQuickintRange (i : Int64) : Bool := -quickintMax ≤ i && i ≤ quickintMax

def vtrSignBit : UInt64 := 0x8000000000000000

def quickintToVtr (i : Int64) : UInt64 :=
  if i < 0 then (-i).toUInt64 <<< 1 ||| 1 ||| vtrSignBit else i.toUInt64 <<< 1 ||| 1

def vtrToQuickint (p : UInt64) : Int64 :=
  if p &&& vtrSignBit ≠ 0 then -((p &&& ~~~vtrSignBit) >>> 1).toInt64 else (p >>> 1).toInt64

theorem or_mask (w m : UInt64) : (w ||| m) &&& m = m ∧ (w ||| m) &&& ~~~m = w &&& ~~~m := by
  constructor
  · apply UInt64.eq_of_toBitVec_eq
    ext i hi
    simp only [UInt64.toBitVec_and, UInt64.toBitVec_or, BitVec.getElem_and, BitVec.getElem_or]
    cases m.toBitVec[i] <;> simp
  · apply UInt64.eq_of_toBitVec_eq
    ext i hi
    simp only [UInt64.toBitVec_and, UInt64.toBitVec_or, UInt64.toBitVec_not, BitVec.getElem_and,
      BitVec.getElem_or, BitVec.getElem_not]
    cases m.toBitVec[i] <;> simp

theorem quickint_bits {u : UInt64} (h : u.toNat < 2 ^ 62) :
    (u <<< 1 ||| (1 : UInt64)) &&& vtrSignBit = 0 ∧
      (u <<< 1 ||| (1 : UInt64)) &&& ~~~vtrSignBit = (u <<< 1 ||| (1 : UInt64) : UInt64) ∧
      (u <<< 1 ||| (1 : UInt64)) >>> 1 = u := by
  have hone : (1 : UInt64).toNat % 64 = 1 := rfl
  have hval : (u <<< 1 ||| (1 : UInt64)).toNat = u.toNat * 2 + 1 := by
    rw [UInt64.toNat_or, UInt64.toNat_shiftLeft, hone, Nat.shiftLeft_eq,
      Nat.mod_eq_of_lt (by omega)]
    exact BitFields.mul_or u.toNat (k := 1) (by decide)
  refine ⟨?_, ?_, ?_⟩
  · have hbit : (u.toNat * 2 + 1).testBit 63 = false := Nat.testBit_lt_two_pow (by omega)
    have hsign : vtrSignBit.toNat = 2 ^ 63 := rfl
    rw [← UInt64.toNat_inj, UInt64.toNat_and, hval, hsign, Nat.and_two_pow, hbit]
    rfl
  · have hmask : (~~~vtrSignBit).toNat = 2 ^ 63 - 1 := rfl
    rw [← UInt64.toNat_inj, UInt64.toNat_and, hval, hmask, BitFields.and_ones,
      Nat.mod_eq_of_lt (by omega)]
  · rw [← UInt64.toNat_inj, UInt64.toNat_shiftRight, hval, hone, Nat.shiftRight_eq_div_pow]
    omega

theorem toNat_toUInt64 {i : Int64} (hlow : 0 ≤ i.toInt) : (i.toUInt64.toNat : ℤ) = i.toInt := by
  have hcond := BitVec.toInt_eq_toNat_cond i.toBitVec
  rw [Int64.toNat_toBitVec] at hcond
  have hdef : i.toInt = i.toBitVec.toInt := rfl
  have hlt := i.toUInt64.toNat_lt
  split at hcond <;> omega

theorem vtrToQuickint_quickintToVtr {i : Int64} (h : inQuickintRange i = true) :
    vtrToQuickint (quickintToVtr i) = i := by
  simp only [inQuickintRange, Bool.and_eq_true, decide_eq_true_eq, Int64.le_iff_toInt_le] at h
  have hmax : quickintMax.toInt = 2 ^ 62 - 1 := rfl
  have hmin : (-quickintMax).toInt = -(2 ^ 62 - 1) := rfl
  rw [hmax, hmin] at h
  by_cases hneg : i < 0
  · have hneg' : i.toInt < 0 := Int64.lt_iff_toInt_lt.1 hneg
    have hopp : (-i).toInt = -i.toInt := by
      rw [Int64.toInt_neg]
      exact Int.bmod_eq_of_le (by omega) (by omega)
    have hnat := toNat_toUInt64 (i := -i) (by omega)
    obtain ⟨hsign, hmask, hshift⟩ := quickint_bits (u := (-i).toUInt64) (by omega)
    have hset : (((-i).toUInt64 <<< 1 ||| (1 : UInt64) ||| vtrSignBit) &&& vtrSignBit) =
        vtrSignBit := (or_mask _ _).1
    have hclear : (((-i).toUInt64 <<< 1 ||| (1 : UInt64) ||| vtrSignBit) &&& ~~~vtrSignBit) =
        ((-i).toUInt64 <<< 1 ||| (1 : UInt64)) := (or_mask _ _).2.trans hmask
    rw [quickintToVtr, if_pos hneg, vtrToQuickint, hset, if_pos (by decide), hclear, hshift]
    simp
  · have hpos : 0 ≤ i.toInt := by
      have hzero : (0 : Int64).toInt = 0 := rfl
      rw [Int64.lt_iff_toInt_lt, hzero] at hneg
      omega
    have hnat := toNat_toUInt64 hpos
    obtain ⟨hsign, -, hshift⟩ := quickint_bits (u := i.toUInt64) (by omega)
    rw [quickintToVtr, if_neg hneg, vtrToQuickint, hsign, if_neg (by simp), hshift]
    simp

/-- `qse_awk_val_t*`, which is an integer if its last bit is set -/
inductive Vtr where
  | quickint (p : UInt64)
  | pointer (a : Addr)
deriving DecidableEq

/-- What stands behind the header of a value. A string stands in a block that may be longer.
The pairs of a map are listed, and what is linked to a value that is not in use is left out. -/
inductive Body (F : Type) where
  | raw
  | nil
  | int (i : Int64)
  | flt (f : F)
  | str (len : ℕ) (block : List UInt32)
  | mbs (text : List UInt8)
  | fn (f : ℕ)
  | map (pairs : List (List UInt32 × Vtr))
  | rex (text : List UInt32) (code : ℕ × ℕ)
  | ref (id adr : ℕ)

/-- `qse_awk_val_t`, without the type, which its body tells, and without `fcb`, which is 0 -/
structure Cell (F : Type) where
  ref : ℕ
  stat : Bool
  nstr : ℕ
  body : Body F

inductive Content (F : Type) where
  | nil
  | int (i : Int64)
  | flt (f : F)
  | str (text : List UInt32)
  | mbs (text : List UInt8)
  | fn (f : ℕ)
  | map (pairs : List (List UInt32 × Vtr))
  | rex (text : List UInt32) (code : ℕ × ℕ)
  | ref (id adr : ℕ)
deriving DecidableEq

structure View (F : Type) where
  nstr : ℕ
  content : Content F
deriving DecidableEq

def Body.content {F : Type} : Body F → Option (Content F)
  | .raw => none
  | .nil => some .nil
  | .int i => some (.int i)
  | .flt f => some (.flt f)
  | .str len block => some (.str (block.take len))
  | .mbs text => some (.mbs text)
  | .fn f => some (.fn f)
  | .map pairs => some (.map pairs)
  | .rex text code => some (.rex text code)
  | .ref id adr => some (.ref id adr)

def Cell.view {F : Type} (cell : Cell F) : Option (View F) :=
  cell.body.content.map fun content => ⟨cell.nstr, content⟩

/-- The values that are kept for another use: those of `vmgr.ifree` and of `vmgr.rfree`, those
of `rcache`, and those of `scache` for one length class -/
inductive Pool where
  | ifree
  | rfree
  | rcache
  | scache (i : ℕ)
deriving DecidableEq

/-- `qse_awk_rtx_t`, as far as values are concerned. The last value of a cache is the first
one in its pool. The number of calls to the memory manager is counted. -/
structure Rtx (F : Type) where
  mem : Addr → Option (Cell F)
  pool : Pool → List Addr
  calls : ℕ

/-- The memory manager, which may refuse any call, and the character converter. A block for
values is given as the first of their addresses, which are in no other use. -/
structure Mmgr where
  alloc : ℕ → (Addr → Bool) → ℕ → Option Addr
  unused : ∀ calls used n a, alloc calls used n = some a → ∀ i < n, used (a + i) = false
  grant : ℕ → Bool
  /-- what `qse_mbstowcsalldupwithcmgr` makes of bytes -/
  wcs : List UInt8 → List UInt32

inductive Stop where
  /-- a value is written that is longer than its block -/
  | overflow
  /-- there is no value at an address -/
  | wild
  /-- an assertion does not hold -/
  | assert
  /-- more values are let go than was expected -/
  | loop
deriving DecidableEq

@[simp] theorem ok_bind {α β : Type} (a : α) (f : α → Except Stop β) :
    (Except.ok a >>= f) = f a := rfl

/-- `qse_awk_val_nil`, `qse_awk_val_zls` and `qse_awk_val_zlm` -/
def valNil : Addr := 0

def valZls : Addr := 1

def valZlm : Addr := 2

/-- The text of a string, or the length of a string whose text is to be written later -/
inductive CStr where
  | text (str : List UInt32)
  | null (len : ℕ)

def CStr.len : CStr → ℕ
  | .text str => str.length
  | .null len => len

def CStr.write (block : List UInt32) : CStr → Except Stop (List UInt32)
  | .null _ => .ok block
  | .text str =>
    if block.length < str.length + 1 then .error .overflow
    else .ok (str ++ 0 :: block.drop (str.length + 1))

/-- `qse_awk_val_map_data_t`, as far as it says what the value is -/
inductive MapData (F : Type) where
  | int (v : Int64)
  | flt (v : F)
  | str (str : List UInt32)
  | mbs (mbs : List UInt8)
  | cstr (str : CStr)
  | other

variable {F : Type}

def Rtx.open : Rtx F where
  mem a :=
    if a = valNil then some ⟨0, true, 0, .nil⟩
    else if a = valZls then some ⟨0, true, 0, .str 0 [0]⟩
    else if a = valZlm then some ⟨0, true, 0, .mbs []⟩
    else none
  pool _ := []
  calls := 0

namespace Rtx

variable (s : Rtx F)

def put (a : Addr) (cell : Cell F) : Rtx F :=
  { s with mem := Function.update s.mem a (some cell) }

def freemem (a : Addr) : Rtx F := { s with mem := Function.update s.mem a none }

def setPool (p : Pool) (as : List Addr) : Rtx F := { s with pool := Function.update s.pool p as }

def used (a : Addr) : Bool := (s.mem a).isSome

def called : Rtx F := { s with calls := s.calls + 1 }

def view : Vtr → Option (View F)
  | .quickint p => some ⟨0, .int (vtrToQuickint p)⟩
  | .pointer a => (s.mem a).bind Cell.view

def init (a : Addr) (body : Body F) : Rtx F := s.put a ⟨0, false, 0, body⟩

def chunkSize : ℕ := 100

section Make

variable (mm : Mmgr)

def alloc (body : Body F) : Rtx F × Option Vtr :=
  match mm.alloc s.calls s.used 1 with
  | none => (s.called, none)
  | some a => (s.called.init a body, some (.pointer a))

def takeSlot (p : Pool) (body : Body F) : Rtx F × Option Vtr :=
  match s.pool p with
  | a :: free => ((s.setPool p free).init a body, some (.pointer a))
  | [] =>
    match mm.alloc s.calls s.used chunkSize with
    | none => (s.called, none)
    | some c =>
      let slots : Rtx F := { s.called with
        mem := fun a => if c ≤ a ∧ a < c + chunkSize then some ⟨0, false, 0, .raw⟩ else s.mem a }
      ((slots.setPool p ((List.range (chunkSize - 1)).map (c + 1 + ·))).init c body,
        some (.pointer c))

def makeintval (v : Int64) : Rtx F × Option Vtr :=
  if inQuickintRange v then (s, some (.quickint (quickintToVtr v)))
  else s.takeSlot mm .ifree (.int v)

def makefltval (v : F) : Rtx F × Option Vtr := s.takeSlot mm .rfree (.flt v)

def scacheNumBlocks : ℕ := 16

def scacheBlockUnit : ℕ := 16

def scacheBlockSize : ℕ := 128

/-- The size of `rcache` -/
def rcacheSize : ℕ := 128

/-- The class of a string of the length where it is an `int`, which is compared as an unsigned
number -/
def intClass (len : ℕ) : ℕ :=
  let i := len / scacheBlockUnit % 2 ^ 32
  if i < 2 ^ 31 then i else i + (2 ^ 64 - 2 ^ 32)

/-- A block for `rlen` characters, from the cache for the class if there is one. A block of
the memory manager is full of null characters. -/
def takeBlock (i rlen : ℕ) : Except Stop (Rtx F × Option (Addr × List UInt32)) :=
  let fresh (rlen : ℕ) : Rtx F × Option (Addr × List UInt32) :=
    match mm.alloc s.calls s.used 1 with
    | none => (s.called, none)
    | some a => (s.called, some (a, List.replicate (rlen + 1) 0))
  if i < scacheNumBlocks then
    match s.pool (.scache i) with
    | a :: free =>
      match s.mem a with
      | some ⟨_, _, _, .str _ block⟩ => .ok (s.setPool (.scache i) free, some (a, block))
      | _ => .error .wild
    | [] => .ok (fresh ((i + 1) * scacheBlockUnit - 1))
  else .ok (fresh rlen)

def makeStr (i : ℕ) (str : CStr) : Except Stop (Rtx F × Option Vtr) := do
  let (s, block) ← s.takeBlock mm i str.len
  match block with
  | none => .ok (s, none)
  | some (a, block) =>
    let block ← str.write block
    .ok (s.init a (.str str.len block), some (.pointer a))

def makestrvalwithcstr (str : CStr) : Except Stop (Rtx F × Option Vtr) :=
  if str.len = 0 then .ok (s, some (.pointer valZls))
  else s.makeStr mm (str.len / scacheBlockUnit) str

def makestrval2 (str1 str2 : List UInt32) : Except Stop (Rtx F × Option Vtr) :=
  s.makeStr mm (intClass (str1.length + str2.length)) (.text (str1 ++ str2))

/-- `qse_awk_rtx_makestrvalwithmbs`. The bytes are converted to a string first. -/
def makestrvalwithmbs (mbs : List UInt8) : Except Stop (Rtx F × Option Vtr) :=
  if mm.grant s.calls then s.called.makestrvalwithcstr mm (.text (mm.wcs mbs))
  else .ok (s.called, none)

def mark (x : ℕ) : Option Vtr → Rtx F
  | some (.pointer a) =>
    match s.mem a with
    | some cell => s.put a { cell with nstr := x }
    | none => s
  | _ => s

def nstrOf : Num F → ℕ
  | .int _ => 1
  | .flt _ => 2

def makenstrvalwithcstr (ctype : Ctype) (strip : Bool) (flt : Flt F) (str : List UInt32) :
    Except Stop (Rtx F × Option Vtr) := do
  let (s, v) ← s.makestrvalwithcstr mm (.text str)
  match strtonum ctype strip flt true 0 str with
  | none => .ok (s, v)
  | some num => .ok (s.mark (nstrOf num) v, v)

/-- `qse_awk_rtx_makembsval`. Without bytes to copy, they are all null. -/
def makembsval (mbs : List UInt8) : Rtx F × Option Vtr :=
  if mbs.length = 0 then (s, some (.pointer valZlm)) else s.alloc mm (.mbs mbs)

def makerexval (str : List UInt32) (code : ℕ × ℕ) : Rtx F × Option Vtr :=
  s.alloc mm (.rex str code)

def makerefval (id adr : ℕ) : Rtx F × Option Vtr :=
  match s.pool .rcache with
  | a :: free => ((s.setPool .rcache free).init a (.ref id adr), some (.pointer a))
  | [] => s.alloc mm (.ref id adr)

def makefunval (f : ℕ) : Rtx F × Option Vtr := s.alloc mm (.fn f)

def makemapval : Rtx F × Option Vtr :=
  match s.alloc mm (.map []) with
  | (s, none) => (s, none)
  | (s, some v) =>
    if mm.grant s.calls then (s.called, some v)
    else
      match v with
      | .pointer a => (s.called.freemem a, none)
      | .quickint _ => (s.called, none)

end Make

def refupval : Vtr → Except Stop (Rtx F)
  | .quickint _ => .ok s
  | .pointer a =>
    match s.mem a with
    | none => .error .wild
    | some cell => .ok (if cell.stat then s else s.put a { cell with ref := cell.ref + 1 })

def refdownvalNofree : Vtr → Except Stop (Rtx F)
  | .quickint _ => .ok s
  | .pointer a =>
    match s.mem a with
    | none => .error .wild
    | some cell =>
      if cell.stat then .ok s
      else if cell.ref = 0 then .error .assert
      else .ok (s.put a { cell with ref := cell.ref - 1 })

def keep (p : Pool) (a : Addr) : Rtx F := s.setPool p (a :: s.pool p)

/-- `qse_awk_rtx_freeval` of a value that is not static, with the values in it that are to be
let go -/
def freeCell (a : Addr) (cell : Cell F) : Rtx F × List Vtr :=
  match cell.body with
  | .int _ => (s.keep .ifree a, [])
  | .flt _ => (s.keep .rfree a, [])
  | .str len _ =>
    let i := intClass len
    if i < scacheNumBlocks ∧ (s.pool (.scache i)).length < scacheBlockSize then
      ((s.keep (.scache i) a).put a { cell with nstr := 0 }, [])
    else (s.freemem a, [])
  | .ref _ _ =>
    if (s.pool .rcache).length < rcacheSize then (s.keep .rcache a, []) else (s.freemem a, [])
  | .map pairs => (s.freemem a, pairs.map Prod.snd)
  | _ => (s.freemem a, [])

/-- `qse_awk_rtx_refdownval` of values one behind the other, those in a map in front of those behind
the map. -/
def refdownvals : ℕ → Rtx F → List Vtr → Except Stop (Rtx F)
  | _, s, [] => .ok s
  | 0, _, _ :: _ => .error .loop
  | n + 1, s, .quickint _ :: vs => refdownvals n s vs
  | n + 1, s, .pointer a :: vs =>
    match s.mem a with
    | none => .error .wild
    | some cell =>
      if cell.stat then refdownvals n s vs
      else if cell.ref = 0 then .error .assert
      else
        let cell := { cell with ref := cell.ref - 1 }
        let s := s.put a cell
        if cell.ref = 0 then
          let (s, inner) := s.freeCell a cell
          refdownvals n s (inner ++ vs)
        else refdownvals n s vs

def freeval (n : ℕ) : Vtr → Except Stop (Rtx F)
  | .quickint _ => .ok s
  | .pointer a =>
    match s.mem a with
    | none => .error .wild
    | some cell =>
      if cell.stat then .ok s
      else
        let (s, inner) := s.freeCell a cell
        refdownvals n s inner

section Map

variable (mm : Mmgr)

/-- `qse_awk_rtx_setmapvalfld` for a map at an address, with the values that it lets go -/
def setmapvalfld (n : ℕ) (a : Addr) (key : List UInt32) (v : Vtr) : Except Stop (Rtx F × Bool) :=
  match s.mem a with
  | some ⟨ref, stat, nstr, .map pairs⟩ =>
    match pairs.find? (·.1 = key) with
    | some (_, old) => do
      let s ←
        if old = v then s.refdownvalNofree v
        else
          let pairs := pairs.map fun p => if p.1 = key then (p.1, v) else p
          refdownvals n (s.put a ⟨ref, stat, nstr, .map pairs⟩) [old]
      let s ← s.refupval v
      .ok (s, true)
    | none =>
      if mm.grant s.calls then do
        let s ← (s.called.put a ⟨ref, stat, nstr, .map (pairs ++ [(key, v)])⟩).refupval v
        .ok (s, true)
      else .ok (s.called, false)
  | _ => .error .wild

def makeData : MapData F → Except Stop (Rtx F × Option Vtr)
  | .int v => .ok (s.makeintval mm v)
  | .flt v => .ok (s.makefltval mm v)
  | .str str => s.makestrvalwithcstr mm (.text str)
  | .mbs mbs => s.makestrvalwithmbs mm mbs
  | .cstr str => s.makestrvalwithcstr mm str
  | .other => .ok (s, none)

/-- The loop of `qse_awk_rtx_makemapvalwithdata` over the items for a map at an address. The
values in the map are no maps. -/
def fillMap (a : Addr) :
    Rtx F → List (List UInt32 × MapData F) → Except Stop (Rtx F × Option Vtr)
  | s, [] => .ok (s, some (.pointer a))
  | s, (key, item) :: data => do
    let size : ℕ := match s.mem a with
      | some ⟨_, _, _, .map pairs⟩ => pairs.length
      | _ => 0
    let (s, v) ← s.makeData mm item
    match v with
    | none => do
      let s ← s.freeval size (.pointer a)
      .ok (s, none)
    | some v => do
      let (s, set) ← s.setmapvalfld mm 1 a key v
      if set then fillMap a s data
      else do
        let s ← s.freeval 0 v
        let s ← s.freeval size (.pointer a)
        .ok (s, none)

def makemapvalwithdata (data : List (List UInt32 × MapData F)) : Except Stop (Rtx F × Option Vtr) :=
  match s.makemapval mm with
  | (s, some (.pointer a)) => fillMap mm a s data
  | (s, _) => .ok (s, none)

end Map

end Rtx

end Qse.Awk
