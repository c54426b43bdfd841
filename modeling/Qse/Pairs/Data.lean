import Mathlib.Data.Int.Notation
import Mathlib.Data.Nat.Notation

/-!
# Pairs of a key and a value

What `qse_rbt_t` and `qse_htb_t` have in common: the copiers of a style and what `allocpair` and
`change_pair_val` do to the contents of a pair. A key is identified with what a comparator reads at
its pointer. A value keeps its pointer and length, and with an inline copier the bytes in the value
space of the pair. The outcome of every allocation and of every custom copier is taken from a
`PairEnv`.
-/

namespace Qse

/-- `COPIER_SIMPLE`, `COPIER_INLINE`, or a function of the caller. -/
inductive Copier where
  | simple
  | inline
  | custom
deriving DecidableEq

structure PairStyle (κ : Type) where
  kcop : Copier
  vcop : Copier
  freeKey : Bool
  freeVal : Bool
  keeper : Bool
  comper : κ → κ → ℤ

/-- A value argument `(vptr, vlen)` and the bytes found at a pointer that is not
null. -/
structure Buffer where
  ptr : ℕ
  len : ℕ
  bytes : List UInt8
deriving DecidableEq

/-- The contents of a pair. `vbuf` is the inline value space. -/
structure PairData (κ : Type) where
  key : κ
  vptr : ℕ
  vlen : ℕ
  vbuf : List UInt8
deriving DecidableEq

inductive Callback (κ : Type) where
  | freeKey (key : κ)
  | freeVal (ptr len : ℕ)
  | keep (ptr len : ℕ)
deriving DecidableEq

/-- What the surroundings answer during one operation: the block the memory
manager hands out, the results of custom copiers (`0` for a null value), and the
address and the initial bytes of the inline value space in the block. -/
structure PairEnv (κ : Type) where
  block : Option ℕ
  kcopy : Option κ
  vcopy : ℕ
  space : ℕ
  fill : List UInt8

variable {κ : Type}

def copyKey (style : PairStyle κ) (env : PairEnv κ) (key : κ) : Option κ :=
  match style.kcop with
  | .simple => some key
  | .inline => some key
  | .custom => env.kcopy

/-- What `allocpair` puts into a block it has obtained: the contents, none if it
gives up, and the freeers it calls. For a custom value copier the C code tests
`VPTR(n) != QSE_NULL` and gives up when the copy has been made. -/
def fillPair (style : PairStyle κ) (env : PairEnv κ) (key : κ) (val : Buffer) :
    Option (PairData κ) × List (Callback κ) :=
  match copyKey style env key with
  | none => (none, [])
  | some k =>
    match style.vcop with
    | .simple => (some ⟨k, val.ptr, val.len, []⟩, [])
    | .inline =>
      (some ⟨k, env.space, val.len, if val.ptr ≠ 0 then val.bytes else env.fill⟩, [])
    | .custom =>
      if env.vcopy ≠ 0 then (none, if style.freeKey then [.freeKey k] else [])
      else (some ⟨k, 0, val.len, []⟩, [])

/-- The freeers called by `freepair`. -/
def freeCalls (style : PairStyle κ) (d : PairData κ) : List (Callback κ) :=
  (if style.freeKey then [.freeKey d.key] else []) ++
    (if style.freeVal then [.freeVal d.vptr d.vlen] else [])

inductive Change (κ : Type) where
  | keep
  | fail
  | set (d : PairData κ)
  | rebuild

def changeOf (style : PairStyle κ) (env : PairEnv κ) (d : PairData κ) (val : Buffer) : Change κ :=
  if d.vptr = val.ptr ∧ d.vlen = val.len then .keep
  else
    match style.vcop with
    | .simple => .set { d with vptr := val.ptr, vlen := val.len }
    | .inline =>
      if d.vlen = val.len then
        .set (if val.ptr ≠ 0 then { d with vbuf := val.bytes } else d)
      else .rebuild
    | .custom =>
      if env.vcopy = 0 then .fail
      else .set { d with vptr := env.vcopy, vlen := val.len }

def keepCalls (style : PairStyle κ) (val : Buffer) : List (Callback κ) :=
  if style.keeper then [.keep val.ptr val.len] else []

def replaceCalls (style : PairStyle κ) (d : PairData κ) : List (Callback κ) :=
  if style.freeVal then [.freeVal d.vptr d.vlen] else []

/-- The third argument of the internal `insert`. -/
inductive InsertOpt where
  | upsert
  | update
  | ensert
  | insert
deriving DecidableEq

/-- How a `cbserter` ends: with a null pointer, with the existing pair and
perhaps a new value, or with a new pair made by `allocpair` in a block, the
existing pair being freed. -/
inductive Cbserted (κ : Type) where
  | fail
  | keep (vptr vlen : ℕ) (vbuf : List UInt8)
  | make (block : Option ℕ) (d : PairData κ)

end Qse
