import Qse.Pairs.Data
import Qse.Support.Returns
import Mathlib.Algebra.Group.Nat.Defs

/-!
# The `qse_arr_t` dynamic array

A translation of the sequence operations of `lib/cmn/arr.c`. A slot pointer is
either null or stands for the slot it leads to, so a slot is an `Option (Item ε)`;
slots are not changed once they are made and no two live indices share one.
Reading or writing behind the block of slots yields `none`.

What the memory manager, the sizer and a custom copier answer during one call is
taken from an `ArrEnv`. `QSE_ASSERT` leaves the array as it is and is not
modelled.
-/

namespace Qse

/-- An element: `val.ptr`, `val.len` and what a comparator reads there. -/
structure Item (ε : Type) where
  ptr : ℕ
  len : ℕ
  dat : ε
deriving DecidableEq

namespace Arr

inductive Call where
  | free (ptr len : ℕ)
  | keep (ptr len : ℕ)
deriving DecidableEq

end Arr

/-- `qse_arr_t`. `slot` is the block of slot pointers; the pointer to the block
is null exactly when `capa` is zero. `posField` is the memory at
`heap_pos_offset` in the elements, and `calls` a ghost record of the freeers and
keepers called. -/
structure Arr (ε : Type) where
  copier : Copier
  freeer : Bool
  keeper : Bool
  sizer : Bool
  comper : Item ε → Item ε → ℤ
  heapPosOffset : Option ℕ
  size : ℕ
  capa : ℕ
  slot : List (Option (Item ε))
  posField : ℕ → ℕ
  calls : List Arr.Call

abbrev ArrM (ε : Type) := StateT (Arr ε) Option

/-- What the surroundings answer during one call: whether a slot is granted, the
address of its inline space, the custom copy, the answer of the sizer, whether a
block for so many slots is granted, whether the memory manager can reallocate,
and the initial contents of a new block. -/
structure ArrEnv (ε : Type) where
  node : Bool
  space : ℕ
  copy : Option (ℕ × ε)
  sized : ℕ
  grant : ℕ → Bool
  realloc : Bool
  junk : ℕ → Option (Item ε)

namespace Arr

variable {ε : Type}

def arrNil : ℕ := 2 ^ 64 - 1

def load (i : ℕ) : ArrM ε (Option (Item ε)) := do
  let t ← get
  if i < t.slot.length then pure (t.slot.getD i none) else failure

def store (i : ℕ) (c : Option (Item ε)) : ArrM ε PUnit := do
  let t ← get
  if i < t.slot.length then set { t with slot := t.slot.set i c } else failure

def log (cs : List Call) : ArrM ε PUnit :=
  modify fun t => { t with calls := t.calls ++ cs }

def setSize (n : ℕ) : ArrM ε PUnit :=
  modify fun t => { t with size := n }

/-- `if (p) c;` -/
def onlyIf (p : Prop) [Decidable p] (c : ArrM ε PUnit) : ArrM ε PUnit :=
  if p then c else pure ⟨⟩

def allocSlot (t : Arr ε) (env : ArrEnv ε) (d : Item ε) : Option (Item ε) :=
  if env.node then
    match t.copier with
    | .simple => some d
    | .inline => some { d with ptr := env.space }
    | .custom => env.copy.map fun p => ⟨p.1, d.len, p.2⟩
  else none

/-- `if (arr->freeer) arr->freeer (...); QSE_MMGR_FREE (arr->mmgr, c);` -/
def freeSlot (c : Item ε) : ArrM ε PUnit := do
  let t ← get
  log (if t.freeer then [.free c.ptr c.len] else [])

def freeRange : ℕ → ℕ → ArrM ε PUnit
  | 0, _ => pure ⟨⟩
  | n + 1, i => do
    let c ← load i
    match c with
    | none => freeRange n (i + 1)
    | some c =>
      freeSlot c
      store i none
      freeRange n (i + 1)

/-- `arr->slot[i-count] = arr->slot[i];` for `n` slots from `i` on. -/
def shiftDown (count : ℕ) : ℕ → ℕ → ArrM ε PUnit
  | 0, _ => pure ⟨⟩
  | n + 1, i => do
    let c ← load i
    store (i - count) c
    shiftDown count n (i + 1)

/-- `if (count > arr->size - index) count = arr->size - index;` -/
def clamp (t : Arr ε) (index count : ℕ) : ℕ :=
  if t.size - index < count then t.size - index else count

def delete (index count : ℕ) : ArrM ε ℕ := do
  let t ← get
  if t.size ≤ index then pure 0
  else
    let count := t.clamp index count
    freeRange count index
    shiftDown count (t.size - (index + count)) (index + count)
    store (t.size - 1) none
    setSize (t.size - count)
    pure count

def uplete (index count : ℕ) : ArrM ε ℕ := do
  let t ← get
  if t.size ≤ index then pure 0
  else
    let count := t.clamp index count
    freeRange count index
    pure count

def clear : ArrM ε PUnit := do
  let t ← get
  freeRange t.size 0
  setSize 0

/-- The first `n` slots of a block for `capa` slots are copied from `old`. The
block has `QSE_SIZEOF(*arr->slot)*capa` bytes in wrapping arithmetic. -/
def newBlock (env : ArrEnv ε) (old : List (Option (Item ε))) (capa n : ℕ) :
    List (Option (Item ε)) :=
  (List.range (capa % 2 ^ 61)).map fun i => if i < n then old.getD i none else env.junk i

/-- `arr->slot = tmp; arr->capa = capa;` -/
def setBlock (slot : List (Option (Item ε))) (capa : ℕ) : ArrM ε PUnit :=
  modify fun t => { t with slot := slot, capa := capa }

def resize (env : ArrEnv ε) (capa : ℕ) : ArrM ε Bool := do
  let t ← get
  if 0 < capa then
    if env.grant capa then
      if env.realloc ∧ 0 < t.capa then
        setBlock (newBlock env t.slot capa t.slot.length) capa
        pure true
      else
        let x := if t.capa < capa then t.capa else capa
        if x ≤ capa % 2 ^ 61 then
          setBlock (newBlock env t.slot capa x) capa
          pure true
        else failure
    else pure false
  else
    onlyIf (0 < t.capa) clear
    setBlock [] 0
    pure true

/-- `qse_arr_delete (arr, capa, arr->size - capa);` if items are truncated. -/
def truncate (capa : ℕ) : ArrM ε PUnit := do
  let t ← get
  onlyIf (capa < t.size) do
    let _ ← delete capa (t.size - capa)

def setcapa (env : ArrEnv ε) (capa : ℕ) : ArrM ε Bool := do
  let t ← get
  if capa = t.capa then pure true
  else
    truncate capa
    resize env capa

/-- "get the minimum capacity needed" -/
def mincapa (t : Arr ε) (pos : ℕ) : ℕ :=
  if t.size ≤ pos then (pos + 1) % 2 ^ 64 else t.size + 1

/-- The capacity to ask for. The body of
`do { capa = arr->capa * 2; } while (capa <= bound);` computes the same value in
each round, so the loop ends after the first round or never; in the latter case
there is no result. -/
def wantedCapa (t : Arr ε) (env : ArrEnv ε) (pos : ℕ) : Option ℕ :=
  if t.sizer then some env.sized
  else if t.capa = 0 then some (if pos < 16 then 16 else (pos + 1) % 2 ^ 64)
  else
    let bound := if t.size ≤ pos then pos else t.size
    if t.capa * 2 ≤ bound then none else some (t.capa * 2)

/-- "let it retry after lowering the capacity" -/
def retry (env : ArrEnv ε) (mincapa : ℕ) : ℕ → ArrM ε Bool
  | 0 => setcapa env 0
  | capa + 1 => do
    let ok ← setcapa env (capa + 1)
    if ok then pure true
    else if capa + 1 ≤ mincapa then pure false
    else retry env mincapa capa

/-- `pos >= arr->capa || arr->size >= arr->capa` -/
def Full (t : Arr ε) (pos : ℕ) : Prop :=
  t.capa ≤ pos ∨ t.capa ≤ t.size

instance (t : Arr ε) (pos : ℕ) : Decidable (t.Full pos) := by
  unfold Full
  infer_instance

/-- "do resizing if necessary": `false` if no block was obtained. -/
def makeRoom (env : ArrEnv ε) (pos : ℕ) : ArrM ε Bool := do
  let t ← get
  if t.Full pos then
    match t.wantedCapa env pos with
    | none => failure
    | some capa => retry env (t.mincapa pos) capa
  else pure true

/-- `for (i = ...; i < pos; i++) arr->slot[i] = QSE_NULL;` for `n` slots. -/
def fillGap : ℕ → ℕ → ArrM ε PUnit
  | 0, _ => pure ⟨⟩
  | n + 1, i => do
    store i none
    fillGap n (i + 1)

/-- `for (i = pos + n; i > pos; i--) arr->slot[i] = arr->slot[i-1];` -/
def shiftUp (pos : ℕ) : ℕ → ArrM ε PUnit
  | 0 => pure ⟨⟩
  | n + 1 => do
    let c ← load (pos + n)
    store (pos + n + 1) c
    shiftUp pos n

/-- The end of `qse_arr_insert`, from filling in the gap on. -/
def linkSlot (pos : ℕ) (slot : Item ε) : ArrM ε ℕ := do
  let t ← get
  fillGap (pos - t.size) t.size
  shiftUp pos (t.size - pos)
  store pos (some slot)
  setSize (if t.size < pos then pos + 1 else t.size + 1)
  pure pos

def insert (env : ArrEnv ε) (pos : ℕ) (d : Item ε) : ArrM ε ℕ := do
  let t ← get
  match t.allocSlot env d with
  | none => pure arrNil
  | some slot =>
    let ok ← makeRoom env pos
    let t ← get
    if ok ∧ ¬t.Full pos then linkSlot pos slot
    else
      freeSlot slot
      pure arrNil

def update (env : ArrEnv ε) (pos : ℕ) (d : Item ε) : ArrM ε ℕ := do
  let t ← get
  if t.size ≤ pos then pure arrNil
  else
    let c ← load pos
    match c with
    | none =>
      store pos (t.allocSlot env d)
      if (t.allocSlot env d).isNone then pure arrNil else pure pos
    | some c =>
      if d.ptr = c.ptr ∧ d.len = c.len then
        log (if t.keeper then [.keep d.ptr d.len] else [])
        pure pos
      else
        match t.allocSlot env d with
        | none => pure arrNil
        | some slot =>
          freeSlot c
          store pos (some slot)
          pure pos

/-- `qse_arr_init`, with the capacity and the styles set afterwards. -/
def init (copier : Copier) (freeer keeper sizer : Bool) (comper : Item ε → Item ε → ℤ)
    (heapPosOffset : Option ℕ) (posField : ℕ → ℕ) : Arr ε where
  copier := copier
  freeer := freeer
  keeper := keeper
  sizer := sizer
  comper := comper
  heapPosOffset := heapPosOffset
  size := 0
  capa := 0
  slot := []
  posField := posField
  calls := []

end Arr

end Qse
