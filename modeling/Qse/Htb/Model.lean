import Qse.Pairs.Data
import Qse.Support.Chains
import Qse.Support.Returns

/-!
# The `qse_htb_t` hash table

A translation of `lib/cmn/htb.c`. The pairs are cells of a heap, chained by their
`next` pointers from the slots of the bucket. Reading or writing through a null
pointer, into a freed pair or behind the bucket yields `none`. A loop along a chain
carries fuel, which its callers take from the number of pairs.

`QSE_ASSERT` leaves the table as it is and is not modelled.
-/

namespace Qse

open ForwardChain (Cell)

namespace Htb

/-- `qse_htb_pair_t` -/
abbrev Pair (κ : Type) := Cell (PairData κ)

end Htb

/-- `qse_htb_t` with the heap its pairs live in. Of the style, the hasher and whether
there is a sizer are kept apart. `calls` is a ghost record of the freeers and keepers
called. -/
structure Htb (κ : Type) where
  style : PairStyle κ
  hasher : κ → ℕ
  sizer : Bool
  factor : ℕ
  size : ℕ
  capa : ℕ
  threshold : ℕ
  bucket : List (Option ℕ)
  mem : ℕ → Option (Htb.Pair κ)
  calls : List (Callback κ)

abbrev HtbM (κ : Type) := StateT (Htb κ) Option

/-- What the memory manager and the sizer answer when the bucket is to be made:
whether a block of so many bytes is handed out, which no object of `2 ^ 63` bytes or
more is, and the new capacity. -/
structure BucketEnv where
  grant : ℕ → Bool
  grant_lt : ∀ bytes, grant bytes = true → bytes < 2 ^ 63
  sized : ℕ

namespace Htb

variable {κ : Type}

def load (a : ℕ) : HtbM κ (Pair κ) := do
  let t ← get
  match t.mem a with
  | none => failure
  | some n => pure n

def put (t : Htb κ) (a : ℕ) (n : Pair κ) : Htb κ :=
  { t with mem := Function.update t.mem a (some n) }

def drop (t : Htb κ) (a : ℕ) : Htb κ :=
  { t with mem := Function.update t.mem a none }

/-- `NEXT(p) = next;` -/
def setNext (a : ℕ) (next : Option ℕ) : HtbM κ PUnit := do
  let n ← load a
  modify fun t => t.put a { n with next := next }

def setData (a : ℕ) (d : PairData κ) : HtbM κ PUnit := do
  let n ← load a
  modify fun t => t.put a { n with item := d }

/-- `htb->bucket[hc]` -/
def loadBucket (hc : ℕ) : HtbM κ (Option ℕ) := do
  let t ← get
  match t.bucket[hc]? with
  | none => failure
  | some p => pure p

/-- `htb->bucket[hc] = p;` -/
def setBucket (hc : ℕ) (p : Option ℕ) : HtbM κ PUnit := do
  let t ← get
  if hc < t.bucket.length then set { t with bucket := t.bucket.set hc p } else failure

def setSize (f : ℕ → ℕ) : HtbM κ PUnit :=
  modify fun t => { t with size := f t.size }

def log (cs : List (Callback κ)) : HtbM κ PUnit :=
  modify fun t => { t with calls := t.calls ++ cs }

/-- `QSE_MMGR_ALLOC`: the block `block`, unless it is in use. -/
def mmgrAlloc (t : Htb κ) (block : Option ℕ) : Option ℕ :=
  match block with
  | none => none
  | some a => if (t.mem a).isSome then none else some a

def allocpair (env : PairEnv κ) (key : κ) (val : Buffer) : HtbM κ (Option ℕ) := do
  let t ← get
  match t.mmgrAlloc env.block with
  | none => pure none
  | some a =>
    log (fillPair t.style env key val).2
    match (fillPair t.style env key val).1 with
    | none => pure none
    | some d =>
      modify fun t => t.put a ⟨d, none⟩
      pure (some a)

def freepair (a : ℕ) : HtbM κ PUnit := do
  let n ← load a
  let t ← get
  log (freeCalls t.style n.item)
  modify fun t => t.drop a

def changePairVal (env : PairEnv κ) (a : ℕ) (val : Buffer) : HtbM κ (Option ℕ) := do
  let n ← load a
  let t ← get
  match changeOf t.style env n.item val with
  | .keep =>
    log (keepCalls t.style val)
    pure (some a)
  | .fail => pure none
  | .set d =>
    setData a d
    log (replaceCalls t.style n.item)
    pure (some a)
  | .rebuild =>
    let p ← allocpair env n.item.key val
    match p with
    | none => pure none
    | some p =>
      freepair a
      pure (some p)

def newBucket (capa : ℕ) : List (Option ℕ) := List.replicate (capa * 8 % 2 ^ 64 / 8) none

/-- `capa * factor / 100` -/
def thresholdOf (capa factor : ℕ) : ℕ := capa * factor % 2 ^ 64 / 100

/-- `qse_htb_init` followed by `qse_htb_setstyle`. -/
def init (style : PairStyle κ) (hasher : κ → ℕ) (sizer : Bool) (env : BucketEnv) (capa : ℕ)
    (factor : ℕ) : Option (Htb κ) :=
  let capa := if capa = 0 then 1 else capa
  let factor := if 100 < factor then 100 else factor
  if env.grant (capa * 8 % 2 ^ 64) then
    some { style := style
           hasher := hasher
           sizer := sizer
           factor := factor
           size := 0
           capa := capa
           threshold := if thresholdOf capa factor = 0 then 1 else thresholdOf capa factor
           bucket := newBucket capa
           mem := fun _ => none
           calls := [] }
  else none

/-- `htb->style->hasher (htb,kptr,klen) % htb->capa` -/
def slotOf (t : Htb κ) (key : κ) : ℕ := t.hasher key % t.capa

/-- The inner loop of `reorganize`: the chain from `p` is moved to the slots of `buck`. -/
def moveChain (capa : ℕ) : ℕ → Option ℕ → List (Option ℕ) → HtbM κ (List (Option ℕ))
  | _, none, buck => pure buck
  | 0, some _, _ => failure
  | fuel + 1, some a, buck => do
    let n ← load a
    let t ← get
    let hc := t.hasher n.item.key % capa
    match buck[hc]? with
    | none => failure
    | some p =>
      setNext a p
      moveChain capa fuel n.next (buck.set hc (some a))

def moveChains (capa : ℕ) : ℕ → ℕ → List (Option ℕ) → HtbM κ (List (Option ℕ))
  | 0, _, buck => pure buck
  | n + 1, i, buck => do
    let t ← get
    let p ← loadBucket i
    let buck ← moveChain capa t.size p buck
    moveChains capa n (i + 1) buck

/-- The capacity that `reorganize` asks for. -/
def newCapa (t : Htb κ) (env : BucketEnv) : ℕ :=
  if t.sizer then env.sized
  else if 65536 ≤ t.capa then (t.capa + 65536) % 2 ^ 64 else t.capa * 2

/-- The part of `reorganize` that makes a bucket of `capa` slots. -/
def rebuild (env : BucketEnv) (capa : ℕ) : HtbM κ Bool := do
  let t ← get
  if env.grant (capa * 8 % 2 ^ 64) then
    let buck ← moveChains capa t.capa 0 (newBucket capa)
    modify fun t => { t with bucket := buck, capa := capa, threshold := thresholdOf capa t.factor }
    pure true
  else
    modify fun t => { t with threshold := 0 }
    pure false

def reorganize (env : BucketEnv) : HtbM κ Bool := do
  let t ← get
  if t.sizer ∧ t.newCapa env = t.capa then pure true
  else rebuild env (if t.newCapa env = 0 then 1 else t.newCapa env)

/-- The reorganization before a new pair is linked, and the slot of its key. -/
def grow (env : BucketEnv) (key : κ) (hc : ℕ) : HtbM κ ℕ := do
  let t ← get
  if 0 < t.threshold ∧ t.threshold ≤ t.size then
    let ok ← reorganize env
    let t ← get
    pure (if ok then t.slotOf key else hc)
  else pure hc

/-- The loop of `qse_htb_search`, `insert`, `qse_htb_cbsert` and `qse_htb_delete`: the
pair with the key and the one before it. -/
def findFrom (key : κ) : ℕ → Option ℕ → Option ℕ → HtbM κ (Option ℕ × Option ℕ)
  | _, prev, none => pure (prev, none)
  | 0, _, some _ => failure
  | fuel + 1, prev, some a => do
    let n ← load a
    let t ← get
    if t.style.comper n.item.key key = 0 then pure (prev, some a)
    else findFrom key fuel (some a) n.next

def find (key : κ) : HtbM κ (Option ℕ × Option ℕ) := do
  let t ← get
  let p ← loadBucket (t.slotOf key)
  findFrom key t.size none p

def search (key : κ) : HtbM κ (Option ℕ) := do
  let (_, pair) ← find key
  pure pair

/-- `if (prev == QSE_NULL) htb->bucket[hc] = p; else NEXT(prev) = p;` -/
def relink (hc : ℕ) (prev p : Option ℕ) : HtbM κ PUnit :=
  match prev with
  | none => setBucket hc p
  | some b => setNext b p

def replaceBy (hc : ℕ) (prev : Option ℕ) (pair : ℕ) (next p : Option ℕ) : HtbM κ (Option ℕ) :=
  match p with
  | none => pure none
  | some b =>
    if b = pair then pure (some b)
    else do
      relink hc prev (some b)
      setNext b next
      pure (some b)

def linkNew (hc : ℕ) (pair : Option ℕ) : HtbM κ (Option ℕ) :=
  match pair with
  | none => pure none
  | some a => do
    let p ← loadBucket hc
    setNext a p
    setBucket hc (some a)
    setSize (· + 1)
    pure (some a)

def insertFound (env : PairEnv κ) (val : Buffer) (opt : InsertOpt) (hc : ℕ) (prev : Option ℕ)
    (a : ℕ) : HtbM κ (Option ℕ) := do
  let n ← load a
  match opt with
  | .ensert => pure (some a)
  | .insert => pure none
  | _ =>
    let p ← changePairVal env a val
    replaceBy hc prev a n.next p

def insert (env : PairEnv κ) (benv : BucketEnv) (key : κ) (val : Buffer) (opt : InsertOpt) :
    HtbM κ (Option ℕ) := do
  let t ← get
  let (prev, pair) ← find key
  match pair with
  | some a => insertFound env val opt (t.slotOf key) prev a
  | none =>
    if opt = .update then pure none
    else
      let hc ← grow benv key (t.slotOf key)
      let pair ← allocpair env key val
      linkNew hc pair

def callCbserter (out : Cbserted κ) (pair : Option ℕ) : HtbM κ (Option ℕ) := do
  match out with
  | .fail => pure none
  | .keep vptr vlen vbuf =>
    match pair with
    | none => pure none
    | some a =>
      let n ← load a
      setData a { n.item with vptr := vptr, vlen := vlen, vbuf := vbuf }
      pure (some a)
  | .make block d =>
    let t ← get
    match t.mmgrAlloc block with
    | none => pure none
    | some b =>
      modify fun t => t.put b ⟨d, none⟩
      match pair with
      | none => pure (some b)
      | some a =>
        freepair a
        pure (some b)

def cbsert (out : Cbserted κ) (benv : BucketEnv) (key : κ) : HtbM κ (Option ℕ) := do
  let t ← get
  let (prev, pair) ← find key
  match pair with
  | some a =>
    let n ← load a
    let p ← callCbserter out (some a)
    replaceBy (t.slotOf key) prev a n.next p
  | none =>
    let hc ← grow benv key (t.slotOf key)
    let pair ← callCbserter out none
    linkNew hc pair

/-- `true` for success. -/
def delete (key : κ) : HtbM κ Bool := do
  let t ← get
  let (prev, pair) ← find key
  match pair with
  | none => pure false
  | some a =>
    let n ← load a
    relink (t.slotOf key) prev n.next
    freepair a
    setSize (· - 1)
    pure true

/-- The inner loop of `qse_htb_clear`. -/
def clearChain : ℕ → Option ℕ → HtbM κ PUnit
  | _, none => pure ⟨⟩
  | 0, some _ => failure
  | fuel + 1, some a => do
    let n ← load a
    freepair a
    setSize (· - 1)
    clearChain fuel n.next

/-- The outer loop of `qse_htb_clear`, for `n` slots from `i` on. -/
def clearChains : ℕ → ℕ → HtbM κ PUnit
  | 0, _ => pure ⟨⟩
  | n + 1, i => do
    let t ← get
    let p ← loadBucket i
    clearChain t.size p
    setBucket i none
    clearChains n (i + 1)

def clear : HtbM κ PUnit := do
  let t ← get
  clearChains t.capa 0

end Htb

end Qse
