import Qse.Support.ByteMemory
import Qse.Support.MachineWord

/-!
# The `qse_xma_t` memory allocator

A translation of `lib/cmn/xma.c` for a 64-bit target (`qse_size_t` and
pointers of eight bytes, little endian). The zone is part of a byte memory, so
block headers, free-list links and user contents share the same bytes, as in
the C code. A block header is two words: `prev_size`, then a word that holds
the `free` bit in its lowest bit and the 63-bit `size` above it. A free block
keeps its list links in the first sixteen bytes of its contents.

Every access to the zone is recorded in the ghost field `touched`. Loops over
memory carry fuel; a loop that does not end yields `none`.
`QSE_ASSERT` leaves the heap as it is and is not modelled, and the statistics
of `QSE_XMA_ENABLE_STAT` are kept.
-/

namespace Qse

open ByteMemory MachineWord

/-- The counters kept under `QSE_XMA_ENABLE_STAT`. -/
structure Xma.Stat where
  total : ℕ
  alloc : ℕ
  avail : ℕ
  nused : ℕ
  nfree : ℕ
deriving DecidableEq

/-- `qse_xma_t` together with the memory its zone lies in. Address `0` is the
null pointer. `touched` is a ghost record of the byte ranges accessed. -/
structure Xma where
  mem : Mem
  start : ℕ
  end_ : ℕ
  xfree : ℕ → ℕ
  bdec : ℕ
  stat : Xma.Stat
  touched : List (ℕ × ℕ)

abbrev XmaM := StateT Xma Option

namespace Xma

/-! ## Constants

The macros of the C file; `XFIMAX` is the index of the last of the
`QSE_XMA_FIXED + QSE_XMA_SIZE_BITS + 1` chains. -/

def ALIGN : ℕ := 16

def MBLKHDRSIZE : ℕ := 16

def MINALLOCSIZE : ℕ := 16

def FBLKMINSIZE : ℕ := MBLKHDRSIZE + MINALLOCSIZE

def FIXED : ℕ := 32

def XFIMAX : ℕ := 95

/-! ## Memory access -/

def touch (x : Xma) (a n : ℕ) : Xma := { x with touched := (a, n) :: x.touched }

def putWord (x : Xma) (a v : ℕ) : Xma := { x.touch a 8 with mem := store x.mem a 8 v }

def loadWord (a : ℕ) : XmaM ℕ := do
  let x ← get
  modify fun x => x.touch a 8
  pure (load x.mem a 8)

def storeWord (a v : ℕ) : XmaM PUnit :=
  modify fun x => x.putWord a v

def getPrevSize (b : ℕ) : XmaM ℕ := loadWord b

def setPrevSize (b v : ℕ) : XmaM PUnit := storeWord b v

def getSize (b : ℕ) : XmaM ℕ := do
  let w ← loadWord (b + 8)
  pure (w / 2)

/-- `b->size = v`, which keeps the `free` bit and drops what does not fit. -/
def setSize (b v : ℕ) : XmaM PUnit := do
  let w ← loadWord (b + 8)
  storeWord (b + 8) (2 * (v % 2 ^ 63) + w % 2)

def getFree (b : ℕ) : XmaM Bool := do
  let w ← loadWord (b + 8)
  pure (decide (w % 2 = 1))

def setFree (b : ℕ) (f : Bool) : XmaM PUnit := do
  let w ← loadWord (b + 8)
  storeWord (b + 8) (w / 2 * 2 + f.toNat)

def getFreePrev (b : ℕ) : XmaM ℕ := loadWord (b + 16)

def setFreePrev (b v : ℕ) : XmaM PUnit := storeWord (b + 16) v

def getFreeNext (b : ℕ) : XmaM ℕ := loadWord (b + 24)

def setFreeNext (b v : ℕ) : XmaM PUnit := storeWord (b + 24) v

def getXfree (xfi : ℕ) : XmaM ℕ := do
  let x ← get
  pure (x.xfree xfi)

def putXfree (x : Xma) (xfi b : ℕ) : Xma :=
  { x with xfree := Function.update x.xfree xfi b }

def setXfree (xfi b : ℕ) : XmaM PUnit :=
  modify fun x => x.putXfree xfi b

def putStat (x : Xma) (f : Stat → Stat) : Xma := { x with stat := f x.stat }

def modifyStat (f : Stat → Stat) : XmaM PUnit :=
  modify fun x => x.putStat f

def nextMblk (b : ℕ) : XmaM ℕ := do
  let size ← getSize b
  pure (b + MBLKHDRSIZE + size)

def prevMblk (b : ℕ) : XmaM ℕ := do
  let prevSize ← getPrevSize b
  pure (wordSub b (wordAdd MBLKHDRSIZE prevSize))

/-- `(qse_uint8_t*)y < xma->end && y->free` -/
def nextIsFree (y : ℕ) : XmaM Bool := do
  let x ← get
  if y < x.end_ then getFree y else pure false

/-- `(qse_uint8_t*)y >= xma->start && y->free` -/
def prevIsFree (y : ℕ) : XmaM Bool := do
  let x ← get
  if x.start ≤ y then getFree y else pure false

/-- `if ((qse_uint8_t*)z < xma->end) z->prev_size = v;` -/
def setPrevSizeInside (z v : ℕ) : XmaM PUnit := do
  let x ← get
  if z < x.end_ then setPrevSize z v else pure ⟨⟩

def szlog2Step (k : ℕ) (s : ℕ × ℕ) : ℕ × ℕ :=
  if s.2 &&& highMask (64 - k) = 0 then (s.1 - k, s.2 <<< k % 2 ^ 64) else s

def szlog2 (n : ℕ) : ℕ :=
  let s := szlog2Step 2 (szlog2Step 4 (szlog2Step 8 (szlog2Step 16 (szlog2Step 32 (63, n)))))
  if s.2 &&& highMask 63 = 0 then s.1 - 1 else s.1

/-- `getxfi(xma, size)`, which reads only `xma->bdec`. -/
def getxfi (bdec size : ℕ) : ℕ :=
  let xfi := wordSub (size / ALIGN) 1
  let xfi := if FIXED ≤ xfi then wordAdd (wordSub (szlog2 size) bdec) FIXED else xfi
  if XFIMAX < xfi then XFIMAX else xfi

def alignToPow2 (num : ℕ) : ℕ := wordAdd num (ALIGN - 1) &&& highMask 4

/-- The rounding of a requested size at the head of `qse_xma_alloc` and
`_realloc_merge`. -/
def roundSize (size : ℕ) : ℕ :=
  alignToPow2 (if size < MINALLOCSIZE then MINALLOCSIZE else size)

/-! ## Free lists -/

def attachToFreelist (b : ℕ) : XmaM PUnit := do
  let x ← get
  let size ← getSize b
  let xfi := getxfi x.bdec size
  setFreePrev b 0
  let head ← getXfree xfi
  setFreeNext b head
  (if head ≠ 0 then setFreePrev head b else pure ⟨⟩)
  setXfree xfi b

def detachFromFreelist (b : ℕ) : XmaM PUnit := do
  let p ← getFreePrev b
  let n ← getFreeNext b
  (if p ≠ 0 then setFreeNext p n
    else do
      let x ← get
      let size ← getSize b
      setXfree (getxfi x.bdec size) n)
  (if n ≠ 0 then setFreePrev n p else pure ⟨⟩)

/-- The statements that make the leftover behind `blk` a free block of `v`
bytes. `alloc_from_freelist` and `_realloc_merge` repeat them in each place
that splits a block. -/
def fileLeftover (blk v : ℕ) : XmaM ℕ := do
  let y ← nextMblk blk
  setFree y true
  setSize y v
  let blkSize ← getSize blk
  setPrevSize y blkSize
  attachToFreelist y
  pure y

/-- `z = next_mblk(y); if ((qse_uint8_t*)z < xma->end) z->prev_size = y->size;` -/
def relinkNext (y : ℕ) : XmaM PUnit := do
  let z ← nextMblk y
  let ySize ← getSize y
  setPrevSizeInside z ySize

/-- `alloc_from_freelist` when the remaining `rem` bytes of `cand` form a block
of their own. -/
def splitCand (cand size rem : ℕ) : XmaM PUnit := do
  setSize cand size
  let y ← fileLeftover cand (wordSub rem MBLKHDRSIZE)
  relinkNext y
  modifyStat fun s => { s with avail := wordSub s.avail MBLKHDRSIZE }

/-- The body of the loop of `alloc_from_freelist` once the candidate `cand` is
large enough. -/
def takeFromFreelist (cand size : ℕ) : XmaM PUnit := do
  detachFromFreelist cand
  let candSize ← getSize cand
  let rem := wordSub candSize size
  (if FBLKMINSIZE ≤ rem then splitCand cand size rem
    else modifyStat fun s => { s with nfree := wordSub s.nfree 1 })
  setFree cand false
  let candSize ← getSize cand
  modifyStat fun s =>
    { s with
      nused := wordAdd s.nused 1
      alloc := wordAdd s.alloc candSize
      avail := wordSub s.avail candSize }

@[grind =] def searchFreelist (size : ℕ) : ℕ → ℕ → XmaM ℕ
  | 0, _ => fun _ => none
  | fuel + 1, cand =>
    if cand = 0 then pure 0
    else do
      let candSize ← getSize cand
      if size ≤ candSize then do
        takeFromFreelist cand size
        pure cand
      else do
        let next ← getFreeNext cand
        searchFreelist size fuel next

/-- `alloc_from_freelist(xma, xfi, size)`. A list has fewer cells than the
zone has bytes. -/
@[grind =] def allocFromFreelist (xfi size : ℕ) : XmaM ℕ := do
  let x ← get
  let cand ← getXfree xfi
  searchFreelist size (x.end_ - x.start + 1) cand

def allocFromChains (size : ℕ) : List ℕ → XmaM ℕ
  | [] => pure 0
  | xfi :: rest => do
    let cand ← allocFromFreelist xfi size
    if cand ≠ 0 then pure cand else allocFromChains size rest

/-! ## The operations -/

def takeHead (cand : ℕ) : XmaM PUnit := do
  detachFromFreelist cand
  setFree cand false
  let candSize ← getSize cand
  modifyStat fun s =>
    { s with
      nfree := wordSub s.nfree 1
      nused := wordAdd s.nused 1
      alloc := wordAdd s.alloc candSize
      avail := wordSub s.avail candSize }

/-- The candidate from the request's own chain or the huge chain, with the
chain index to continue from when there is none. -/
def allocNear (xfi size : ℕ) : XmaM (ℕ × ℕ) :=
  if FIXED ≤ xfi then do
    let cand ← allocFromFreelist xfi size
    if cand = 0 then do
      let cand ← allocFromFreelist XFIMAX size
      pure (cand, xfi)
    else pure (cand, xfi)
  else do
    let cand ← allocFromFreelist XFIMAX size
    pure (cand, if cand = 0 then FIXED - 1 else xfi)

/-- The indices visited by `for (++xfi; xfi < XFIMAX(xma) - 1; xfi++)`. -/
def chainsAfter (xfi : ℕ) : List ℕ := List.range' (xfi + 1) (XFIMAX - 1 - (xfi + 1))

def alloc (size : ℕ) : XmaM ℕ := do
  let size := roundSize size
  let x ← get
  let xfi := getxfi x.bdec size
  let head ← getXfree xfi
  if xfi < FIXED ∧ head ≠ 0 then do
    takeHead head
    pure (head + MBLKHDRSIZE)
  else if xfi = XFIMAX then do
    let cand ← allocFromFreelist XFIMAX size
    if cand = 0 then pure 0 else pure (cand + MBLKHDRSIZE)
  else do
    let (cand, xfi) ← allocNear xfi size
    if cand ≠ 0 then pure (cand + MBLKHDRSIZE)
    else do
      let cand ← allocFromChains size (chainsAfter xfi)
      if cand = 0 then pure 0 else pure (cand + MBLKHDRSIZE)

/-- `_realloc_merge` when the block grows: `req` more bytes are taken from the
next block `n`. -/
def growMerge (b blk n req : ℕ) : XmaM ℕ := do
  detachFromFreelist n
  let nSize ← getSize n
  let rem := wordSub (wordAdd MBLKHDRSIZE nSize) req
  if FBLKMINSIZE ≤ rem then do
    let blkSize ← getSize blk
    setSize blk (wordAdd blkSize req)
    let y ← fileLeftover blk (wordSub rem MBLKHDRSIZE)
    relinkNext y
    modifyStat fun s =>
      { s with alloc := wordAdd s.alloc req, avail := wordSub s.avail req }
    pure b
  else do
    let blkSize ← getSize blk
    setSize blk (wordAdd blkSize (wordAdd MBLKHDRSIZE nSize))
    relinkNext blk
    let nSize ← getSize n
    modifyStat fun s =>
      { s with
        nfree := wordSub s.nfree 1
        alloc := wordAdd s.alloc (wordAdd MBLKHDRSIZE nSize)
        avail := wordSub s.avail nSize }
    pure b

/-- `_realloc_merge` when the block shrinks and the leftover of `rem` bytes is
joined with the free next block `n`. -/
def shrinkJoin (b blk size n rem : ℕ) : XmaM ℕ := do
  detachFromFreelist n
  setSize blk size
  let nSize ← getSize n
  let y ← fileLeftover blk (wordAdd rem nSize)
  relinkNext y
  modifyStat fun s =>
    { s with alloc := wordSub s.alloc rem, avail := wordAdd s.avail rem }
  pure b

/-- `_realloc_merge` when the block shrinks and the leftover becomes a block of
its own. The write to `n->prev_size` is not guarded by a comparison of `n`
with the end of the zone. -/
def shrinkSplit (b blk size n rem : ℕ) : XmaM ℕ := do
  setSize blk size
  let y ← fileLeftover blk (wordSub rem MBLKHDRSIZE)
  let ySize ← getSize y
  setPrevSize n ySize
  let ySize ← getSize y
  modifyStat fun s =>
    { s with
      nfree := wordAdd s.nfree 1
      alloc := wordSub s.alloc rem
      avail := wordAdd s.avail ySize }
  pure b

def reallocMerge (b size : ℕ) : XmaM ℕ := do
  let blk := b - MBLKHDRSIZE
  let size := roundSize size
  let blkSize ← getSize blk
  if blkSize < size then do
    let req := wordSub size blkSize
    let n ← nextMblk blk
    let nFree ← nextIsFree n
    if nFree then do
      let nSize ← getSize n
      if nSize < req then pure 0 else growMerge b blk n req
    else pure 0
  else if size < blkSize then do
    let rem := wordSub blkSize size
    if FBLKMINSIZE ≤ rem then do
      let n ← nextMblk blk
      let nFree ← nextIsFree n
      if nFree then shrinkJoin b blk size n rem else shrinkSplit b blk size n rem
    else pure b
  else pure b

def memcpy (d s n : ℕ) : XmaM PUnit :=
  modify fun x => { (x.touch s n).touch d n with mem := copyForward x.mem d s n }

def memset (d n : ℕ) : XmaM PUnit :=
  modify fun x => { x.touch d n with mem := fill x.mem d n 0 }

def calloc (size : ℕ) : XmaM ℕ := do
  let ptr ← alloc size
  (if ptr ≠ 0 then memset ptr size else pure ⟨⟩)
  pure ptr

def freeJoinBoth (x y orgBlkSize : ℕ) : XmaM PUnit := do
  let ySize ← getSize y
  let ns := wordAdd (wordAdd MBLKHDRSIZE orgBlkSize) MBLKHDRSIZE
  let bs := wordAdd ns ySize
  detachFromFreelist x
  detachFromFreelist y
  let xSize ← getSize x
  setSize x (wordAdd xSize bs)
  attachToFreelist x
  relinkNext x
  modifyStat fun s =>
    { s with nfree := wordSub s.nfree 1, avail := wordAdd s.avail ns }

def freeJoinNext (blk y orgBlkSize : ℕ) : XmaM PUnit := do
  let z ← nextMblk y
  detachFromFreelist y
  setFree blk true
  let blkSize ← getSize blk
  let ySize ← getSize y
  setSize blk (wordAdd blkSize (wordAdd MBLKHDRSIZE ySize))
  let blkSize ← getSize blk
  setPrevSizeInside z blkSize
  attachToFreelist blk
  modifyStat fun s => { s with avail := wordAdd s.avail (wordAdd orgBlkSize MBLKHDRSIZE) }

def freeJoinPrev (x y orgBlkSize : ℕ) : XmaM PUnit := do
  detachFromFreelist x
  let xSize ← getSize x
  setSize x (wordAdd xSize (wordAdd MBLKHDRSIZE orgBlkSize))
  let xSize ← getSize x
  setPrevSizeInside y xSize
  attachToFreelist x
  modifyStat fun s => { s with avail := wordAdd s.avail (wordAdd MBLKHDRSIZE orgBlkSize) }

def freeAlone (blk orgBlkSize : ℕ) : XmaM PUnit := do
  setFree blk true
  attachToFreelist blk
  modifyStat fun s =>
    { s with nfree := wordAdd s.nfree 1, avail := wordAdd s.avail orgBlkSize }

/-- `qse_xma_free(xma, b)`. The two flags are read once each; the C code
reads them again in each condition. -/
def free (b : ℕ) : XmaM PUnit := do
  let blk := b - MBLKHDRSIZE
  let orgBlkSize ← getSize blk
  modifyStat fun s =>
    { s with nused := wordSub s.nused 1, alloc := wordSub s.alloc orgBlkSize }
  let x ← prevMblk blk
  let y ← nextMblk blk
  let xFree ← prevIsFree x
  let yFree ← nextIsFree y
  if xFree && yFree then freeJoinBoth x y orgBlkSize
  else if yFree then freeJoinNext blk y orgBlkSize
  else if xFree then freeJoinPrev x y orgBlkSize
  else freeAlone blk orgBlkSize

def realloc (b size : ℕ) : XmaM ℕ :=
  if b = 0 then alloc size
  else do
    let n ← reallocMerge b size
    if n = 0 then do
      let n ← alloc size
      (if n ≠ 0 then do
          memcpy n b size
          free b
        else pure ⟨⟩)
      pure n
    else pure n

def initZone (mem : Mem) (zoneptr zonesize : ℕ) : Option Xma :=
  let xma : Xma :=
    { mem
      start := zoneptr
      end_ := zoneptr + zonesize
      xfree := fun _ => 0
      bdec := szlog2 (FIXED * ALIGN)
      stat :=
        { total := zonesize
          alloc := 0
          avail := wordSub zonesize MBLKHDRSIZE
          nused := 0
          nfree := 1 }
      touched := [] }
  let setup : XmaM PUnit := do
    setPrevSize zoneptr 0
    setFree zoneptr true
    setSize zoneptr (wordSub zonesize MBLKHDRSIZE)
    setFreePrev zoneptr 0
    setFreeNext zoneptr 0
    let size ← getSize zoneptr
    setXfree (getxfi xma.bdec size) zoneptr
  (setup.run xma).map Prod.snd

/-- `qse_xma_init(xma, mmgr, zoneptr, zonesize)`. `mmgrAlloc` is the memory
manager's allocator, and `none` is the failure code. -/
def init (mmgrAlloc : ℕ → ℕ) (mem : Mem) (zoneptr zonesize : ℕ) : Option Xma :=
  if zoneptr = 0 then
    let zonesize := alignToPow2 zonesize
    let zonesize := if zonesize < FBLKMINSIZE then FBLKMINSIZE else zonesize
    let zoneptr := mmgrAlloc zonesize
    if zoneptr = 0 then none else initZone mem zoneptr zonesize
  else if zonesize < FBLKMINSIZE then none
  else initZone mem zoneptr zonesize

/-- The loop of `DBG_VERIFY` from the block `tmp` and the sums so far, and the
comparisons with the counters behind it. -/
def dbgVerifyFrom (x : Xma) : ℕ → ℕ → ℕ → ℕ → Bool
  | 0, _, _, _ => false
  | fuel + 1, tmp, fsum, asum =>
    if tmp < x.end_ then
      let size := load x.mem (tmp + 8) 8 / 2
      let next := tmp + MBLKHDRSIZE + size
      let free := decide (load x.mem (tmp + 8) 8 % 2 = 1)
      decide (tmp = x.start → load x.mem tmp 8 = 0) &&
        decide (next < x.end_ → load x.mem next 8 = size) &&
        dbgVerifyFrom x fuel next (if free then wordAdd fsum size else fsum)
          (if free then asum else wordAdd asum size)
    else
      let isum := wordAdd x.stat.nfree x.stat.nused * MBLKHDRSIZE % 2 ^ 64
      decide (asum = x.stat.alloc) && decide (fsum = x.stat.avail) &&
        decide (isum = wordSub x.stat.total (wordAdd x.stat.alloc x.stat.avail)) &&
        decide (wordAdd (wordAdd asum fsum) isum = x.stat.total)

/-- `DBG_VERIFY(xma, desc)`: no assertion fails. -/
def dbgVerify (x : Xma) : Bool :=
  dbgVerifyFrom x (x.end_ - x.start + 1) x.start 0 0

end Xma
end Qse
