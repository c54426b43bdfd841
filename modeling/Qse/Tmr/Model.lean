import Qse.Support.Returns
import Mathlib.Logic.Function.Basic
import Mathlib.Algebra.Group.Nat.Defs
import Mathlib.Algebra.Group.Int.Defs

/-!
# The `qse_tmr_t` timer

A translation of `lib/cmn/tmr.c`. The block of events is a list; reading or writing
behind it yields `none`, and so does a subtraction of times that overflows.

Two ghosts are added. An event carries the number of its insertion, `id`, which
stands for its owner and stays with it when it is updated. The list `news` holds
what the owners have been told: the calls of the updaters, and the indices that
`qse_tmr_insert` and `qse_tmr_update` return.
-/

namespace Qse

/-- `qse_ntime_t` -/
structure NTime where
  sec : Int64
  nsec : Int32
deriving DecidableEq

/-- `x - y` in signed integers of so many bits; an overflow is undefined. -/
def subSigned (bits : ℕ) (x y : ℤ) : Option ℤ :=
  if -2 ^ (bits - 1) ≤ x - y ∧ x - y < 2 ^ (bits - 1) then some (x - y) else none

def cmpNtime (x y : NTime) : Option ℤ :=
  if x.sec = y.sec then subSigned 32 x.nsec.toInt y.nsec.toInt
  else subSigned 64 x.sec.toInt y.sec.toInt

namespace Tmr

/-- `qse_tmr_event_t` -/
structure Event where
  ctx : ℕ
  ctx2 : ℕ
  ctx3 : ℕ
  when : NTime
  handler : ℕ
  updater : ℕ
deriving DecidableEq

structure Entry where
  id : ℕ
  event : Event
deriving DecidableEq

inductive News where
  | report (e : Entry) (old new : ℕ)
  | answer (id index : ℕ)

def invalidIndex : ℕ := 2 ^ 64 - 1

end Tmr

/-- `qse_tmr_t`, and the ghosts: the number of the next insertion and the news. -/
structure Tmr where
  capa : ℕ
  size : ℕ
  event : List Tmr.Entry
  next : ℕ
  news : List Tmr.News

abbrev TmrM := StateT Tmr Option

/-- What the memory manager answers during one call: whether it hands out a block of
so many bytes, which no object of `2 ^ 63` bytes or more is, and what lies in a new
block. -/
structure TmrEnv where
  grant : ℕ → Bool
  grant_lt : ∀ bytes, grant bytes = true → bytes < 2 ^ 63
  junk : ℕ → Tmr.Entry

namespace Tmr

def load (index : ℕ) : TmrM Entry := do
  let t ← get
  match t.event[index]? with
  | none => failure
  | some e => pure e

def store (index : ℕ) (e : Entry) : TmrM PUnit := do
  let t ← get
  if index < t.event.length then set { t with event := t.event.set index e } else failure

def setSize (n : ℕ) : TmrM PUnit :=
  modify fun t => { t with size := n }

/-- `event.updater (tmr, old, new, &event)` -/
def callUpdater (e : Entry) (old new : ℕ) : TmrM PUnit :=
  modify fun t => { t with news := t.news ++ [.report e old new] }

def cmpTimes (x y : NTime) : TmrM ℤ :=
  match cmpNtime x y with
  | none => failure
  | some d => pure d

/-- `YOUNGER_THAN(x,y)` -/
def youngerThan (x y : Event) : TmrM Bool := do
  let d ← cmpTimes x.when y.when
  pure (decide (d < 0))

/-- `QSE_SIZEOF(qse_tmr_event_t)` -/
def sizeofEvent : ℕ := 56

/-- `capa * QSE_SIZEOF(*tmp)` -/
def blockBytes (capa : ℕ) : ℕ := capa * sizeofEvent % 2 ^ 64

def newBlock (env : TmrEnv) (old : List Entry) (capa : ℕ) : List Entry :=
  (List.range (blockBytes capa / sizeofEvent)).map fun i => (old[i]?).getD (env.junk i)

def init (env : TmrEnv) (capa : ℕ) : Option Tmr :=
  let capa := if capa = 0 then 1 else capa
  if env.grant (blockBytes capa) then some ⟨capa, 0, newBlock env [] capa, 0, []⟩ else none

/-- `HEAP_PARENT(x)` -/
def heapParent (x : ℕ) : ℕ := (x - 1) / 2

/-- `HEAP_LEFT(x)` -/
def heapLeft (x : ℕ) : ℕ := x * 2 + 1

/-- `HEAP_RIGHT(x)` -/
def heapRight (x : ℕ) : ℕ := x * 2 + 2

/-- `tmr->event[index] = item;` and the updater if a notification is due. -/
def settle (item : Entry) (oldIndex : ℕ) (notify : Bool) (index : ℕ) : TmrM ℕ := do
  store index item
  if notify ∧ index ≠ oldIndex then
    callUpdater item oldIndex index
    pure index
  else pure index

def siftUpLoop (item : Entry) : ℕ → ℕ → TmrM ℕ
  | 0, _ => failure
  | fuel + 1, index => do
    let e ← load (heapParent index)
    store index e
    callUpdater e (heapParent index) index
    if 0 < heapParent index then
      let above ← load (heapParent (heapParent index))
      let younger ← youngerThan item.event above.event
      if younger then siftUpLoop item fuel (heapParent index)
      else pure (heapParent index)
    else pure (heapParent index)

def siftUp (index : ℕ) (notify : Bool) : TmrM ℕ := do
  if 0 < index then
    let item ← load index
    let above ← load (heapParent index)
    let younger ← youngerThan item.event above.event
    if younger then
      let hole ← siftUpLoop item index index
      settle item index notify hole
    else pure index
  else pure index

/-- The child that `sift_down` looks at. -/
def siftChild (index : ℕ) : TmrM ℕ := do
  let t ← get
  if heapRight index < t.size then
    let r ← load (heapRight index)
    let l ← load (heapLeft index)
    let younger ← youngerThan r.event l.event
    pure (if younger then heapRight index else heapLeft index)
  else pure (heapLeft index)

def siftDownLoop (item : Entry) (base : ℕ) : ℕ → ℕ → TmrM ℕ
  | 0, _ => failure
  | fuel + 1, index => do
    let child ← siftChild index
    let e ← load child
    let younger ← youngerThan item.event e.event
    if younger then pure index
    else
      store index e
      callUpdater e child index
      if child < base then siftDownLoop item base fuel child else pure child

def siftDown (index : ℕ) (notify : Bool) : TmrM ℕ := do
  let t ← get
  if index < t.size / 2 then
    let item ← load index
    let hole ← siftDownLoop item (t.size / 2) t.size index
    settle item index notify hole
  else pure index

/-- `YOUNGER_THAN(...)? sift_up(...): sift_down(...)` -/
def sift (younger : Bool) (index : ℕ) (notify : Bool) : TmrM ℕ :=
  if younger then siftUp index notify else siftDown index notify

/-- The last event is moved to `index` and sifted from there. -/
def refill (index : ℕ) (item : Entry) : TmrM PUnit := do
  let t ← get
  let last ← load t.size
  store index last
  callUpdater last t.size index
  let younger ← youngerThan last.event item.event
  let _ ← sift younger index true
  pure ⟨⟩

def delete (index : ℕ) : TmrM PUnit := do
  let item ← load index
  callUpdater item index invalidIndex
  let t ← get
  setSize (t.size - 1)
  if 0 < t.size - 1 ∧ index ≠ t.size - 1 then refill index item else pure ⟨⟩

/-- `false` if the block is full and no larger one is handed out. -/
def makeRoom (env : TmrEnv) : TmrM Bool := do
  let t ← get
  if t.capa ≤ t.size then
    let newCapa := t.capa * 2 % 2 ^ 64
    if env.grant (blockBytes newCapa) then
      set { t with event := newBlock env t.event newCapa, capa := newCapa }
      pure true
    else pure false
  else pure true

def insert (env : TmrEnv) (event : Event) : TmrM ℕ := do
  let t ← get
  let ok ← makeRoom env
  if ok then
    setSize (t.size + 1)
    store t.size ⟨t.next, event⟩
    modify fun t => { t with next := t.next + 1 }
    siftUp t.size false
  else pure invalidIndex

def update (index : ℕ) (event : Event) : TmrM ℕ := do
  let item ← load index
  store index ⟨item.id, event⟩
  let younger ← youngerThan event item.event
  sift younger index false

/-- A round of the loop of `qse_tmr_fire` before the handler is called: the event to
fire, if there is one that is due. -/
def expire (now : NTime) : TmrM (Option Entry) := do
  let t ← get
  if 0 < t.size then
    let top ← load 0
    let d ← cmpTimes top.event.when now
    if 0 < d then pure none
    else
      let event ← load 0
      delete 0
      pure (some event)
  else pure none

def fireLoop (handler : NTime → Entry → TmrM PUnit) (now : NTime) : ℕ → ℕ → TmrM ℕ
  | 0, _ => failure
  | fuel + 1, fireCount => do
    let due ← expire now
    match due with
    | none => pure fireCount
    | some event =>
      handler now event
      fireLoop handler now fuel (fireCount + 1)

/-- `qse_tmr_fire` at the time `now`; it returns the number of events fired. -/
def fire (handler : NTime → Entry → TmrM PUnit) (now : NTime) (fuel : ℕ) : TmrM ℕ :=
  fireLoop handler now fuel 0

end Tmr

end Qse
