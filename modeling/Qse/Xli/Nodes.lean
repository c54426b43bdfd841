import Qse.Xli.Model

/-!
# Nodes of a tree

A translation of the functions in `lib/xli/xli.c` that insert, replace and delete the atoms of a
tree, over a memory of atoms, lists and segments of strings. Arguments that are `QSE_NULL` are
`none`.
-/

namespace Qse.Xli

abbrev Addr := ℕ

/-- `qse_xli_val_t*`. The values `xnil`, `xtrue` and `xfalse` of the root are not freed. -/
inductive ValPtr where
  | nil
  | true
  | false
  | str (s : Addr)
  | list (l : Addr)
deriving DecidableEq

inductive Body where
  | pair (key : WString) (ali tag : Option WString) (val : ValPtr)
  | text (ptr : WString)
  | file (path : WString)
  | eof
deriving DecidableEq

/-- `qse_xli_atom_t` -/
structure Node where
  prev : Option Addr
  next : Option Addr
  super : Option Addr
  body : Body
deriving DecidableEq

/-- `qse_xli_list_t` -/
structure ListRec where
  head : Option Addr
  tail : Option Addr
deriving DecidableEq

inductive Cell where
  | atom (node : Node)
  | list (list : ListRec)
  /-- `qse_xli_str_t` -/
  | str (str : Str) (next : Option Addr)
deriving DecidableEq

structure Heap where
  mem : Addr → Option Cell
  calls : ℕ

/-- The memory manager, which may refuse any call. Where it has room, it gives an address that
is not in use. -/
structure Mmgr where
  grant : ℕ → Bool
  place : ℕ → (Addr → Bool) → Addr
  unused : ∀ calls (used : Addr → Bool), (∃ a, used a = false) → used (place calls used) = false

inductive Crash where
  /-- there is no such node at an address -/
  | wild
  /-- a null pointer is read from -/
  | null
  /-- an assertion does not hold -/
  | assert
  /-- the steps given to a loop are used up -/
  | loop
deriving DecidableEq

/-- `qse_xli_errnum_t`, as far as the functions here set it, with the text it is about -/
inductive TreeErr where
  | enomem
  | einval
  | enoent (ki : List ℕ)
  | eudkey (fqpn : WString)
  | eilval (fqpn : WString)
deriving DecidableEq

@[simp] theorem crash_bind {α β : Type} (a : α) (f : α → Except Crash β) :
    (Except.ok a >>= f) = f a := rfl

/-- `&xli->root->list` -/
def root : Addr := 0

def ListRec.empty : ListRec := ⟨none, none⟩

def Heap.open : Heap where
  mem a := if a = root then some (.list .empty) else none
  calls := 0

namespace Heap

variable (h : Heap)

def put (a : Addr) (cell : Cell) : Heap := { h with mem := Function.update h.mem a (some cell) }

def free (a : Addr) : Heap := { h with mem := Function.update h.mem a none }

def used (a : Addr) : Bool := (h.mem a).isSome

def called : Heap := { h with calls := h.calls + 1 }

def getNode (a : Addr) : Except Crash Node :=
  match h.mem a with
  | some (.atom node) => .ok node
  | _ => .error .wild

def getList (l : Addr) : Except Crash ListRec :=
  match h.mem l with
  | some (.list list) => .ok list
  | _ => .error .wild

def getStr (s : Addr) : Except Crash (Str × Option Addr) :=
  match h.mem s with
  | some (.str str next) => .ok (str, next)
  | _ => .error .wild

def modNode (a : Addr) (f : Node → Node) : Except Crash Heap := do
  let node ← h.getNode a
  .ok (h.put a (.atom (f node)))

def modList (l : Addr) (f : ListRec → ListRec) : Except Crash Heap := do
  let list ← h.getList l
  .ok (h.put l (.list (f list)))

/-- `qse_xli_callocmem` for a node -/
def callocmem (mm : Mmgr) (cell : Cell) : Heap × Option Addr :=
  if mm.grant h.calls then
    (h.called.put (mm.place h.calls h.used) cell, some (mm.place h.calls h.used))
  else (h.called, none)

def insertAtom (parent peer : Option Addr) (atom : Addr) : Except Crash Heap := do
  let parent := parent.getD root
  let list ← h.getList parent
  let h ← match peer with
    | none => do
      let h ← h.modNode atom fun node => { node with prev := list.tail }
      let h ← match list.tail with
        | none => .ok h
        | some tail => h.modNode tail fun node => { node with next := some atom }
      let h ← h.modList parent fun list => { list with tail := some atom }
      h.modList parent fun list => { list with head := list.head.or (some atom) }
    | some peer => do
      if list.head = none ∨ list.tail = none then .error .assert else
      let p ← h.getNode peer
      let h ← h.modNode atom fun node => { node with prev := p.prev }
      let (h, peer) ← match p.prev with
        | some prev => do
          let h ← h.modNode prev fun node => { node with next := some atom }
          .ok (h, peer)
        | none => do
          -- the assertion gives `peer` the head, which it is in a list that is in order
          let peer ← match list.head with
            | some head => .ok head
            | none => .error .assert
          let h ← h.modList parent fun list => { list with head := some atom }
          .ok (h, peer)
      let h ← h.modNode atom fun node => { node with next := some peer }
      h.modNode peer fun node => { node with prev := some atom }
  h.modNode atom fun node => { node with super := some parent }

def insertNew (mm : Mmgr) (parent peer : Option Addr) (body : Body) :
    Except Crash (Heap × Except TreeErr Addr) :=
  match h.callocmem mm (.atom ⟨none, none, none, body⟩) with
  | (h, none) => .ok (h, .error .enomem)
  | (h, some atom) => do
    let h ← h.insertAtom parent peer atom
    .ok (h, .ok atom)

def insertpair (mm : Mmgr) (parent peer : Option Addr) (key : WString) (ali tag : Option WString)
    (value : ValPtr) : Except Crash (Heap × Except TreeErr Addr) :=
  h.insertNew mm parent peer (.pair key ali tag value)

def inserttext (mm : Mmgr) (parent peer : Option Addr) (str : WString) :
    Except Crash (Heap × Except TreeErr Addr) :=
  h.insertNew mm parent peer (.text str)

def insertfile (mm : Mmgr) (parent peer : Option Addr) (path : WString) :
    Except Crash (Heap × Except TreeErr Addr) :=
  h.insertNew mm parent peer (.file path)

def inserteof (mm : Mmgr) (parent peer : Option Addr) : Except Crash (Heap × Except TreeErr Addr) :=
  h.insertNew mm parent peer .eof

def makelistval (mm : Mmgr) : Heap × Option Addr := h.callocmem mm (.list .empty)

def makestrval (mm : Mmgr) (value : List ℕ) (strtag : Option WString) : Heap × Option Addr :=
  h.callocmem mm (.str ⟨value, strtag, false⟩ none)

def addsegtostr (mm : Mmgr) (str : Addr) (tag : Option WString) (value : List ℕ) :
    Except Crash (Heap × Option Addr) := do
  let (text, next) ← h.getStr str
  match h.callocmem mm (.str ⟨value, tag, false⟩ next) with
  | (h, none) => .ok (h, none)
  | (h, some val) => .ok (h.put str (.str text (some val)), some val)

def freeSegs : ℕ → Heap → Option Addr → Except Crash Heap
  | _, h, none => .ok h
  | 0, _, some _ => .error .loop
  | n + 1, h, some cur => do
    let (_, next) ← h.getStr cur
    freeSegs n (h.free cur) next

mutual

def freeVal : ℕ → Heap → ValPtr → Except Crash Heap
  | 0, _, _ => .error .loop
  | _ + 1, h, .nil => .ok h
  | _ + 1, h, .true => .ok h
  | _ + 1, h, .false => .ok h
  | n + 1, h, .list l => do
    let h ← freeList n h l
    .ok (h.free l)
  | n + 1, h, .str s => do
    let (_, next) ← h.getStr s
    let h ← freeSegs n h next
    .ok (h.free s)

def freeAtom : ℕ → Heap → Addr → Except Crash Heap
  | 0, _, _ => .error .loop
  | n + 1, h, atom => do
    let node ← h.getNode atom
    let h ← match node.body with
      | .pair _ _ _ val => freeVal n h val
      | _ => .ok h
    .ok (h.free atom)

def freeList : ℕ → Heap → Addr → Except Crash Heap
  | 0, _, _ => .error .loop
  | n + 1, h, l => do
    let list ← h.getList l
    let h ← freeAtoms n h list.head
    h.modList l fun _ => .empty

/-- The loop of `free_list` -/
def freeAtoms : ℕ → Heap → Option Addr → Except Crash Heap
  | _, h, none => .ok h
  | 0, _, some _ => .error .loop
  | n + 1, h, some p => do
    let node ← h.getNode p
    let h ← freeAtom n h p
    freeAtoms n h node.next

end

/-- The links around an atom are joined, as `qse_xli_deletepair` does. -/
def unlink (atom : Addr) : Except Crash Heap := do
  let node ← h.getNode atom
  let some super := node.super | .error .null
  let list ← h.getList super
  let h ← match node.prev with
    | some prev => h.modNode prev fun prev => { prev with next := node.next }
    | none =>
      if list.head ≠ some atom then .error .assert
      else h.modList super fun list => { list with head := node.next }
  match node.next with
  | some next => h.modNode next fun next => { next with prev := node.prev }
  | none =>
    if list.tail ≠ some atom then .error .assert
    else h.modList super fun list => { list with tail := node.prev }

def deletepair (n : ℕ) (pair : Addr) : Except Crash Heap := do
  let h ← h.unlink pair
  let node ← h.getNode pair
  let h ← match node.body with
    | .pair _ _ _ val => freeVal n h val
    | _ => .error .wild
  .ok (h.free pair)

def insertpairwithemptylist (mm : Mmgr) (parent peer : Option Addr) (key : WString)
    (ali tag : Option WString) : Except Crash (Heap × Except TreeErr Addr) :=
  match h.makelistval mm with
  | (h, none) => .ok (h, .error .enomem)
  | (h, some val) => do
    let (h, tmp) ← h.insertpair mm parent peer key ali tag (.list val)
    match tmp with
    | .error e => .ok (h.free val, .error e)
    | .ok tmp => .ok (h, .ok tmp)

def insertpairwithstr (mm : Mmgr) (parent peer : Option Addr) (key : WString)
    (ali tag : Option WString) (value : List ℕ) (strtag : Option WString) :
    Except Crash (Heap × Except TreeErr Addr) :=
  match h.makestrval mm value strtag with
  | (h, none) => .ok (h, .error .enomem)
  | (h, some val) => do
    let (h, tmp) ← h.insertpair mm parent peer key ali tag (.str val)
    match tmp with
    | .error e => .ok (h.free val, .error e)
    | .ok tmp => .ok (h, .ok tmp)

/-- The loop of `qse_xli_insertpairwithstrs` over the other segments -/
def addSegs (mm : Mmgr) : Heap → Addr → List (List ℕ) → Except Crash (Heap × Bool)
  | h, _, [] => .ok (h, true)
  | h, str, value :: values => do
    let (h, str) ← h.addsegtostr mm str none value
    match str with
    | none => .ok (h, false)
    | some str => addSegs mm h str values

def insertpairwithstrs (mm : Mmgr) (n : ℕ) (parent peer : Option Addr) (key : WString)
    (ali tag : Option WString) : List (List ℕ) → Except Crash (Heap × Except TreeErr Addr)
  | [] => .ok (h, .error .einval)
  | value :: values => do
    let (h, tmp) ← h.insertpairwithstr mm parent peer key ali tag value none
    match tmp with
    | .error e => .ok (h, .error e)
    | .ok tmp => do
      let node ← h.getNode tmp
      let .pair _ _ _ (.str str) := node.body | .error .wild
      let (h, done) ← addSegs mm h str values
      if done then .ok (h, .ok tmp)
      else do
        let h ← freeAtom n h tmp
        .ok (h, .error .enomem)

end Heap

inductive SegIdx where
  | none
  | number (index : ℕ)
  | ali (ali : List ℕ)

/-- `fqpn_seg_t` -/
structure FqpnSeg where
  key : List ℕ
  idx : SegIdx
  ki : List ℕ

/-- The numeric index, which is a `qse_size_t` -/
def segIndex (digits : List ℕ) : ℕ :=
  digits.foldl (fun index c => (index * 10 + (c - wt '0')) % 2 ^ 64) 0

section Find

variable (opt : Opt) (ctype : Ctype) (splitter : ℕ)

/-- `get_next_fqpn_segment`, and what is behind the segment -/
def getNextFqpnSegment (fqpn : List ℕ) : Option (FqpnSeg × List ℕ) :=
  let inKey (c : ℕ) : Bool := c ≠ splitter && c ≠ wt '[' && c ≠ wt '{'
  let ends (ptr : List ℕ) : Bool := ptr.isEmpty || ptr.head? = some splitter
  let key := fqpn.takeWhile inKey
  if key.isEmpty then none
  else
    match fqpn.dropWhile inKey with
    | [] => some (⟨key, .none, key⟩, [])
    | c :: ptr =>
      if c = wt '[' then
        let digits := ptr.takeWhile ctype.isDigit
        match ptr.dropWhile ctype.isDigit with
        | [] => none
        | d :: ptr =>
          if !digits.isEmpty && d = wt ']' && ends ptr then
            some (⟨key, .number (segIndex digits), fqpn.take (key.length + digits.length + 2)⟩, ptr)
          else none
      else if c = wt '{' then
        let ali := ptr.takeWhile (· ≠ wt '}')
        match ptr.dropWhile (· ≠ wt '}') with
        | [] => none
        | _ :: ptr =>
          if !ali.isEmpty && ends ptr then
            some (⟨key, .ali ali, fqpn.take (key.length + ali.length + 2)⟩, ptr)
          else none
      else some (⟨key, .none, key⟩, c :: ptr)

/-- `xli->opt.strxcmp` returns zero. -/
def Opt.samex (s : List ℕ) (t : WString) : Bool :=
  if opt.trait.caseInsensitive then s.map ctype.toUpper == t.chars.map ctype.toUpper
  else s == t.chars

namespace Heap

variable (h : Heap)

/-- The loop of `find_pair_by_key_and_alias` -/
def findPairByKeyAndAlias (key : List ℕ) (ali : Option (List ℕ)) :
    ℕ → Option Addr → Except Crash (Option Addr)
  | _, none => .ok none
  | 0, some _ => .error .loop
  | n + 1, some p => do
    let node ← h.getNode p
    match node.body with
    | .pair pkey pali _ _ =>
      if opt.samex ctype key pkey then
        match ali, pali with
        | none, _ => .ok (some p)
        | some _, none => .error .null
        | some ali, some pali =>
          if opt.samex ctype ali pali then .ok (some p)
          else findPairByKeyAndAlias key (some ali) n node.next
      else findPairByKeyAndAlias key ali n node.next
    | _ => findPairByKeyAndAlias key ali n node.next

/-- The loop of `find_pair_by_key_and_index` -/
def findPairByKeyAndIndex (key : List ℕ) (index : ℕ) :
    ℕ → ℕ → Option Addr → Except Crash (Option Addr)
  | _, _, none => .ok none
  | 0, _, some _ => .error .loop
  | n + 1, count, some p => do
    let node ← h.getNode p
    match node.body with
    | .pair pkey _ _ _ =>
      if opt.samex ctype key pkey then
        if index = count then .ok (some p)
        else findPairByKeyAndIndex key index n (count + 1) node.next
      else findPairByKeyAndIndex key index n count node.next
    | _ => findPairByKeyAndIndex key index n count node.next

/-- The `switch` of `__find_pair` over the index of a segment -/
def findPairBySeg (n : ℕ) (seg : FqpnSeg) (head : Option Addr) : Except Crash (Option Addr) :=
  match seg.idx with
  | .none => h.findPairByKeyAndAlias opt ctype seg.key none n head
  | .number index => h.findPairByKeyAndIndex opt ctype seg.key index n 0 head
  | .ali ali => h.findPairByKeyAndAlias opt ctype seg.key (some ali) n head

/-- The loop of `__find_pair` -/
def findPairFrom (n : ℕ) : ℕ → ValPtr → List ℕ → Except Crash (Except TreeErr Addr)
  | 0, _, _ => .error .loop
  | k + 1, curlist, ptr =>
    match getNextFqpnSegment ctype splitter ptr with
    | none => .ok (.error .einval)
    | some (seg, ptr) =>
      match curlist with
      | .list l => do
        let list ← h.getList l
        let pair ← h.findPairBySeg opt ctype n seg list.head
        match pair with
        | none => .ok (.error (.enoent seg.ki))
        | some pair =>
          if ptr.isEmpty then .ok (.ok pair)
          else if ptr.head? ≠ some splitter then .error .assert
          else do
            let node ← h.getNode pair
            match node.body with
            | .pair _ _ _ val => findPairFrom n k val ptr.tail
            | _ => .error .wild
      | _ => .ok (.error (.enoent seg.ki))

def findpair (n : ℕ) (list : Option Addr) (fqpn : WString) : Except Crash (Except TreeErr Addr) :=
  h.findPairFrom opt ctype splitter n n (.list (list.getD root)) fqpn.chars

def setpairwithstr (mm : Mmgr) (n : ℕ) (list : Option Addr) (fqpn : WString) (value : List ℕ)
    (strtag : Option WString) : Except Crash (Heap × Except TreeErr Addr) := do
  let found ← h.findpair opt ctype splitter n list fqpn
  match found with
  | .error e => .ok (h, .error e)
  | .ok pair =>
    let valid : Except TreeErr Unit :=
      if opt.trait.validate then
        match opt.schema fqpn.chars with
        | none => .error (.eudkey fqpn)
        | some scm => if scm.valStr then .ok () else .error (.eilval fqpn)
      else .ok ()
    match valid with
    | .error e => .ok (h, .error e)
    | .ok () => do
      let node ← h.getNode pair
      let .pair key ali tag _ := node.body | .error .wild
      let (h, xpair) ← h.insertpairwithstr mm node.super (some pair) key ali tag value strtag
      match xpair with
      | .error e => .ok (h, .error e)
      | .ok xpair => do
        let h ← h.deletepair n pair
        .ok (h, .ok xpair)

end Heap

end Find

end Qse.Xli
