import Mathlib.Algebra.Group.Nat.Defs
import Mathlib.Data.Setoid.Basic

/-!
# The `HashList` template

A translation of `include/qse/cmn/HashList.hpp` and of the functions of
`include/qse/cmn/LinkedList.hpp` that it calls. Node pointers are numbers, and `none` is the
null pointer; a function that follows a null pointer yields `none`. Allocations succeed, and the
memory pools are left out: a new node is one that has not been there before.
-/

namespace Qse

namespace HashList

structure Hashing (T : Type) where
  hasher : T → ℕ
  equaler : T → T → Bool
  equaler_self : ∀ d, equaler d d = true
  equaler_symm : ∀ {d e}, equaler d e = true → equaler e d = true
  equaler_trans : ∀ {d e f}, equaler d e = true → equaler e f = true → equaler d f = true
  agree : ∀ {d e}, equaler d e = true → hasher d = hasher e

def Hashing.same {T : Type} (h : Hashing T) : Setoid T where
  r d e := h.equaler d e = true
  iseqv := ⟨h.equaler_self, h.equaler_symm, h.equaler_trans⟩

structure Heap (T : Type) where
  value : ℕ → T
  prev : ℕ → Option ℕ
  next : ℕ → Option ℕ
  fresh : ℕ

/-! ## `LinkedList` -/

/-- `LinkedList` -/
structure DatumList where
  headNode : Option ℕ
  tailNode : Option ℕ
  nodeCount : ℕ

namespace DatumList

variable {T : Type}

def new : DatumList := ⟨none, none, 0⟩

def insertNode (m : Heap T) (l : DatumList) (pos : Option ℕ) (node : ℕ) :
    Option (Heap T × DatumList) :=
  match pos with
  | none =>
    if l.nodeCount = 0 then some (m, ⟨some node, some node, l.nodeCount + 1⟩)
    else
      match l.tailNode with
      | none => none
      | some tail =>
        some ({ m with
          prev := Function.update m.prev node (some tail)
          next := Function.update m.next tail (some node) },
          ⟨l.headNode, some node, l.nodeCount + 1⟩)
  | some pos =>
    let next := Function.update m.next node (some pos)
    let prev := Function.update m.prev node (m.prev pos)
    match prev pos with
    | some before =>
      some ({ m with
        prev := Function.update prev pos (some node)
        next := Function.update next before (some node) },
        ⟨l.headNode, l.tailNode, l.nodeCount + 1⟩)
    | none =>
      some ({ m with prev := Function.update prev pos (some node), next := next },
        ⟨some node, l.tailNode, l.nodeCount + 1⟩)

def yield (m : Heap T) (l : DatumList) (node : ℕ) (clearLinks : Bool) : Heap T × DatumList :=
  let (m, l) : Heap T × DatumList :=
    match m.next node with
    | some after => ({ m with prev := Function.update m.prev after (m.prev node) }, l)
    | none => (m, { l with tailNode := m.prev node })
  let (m, l) : Heap T × DatumList :=
    match m.prev node with
    | some before => ({ m with next := Function.update m.next before (m.next node) }, l)
    | none => (m, { l with headNode := m.next node })
  let l := { l with nodeCount := l.nodeCount - 1 }
  if clearLinks then
    ({ m with
      next := Function.update m.next node none
      prev := Function.update m.prev node none }, l)
  else (m, l)

def clearFrom (m : Heap T) : ℕ → Option ℕ → ℕ → Option ℕ
  | _, none, count => some count
  | 0, some _, _ => none
  | n + 1, some p, count => clearFrom m n (m.next p) (count - 1)

def clear (m : Heap T) (l : DatumList) : Option DatumList :=
  (clearFrom m l.nodeCount l.headNode l.nodeCount).map fun count => ⟨none, none, count⟩

end DatumList

end HashList

/-- `HashList`, without the heap. `nodes` leads to the nodes: at `2 * hc` to the first and at
`2 * hc + 1` to the last one of a bucket. -/
structure HashList where
  nodeCapacity : ℕ
  nodes : ℕ → Option ℕ
  datumList : HashList.DatumList
  threshold : ℕ
  loadFactor : ℕ

namespace HashList

variable {T : Type}

def defaultCapacity : ℕ := 10

def defaultLoadFactor : ℕ := 75

def minCapacity : ℕ := 1

def minLoadFactor : ℕ := 20

def initList (nodeCapacity loadFactor : ℕ) : HashList :=
  let nodeCapacity := if nodeCapacity < minCapacity then minCapacity else nodeCapacity
  let loadFactor := if loadFactor < minLoadFactor then minLoadFactor else loadFactor
  ⟨nodeCapacity, fun _ => none, .new, nodeCapacity * loadFactor % 2 ^ 64 / 100, loadFactor⟩

def new : HashList := initList defaultCapacity defaultLoadFactor

def ofCapacity (_nodeCapacity loadFactor : ℕ) : HashList := initList defaultCapacity loadFactor

def bucket (h : Hashing T) (t : HashList) (datum : T) : ℕ := h.hasher datum % t.nodeCapacity

def findFrom (h : Hashing T) (m : Heap T) (datum : T) (tail : Option ℕ) :
    ℕ → Option ℕ → Option (Option ℕ)
  | 0, _ => none
  | _ + 1, none => none
  | n + 1, some np =>
    if h.equaler datum (m.value np) then some (some np)
    else if some np = tail then some none
    else findFrom h m datum tail n (m.next np)

def findNode (h : Hashing T) (m : Heap T) (t : HashList) (datum : T) : Option (Option ℕ) :=
  let head := 2 * bucket h t datum
  let tail := head + 1
  match t.nodes head with
  | none => some none
  | some np => findFrom h m datum (t.nodes tail) t.datumList.nodeCount (some np)

def enter (m : Heap T) (t : HashList) (head tail node : ℕ) : Option (Heap T × HashList) :=
  match t.nodes head with
  | none => do
    let (m, l) ← t.datumList.insertNode m none node
    some (m, { t with
      nodes := Function.update (Function.update t.nodes head (some node)) tail (some node)
      datumList := l })
  | some first => do
    let (m, l) ← t.datumList.insertNode m (some first) node
    some (m, { t with nodes := Function.update t.nodes head (some node), datumList := l })

def rehashFrom (h : Hashing T) :
    ℕ → Heap T → DatumList → HashList → Option ℕ → Option (Heap T × HashList)
  | _, m, _, temp, none => some (m, temp)
  | 0, _, _, _, some _ => none
  | n + 1, m, l, temp, some p => do
    let next := m.next p
    let (m, l) := l.yield m p true
    let head := 2 * bucket h temp (m.value p)
    let (m, temp) ← enter m temp head (head + 1) p
    rehashFrom h n m l temp next

def rehash (h : Hashing T) (resizer : ℕ → ℕ) (m : Heap T) (t : HashList) :
    Option (Heap T × HashList) :=
  rehashFrom h t.datumList.nodeCount m t.datumList
    (ofCapacity (resizer t.nodeCapacity) t.loadFactor) t.datumList.headNode

/-- `new Node(value)` -/
def newNode (m : Heap T) (datum : T) : Heap T × ℕ :=
  ({ value := Function.update m.value m.fresh datum
     prev := Function.update m.prev m.fresh none
     next := Function.update m.next m.fresh none
     fresh := m.fresh + 1 }, m.fresh)

/-- `inject`: the node returned, whether one is injected, and the list. -/
def inject (h : Hashing T) (resizer : ℕ → ℕ) (m : Heap T) (t : HashList) (datum : T) (mode : ℤ) :
    Option (Option ℕ × Bool × Heap T × HashList) := do
  match ← findNode h m t datum with
  | some np =>
    if mode ≤ -1 then return (none, false, m, t)
    else if mode ≥ 1 then
      return (some np, false, { m with value := Function.update m.value np datum }, t)
    else return (some np, false, m, t)
  | none =>
    let (m, t) ← if t.threshold ≤ t.datumList.nodeCount then rehash h resizer m t
      else some (m, t)
    let head := 2 * bucket h t datum
    let (m, node) := newNode m datum
    let (m, t) ← enter m t head (head + 1) node
    return (t.nodes head, true, m, t)

def update (h : Hashing T) (m : Heap T) (t : HashList) (datum : T) :
    Option (Option ℕ × Heap T) := do
  match ← findNode h m t datum with
  | some np => return (some np, { m with value := Function.update m.value np datum })
  | none => return (none, m)

def nodesWithout (m : Heap T) (t : HashList) (np head tail : ℕ) : ℕ → Option ℕ :=
  if t.nodes head = t.nodes tail then
    Function.update (Function.update t.nodes tail none) head none
  else if some np = t.nodes head then Function.update t.nodes head (m.next np)
  else if some np = t.nodes tail then Function.update t.nodes tail (m.prev np)
  else t.nodes

/-- `remove_node` -/
def removeAt (m : Heap T) (t : HashList) (np hc : ℕ) : Heap T × HashList :=
  let head := 2 * hc
  let tail := head + 1
  let nodes := nodesWithout m t np head tail
  let (m, l) := t.datumList.yield m np false
  (m, { t with nodes := nodes, datumList := l })

def removeNode (h : Hashing T) (m : Heap T) (t : HashList) (np : ℕ) : Heap T × HashList :=
  removeAt m t np (bucket h t (m.value np))

def remove (h : Hashing T) (m : Heap T) (t : HashList) (datum : T) :
    Option (Bool × Heap T × HashList) := do
  match ← findNode h m t datum with
  | some np =>
    let (m, t) := removeAt m t np (bucket h t datum)
    return (true, m, t)
  | none => return (false, m, t)

def clear (m : Heap T) (t : HashList) : Option HashList :=
  (t.datumList.clear m).map fun l =>
    { t with
      nodes := fun i => if i < 2 * t.nodeCapacity then none else t.nodes i
      datumList := l }

end HashList

end Qse
