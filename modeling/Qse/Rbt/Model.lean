import Qse.Pairs.Data
import Qse.Support.ColorTree

/-!
# The `qse_rbt_t` red-black tree

A translation of `lib/cmn/rbt.c`. The pairs are cells of a heap linked by
pointers, with the sentinel `xnil` among them. Reading or writing through a
null pointer or into a freed pair yields `none`. A loop carries fuel, which its
callers take from the number of pairs; `none` is also the outcome of a loop that
runs out of it.

The mirrored halves of `adjust_for_delete` are written once, for the side the
pair is on. `QSE_ASSERT` leaves the tree as it is and is not modelled.
-/

namespace Qse

open ColorTree (Color Side)

namespace Rbt

/-- A `pair_t*`: the null pointer, `&rbt->xnil`, or an allocated pair. -/
inductive Ref where
  | null
  | xnil
  | pair (addr : ℕ)
deriving DecidableEq

/-- `qse_rbt_pair_t` -/
structure Pair (κ : Type) where
  data : PairData κ
  color : Color
  parent : Ref
  left : Ref
  right : Ref
deriving DecidableEq

variable {κ : Type}

def Pair.child (n : Pair κ) : Side → Ref
  | .left => n.left
  | .right => n.right

def Pair.setChild (n : Pair κ) (s : Side) (p : Ref) : Pair κ :=
  match s with
  | .left => { n with left := p }
  | .right => { n with right := p }

end Rbt

/-- `qse_rbt_t` with the heap its pairs live in. `calls` is a ghost record of
the freeers and keepers called. -/
structure Rbt (κ : Type) where
  style : PairStyle κ
  mem : Rbt.Ref → Option (Rbt.Pair κ)
  size : ℕ
  root : Rbt.Ref
  calls : List (Callback κ)

abbrev RbtM (κ : Type) := StateT (Rbt κ) Option

namespace Rbt

variable {κ : Type}

def put (t : Rbt κ) (p : Ref) (n : Pair κ) : Rbt κ :=
  { t with mem := Function.update t.mem p (some n) }

def drop (t : Rbt κ) (p : Ref) : Rbt κ :=
  { t with mem := Function.update t.mem p none }

def load (p : Ref) : RbtM κ (Pair κ) := do
  let t ← get
  match t.mem p with
  | some n => pure n
  | none => failure

def edit (p : Ref) (f : Pair κ → Pair κ) : RbtM κ PUnit := do
  let n ← load p
  modify fun t => t.put p (f n)

def setColor (p : Ref) (c : Color) : RbtM κ PUnit :=
  edit p fun n => { n with color := c }

def setParent (p q : Ref) : RbtM κ PUnit :=
  edit p fun n => { n with parent := q }

def setChild (p : Ref) (s : Side) (q : Ref) : RbtM κ PUnit :=
  edit p fun n => n.setChild s q

def setRoot (p : Ref) : RbtM κ PUnit :=
  modify fun t => { t with root := p }

def setSize (f : ℕ → ℕ) : RbtM κ PUnit :=
  modify fun t => { t with size := f t.size }

/-- `if (p) c;` -/
def onlyIf (p : Prop) [Decidable p] (c : RbtM κ PUnit) : RbtM κ PUnit :=
  if p then c else pure ⟨⟩

/-- `if (!IS_NIL(rbt,p)) p->parent = q;` -/
def setParentOf (p q : Ref) : RbtM κ PUnit :=
  onlyIf (p ≠ .xnil) (setParent p q)

/-- `if (!IS_NIL(rbt,p)) p->color = c;` -/
def setColorOf (p : Ref) (c : Color) : RbtM κ PUnit :=
  onlyIf (p ≠ .xnil) (setColor p c)

def log (cs : List (Callback κ)) : RbtM κ PUnit :=
  modify fun t => { t with calls := t.calls ++ cs }

def mmgrAlloc (t : Rbt κ) (block : Option ℕ) : Ref :=
  match block with
  | none => .null
  | some a => if (t.mem (.pair a)).isSome then .null else .pair a

def freshPair (d : PairData κ) : Pair κ :=
  { data := d, color := .red, parent := .null, left := .xnil, right := .xnil }

def allocpair (env : PairEnv κ) (key : κ) (val : Buffer) : RbtM κ Ref := do
  let t ← get
  let n := t.mmgrAlloc env.block
  if n = .null then pure .null
  else
    let (d, calls) := fillPair t.style env key val
    log calls
    match d with
    | none => pure .null
    | some d =>
      modify fun t => t.put n (freshPair d)
      pure n

def freepair (pair : Ref) : RbtM κ PUnit := do
  let n ← load pair
  let t ← get
  log (freeCalls t.style n.data)
  modify fun t => t.drop pair

/-- `qse_rbt_init` followed by `qse_rbt_setstyle`. -/
def init [Inhabited κ] (style : PairStyle κ) : Rbt κ where
  style := style
  mem := fun p =>
    if p = .xnil then
      some { data := ⟨default, 0, 0, []⟩, color := .black, parent := .null,
             left := .xnil, right := .xnil }
    else none
  size := 0
  root := .xnil
  calls := []

/-- The loop of `qse_rbt_search`. -/
def searchFrom (key : κ) : ℕ → Ref → RbtM κ Ref
  | 0, _ => failure
  | fuel + 1, pair => do
    if pair = .xnil then pure .null
    else
      let n ← load pair
      let t ← get
      let c := t.style.comper key n.data.key
      if c = 0 then pure pair
      else if 0 < c then searchFrom key fuel n.right
      else searchFrom key fuel n.left

def search (key : κ) : RbtM κ Ref := do
  let t ← get
  searchFrom key (t.size + 1) t.root

/-- The loop at the head of `insert` and `qse_rbt_cbsert`: the pair with a
matching key, or `xnil`, and the pair above it. -/
def walkDown (key : κ) : ℕ → Ref → Ref → RbtM κ (Ref × Ref)
  | 0, _, _ => failure
  | fuel + 1, xCur, xPar => do
    if xCur = .xnil then pure (xCur, xPar)
    else
      let n ← load xCur
      let t ← get
      let c := t.style.comper key n.data.key
      if c = 0 then pure (xCur, xPar)
      else if 0 < c then walkDown key fuel n.right xCur
      else walkDown key fuel n.left xCur

/-- `if (parent->left == p) parent->left = q; else parent->right = q;` -/
def redirect (parent p q : Ref) : RbtM κ PUnit := do
  let n ← load parent
  if n.left = p then setChild parent .left q else setChild parent .right q

def relink (parent p q : Ref) : RbtM κ PUnit :=
  if parent ≠ .null then redirect parent p q else setRoot q

def rotate (pivot : Ref) (leftwise : Bool) : RbtM κ PUnit := do
  let cid1 := if leftwise then Side.right else Side.left
  let cid2 := if leftwise then Side.left else Side.right
  let n ← load pivot
  let parent := n.parent
  let z := n.child cid1
  let nz ← load z
  let c := nz.child cid2
  setParent z parent
  relink parent pivot z
  setChild z cid2 pivot
  setParentOf pivot z
  setChild pivot cid1 c
  setParentOf c pivot

/-- The step of `adjust` for a pair that lies on the inner side: rotate its
parent down. The pair and its parent afterwards. -/
def turnOut (pair xPar tmp2 : Ref) (leftwise : Bool) : RbtM κ (Ref × Ref) :=
  if pair = tmp2 then do
    rotate xPar leftwise
    let n ← load xPar
    pure (xPar, n.parent)
  else pure (pair, xPar)

def adjust : ℕ → Ref → RbtM κ PUnit
  | 0, _ => failure
  | fuel + 1, pair => do
    let t ← get
    if pair = t.root then pure ()
    else
      let n ← load pair
      let xPar := n.parent
      let np ← load xPar
      if np.color = .black then pure ()
      else
        let ng ← load np.parent
        let leftwise := decide (xPar = ng.left)
        let tmp := if leftwise then ng.right else ng.left
        let tmp2 := if leftwise then np.right else np.left
        let nt ← load tmp
        if nt.color = .red then
          setColor xPar .black
          setColor tmp .black
          setColor np.parent .red
          adjust fuel np.parent
        else
          let (pair, xPar) ← turnOut pair xPar tmp2 leftwise
          setColor xPar .black
          let np ← load xPar
          setColor np.parent .red
          rotate np.parent (!leftwise)
          adjust fuel pair

def takePlace (pair p : Ref) (n : Pair κ) : RbtM κ PUnit := do
  edit p fun m =>
    { m with color := n.color, left := n.left, right := n.right, parent := n.parent }
  onlyIf (n.parent ≠ .null) (redirect n.parent pair p)
  setParentOf n.left p
  setParentOf n.right p
  let t ← get
  onlyIf (pair = t.root) (setRoot p)

def changePairVal (env : PairEnv κ) (pair : Ref) (val : Buffer) : RbtM κ Ref := do
  let n ← load pair
  let t ← get
  match changeOf t.style env n.data val with
  | .keep =>
    log (keepCalls t.style val)
    pure pair
  | .fail => pure .null
  | .set d =>
    edit pair fun n => { n with data := d }
    log (replaceCalls t.style n.data)
    pure pair
  | .rebuild =>
    let p ← allocpair env n.data.key val
    if p = .null then pure .null
    else
      takePlace pair p n
      freepair pair
      pure p

/-- "perform normal binary insert" -/
def hang (key : κ) (xPar xNew : Ref) : RbtM κ PUnit := do
  let n ← load xPar
  let t ← get
  setChild xPar (if 0 < t.style.comper key n.data.key then .right else .left) xNew
  setParent xNew xPar
  adjust (t.size + 2) xNew

/-- "the tree contains no pair", or `xNew` becomes a child of `xPar`. -/
def place (key : κ) (xPar xNew : Ref) : RbtM κ PUnit :=
  if xPar = .null then setRoot xNew else hang key xPar xNew

/-- The end of `insert` and `qse_rbt_cbsert`. -/
def linkNew (key : κ) (xPar xNew : Ref) : RbtM κ PUnit := do
  place key xPar xNew
  let t ← get
  setColor t.root .black
  setSize (· + 1)

def insert (env : PairEnv κ) (key : κ) (val : Buffer) (opt : InsertOpt) : RbtM κ Ref := do
  let t ← get
  let (xCur, xPar) ← walkDown key (t.size + 1) t.root .null
  if xCur ≠ .xnil then
    match opt with
    | .upsert => changePairVal env xCur val
    | .update => changePairVal env xCur val
    | .ensert => pure xCur
    | .insert => pure .null
  else if opt = .update then pure .null
  else
    let xNew ← allocpair env key val
    if xNew = .null then pure .null
    else
      linkNew key xPar xNew
      pure xNew

def callCbserter (out : Cbserted κ) (pair : Ref) : RbtM κ Ref := do
  match out with
  | .fail => pure .null
  | .keep vptr vlen vbuf =>
    if pair = .null then pure .null
    else
      edit pair fun n =>
        { n with data := { n.data with vptr := vptr, vlen := vlen, vbuf := vbuf } }
      pure pair
  | .make block d =>
    let t ← get
    let p := t.mmgrAlloc block
    if p = .null then pure .null
    else
      modify fun t => t.put p (freshPair d)
      onlyIf (pair ≠ .null) (freepair pair)
      pure p

def cbsert (out : Cbserted κ) (key : κ) : RbtM κ Ref := do
  let t ← get
  let (xCur, xPar) ← walkDown key (t.size + 1) t.root .null
  if xCur ≠ .xnil then
    let tmp ← load xCur
    let xNew ← callCbserter out xCur
    if xNew = .null then pure .null
    else
      onlyIf (xNew ≠ xCur) (takePlace xCur xNew tmp)
      pure xNew
  else
    let xNew ← callCbserter out .null
    if xNew = .null then pure .null
    else
      linkNew key xPar xNew
      pure xNew

/-- "if (tmp->color == QSE_RBT_RED)": rotate the sibling `tmp` of the pair on
side `near` of `par` above `par`. The sibling afterwards. -/
def raiseRed (par tmp : Ref) (near : Side) : RbtM κ Ref := do
  let nt ← load tmp
  if nt.color = .red then
    setColor tmp .black
    setColor par .red
    rotate par (decide (near = .left))
    let np ← load par
    pure (np.child near.other)
  else pure tmp

/-- Only the child of `tmp` on side `near` is red: rotate it above `tmp`. -/
def raiseNear (par tmp : Ref) (near : Side) : RbtM κ Ref := do
  let nt ← load tmp
  let nf ← load (nt.child near.other)
  if nf.color = .black then
    setColorOf (nt.child near) .black
    setColor tmp .red
    rotate tmp (!decide (near = .left))
    let np ← load par
    pure (np.child near.other)
  else pure tmp

/-- The child of `tmp` away from the pair is red: rotate `tmp` above `par`. -/
def raiseFar (par tmp : Ref) (near : Side) : RbtM κ PUnit := do
  let np ← load par
  setColor tmp np.color
  setColorOf par .black
  let nt ← load tmp
  let nf ← load (nt.child near.other)
  onlyIf (nf.color = .red) (setColor (nt.child near.other) .black)
  rotate par (decide (near = .left))

def adjustForDelete : ℕ → Ref → Ref → RbtM κ PUnit
  | 0, _, _ => failure
  | fuel + 1, pair, par => do
    let t ← get
    let n ← load pair
    if pair ≠ t.root ∧ n.color = .black then
      let np ← load par
      let near := if pair = np.left then Side.left else Side.right
      let tmp ← raiseRed par (np.child near.other) near
      let nt ← load tmp
      let nl ← load nt.left
      let nr ← load nt.right
      if nl.color = .black ∧ nr.color = .black then
        setColorOf tmp .red
        let np ← load par
        adjustForDelete fuel par np.parent
      else
        let tmp ← raiseNear par tmp near
        raiseFar par tmp near
        let t ← get
        adjustForDelete fuel t.root par
    else setColor pair .black

/-- `while (!IS_NIL(rbt,y->left)) y = y->left;` -/
def leftmost : ℕ → Ref → RbtM κ Ref
  | 0, _ => failure
  | fuel + 1, y => do
    let n ← load y
    if n.left = .xnil then pure y else leftmost fuel n.left

/-- The pair that `delete_pair` takes out of its place: the pair itself, or its
successor if it has two children. -/
def spliced (pair : Ref) : RbtM κ Ref := do
  let n ← load pair
  let t ← get
  if n.left = .xnil ∨ n.right = .xnil then pure pair else leftmost t.size n.right

/-- `if (parent->left == p) parent->left = q; if (parent->right == p) ...` -/
def redirectBoth (parent p q : Ref) : RbtM κ PUnit := do
  let n ← load parent
  onlyIf (n.left = p) (setChild parent .left q)
  let n ← load parent
  onlyIf (n.right = p) (setChild parent .right q)

/-- `if (parent) { ... } else rbt->root = q;` around `redirectBoth` -/
def relinkBoth (parent p q : Ref) : RbtM κ PUnit :=
  if parent ≠ .null then redirectBoth parent p q else setRoot q

/-- `if (p->parent == pair) p->parent = y;` -/
def adopt (p pair y : Ref) : RbtM κ PUnit := do
  let n ← load p
  onlyIf (n.parent = pair) (setParent p y)

def substitute (pair y : Ref) : RbtM κ PUnit := do
  let n ← load pair
  relinkBoth n.parent pair y
  edit y fun m =>
    { m with parent := n.parent, left := n.left, right := n.right, color := n.color }
  adopt n.left pair y
  adopt n.right pair y

def deletePair (pair : Ref) : RbtM κ PUnit := do
  let y ← spliced pair
  let ny ← load y
  let t ← get
  let x := if ny.left = .xnil then ny.right else ny.left
  setParentOf x ny.parent
  relink ny.parent y x
  onlyIf (ny.color = .black ∧ x ≠ .xnil) (adjustForDelete (t.size + 2) x ny.parent)
  onlyIf (y ≠ pair) (substitute pair y)
  freepair pair
  setSize (· - 1)

/-- `qse_rbt_delete`: `true` for `0`, `false` for `-1`. -/
def delete (key : κ) : RbtM κ Bool := do
  let pair ← search key
  if pair = .null then pure false
  else
    deletePair pair
    pure true

def clearFrom : ℕ → RbtM κ PUnit
  | 0 => failure
  | fuel + 1 => do
    let t ← get
    if t.root = .xnil then pure ()
    else
      deletePair t.root
      clearFrom fuel

def clear : RbtM κ PUnit := do
  let t ← get
  clearFrom (t.size + 1)

end Rbt

end Qse
