import Qse.Support.Returns
import Mathlib.Data.Int.Notation
import Mathlib.Data.Nat.Notation
import Mathlib.Logic.Function.Basic

/-!
# The stack of a run

A translation of `__eval_call` of `lib/awk/run.c` and of what it uses: `__raw_push`, the
`UNWIND_RTX_STACK` macros, the two functions that push arguments, and `run_block`. The
expressions, the statements and the intrinsic functions that a call evaluates are programs
over the same state.

Freeing is not modelled: a reference count that comes to zero stays zero. A reference
that is kept in a map, in a record or by an evaluation that is under way is counted in
`held`, which is a ghost field, as are `wild` and `exits`.
-/

open Function

namespace Qse.Awk

/-- `enum exit_level_t` -/
inductive ExitLevel where
  | exitNone
  | exitBreak
  | exitContinue
  | exitFunction
  | exitNext
  | exitGlobal
  | exitAbort
deriving DecidableEq

namespace Calls

open StateProgram

/-- A cell of the stack: a value, or a number cast to a pointer. -/
inductive StackCell (V : Type) where
  | val (v : V)
  | num (n : ℕ)
deriving DecidableEq

/-- What a call uses of a `qse_awk_rtx_t`, and the rest of it. `wild` tells that a reference
has been written through that had not been taken, and `exits` counts the exit statements that
have set the return value of the program. -/
structure CallRtx (V σ : Type) where
  stack : ℕ → StackCell V
  stackTop : ℕ
  stackBase : ℕ
  stackLimit : ℕ
  exitLevel : ExitLevel
  /-- `errinf.num == QSE_AWK_ENOERR` -/
  enoerr : Bool
  depth : ℕ
  /-- `opt.depth.s.block_run` -/
  blockRun : ℕ
  ref : V → ℤ
  held : V → ℤ
  wild : Bool
  exits : ℕ
  rest : σ

abbrev RtxM (V σ : Type) := StateT (CallRtx V σ) Option

/-- `qse_awk_val_ref_t`: a cell of the stack, or something else that is set in its own way. -/
inductive Ref (V σ : Type) where
  | cell (i : ℕ)
  | other (set : V → RtxM V σ Bool)

/-- What does not change in a run: `qse_awk_val_nil`, the values that are not counted, how a
reference is made, and which values cannot replace which. -/
structure Vals (V σ : Type) where
  nil : V
  static : V → Bool
  static_nil : static nil = true
  makeref : Ref V σ → σ → Option V × σ
  refuses : V → V → Bool

variable {V σ : Type} [DecidableEq V] (vals : Vals V σ)

/-! ## Cells and counts -/

def valAt (i : ℕ) : RtxM V σ V := do
  let s ← get
  match s.stack i with
  | .val v => pure v
  | .num _ => failure

def numAt (i : ℕ) : RtxM V σ ℕ := do
  let s ← get
  match s.stack i with
  | .val _ => failure
  | .num n => pure n

def setCell (i : ℕ) (c : StackCell V) : RtxM V σ PUnit :=
  modify fun s => { s with stack := update s.stack i c }

def setStackTop (n : ℕ) : RtxM V σ PUnit := modify fun s => { s with stackTop := n }

def setStackBase (n : ℕ) : RtxM V σ PUnit := modify fun s => { s with stackBase := n }

def seterr : RtxM V σ PUnit := modify fun s => { s with enoerr := false }

def makerefval (ref : Ref V σ) : RtxM V σ (Option V) := do
  let s ← get
  modify fun s => { s with rest := (vals.makeref ref s.rest).2 }
  pure (vals.makeref ref s.rest).1

/-- `val->ref += d` -/
def addRef (v : V) (d : ℤ) : RtxM V σ PUnit :=
  modify fun s => { s with ref := update s.ref v (s.ref v + d) }

def refupval (v : V) : RtxM V σ PUnit := if vals.static v then pure ⟨⟩ else addRef v 1

def refdownval (v : V) : RtxM V σ PUnit := if vals.static v then pure ⟨⟩ else addRef v (-1)

def refdownvalNofree (v : V) : RtxM V σ PUnit := refdownval vals v

def hold (v : V) : RtxM V σ PUnit := do
  refupval vals v
  modify fun s => { s with held := update s.held v (s.held v + 1) }

def drop (v : V) : RtxM V σ PUnit := do
  refdownval vals v
  modify fun s => { s with held := update s.held v (s.held v - 1) }

/-- `__raw_push`, with `true` for success. -/
def rawPush (c : StackCell V) : RtxM V σ Bool := do
  let s ← get
  if s.stackLimit ≤ s.stackTop then
    seterr
    pure false
  else
    setCell s.stackTop c
    setStackTop (s.stackTop + 1)
    pure true

def rawPop : RtxM V σ PUnit := modify fun s => { s with stackTop := s.stackTop - 1 }

/-- `UNWIND_RTX_STACK_ARG` -/
def unwindArgs : ℕ → RtxM V σ PUnit
  | 0 => pure ⟨⟩
  | nargs + 1 => do
    let s ← get
    let v ← valAt (s.stackTop - 1)
    refdownval vals v
    rawPop
    unwindArgs nargs

/-- `UNWIND_RTX_STACK_BASE` -/
def unwindBase : RtxM V σ PUnit := do
  rawPop
  rawPop
  rawPop
  rawPop

/-- `RTX_STACK_ARG(rtx,n)` as a place. -/
def argCell (n : ℕ) : RtxM V σ ℕ := do
  let s ← get
  pure (s.stackBase + (3 + 1 + n))

/-- `RTX_STACK_LCL(rtx,n)` as a place. -/
def lclCell (n : ℕ) : RtxM V σ ℕ := do
  let s ← get
  let nargs ← numAt (s.stackBase + 3)
  pure (s.stackBase + (3 + nargs + 1 + n))

/-- `RTX_STACK_RETVAL(rtx)` as a place. -/
def retvalCell : RtxM V σ ℕ := do
  let s ← get
  pure (s.stackBase + 2)

/-- The old value is released and the new one is put into its place. -/
def store (i : ℕ) (v : V) : RtxM V σ PUnit := do
  let old ← valAt i
  refdownval vals old
  setCell i (.val v)
  refupval vals v

def setrefval (ref : Ref V σ) (v : V) : RtxM V σ Bool :=
  match ref with
  | .other set => set v
  | .cell i => do
    let old ← valAt i
    if vals.refuses old v then
      seterr
      pure false
    else if old = v then pure true
    else
      store vals i v
      pure true

/-- `run_return` once the value is there. -/
def runReturn (v : V) : RtxM V σ Bool := do
  let i ← retvalCell
  store vals i v
  modify fun s => { s with exitLevel := .exitFunction }
  pure true

/-- `run_exit` once the value is there. -/
def runExit (gretval : ℕ) (v : V) (abort : Bool) : RtxM V σ Bool := do
  store vals gretval v
  modify fun s => { s with
    exitLevel := if abort then .exitAbort else .exitGlobal, exits := s.exits + 1 }
  pure true

def pushNils : ℕ → RtxM V σ Bool
  | 0 => pure true
  | n + 1 => do
    let ok ← rawPush (.val vals.nil)
    if ok then pushNils n else pure false

def runStatements : List (RtxM V σ Bool) → RtxM V σ Bool
  | [] => pure true
  | p :: ps => do
    let s ← get
    if s.exitLevel = .exitNone then
      let ok ← p
      if ok then runStatements ps else pure false
    else pure true

def popLcls : ℕ → RtxM V σ PUnit
  | 0 => pure ⟨⟩
  | nlcls + 1 => do
    let i ← lclCell nlcls
    let v ← valAt i
    refdownval vals v
    rawPop
    popLcls nlcls

def runBlock0 (nlcls : ℕ) (body : List (RtxM V σ Bool)) : RtxM V σ Bool := do
  let s ← get
  let ok ← pushNils vals nlcls
  if ok then
    let n ← runStatements body
    popLcls vals nlcls
    pure n
  else
    setStackTop s.stackTop
    pure false

def runBlock (nlcls : ℕ) (body : List (RtxM V σ Bool)) : RtxM V σ Bool := do
  let s ← get
  if 0 < s.blockRun ∧ s.blockRun ≤ s.depth then
    seterr
    pure false
  else
    modify fun s => { s with depth := s.depth + 1 }
    let n ← runBlock0 vals nlcls body
    modify fun s => { s with depth := s.depth - 1 }
    pure n

/-! ## Arguments -/

/-- How `get_reference` gets at a node: a local variable, an argument, or something that
is not on the stack or is an index of a global variable, which may take an evaluation. -/
inductive RefNode (V σ : Type) where
  | lcl (n : ℕ)
  | arg (n : ℕ)
  | other (take : RtxM V σ Bool) (set : V → RtxM V σ Bool)

def getReference : RefNode V σ → RtxM V σ (Option (Ref V σ))
  | .lcl n => do
    let i ← lclCell n
    pure (some (.cell i))
  | .arg n => do
    let i ← argCell n
    pure (some (.cell i))
  | .other take set => do
    let ok ← take
    pure (if ok then some (.other set) else none)

/-- An argument: its evaluation by `eval_expression` and by `eval_expression0`, and its
node. -/
structure Arg (V σ : Type) where
  value : RtxM V σ (Option V)
  value0 : RtxM V σ (Option V)
  node : RefNode V σ

inductive ArgSpec where
  | value
  | r
  | x
deriving DecidableEq

def Arg.eval (p : Arg V σ) : ArgSpec → RtxM V σ (Option (V × Option (Ref V σ)))
  | .r => do
    let ref ← getReference p.node
    match ref with
    | none => pure none
    | some ref => do
      let v ← makerefval vals ref
      pure (v.map fun v => (v, some ref))
  | .x => do
    let v ← p.value0
    pure (v.map fun v => (v, none))
  | .value => do
    let v ← p.value
    pure (v.map fun v => (v, none))

/-- The loop of `push_arg_from_nde` and of `push_arg_from_vals`, when `nargs` arguments have
been pushed: the references among all arguments, none for `(qse_size_t)-1`. -/
def pushArgs : List (RtxM V σ (Option (V × Option (Ref V σ)))) → ℕ → List (Option (Ref V σ)) →
    RtxM V σ (Option (List (Option (Ref V σ))))
  | [], _, refs => pure (some refs)
  | p :: ps, nargs, refs => do
    let v ← p
    match v with
    | none => do
      unwindArgs vals nargs
      pure none
    | some (v, ref) => do
      let ok ← rawPush (.val v)
      if ok then
        refupval vals v
        pushArgs ps (nargs + 1) (refs ++ [ref])
      else
        refupval vals v
        refdownval vals v
        unwindArgs vals nargs
        seterr
        pure none

def pushArgFromNde (spec : ℕ → ArgSpec) (args : List (Arg V σ)) :
    RtxM V σ (Option (List (Option (Ref V σ)))) :=
  pushArgs vals (args.mapIdx fun i p => p.eval vals (spec i)) 0 []

def makeArgref (ref : Ref V σ) : RtxM V σ (Option V) := do
  let v ← makerefval vals ref
  if v.isNone then
    seterr
    pure none
  else pure v

/-- The value to be pushed for a value. A reference leads to `pafv->args`, which is not on
the stack. -/
def valArg (byRef : Bool) (p : V × (V → RtxM V σ Bool)) :
    RtxM V σ (Option (V × Option (Ref V σ))) :=
  if byRef then do
    let v ← makeArgref vals (.other p.2)
    pure (v.map fun v => (v, some (.other p.2)))
  else pure (some (p.1, none))

def pushArgFromVals (spec : ℕ → Bool) (args : List (V × (V → RtxM V σ Bool))) :
    RtxM V σ (Option (List (Option (Ref V σ)))) :=
  pushArgs vals (args.mapIdx fun i p => valArg vals (spec i) p) 0 []

/-! ## Calls -/

inductive CallArgs (V σ : Type) where
  | nde (args : List (Arg V σ))
  | vals (spec : ℕ → Bool) (args : List (V × (V → RtxM V σ Bool)))

/-- What is called: a function of the program, with its parameters, those that are passed by
reference, if there are any, and its body, or an intrinsic function, which gets the
references among its arguments. -/
inductive Callee (V σ : Type) where
  | fun (nargs : ℕ) (argspec : Option (ℕ → Bool)) (nlcls : ℕ) (body : List (RtxM V σ Bool))
  | fnc (spec : ℕ → ArgSpec) (impl : Option (List (Option (Ref V σ)) → RtxM V σ Bool))

def CallArgs.push (callee : Callee V σ) :
    CallArgs V σ → RtxM V σ (Option (List (Option (Ref V σ))))
  | .vals spec args => pushArgFromVals vals spec args
  | .nde args =>
    match callee with
    | .fun _ _ _ _ => pushArgFromNde vals (fun _ => .value) args
    | .fnc spec _ => pushArgFromNde vals spec args

/-- The nodes whose values are written back, with the specification: `call->args` if
`fun->argspec` is there. -/
def Callee.byRef (callee : Callee V σ) (args : CallArgs V σ) :
    Option ((ℕ → Bool) × List (Arg V σ)) :=
  match callee, args with
  | .fun _ (some argspec) _ _, .nde args => some (argspec, args)
  | _, _ => none

def checkRefs (argspec : ℕ → Bool) : ℕ → List (Arg V σ) → RtxM V σ Bool
  | _, [] => pure true
  | i, p :: ps => do
    if argspec i then
      let ref ← getReference p.node
      if ref.isSome then checkRefs argspec (i + 1) ps else pure false
    else checkRefs argspec (i + 1) ps

def Callee.checkArgs (callee : Callee V σ) (args : CallArgs V σ) : RtxM V σ Bool :=
  match callee.byRef args with
  | some (argspec, nodes) => checkRefs argspec 0 nodes
  | none => pure true

def pushMissing : ℕ → ℕ → RtxM V σ Bool
  | 0, _ => pure true
  | missing + 1, nargs => do
    let ok ← rawPush (.val vals.nil)
    if ok then pushMissing missing (nargs + 1)
    else
      unwindArgs vals nargs
      unwindBase
      seterr
      pure false

/-- What follows for a function of the program when its arguments have been pushed: the
number of arguments then, none on failure. -/
def completeArgs (callee : Callee V σ) (args : CallArgs V σ) (nargs : ℕ) : RtxM V σ (Option ℕ) :=
  match callee with
  | .fnc _ _ => pure (some nargs)
  | .fun funNargs _ _ _ => do
    let ok ← callee.checkArgs args
    if ok then
      let ok ← pushMissing vals (funNargs - nargs) nargs
      pure (if ok then some (max nargs funNargs) else none)
    else
      unwindArgs vals nargs
      unwindBase
      pure none

/-- `run_block` or `call->u.fnc.spec.impl` -/
def Callee.run (callee : Callee V σ) (refs : List (Option (Ref V σ))) : RtxM V σ Bool :=
  match callee with
  | .fun _ _ nlcls body => runBlock vals nlcls body
  | .fnc _ none => pure true
  | .fnc _ (some impl) => do
    modify fun s => { s with enoerr := true }
    let ok ← impl refs
    if ok then pure true
    else
      seterr
      pure false

/-- `qse_awk_rtx_refdownval (rtx, RTX_STACK_ARG(rtx,i))` for `n` arguments from `i` on. -/
def releaseArgs : ℕ → ℕ → RtxM V σ PUnit
  | 0, _ => pure ⟨⟩
  | n + 1, i => do
    let j ← argCell i
    let v ← valAt j
    refdownval vals v
    releaseArgs n (i + 1)

/-- The value of an argument passed by reference is set back. The frame is left for the
evaluation of the node. -/
def writeBack (p : Arg V σ) (i : ℕ) : RtxM V σ PUnit := do
  let s ← get
  let prevStackBase ← numAt (s.stackBase + 0)
  setStackBase prevStackBase
  let ref ← getReference p.node
  setStackBase s.stackBase
  match ref with
  | none => modify fun s => { s with wild := true }
  | some ref => do
    let j ← argCell i
    let v ← valAt j
    let _ ← setrefval vals ref v

def setBack (argspec : ℕ → Bool) (p : Arg V σ) (i : ℕ) : RtxM V σ PUnit :=
  if argspec i then writeBack vals p i else pure ⟨⟩

def releaseRefs (argspec : ℕ → Bool) : ℕ → List (Arg V σ) → RtxM V σ PUnit
  | _, [] => pure ⟨⟩
  | i, p :: ps => do
    setBack vals argspec p i
    releaseArgs vals 1 i
    releaseRefs argspec (i + 1) ps

def releaseAll (callee : Callee V σ) (args : CallArgs V σ) (nargs : ℕ) : RtxM V σ PUnit :=
  match callee.byRef args with
  | some (argspec, nodes) => do
    releaseRefs vals argspec 0 nodes
    releaseArgs vals (nargs - nodes.length) nodes.length
  | none => releaseArgs vals nargs 0

/-- `errhandler (eharg)`, where `errhandler` is `capture_retval_on_exit`, if it is given. -/
def captureRetval (errhandler : Bool) (v : V) : RtxM V σ PUnit := do
  let s ← get
  if s.enoerr ∧ errhandler then hold vals v else pure ⟨⟩

/-- The reference of the return value is given up, and on failure the value too. -/
def settleRetval (ok errhandler : Bool) (i : ℕ) (v : V) : RtxM V σ PUnit :=
  if ok then refdownvalNofree vals v
  else do
    captureRetval vals errhandler v
    refdownval vals v
    setCell i (.val vals.nil)

def leaveCall (ok errhandler : Bool) : RtxM V σ (Option V) := do
  let i ← retvalCell
  let v ← valAt i
  settleRetval vals ok errhandler i v
  let s ← get
  let top ← numAt (s.stackBase + 1)
  setStackTop top
  let s ← get
  let base ← numAt (s.stackBase + 0)
  setStackBase base
  modify fun s =>
    if s.exitLevel = .exitFunction then { s with exitLevel := .exitNone } else s
  pure (if ok then some v else none)

def callBody (callee : Callee V σ) (args : CallArgs V σ) (errhandler : Bool) (savedStackTop : ℕ)
    (refs : List (Option (Ref V σ))) (nargs : ℕ) : RtxM V σ (Option V) := do
  setStackBase savedStackTop
  setCell (savedStackTop + 3) (.num nargs)
  let ok ← callee.run vals refs
  let s ← get
  let nargs ← numAt (s.stackBase + 3)
  releaseAll vals callee args nargs
  leaveCall vals ok errhandler

def evalCall (callee : Callee V σ) (args : CallArgs V σ) (errhandler : Bool) :
    RtxM V σ (Option V) := do
  let s ← get
  let savedStackTop := s.stackTop
  let ok ← rawPush (.num s.stackBase)
  if ¬ok then pure none
  else
    let ok ← rawPush (.num savedStackTop)
    if ¬ok then
      rawPop
      pure none
    else
      let ok ← rawPush (.val vals.nil)
      if ¬ok then
        rawPop
        rawPop
        pure none
      else
        let ok ← rawPush (.val vals.nil)
        if ¬ok then
          rawPop
          rawPop
          rawPop
          pure none
        else
          let refs ← args.push vals callee
          match refs with
          | none => do
            unwindBase
            pure none
          | some refs => do
            let nargs ← completeArgs vals callee args refs.length
            match nargs with
            | none => pure none
            | some nargs => callBody vals callee args errhandler savedStackTop refs nargs

end Calls

end Qse.Awk
