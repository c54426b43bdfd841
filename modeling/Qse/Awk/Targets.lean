import Mathlib.Data.Int.Notation
import Mathlib.Data.List.Basic
import Qse.Support.Logged

/-!
# Targets of assignments

A translation of the functions in `lib/awk/run.c` that read and write what stands on the left of an
assignment: `eval_assignment`, `do_assignment`, `eval_incpre`, `eval_incpst`, `eval_indexed`,
`eval_pos`, `get_reference`, `idxnde_to_str` and the arguments of `__eval_call`. What expressions
do, and how values are kept, are parameters.
-/

namespace Qse.Awk

open Logged (Comp silent ask note fail)

/-- A variable: `QSE_AWK_NDE_NAMED`, `QSE_AWK_NDE_GBL`, `QSE_AWK_NDE_LCL` or `QSE_AWK_NDE_ARG` -/
inductive Var where
  | named (name : List Char)
  | gbl (idxa : ℕ)
  | lcl (idxa : ℕ)
  | arg (idxa : ℕ)
deriving DecidableEq

/-- What can be assigned to: a variable, an element of one with a list of indices, or a field -/
inductive Target (Expr : Type) where
  | var (v : Var)
  | idx (v : Var) (e : Expr) (es : List Expr)
  | pos (e : Expr)

inductive Place where
  | var (v : Var)
  | elem (v : Var) (key : List Char)
  | field (lv : ℤ)
deriving DecidableEq

/-- Something that happens to the operand with a number: an index expression is evaluated, or a
place is referred to -/
inductive Event (Expr : Type) where
  | index (n : ℕ) (e : Expr)
  | place (n : ℕ) (p : Place)

structure Sem (S V E Expr Op : Type) where
  /-- `eval_expression` of an expression that is not a target -/
  eval : Expr → S → Except E (V × S)
  valtostr : V → S → Except E (List Char × S)
  valtoint : V → S → Except E (ℤ × S)
  /-- `gbl.subsep` -/
  subsep : S → List Char
  isMap : V → Bool
  /-- `IS_VALID_POSIDX` -/
  isValidPosidx : ℤ → Bool
  /-- `QSE_AWK_EPOSIDX`, `QSE_AWK_EMAPTOIDX`, `QSE_AWK_EMAPTOPOS` and `QSE_AWK_ENOTREF` -/
  eposidx : E
  emaptoidx : E
  emaptopos : E
  enotref : E
  getVar : Var → S → V
  /-- `do_assignment_nonidx` -/
  setVar : Var → V → S → Except E (V × S)
  makeVar : Var → S → Except E (Unit × S)
  /-- A variable to be read with an index is made a map if it is nil. -/
  useMap : Var → S → Except E (Unit × S)
  /-- A variable to be assigned to with an index is made a map. -/
  assignMap : Var → S → Except E (Unit × S)
  getElem : Var → List Char → S → V
  setElem : Var → List Char → V → S → Except E (V × S)
  makeElem : Var → List Char → S → Except E (Unit × S)
  getField : ℤ → S → V
  /-- `qse_awk_rtx_setrec` of what a value is converted to -/
  setField : ℤ → V → S → Except E (V × S)
  binop : Op → V → V → S → Except E (V × S)
  /-- The value as a number, and the number that comes next or before -/
  number : Bool → V → S → Except E ((V × V) × S)
  /-- `qse_awk_rtx_setrefval` -/
  setRef : Place → V → S → Except E (Unit × S)

section Access

variable {S V E Expr Op : Type} (sem : Sem S V E Expr Op) (n : ℕ)

def evalIndex (e : Expr) : Comp S E (Event Expr) V := do
  note (.index n e)
  silent (sem.eval e)

/-- The loop of `idxnde_to_str` behind the first index -/
def restToStr : List Expr → List Char → Comp S E (Event Expr) (List Char)
  | [], str => pure str
  | e :: es, str => do
    let idx ← evalIndex sem n e
    let sep ← ask sem.subsep
    let more ← silent (sem.valtostr idx)
    restToStr es (str ++ sep ++ more)

def idxndeToStr (e : Expr) (es : List Expr) : Comp S E (Event Expr) (List Char) := do
  let idx ← evalIndex sem n e
  let str ← silent (sem.valtostr idx)
  restToStr sem n es str

def evalPosition (e : Expr) : Comp S E (Event Expr) ℤ := do
  let v ← evalIndex sem n e
  silent (sem.valtoint v)

/-- `eval_expression` of a target -/
def evalTarget : Target Expr → Comp S E (Event Expr) V
  | .var v => do
    note (.place n (.var v))
    ask (sem.getVar v)
  | .idx v e es => do
    silent (sem.makeVar v)
    silent (sem.useMap v)
    let str ← idxndeToStr sem n e es
    note (.place n (.elem v str))
    ask (sem.getElem v str)
  | .pos e => do
    let lv ← evalPosition sem n e
    if lv < 0 then fail sem.eposidx
    else do
      note (.place n (.field lv))
      ask (sem.getField lv)

def doAssignment (val : V) : Target Expr → Comp S E (Event Expr) V
  | .var v => do
    note (.place n (.var v))
    silent (sem.setVar v val)
  | .idx v e es =>
    if sem.isMap val then fail sem.emaptoidx
    else do
      silent (sem.assignMap v)
      let str ← idxndeToStr sem n e es
      note (.place n (.elem v str))
      silent (sem.setElem v str val)
  | .pos e =>
    if sem.isMap val then fail sem.emaptopos
    else do
      let lv ← evalPosition sem n e
      if sem.isValidPosidx lv then do
        note (.place n (.field lv))
        silent (sem.setField lv val)
      else fail sem.eposidx

def getReference : Target Expr → Comp S E (Event Expr) Place
  | .var v => do
    silent (sem.makeVar v)
    note (.place n (.var v))
    pure (.var v)
  | .idx v e es => do
    silent (sem.makeVar v)
    silent (sem.useMap v)
    let str ← idxndeToStr sem n e es
    silent (sem.makeElem v str)
    note (.place n (.elem v str))
    pure (.elem v str)
  | .pos e => do
    let lv ← evalPosition sem n e
    if sem.isValidPosidx lv then do
      note (.place n (.field lv))
      pure (.field lv)
    else fail sem.eposidx

end Access

section Operations

variable {S V E Expr Op : Type} (sem : Sem S V E Expr Op)

/-- `eval_assignment`, where there is no operator in a plain assignment -/
def evalAssignment (t : Target Expr) (op : Option Op) (right : Expr) : Comp S E (Event Expr) V := do
  let val ← silent (sem.eval right)
  match op with
  | none => doAssignment sem 0 val t
  | some op => do
    let val2 ← evalTarget sem 0 t
    let tmp ← silent (sem.binop op val2 val)
    doAssignment sem 0 tmp t

def evalIncpre (t : Target Expr) (plus : Bool) : Comp S E (Event Expr) V := do
  let left ← evalTarget sem 0 t
  let res ← silent (sem.number plus left)
  let _ ← doAssignment sem 0 res.2 t
  pure res.2

def evalIncpst (t : Target Expr) (plus : Bool) : Comp S E (Event Expr) V := do
  let left ← evalTarget sem 0 t
  let res ← silent (sem.number plus left)
  let _ ← doAssignment sem 0 res.2 t
  pure res.1

/-! ## Calls -/

inductive Arg (Expr : Type) where
  | target (t : Target Expr)
  | other (e : Expr)

inductive ArgVal (V : Type) where
  | val (v : V)
  | ref (p : Place)

def evalArg (n : ℕ) : Arg Expr → Comp S E (Event Expr) V
  | .target t => evalTarget sem n t
  | .other e => silent (sem.eval e)

/-- `get_reference` of an argument -/
def refArg (n : ℕ) : Arg Expr → Comp S E (Event Expr) Place
  | .target t => getReference sem n t
  | .other _ => fail sem.enotref

/-- An argument of `push_arg_from_nde`. The flag tells whether it is passed by reference. -/
def pushArg (spec : ℕ → Bool) (n : ℕ) (a : Arg Expr) : Comp S E (Event Expr) (ArgVal V) :=
  if spec n then do
    let p ← refArg sem n a
    pure (.ref p)
  else do
    let v ← evalArg sem n a
    pure (.val v)

/-- `push_arg_from_nde` -/
def pushArgs (spec : ℕ → Bool) : ℕ → List (Arg Expr) → Comp S E (Event Expr) (List (ArgVal V))
  | _, [] => pure []
  | n, a :: as => do
    let v ← pushArg sem spec n a
    let vs ← pushArgs spec (n + 1) as
    pure (v :: vs)

/-- The sanity check of `__eval_call` for the parameters that are passed by reference -/
def checkArgs (spec : ℕ → Bool) : ℕ → List (Arg Expr) → Comp S E (Event Expr) Unit
  | _, [] => pure ()
  | n, a :: as => do
    if spec n then do
      let _ ← refArg sem n a
      checkArgs spec (n + 1) as
    else checkArgs spec (n + 1) as

/-- The values of the parameters that are passed by reference are set back. The parameters are
there for all of the arguments. -/
def setBack (spec : ℕ → Bool) (param : ℕ → V) :
    ℕ → List (Arg Expr) → Comp S E (Event Expr) Unit
  | _, [] => pure ()
  | n, a :: as => do
    if spec n then do
      let p ← refArg sem n a
      silent (sem.setRef p (param n))
      setBack spec param (n + 1) as
    else setBack spec param (n + 1) as

def assignRefs (args : List (ArgVal V)) : List (ℕ × V) → Comp S E (Event Expr) Unit
  | [] => pure ()
  | (n, v) :: more => do
    match args[n]? with
    | some (.ref p) => do
      note (.place n p)
      silent (sem.setRef p v)
      assignRefs args more
    | _ => assignRefs args more

/-- `__eval_call` of a function of the program. Its body returns a value and leaves values in its
parameters. -/
def callFun (args : List (Arg Expr)) (argspec : ℕ → Bool)
    (body : List (ArgVal V) → S → Except E ((V × (ℕ → V)) × S)) : Comp S E (Event Expr) V := do
  let vals ← pushArgs sem (fun _ => false) 0 args
  checkArgs sem argspec 0 args
  let res ← silent (body vals)
  setBack sem argspec res.2 0 args
  pure res.1

/-- `__eval_call` of an intrinsic function, which returns a value and assigns through references -/
def callFnc (args : List (Arg Expr)) (spec : ℕ → Bool)
    (impl : List (ArgVal V) → S → Except E ((V × List (ℕ × V)) × S)) :
    Comp S E (Event Expr) V := do
  let vals ← pushArgs sem spec 0 args
  let res ← silent (impl vals)
  assignRefs sem vals res.2
  pure res.1

end Operations

end Qse.Awk
