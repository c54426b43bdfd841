import Qse.Awk.Arith

/-!
# Folding of constants

A translation of `fold_constants_for_binop` and of the parts of `parse_binary` and `parse_unary`
in `lib/awk/parse.c` that fold, for constants that are integers or floating-point numbers, and of
`eval_unary` in `lib/awk/run.c`. Allocations succeed.
-/

namespace Qse.Awk.Folding

open CheckedInt

variable {F : Type}

/-- `QSE_AWK_UNROP_PLUS` and so on -/
inductive UnrOp where
  | plus
  | minus
  | lnot
  | bnot
deriving DecidableEq

/-- `qse_awk_nde_int_t`, `qse_awk_nde_flt_t` and `qse_awk_nde_exp_t`. `str` is the text of a
literal. -/
inductive Node (F : Type) where
  | int (val : Int64) (str : Option (List UInt32))
  | flt (val : F) (str : Option (List UInt32))
  | expBin (opcode : ArithOp) (left right : Node F)
  | expUnr (opcode : UnrOp) (left : Node F)

/-- `QSE_AWK_NDE_INT` and so on -/
inductive NodeType where
  | int
  | flt
  | expBin
  | expUnr
deriving DecidableEq

def Node.type : Node F → NodeType
  | .int _ _ => .int
  | .flt _ _ => .flt
  | .expBin _ _ _ => .expBin
  | .expUnr _ _ => .expUnr

inductive Stop where
  | error (e : ArithErr)
  /-- an integer is divided by zero -/
  | divByZero
  /-- a node is read or written as one of another type -/
  | misread
  | undefined (u : Undefined)
deriving DecidableEq

/-- `((qse_awk_nde_int_t*)x)->val` -/
def Node.intVal : Node F → Except Stop Int64
  | .int val _ => .ok val
  | _ => .error .misread

/-- `((qse_awk_nde_flt_t*)x)->val` -/
def Node.fltVal : Node F → Except Stop F
  | .flt val _ => .ok val
  | _ => .error .misread

def updateIntNode : Node F → Int64 → Except Stop (Node F)
  | .int _ _, lv => .ok (.int lv none)
  | _, _ => .error .misread

def updateFltNode : Node F → F → Except Stop (Node F)
  | .flt _ _, rv => .ok (.flt rv none)
  | _, _ => .error .misread

def newIntNode (lv : Int64) : Node F := .int lv none

def newFltNode (rv : F) : Node F := .flt rv none

/-! ## Folding -/

section Fold

variable (ar : FltArith F)

def checked {α : Type} (x : Except Undefined α) : Except Stop α := x.mapError .undefined

/-- `/` and `%`, which are executed whatever the divisor is -/
def divide (op : Int64 → Int64 → Except Undefined Int64) (l r : Int64) : Except Stop Int64 :=
  if r = 0 then .error .divByZero else checked (op l r)

def intBinopInt (left : Node F) (op : Int64 → Int64 → Except Stop Int64) (right : Node F) :
    Except Stop Int64 := do
  op (← left.intVal) (← right.intVal)

def intBinopFlt (left : Node F) (op : F → F → F) (right : Node F) : Except Stop F := do
  return op (ar.ofInt (← left.intVal)) (← right.fltVal)

def fltBinopInt (left : Node F) (op : F → F → F) (right : Node F) : Except Stop F := do
  return op (← left.fltVal) (ar.ofInt (← right.intVal))

def fltBinopFlt (left : Node F) (op : F → F → F) (right : Node F) : Except Stop F := do
  return op (← left.fltVal) (← right.fltVal)

/-- `folded_t`, with the type of the constant -/
inductive Folded (F : Type) where
  | int (l : Int64)
  | flt (r : F)

/-- The branch of `fold_constants_for_binop` for two integers; `none` is no folding. -/
def foldIntInt (left right : Node F) : ArithOp → Except Stop (Option (Folded F))
  | .plus => return some (.int (← intBinopInt left (fun l r => checked (add l r)) right))
  | .minus => return some (.int (← intBinopInt left (fun l r => checked
    (CheckedInt.sub l r)) right))
  | .mul => return some (.int (← intBinopInt left (fun l r => checked (mul l r)) right))
  | .div => do
    if (← right.intVal) = 0 then throw (.error .divby0)
    if (← intBinopInt left (divide mod) right) ≠ 0 then
      return some (.flt (ar.div (ar.ofInt (← left.intVal)) (ar.ofInt (← right.intVal))))
    else return some (.int (← intBinopInt left (divide CheckedInt.div) right))
  | .idiv => do
    if (← right.intVal) = 0 then throw (.error .divby0)
    return some (.int (← intBinopInt left (divide CheckedInt.div) right))
  -- there is no check for zero
  | .mod => return some (.int (← intBinopInt left (divide mod) right))
  | _ => return none

def foldFltFlt (left right : Node F) : ArithOp → Except Stop (Option (Folded F))
  | .plus => return some (.flt (← fltBinopFlt left ar.add right))
  | .minus => return some (.flt (← fltBinopFlt left ar.sub right))
  | .mul => return some (.flt (← fltBinopFlt left ar.mul right))
  | .div => return some (.flt (← fltBinopFlt left ar.div right))
  | .idiv => return some (.int (← checked (ar.toInt (← fltBinopFlt left ar.div right))))
  | .mod => return some (.flt (ar.mod (← left.fltVal) (← right.fltVal)))
  | _ => return none

def foldIntFlt (left right : Node F) : ArithOp → Except Stop (Option (Folded F))
  | .plus => return some (.flt (← intBinopFlt ar left ar.add right))
  | .minus => return some (.flt (← intBinopFlt ar left ar.sub right))
  | .mul => return some (.flt (← intBinopFlt ar left ar.mul right))
  | .div => return some (.flt (← intBinopFlt ar left ar.div right))
  | .idiv =>
    return some (.int (← checked (ar.toInt
      (ar.div (ar.ofInt (← left.intVal)) (← right.fltVal)))))
  | .mod => return some (.flt (ar.mod (ar.ofInt (← left.intVal)) (← right.fltVal)))
  | _ => return none

def foldFltInt (left right : Node F) : ArithOp → Except Stop (Option (Folded F))
  | .plus => return some (.flt (← fltBinopInt ar left ar.add right))
  | .minus => return some (.flt (← fltBinopInt ar left ar.sub right))
  | .mul => return some (.flt (← fltBinopInt ar left ar.mul right))
  | .div => return some (.flt (← fltBinopInt ar left ar.div right))
  -- the dividend is read as an integer
  | .idiv =>
    return some (.int (← checked (ar.toInt
      (ar.div (ar.ofInt (← left.intVal)) (ar.ofInt (← right.intVal))))))
  | .mod => return some (.flt (ar.mod (← left.fltVal) (ar.ofInt (← right.intVal))))
  | _ => return none

def foldConstantsForBinop (left right : Node F) (opcode : ArithOp) :
    Except Stop (Option (Folded F)) :=
  if left.type = .int ∧ right.type = .int then foldIntInt ar left right opcode
  else if left.type = .flt ∧ right.type = .flt then foldFltFlt ar left right opcode
  else if left.type = .int ∧ right.type = .flt then foldIntFlt ar left right opcode
  else if left.type = .flt ∧ right.type = .int then foldFltInt ar left right opcode
  else return none

/-- What `parse_binary` makes of the two operands of an operator. -/
def parseBinary (opcode : ArithOp) (left right : Node F) : Except Stop (Node F) := do
  match ← foldConstantsForBinop ar left right opcode with
  | some (.int l) =>
    if left.type = .int then updateIntNode left l
    else if right.type = .int then updateIntNode right l
    else return newIntNode l
  | some (.flt r) =>
    if left.type = .flt then updateFltNode left r
    else if right.type = .flt then updateFltNode right r
    else return newFltNode r
  | none => return .expBin opcode left right

/-- The integer `!x` for a number `x` of which it is known whether it is zero. -/
def lnot (zero : Bool) : Int64 := if zero then 1 else 0

/-- The folding of `parse_unary`. -/
def foldUnary (left : Node F) (opcode : UnrOp) : Except Stop (Option (Folded F)) :=
  if left.type = .int then
    match opcode with
    | .plus => return some (.int (← left.intVal))
    | .minus => return some (.int (← checked (neg (← left.intVal))))
    | .lnot => return some (.int (lnot ((← left.intVal) = 0)))
    | .bnot => return some (.int (~~~(← left.intVal)))
  else if left.type = .flt then
    match opcode with
    | .plus => return some (.flt (← left.fltVal))
    | .minus => return some (.flt (ar.neg (← left.fltVal)))
    | .lnot => return some (.flt (ar.ofInt (lnot (ar.isZero (← left.fltVal)))))
    | .bnot => return some (.int (~~~(← checked (ar.toInt (← left.fltVal)))))
  else return none

/-- What `parse_unary` makes of the operand of an operator. -/
def parseUnary (opcode : UnrOp) (left : Node F) : Except Stop (Node F) := do
  match ← foldUnary ar left opcode with
  | some (.int l) => if left.type = .int then updateIntNode left l else return newIntNode l
  | some (.flt r) => if left.type = .flt then updateFltNode left r else return newFltNode r
  | none => return .expUnr opcode left

end Fold

/-! ## Expressions -/

/-- `+`, `-`, `*`, `/`, `\` and `%` -/
inductive BinOp where
  | plus
  | minus
  | mul
  | div
  | idiv
  | mod
deriving DecidableEq

def BinOp.opcode : BinOp → ArithOp
  | .plus => .plus
  | .minus => .minus
  | .mul => .mul
  | .div => .div
  | .idiv => .idiv
  | .mod => .mod

inductive Expr (F : Type) where
  | int (val : Int64) (text : List UInt32)
  | flt (val : F) (text : List UInt32)
  | unary (op : UnrOp) (e : Expr F)
  | binary (op : BinOp) (left right : Expr F)

section Meaning

variable (ar : FltArith F)

def parse : Expr F → Except Stop (Node F)
  | .int val text => return .int val (some text)
  | .flt val text => return .flt val (some text)
  | .unary op e => do
    let left ← parse e
    parseUnary ar op left
  | .binary op l r => do
    let left ← parse l
    let right ← parse r
    parseBinary ar op.opcode left right

def answered : Except Undefined (Answer F) → Except Stop (Num F)
  | .ok (.ok x) => .ok x
  | .ok (.error e) => .error (.error e)
  | .error u => .error (.undefined u)

/-- `eval_unary` for a number. -/
def evalUnary (op : UnrOp) (left : Num F) : Except Stop (Num F) :=
  match op, left with
  | .plus, x => return x
  | .minus, x => answered (evalUnaryMinus ar (some x))
  | .lnot, .int l => return .int (lnot (l = 0))
  | .lnot, .flt r => return .flt (ar.ofInt (lnot (ar.isZero r)))
  | .bnot, x => return .int (~~~(← checked (valtoint ar x)))

/-- `eval_expression` of the tree in which nothing is folded. -/
def evaluate : Expr F → Except Stop (Num F)
  | .int val _ => return .int val
  | .flt val _ => return .flt val
  | .unary op e => do
    let x ← evaluate e
    evalUnary ar op x
  | .binary op l r => do
    let x ← evaluate l
    let y ← evaluate r
    answered (evalBinop ar op.opcode (some x) (some y))

end Meaning

def Node.constant : Node F → Option (Num F)
  | .int val _ => some (.int val)
  | .flt val _ => some (.flt val)
  | _ => none

/-- The operators that are folded wrongly: an integer remainder by zero, and the integer quotient
of a floating-point number by an integer. -/
def Slips : BinOp → Num F → Num F → Prop
  | .mod, .int _, .int r => r = 0
  | .idiv, .flt _, .int _ => True
  | _, _, _ => False

section Agreement

variable {ar : FltArith F} {left right : Node F} {x y : Num F} {p : Except Stop (Node F)}
  {v : Except Stop (Num F)}

/-- The parser has the constant that the evaluator has, or ends in the same way, and it neither
divides by zero nor reads a node as one of another type. -/
def Agrees (p : Except Stop (Node F)) (v : Except Stop (Num F)) : Prop :=
  p.map Node.constant = v.map some ∧ p ≠ .error .divByZero ∧ p ≠ .error .misread

def ReachesSlip (ar : FltArith F) : Expr F → Prop
  | .int _ _ => False
  | .flt _ _ => False
  | .unary _ e => ReachesSlip ar e
  | .binary op l r =>
    ReachesSlip ar l ∨ ∃ x, evaluate ar l = .ok x ∧
      (ReachesSlip ar r ∨ ∃ y, evaluate ar r = .ok y ∧ Slips op x y)

theorem agrees_ok {n : Node F} (h : n.constant = some x) : Agrees (.ok n) (.ok x) := by
  refine ⟨?_, by simp, by simp⟩
  rw [Except.map, Except.map, h]

theorem agrees_stop {s : Stop} (hzero : s ≠ .divByZero) (hmisread : s ≠ .misread) :
    Agrees (F := F) (.error s) (.error s) :=
  ⟨rfl, by simpa using hzero, by simpa using hmisread⟩

theorem agrees_error (e : ArithErr) : Agrees (F := F) (.error (.error e)) (.error (.error e)) :=
  agrees_stop (by simp) (by simp)

theorem agrees_undefined (u : Undefined) :
    Agrees (F := F) (.error (.undefined u)) (.error (.undefined u)) :=
  agrees_stop (by simp) (by simp)

theorem Agrees.cases (h : Agrees p v) :
    (∃ n x, p = .ok n ∧ v = .ok x ∧ n.constant = some x) ∨
      ∃ s, p = .error s ∧ v = .error s ∧ s ≠ .divByZero ∧ s ≠ .misread := by
  obtain ⟨hmap, hzero, hmisread⟩ := h
  cases p with
  | ok n =>
    cases v with
    | ok x => exact .inl ⟨n, x, rfl, rfl, Except.ok.inj hmap⟩
    | error s => cases hmap
  | error s =>
    cases v with
    | ok x => cases hmap
    | error s' =>
      obtain rfl := Except.error.inj hmap
      exact .inr ⟨s, rfl, rfl, by simpa using hzero, by simpa using hmisread⟩

theorem Node.constant_cases {n : Node F} (h : n.constant = some x) :
    (∃ val str, n = .int val str ∧ x = .int val) ∨ ∃ val str, n = .flt val str ∧ x = .flt val := by
  cases n with
  | int val str => exact .inl ⟨val, str, rfl, (Option.some.inj h).symm⟩
  | flt val str => exact .inr ⟨val, str, rfl, (Option.some.inj h).symm⟩
  | expBin opcode left right | expUnr opcode left => cases h

theorem agrees_int {α : Type} {u : Except Undefined Int64} {f : Int64 → Except Stop α}
    {g : α → Except Stop (Node F)} (h : ∀ z, (f z >>= g) = .ok (newIntNode z)) :
    Agrees (checked u >>= f >>= g) (answered (makeintval u)) := by
  cases u with
  | ok z => exact (h z) ▸ agrees_ok rfl
  | error u => exact agrees_undefined u

/-! ## One operator -/

section Integers

variable {l r : Int64} {s s' : Option (List UInt32)}

theorem divide_eq {op : Int64 → Int64 → Except Undefined Int64} (hr : r ≠ 0) :
    divide op l r = checked (op l r) := if_neg hr

theorem parseBinary_div :
    Agrees (parseBinary ar .div (.int l s) (.int r s'))
      (answered (evalBinop ar .div (some (.int l)) (some (.int r)))) := by
  change Agrees ((if r = 0 then _ else _) >>= _) (answered (if r = 0 then _ else _))
  by_cases hr : r = 0
  · rw [if_pos hr, if_pos hr]
    exact agrees_error .divby0
  rw [if_neg hr, if_neg hr]
  change Agrees ((divide mod l r >>= _) >>= _) (answered (mod l r >>= _))
  rw [divide_eq hr]
  cases mod l r with
  | error u => exact agrees_undefined u
  | ok z =>
    change Agrees ((if z ≠ 0 then _ else _) >>= _) (answered (if z = 0 then _ else _))
    by_cases hz : z = 0
    · rw [if_neg (not_not.mpr hz), if_pos hz]
      change Agrees (divide CheckedInt.div l r >>= _ >>= _) _
      rw [divide_eq hr]
      exact agrees_int fun _ => rfl
    · rw [if_pos hz, if_neg hz]
      exact agrees_ok rfl

theorem parseBinary_idiv :
    Agrees (parseBinary ar .idiv (.int l s) (.int r s'))
      (answered (evalBinop ar .idiv (some (.int l)) (some (.int r)))) := by
  change Agrees ((if r = 0 then _ else _) >>= _) (answered (if r = 0 then _ else _))
  by_cases hr : r = 0
  · rw [if_pos hr, if_pos hr]
    exact agrees_error .divby0
  · rw [if_neg hr, if_neg hr]
    change Agrees (divide CheckedInt.div l r >>= _ >>= _) _
    rw [divide_eq hr]
    exact agrees_int fun _ => rfl

theorem parseBinary_mod (hr : r ≠ 0) :
    Agrees (parseBinary ar .mod (.int l s) (.int r s'))
      (answered (evalBinop ar .mod (some (.int l)) (some (.int r)))) := by
  change Agrees (divide mod l r >>= _ >>= _) (answered (if r = 0 then _ else _))
  rw [divide_eq hr, if_neg hr]
  exact agrees_int fun _ => rfl

end Integers

theorem parseBinary_agrees {op : BinOp} (hleft : left.constant = some x)
    (hright : right.constant = some y) (hslips : ¬Slips op x y) :
    Agrees (parseBinary ar op.opcode left right)
      (answered (evalBinop ar op.opcode (some x) (some y))) := by
  obtain ⟨l, s, rfl, rfl⟩ | ⟨l, s, rfl, rfl⟩ := Node.constant_cases hleft <;>
    obtain ⟨r, s', rfl, rfl⟩ | ⟨r, s', rfl, rfl⟩ := Node.constant_cases hright
  · cases op with
    | plus | minus | mul => exact agrees_int fun _ => rfl
    | div => exact parseBinary_div
    | idiv => exact parseBinary_idiv
    | mod => exact parseBinary_mod hslips
  · cases op with
    | idiv => exact agrees_int fun _ => rfl
    | _ => exact agrees_ok rfl
  · cases op with
    | idiv => exact absurd trivial hslips
    | _ => exact agrees_ok rfl
  · cases op with
    | idiv => exact agrees_int fun _ => rfl
    | _ => exact agrees_ok rfl

theorem parseBinary_slips {op : BinOp} (hleft : left.constant = some x)
    (hright : right.constant = some y) (hslips : Slips op x y) :
    parseBinary ar op.opcode left right = .error .divByZero ∨
      parseBinary ar op.opcode left right = .error .misread := by
  obtain ⟨l, s, rfl, rfl⟩ | ⟨l, s, rfl, rfl⟩ := Node.constant_cases hleft <;>
    obtain ⟨r, s', rfl, rfl⟩ | ⟨r, s', rfl, rfl⟩ := Node.constant_cases hright
  · cases op with
    | mod =>
      obtain rfl : r = 0 := hslips
      exact .inl rfl
    | _ => exact hslips.elim
  · cases op <;> exact hslips.elim
  · cases op with
    | idiv => exact .inr rfl
    | _ => exact hslips.elim
  · cases op <;> exact hslips.elim

theorem parseUnary_agrees {op : UnrOp} (hleft : left.constant = some x) :
    Agrees (parseUnary ar op left) (evalUnary ar op x) := by
  obtain ⟨l, s, rfl, rfl⟩ | ⟨l, s, rfl, rfl⟩ := Node.constant_cases hleft
  · cases op with
    | plus | lnot | bnot => exact agrees_ok rfl
    | minus => exact agrees_int fun _ => rfl
  · cases op with
    | plus | minus | lnot => exact agrees_ok rfl
    | bnot =>
      change Agrees (checked (ar.toInt l) >>= _ >>= _) (checked (ar.toInt l) >>= _)
      cases ar.toInt l with
      | ok z => exact agrees_ok rfl
      | error u => exact agrees_undefined u

theorem parse_agrees {e : Expr F} (h : ¬ReachesSlip ar e) :
    Agrees (parse ar e) (evaluate ar e) := by
  induction e with
  | int val text | flt val text => exact agrees_ok rfl
  | unary op e ih =>
    rw [parse, evaluate]
    obtain ⟨n, x, hparse, heval, hconst⟩ | ⟨s, hparse, heval, hzero, hmisread⟩ := (ih h).cases
    · rw [hparse, heval]
      exact parseUnary_agrees hconst
    · rw [hparse, heval]
      exact agrees_stop hzero hmisread
  | binary op l r ihl ihr =>
    rw [ReachesSlip, not_or, not_exists] at h
    rw [parse, evaluate]
    obtain ⟨n, x, hparse, heval, hconst⟩ | ⟨s, hparse, heval, hzero, hmisread⟩ :=
      (ihl h.1).cases
    · have hright := not_or.mp (not_and.mp (h.2 x) heval)
      rw [hparse, heval]
      obtain ⟨n', y, hparse', heval', hconst'⟩ | ⟨s, hparse', heval', hzero, hmisread⟩ :=
        (ihr hright.1).cases
      · rw [hparse', heval']
        exact parseBinary_agrees hconst hconst' fun hslips => hright.2 ⟨y, heval', hslips⟩
      · rw [hparse', heval']
        exact agrees_stop hzero hmisread
    · rw [hparse, heval]
      exact agrees_stop hzero hmisread

theorem parse_slips {e : Expr F} (h : ReachesSlip ar e) :
    parse ar e = .error .divByZero ∨ parse ar e = .error .misread := by
  induction e with
  | int val text | flt val text => exact h.elim
  | unary op e ih =>
    rw [parse]
    exact (ih h).imp (fun hparse => by rw [hparse]; rfl) fun hparse => by rw [hparse]; rfl
  | binary op l r ihl ihr =>
    rw [parse]
    by_cases hl : ReachesSlip ar l
    · exact (ihl hl).imp (fun hparse => by rw [hparse]; rfl) fun hparse => by rw [hparse]; rfl
    obtain ⟨x, heval, hright⟩ := h.resolve_left hl
    obtain ⟨n, x', hparse, heval', hconst⟩ | ⟨s, _, heval', _⟩ := (parse_agrees hl).cases
    · obtain rfl := Except.ok.inj (heval.symm.trans heval')
      rw [hparse]
      by_cases hr : ReachesSlip ar r
      · exact (ihr hr).imp (fun hparse => by rw [hparse]; rfl) fun hparse => by rw [hparse]; rfl
      obtain ⟨y, hevalr, hslips⟩ := hright.resolve_left hr
      obtain ⟨n', y', hparse', hevalr', hconst'⟩ | ⟨s, _, hevalr', _⟩ := (parse_agrees hr).cases
      · obtain rfl := Except.ok.inj (hevalr.symm.trans hevalr')
        rw [hparse']
        exact parseBinary_slips hconst hconst' hslips
      · cases hevalr.symm.trans hevalr'
    · cases heval.symm.trans heval'

/-- Folding a constant expression gives the value or the error that evaluating it gives, without
a division by zero and without reading a node as one of another type, just when it does not come
to an integer remainder by zero or to the integer quotient of a floating-point number by an
integer. -/
theorem parse_agrees_iff (ar : FltArith F) (e : Expr F) :
    Agrees (parse ar e) (evaluate ar e) ↔ ¬ReachesSlip ar e := by
  refine ⟨fun h hslip => ?_, parse_agrees⟩
  rcases parse_slips hslip with hparse | hparse
  · exact h.2.1 hparse
  · exact h.2.2 hparse

end Agreement

/-- `1 % 0` is divided when it is parsed, and the dividend of `7.5 \ 2` is read as an integer. -/
theorem not_parse_agrees :
    ¬Agrees (parse ratArith (.binary .mod (.int 1 []) (.int 0 [])))
        (evaluate ratArith (.binary .mod (.int 1 []) (.int 0 []))) ∧
      ¬Agrees (parse ratArith (.binary .idiv (.flt (15 / 2) []) (.int 2 [])))
        (evaluate ratArith (.binary .idiv (.flt (15 / 2) []) (.int 2 []))) :=
  ⟨fun h => h.2.1 rfl, fun h => h.2.2 rfl⟩

end Qse.Awk.Folding
