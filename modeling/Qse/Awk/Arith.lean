import Qse.Awk.Number
import Qse.Support.CheckedInt
import Mathlib.Algebra.Group.Int.Units

/-!
# Arithmetic

A translation of the arithmetic operators in `lib/awk/run.c`, of the table that compound assignments
use, and of the folding of constants in `lib/awk/parse.c`,
for constants that are integers. Integers
have 64 bits.

The zero divisors are checked, but for a remainder of two constants.
-/

namespace Qse.Awk

open CheckedInt

/-- Operations on floating-point numbers. Of the division it is only needed that it is exact for a
small quotient of small integers. -/
structure FltArith (F : Type) where
  ofInt : Int64 → F
  toInt : F → Except Undefined Int64
  add : F → F → F
  sub : F → F → F
  mul : F → F → F
  div : F → F → F
  neg : F → F
  /-- `prm.math.mod` and `prm.math.pow` -/
  mod : F → F → F
  pow : F → F → F
  /-- `== 0.0` -/
  isZero : F → Bool
  div_ofInt : ∀ l r q : Int64, r ≠ 0 → l.toInt = q.toInt * r.toInt →
    l.toInt.natAbs ≤ 2 ^ 53 → r.toInt.natAbs ≤ 2 ^ 53 → div (ofInt l) (ofInt r) = ofInt q

inductive ArithErr where
  /-- `QSE_AWK_EOPERAND` -/
  | operand
  /-- `QSE_AWK_EDIVBY0` -/
  | divby0
  /-- `QSE_AWK_EVALTONUM` -/
  | valtonum
deriving DecidableEq

abbrev Answer (F : Type) := Except ArithErr (Num F)

/-- The operators with two operands. -/
inductive ArithOp where
  | plus
  | minus
  | mul
  | div
  | idiv
  | mod
  | exp
  | rs
  | ls
deriving DecidableEq

variable {F : Type} (ar : FltArith F)

def makeintval (l : Except Undefined Int64) : Except Undefined (Answer F) :=
  l.map fun l => .ok (.int l)

def makefltval (r : F) : Except Undefined (Answer F) := .ok (.ok (.flt r))

/-- The cases of `n3`. What `qse_awk_rtx_valtonum` returns for an operand is `none` if it fails. -/
def byType (int : Int64 → Int64 → Except Undefined (Answer F))
    (flt : F → F → Except Undefined (Answer F)) :
    Option (Num F) → Option (Num F) → Except Undefined (Answer F)
  | some (.int l1), some (.int l2) => int l1 l2
  | some (.flt r1), some (.int l2) => flt r1 (ar.ofInt l2)
  | some (.int l1), some (.flt r2) => flt (ar.ofInt l1) r2
  | some (.flt r1), some (.flt r2) => flt r1 r2
  | _, _ => .ok (.error .operand)

/-- `qse_awk_rtx_valtoint` of a value for which `qse_awk_rtx_valtonum` returns the number -/
def valtoint : Num F → Except Undefined Int64
  | .int l => .ok l
  | .flt r => ar.toInt r

/-! ## Evaluation -/

/-- `eval_binop_lshift` and `eval_binop_rshift` -/
def evalBinopShift (shift : Int64 → Int64 → Except Undefined Int64) :
    Option (Num F) → Option (Num F) → Except Undefined (Answer F)
  | some left, some right =>
    makeintval do
      let l1 ← valtoint ar left
      let l2 ← valtoint ar right
      shift l1 l2
  | some left, none => do
    let _ ← valtoint ar left
    .ok (.error .operand)
  | none, _ => .ok (.error .operand)

def evalBinopLshift := evalBinopShift ar shl

def evalBinopRshift := evalBinopShift ar shr

def evalBinopPlus :=
  byType ar (fun l1 l2 => makeintval (add l1 l2)) fun r1 r2 => makefltval (ar.add r1 r2)

def evalBinopMinus :=
  byType ar (fun l1 l2 => makeintval (CheckedInt.sub l1 l2)) fun r1 r2 => makefltval (ar.sub r1 r2)

def evalBinopMul :=
  byType ar (fun l1 l2 => makeintval (mul l1 l2)) fun r1 r2 => makefltval (ar.mul r1 r2)

def evalBinopDiv :=
  byType ar
    (fun l1 l2 =>
      if l2 = 0 then .ok (.error .divby0)
      else do
        let rem ← mod l1 l2
        if rem = 0 then makeintval (div l1 l2)
        else makefltval (ar.div (ar.ofInt l1) (ar.ofInt l2)))
    fun r1 r2 => makefltval (ar.div r1 r2)

def evalBinopIdiv :=
  byType ar
    (fun l1 l2 => if l2 = 0 then .ok (.error .divby0) else makeintval (div l1 l2))
    fun r1 r2 => makeintval (ar.toInt (ar.div r1 r2))

def evalBinopMod :=
  byType ar
    (fun l1 l2 => if l2 = 0 then .ok (.error .divby0) else makeintval (mod l1 l2))
    fun r1 r2 => makefltval (ar.mod r1 r2)

/-- `while (l2-- > 0) v = step(v)` -/
def fltLoop (step : F → F) : ℕ → F → F
  | 0, v => v
  | k + 1, v => fltLoop step k (step v)

def evalBinopExp : Option (Num F) → Option (Num F) → Except Undefined (Answer F)
  | some (.int l1), some (.int l2) =>
    if 0 ≤ l2.toInt then makeintval (mulLoop l1 l2.toInt.toNat 1)
    else if l1 = 0 then .ok (.error .divby0)
    else do
      let l2 ← mul l2 (-1)
      makefltval (fltLoop (fun v => ar.div v (ar.ofInt l1)) l2.toInt.toNat (ar.ofInt 1))
  | some (.flt r1), some (.int l2) =>
    if 0 ≤ l2.toInt then
      makefltval (fltLoop (fun v => ar.mul v r1) l2.toInt.toNat (ar.ofInt 1))
    else if ar.isZero r1 then .ok (.error .divby0)
    else do
      let l2 ← mul l2 (-1)
      makefltval (fltLoop (fun v => ar.div v r1) l2.toInt.toNat (ar.ofInt 1))
  | some (.int l1), some (.flt r2) => makefltval (ar.pow (ar.ofInt l1) r2)
  | some (.flt r1), some (.flt r2) => makefltval (ar.pow r1 r2)
  | _, _ => .ok (.error .operand)

def evalBinop : ArithOp → Option (Num F) → Option (Num F) → Except Undefined (Answer F)
  | .plus => evalBinopPlus ar
  | .minus => evalBinopMinus ar
  | .mul => evalBinopMul ar
  | .div => evalBinopDiv ar
  | .idiv => evalBinopIdiv ar
  | .mod => evalBinopMod ar
  | .exp => evalBinopExp ar
  | .rs => evalBinopRshift ar
  | .ls => evalBinopLshift ar

/-- The minus of `eval_unary`, which keeps the error number of `qse_awk_rtx_valtonum` -/
def evalUnaryMinus : Option (Num F) → Except Undefined (Answer F)
  | some (.int l) => makeintval (neg l)
  | some (.flt r) => makefltval (ar.neg r)
  | none => .ok (.error .valtonum)

/-- `binop_func`, without the functions that are not about arithmetic -/
def binopFunc : List (Option (Num F) → Option (Num F) → Except Undefined (Answer F)) :=
  [evalBinopPlus ar, evalBinopMinus ar, evalBinopMul ar, evalBinopDiv ar, evalBinopIdiv ar,
    evalBinopMod ar, evalBinopExp ar, evalBinopRshift ar, evalBinopLshift ar]

/-- What `eval_assignment` assigns to a variable that has the value `val2`. -/
def assigned (op : ArithOp) (val2 val : Option (Num F)) : Except Undefined (Answer F) :=
  match (binopFunc ar)[op.ctorIdx]? with
  | some f => f val2 val
  | none => .error .trap

theorem assigned_eq (op : ArithOp) (val2 val : Option (Num F)) :
    assigned ar op val2 val = evalBinop ar op val2 val := by
  cases op <;> rfl

/-- `fold_constants_for_binop`, for two integers. -/
def foldConstantsForBinop (left right : Int64) :
    ArithOp → Option (Except Undefined (Answer F))
  | .plus => some (makeintval (add left right))
  | .minus => some (makeintval (CheckedInt.sub left right))
  | .mul => some (makeintval (mul left right))
  | .div => some (
      if right = 0 then .ok (.error .divby0)
      else do
        let rem ← mod left right
        if rem ≠ 0 then makefltval (ar.div (ar.ofInt left) (ar.ofInt right))
        else makeintval (div left right))
  | .idiv => some (if right = 0 then .ok (.error .divby0) else makeintval (div left right))
  -- there is no check for zero
  | .mod => some (makeintval (mod left right))
  | .exp => none
  | .rs => none
  | .ls => none

/-- An expression with two constants, which is evaluated when it has not been folded -/
def constants (op : ArithOp) (left right : Int64) : Except Undefined (Answer F) :=
  match foldConstantsForBinop ar left right op with
  | some res => res
  | none => evalBinop ar op (some (.int left)) (some (.int right))

/-- What `parse_unary` folds the negative of a constant into -/
def foldUnaryMinus (left : Int64) : Except Undefined (Answer F) := makeintval (neg left)

/-! ## What the arithmetic operators compute -/

inductive Calc where
  | eval (op : ArithOp) (l r : Int64)
  | assign (op : ArithOp) (l r : Int64)
  | constants (op : ArithOp) (l r : Int64)
  | unaryMinus (l : Int64)
  | constantMinus (l : Int64)

def ArithOp.Exact (l r z : ℤ) : ArithOp → Prop
  | .plus => z = l + r
  | .minus => z = l - r
  | .mul => z = l * r
  | .div => r ≠ 0 ∧ z * r = l
  | .idiv => r ≠ 0 ∧ z = l.tdiv r
  | .mod => r ≠ 0 ∧ z = l.tmod r
  | .exp => if 0 ≤ r then z = l ^ r.toNat else z * l ^ (-r).toNat = 1
  | .rs => 0 ≤ r ∧ z = l / 2 ^ r.toNat
  | .ls => 0 ≤ r ∧ z = l * 2 ^ r.toNat

/-- Operands with which an operator does nothing undefined. The left operand of a shift to the left
must not be negative. -/
def ArithOp.Safe (l r : ℤ) : ArithOp → Prop
  | .plus => Fits (l + r)
  | .minus => Fits (l - r)
  | .mul => Fits (l * r)
  | .div => ¬(l = -2 ^ 63 ∧ r = -1)
  | .idiv => ¬(l = -2 ^ 63 ∧ r = -1)
  | .mod => ¬(l = -2 ^ 63 ∧ r = -1)
  | .exp => if 0 ≤ r then Fits (l ^ r.toNat) else l ≠ 0 → r ≠ -2 ^ 63
  | .rs => 0 ≤ r ∧ r < 64
  | .ls => (0 ≤ r ∧ r < 64) ∧ 0 ≤ l ∧ Fits (l * 2 ^ r.toNat)

namespace Calc

def Exact (z : ℤ) : Calc → Prop
  | eval op l r => op.Exact l.toInt r.toInt z
  | assign op l r => op.Exact l.toInt r.toInt z
  | constants op l r => op.Exact l.toInt r.toInt z
  | unaryMinus l => z = -l.toInt
  | constantMinus l => z = -l.toInt

def Safe : Calc → Prop
  | eval op l r => op.Safe l.toInt r.toInt
  | assign op l r => op.Safe l.toInt r.toInt
  | constants op l r => op.Safe l.toInt r.toInt ∧ (op = .mod → r ≠ 0)
  | unaryMinus l => l.toInt ≠ -2 ^ 63
  | constantMinus l => l.toInt ≠ -2 ^ 63

variable {F : Type} (ar : FltArith F)

def outcome : Calc → Except Undefined (Answer F)
  | eval op l r => evalBinop ar op (some (.int l)) (some (.int r))
  | assign op l r => assigned ar op (some (.int l)) (some (.int r))
  | constants op l r => Awk.constants ar op l r
  | unaryMinus l => evalUnaryMinus ar (some (.int l))
  | constantMinus l => foldUnaryMinus l

end Calc

section Correct

variable {F : Type} (ar : FltArith F)

def Num.Is (z : ℤ) : Num F → Prop
  | .int l => l.toInt = z
  | .flt r => r = ar.ofInt (.ofInt z)

/-- Nothing undefined is done, and the exact result is returned if it is an integer that fits. -/
def Correct (outcome : Except Undefined (Answer F)) (exact : ℤ → Prop) : Prop :=
  ∃ answer, outcome = .ok answer ∧ ∀ z, exact z → Fits z → ∃ num, answer = .ok num ∧ Num.Is ar z num

def Calc.Correct (c : Calc) : Prop := Awk.Correct ar (c.outcome ar) fun z => c.Exact z

variable {ar} {exact : ℤ → Prop} {l r : Int64}

theorem correct_makeintval {x : Except Undefined Int64} : Correct ar (makeintval x) exact ↔
    ∃ i, x = .ok i ∧ ∀ z, exact z → Fits z → i.toInt = z := by
  constructor
  · rintro ⟨answer, hout, hval⟩
    cases x with
    | error e => cases hout
    | ok i =>
      cases hout
      refine ⟨i, rfl, fun z hz hfits => ?_⟩
      obtain ⟨num, hnum, his⟩ := hval z hz hfits
      cases hnum
      exact his
  · rintro ⟨i, rfl, hval⟩
    exact ⟨_, rfl, fun z hz hfits => ⟨.int i, rfl, hval z hz hfits⟩⟩

theorem correct_error {e : ArithErr} (h : ∀ z, ¬exact z) : Correct ar (.ok (.error e)) exact :=
  ⟨_, rfl, fun z hz _ => absurd hz (h z)⟩

theorem correct_makefltval {f : F} (h : ∀ z, exact z → Fits z → f = ar.ofInt (.ofInt z)) :
    Correct ar (makefltval f) exact :=
  ⟨_, rfl, fun z hz hfits => ⟨.flt f, rfl, h z hz hfits⟩⟩

theorem not_correct {e : Undefined} : ¬Correct ar (.error e) exact := by
  rintro ⟨answer, hout, -⟩
  cases hout

theorem correct_exactly {w : ℤ} : Correct ar (makeintval (exactly w)) (· = w) ↔ Fits w := by
  rw [correct_makeintval, ← exists_exactly]
  constructor
  · rintro ⟨i, hi, -⟩
    exact ⟨i, hi⟩
  · rintro ⟨i, hi⟩
    refine ⟨i, hi, ?_⟩
    rintro z rfl -
    exact exactly_eq_ok.1 hi

theorem toInt_eq_zero : r.toInt = 0 ↔ r = 0 := by
  constructor
  · intro h
    exact Int64.toInt_inj.1 h
  · rintro rfl
    rfl

/-! ## Quotients and remainders -/

theorem exists_div (hr : r ≠ 0) : (∃ i, div l r = .ok i) ↔ ¬(l.toInt = -2 ^ 63 ∧ r.toInt = -1) := by
  have hr' : r.toInt ≠ 0 := fun h => hr (toInt_eq_zero.1 h)
  constructor
  · rintro ⟨i, hi⟩
    exact (div_eq_ok.1 hi).2.1
  · intro hcase
    refine ⟨.ofInt (l.toInt.tdiv r.toInt), div_eq_ok.2 ⟨hr', hcase, ?_⟩⟩
    exact toInt_ofInt ((fits_tdiv hr').2 hcase)

theorem exists_mod (hr : r ≠ 0) : (∃ i, mod l r = .ok i) ↔ ¬(l.toInt = -2 ^ 63 ∧ r.toInt = -1) := by
  have hr' : r.toInt ≠ 0 := fun h => hr (toInt_eq_zero.1 h)
  constructor
  · rintro ⟨i, hi⟩
    exact (mod_eq_ok.1 hi).2.1
  · intro hcase
    exact ⟨_, if_pos ⟨hr', (fits_tdiv hr').2 hcase⟩⟩

theorem safe_zero (hr : r = 0) : ¬(l.toInt = -2 ^ 63 ∧ r.toInt = -1) := by
  rintro ⟨-, hone⟩
  rw [toInt_eq_zero.2 hr] at hone
  exact absurd hone (by decide)

theorem correct_checked (op : ArithOp) {x : Except Undefined (Answer F)}
    (hne : ∀ z, ArithOp.Exact l.toInt r.toInt z op → r.toInt ≠ 0)
    (hsafe : r = 0 → ArithOp.Safe l.toInt r.toInt op)
    (hx : r ≠ 0 → (Correct ar x (fun z => ArithOp.Exact l.toInt r.toInt z op) ↔
      ArithOp.Safe l.toInt r.toInt op)) :
    Correct ar (if r = 0 then .ok (.error .divby0) else x)
      (fun z => ArithOp.Exact l.toInt r.toInt z op) ↔ ArithOp.Safe l.toInt r.toInt op := by
  by_cases hr : r = 0
  · rw [if_pos hr]
    exact iff_of_true (correct_error fun z h => hne z h (toInt_eq_zero.2 hr)) (hsafe hr)
  · rw [if_neg hr]
    exact hx hr

theorem correct_idiv_nonzero (hr : r ≠ 0) :
    Correct ar (makeintval (div l r)) (fun z => ArithOp.Exact l.toInt r.toInt z .idiv) ↔
      ¬(l.toInt = -2 ^ 63 ∧ r.toInt = -1) := by
  rw [correct_makeintval, ← exists_div hr]
  constructor
  · rintro ⟨i, hi, -⟩
    exact ⟨i, hi⟩
  · rintro ⟨i, hi⟩
    refine ⟨i, hi, ?_⟩
    rintro z ⟨-, rfl⟩ -
    exact (div_eq_ok.1 hi).2.2

theorem correct_idiv :
    Correct ar (if r = 0 then .ok (.error .divby0) else makeintval (div l r))
      (fun z => ArithOp.Exact l.toInt r.toInt z .idiv) ↔ ArithOp.Safe l.toInt r.toInt .idiv := by
  apply correct_checked .idiv (fun z h => h.1) safe_zero correct_idiv_nonzero

theorem correct_mod_nonzero (hr : r ≠ 0) :
    Correct ar (makeintval (mod l r)) (fun z => ArithOp.Exact l.toInt r.toInt z .mod) ↔
      ArithOp.Safe l.toInt r.toInt .mod := by
  rw [correct_makeintval, ArithOp.Safe, ← exists_mod hr]
  constructor
  · rintro ⟨i, hi, -⟩
    exact ⟨i, hi⟩
  · rintro ⟨i, hi⟩
    refine ⟨i, hi, ?_⟩
    rintro z ⟨-, rfl⟩ -
    exact (mod_eq_ok.1 hi).2.2

theorem correct_mod :
    Correct ar (if r = 0 then .ok (.error .divby0) else makeintval (mod l r))
      (fun z => ArithOp.Exact l.toInt r.toInt z .mod) ↔ ArithOp.Safe l.toInt r.toInt .mod := by
  apply correct_checked .mod (fun z h => h.1) safe_zero correct_mod_nonzero

theorem correct_mod_unchecked :
    Correct ar (makeintval (mod l r)) (fun z => ArithOp.Exact l.toInt r.toInt z .mod) ↔
      ArithOp.Safe l.toInt r.toInt .mod ∧ r ≠ 0 := by
  by_cases hr : r = 0
  · refine iff_of_false ?_ fun h => h.2 hr
    rw [correct_makeintval]
    rintro ⟨i, hi, -⟩
    exact (mod_eq_ok.1 hi).1 (toInt_eq_zero.2 hr)
  · rw [correct_mod_nonzero hr]
    exact ⟨fun h => ⟨h, hr⟩, And.left⟩

theorem correct_div_nonzero (hr : r ≠ 0) {f : F} :
    Correct ar (do
        let rem ← mod l r
        if rem = 0 then makeintval (div l r) else makefltval f)
      (fun z => ArithOp.Exact l.toInt r.toInt z .div) ↔ ArithOp.Safe l.toInt r.toInt .div := by
  have hr' : r.toInt ≠ 0 := fun h => hr (toInt_eq_zero.1 h)
  constructor
  · intro h
    refine (exists_mod hr).1 ?_
    cases hmod : mod l r with
    | error e =>
      rw [hmod] at h
      exact absurd h not_correct
    | ok rem => exact ⟨rem, rfl⟩
  · intro hsafe
    obtain ⟨rem, hmod⟩ := (exists_mod hr).2 hsafe
    obtain ⟨-, -, hrem⟩ := mod_eq_ok.1 hmod
    have hcut : ∀ z : ℤ, z * r.toInt = l.toInt → z = l.toInt.tdiv r.toInt ∧ rem = 0 := by
      rintro z hz
      rw [← toInt_eq_zero, hrem, ← hz]
      exact ⟨(Int.mul_tdiv_cancel _ hr').symm, Int.mul_tmod_left ..⟩
    rw [hmod]
    by_cases hzero : rem = 0
    · obtain ⟨i, hi⟩ := (exists_div hr).2 hsafe
      have hdiv : Correct ar (makeintval (div l r))
          (fun z => ArithOp.Exact l.toInt r.toInt z .div) := by
        refine correct_makeintval.2 ⟨i, hi, ?_⟩
        rintro z ⟨-, hz⟩ -
        rw [(div_eq_ok.1 hi).2.2]
        exact (hcut z hz).1.symm
      simpa only [bind, Except.bind, if_pos hzero] using hdiv
    · have hflt : Correct ar (makefltval f) (fun z => ArithOp.Exact l.toInt r.toInt z .div) := by
        refine correct_makefltval ?_
        rintro z ⟨-, hz⟩ -
        exact absurd (hcut z hz).2 hzero
      simpa only [bind, Except.bind, if_neg hzero] using hflt

theorem correct_div {f : F} :
    Correct ar (if r = 0 then .ok (.error .divby0)
      else do
        let rem ← mod l r
        if rem = 0 then makeintval (div l r) else makefltval f)
      (fun z => ArithOp.Exact l.toInt r.toInt z .div) ↔ ArithOp.Safe l.toInt r.toInt .div := by
  apply correct_checked .div (fun z h => h.1) safe_zero fun hr => correct_div_nonzero hr

theorem correct_shl : Correct ar (makeintval (shl l r))
    (fun z => ArithOp.Exact l.toInt r.toInt z .ls) ↔ ArithOp.Safe l.toInt r.toInt .ls := by
  rw [correct_makeintval]
  constructor
  · rintro ⟨i, hi, -⟩
    obtain ⟨hcount, hl, hval⟩ := shl_eq_ok.1 hi
    refine ⟨hcount, hl, ?_⟩
    rw [← hval]
    exact fits_toInt i
  · rintro ⟨hcount, hl, hfits⟩
    obtain ⟨i, hi⟩ := exists_exactly.2 hfits
    refine ⟨i, shl_eq_ok.2 ⟨hcount, hl, exactly_eq_ok.1 hi⟩, ?_⟩
    rintro z ⟨-, rfl⟩ -
    exact exactly_eq_ok.1 hi

theorem correct_shr : Correct ar (makeintval (shr l r))
    (fun z => ArithOp.Exact l.toInt r.toInt z .rs) ↔ ArithOp.Safe l.toInt r.toInt .rs := by
  rw [correct_makeintval]
  constructor
  · rintro ⟨i, hi, -⟩
    exact (shr_eq_ok.1 hi).1
  · intro hcount
    have hi : shr l r = .ok (.ofInt (l.toInt / 2 ^ r.toInt.toNat)) := if_pos hcount
    refine ⟨_, hi, ?_⟩
    rintro z ⟨-, rfl⟩ -
    exact (shr_eq_ok.1 hi).2

/-! ## Powers -/

theorem correct_power (hr : 0 ≤ r.toInt) : Correct ar (makeintval (mulLoop l r.toInt.toNat 1))
    (fun z => ArithOp.Exact l.toInt r.toInt z .exp) ↔ ArithOp.Safe l.toInt r.toInt .exp := by
  have hone : (1 : Int64).toInt = 1 := rfl
  rw [correct_makeintval, ArithOp.Safe, if_pos hr]
  constructor
  · rintro ⟨i, hi, -⟩
    have hval := mulLoop_eq_ok hi
    rw [hone, one_mul] at hval
    rw [← hval]
    exact fits_toInt i
  · intro hfits
    have hstart : (1 : Int64).toInt = l.toInt ^ 0 := by rw [pow_zero, hone]
    obtain ⟨i, hi⟩ := mulLoop_defined hstart (by rwa [zero_add])
    refine ⟨i, hi, ?_⟩
    intro z hz _
    rw [ArithOp.Exact, if_pos hr] at hz
    rw [mulLoop_eq_ok hi, hone, one_mul, hz]

theorem fltLoop_units (hl : l = 1 ∨ l = -1) {v : Int64} (hv : v = 1 ∨ v = -1) (k : ℕ) :
    ∃ q : Int64, (q = 1 ∨ q = -1) ∧ q.toInt * l.toInt ^ k = v.toInt ∧
      fltLoop (fun v => ar.div v (ar.ofInt l)) k (ar.ofInt v) = ar.ofInt q := by
  induction k generalizing v with
  | zero => exact ⟨v, hv, by rw [pow_zero, mul_one], rfl⟩
  | succ k ih =>
    -- the quotient of two units is their product
    obtain ⟨u, hu, hmul, hdiv⟩ : ∃ u : Int64, (u = 1 ∨ u = -1) ∧ v.toInt = u.toInt * l.toInt ∧
        ar.div (ar.ofInt v) (ar.ofInt l) = ar.ofInt u := by
      obtain rfl | rfl := hl <;> obtain rfl | rfl := hv
      · exact ⟨1, .inl rfl, rfl, ar.div_ofInt _ _ _ (by decide) rfl (by decide) (by decide)⟩
      · exact ⟨-1, .inr rfl, rfl, ar.div_ofInt _ _ _ (by decide) rfl (by decide) (by decide)⟩
      · exact ⟨-1, .inr rfl, rfl, ar.div_ofInt _ _ _ (by decide) rfl (by decide) (by decide)⟩
      · exact ⟨1, .inl rfl, rfl, ar.div_ofInt _ _ _ (by decide) rfl (by decide) (by decide)⟩
    obtain ⟨q, hq, hpow, hloop⟩ := ih hu
    refine ⟨q, hq, ?_, ?_⟩
    · rw [pow_succ, ← mul_assoc, hpow, hmul]
    · rw [fltLoop, hdiv]
      exact hloop

theorem correct_root (hr : ¬0 ≤ r.toInt) :
    Correct ar (if l = 0 then .ok (.error .divby0)
      else do
        let r ← mul r (-1)
        makefltval (fltLoop (fun v => ar.div v (ar.ofInt l)) r.toInt.toNat (ar.ofInt 1)))
      (fun z => ArithOp.Exact l.toInt r.toInt z .exp) ↔ ArithOp.Safe l.toInt r.toInt .exp := by
  have hneg : r.toInt * (-1 : Int64).toInt = -r.toInt := by
    have hone : (-1 : Int64).toInt = -1 := rfl
    rw [hone, mul_neg_one]
  have hpos : (-r.toInt).toNat ≠ 0 := by omega
  rw [ArithOp.Safe, if_neg hr]
  by_cases hl : l = 0
  · rw [if_pos hl]
    refine iff_of_true (correct_error fun z hz => ?_) fun h => absurd (toInt_eq_zero.2 hl) h
    rw [ArithOp.Exact, if_neg hr, toInt_eq_zero.2 hl, zero_pow hpos, mul_zero] at hz
    exact absurd hz (by decide)
  rw [if_neg hl]
  constructor
  · intro h _ hmin
    have hover : mul r (-1) = .error .overflow := by
      rw [mul, hneg, exactly, hmin, if_neg (by decide)]
    rw [hover] at h
    exact not_correct h
  · intro hmin
    have hfits : Fits (-r.toInt) := by
      have hb := fits_toInt r
      have hne := hmin fun h => hl (toInt_eq_zero.1 h)
      unfold Fits at *
      omega
    have hmul : mul r (-1) = .ok (.ofInt (-r.toInt)) := by
      rw [mul, hneg]
      exact if_pos hfits
    have hval : Correct ar (makefltval (fltLoop (fun v => ar.div v (ar.ofInt l))
        (-r.toInt).toNat (ar.ofInt 1))) (fun z => ArithOp.Exact l.toInt r.toInt z .exp) := by
      refine correct_makefltval fun z hz hz' => ?_
      rw [ArithOp.Exact, if_neg hr] at hz
      have hunit : l = 1 ∨ l = -1 := by
        have hdvd : IsUnit (l.toInt ^ (-r.toInt).toNat) := .of_mul_eq_one_right _ hz
        rcases Int.isUnit_iff.1 ((isUnit_pow_iff hpos).1 hdvd) with h | h
        · exact .inl (Int64.toInt_inj.1 h)
        · exact .inr (Int64.toInt_inj.1 h)
      obtain ⟨q, -, hpow, hloop⟩ := @fltLoop_units F ar l hunit 1 (.inl rfl) (-r.toInt).toNat
      have hone : (1 : Int64).toInt = 1 := rfl
      rw [hone] at hpow
      have hqz : q.toInt = z := by
        have hcancel : l.toInt ^ (-r.toInt).toNat ≠ 0 := by
          intro h0
          rw [h0, mul_zero] at hz
          exact absurd hz (by decide)
        exact mul_right_cancel₀ hcancel (hpow.trans hz.symm)
      rw [hloop, ← hqz, Int64.ofInt_toInt]
    rw [hmul]
    simpa only [bind, Except.bind, toInt_ofInt hfits] using hval

theorem correct_evalBinop (op : ArithOp) :
    Correct ar (evalBinop ar op (some (.int l)) (some (.int r)))
      (fun z => op.Exact l.toInt r.toInt z) ↔ op.Safe l.toInt r.toInt := by
  cases op with
  | plus | minus | mul => exact correct_exactly
  | div => exact correct_div
  | idiv => exact correct_idiv
  | mod => exact correct_mod
  | exp =>
    by_cases hr : 0 ≤ r.toInt
    · rw [evalBinop, evalBinopExp, if_pos hr]
      exact correct_power hr
    · rw [evalBinop, evalBinopExp, if_neg hr]
      exact correct_root hr
  | rs => exact correct_shr
  | ls => exact correct_shl

theorem correct_constants (op : ArithOp) :
    Correct ar (constants ar op l r) (fun z => op.Exact l.toInt r.toInt z) ↔
      op.Safe l.toInt r.toInt ∧ (op = .mod → r ≠ 0) := by
  have hother : op ≠ .mod → (op.Safe l.toInt r.toInt ↔
      op.Safe l.toInt r.toInt ∧ (op = .mod → r ≠ 0)) :=
    fun hne => ⟨fun h => ⟨h, fun heq => absurd heq hne⟩, And.left⟩
  cases op with
  | mod => exact correct_mod_unchecked.trans ⟨fun h => ⟨h.1, fun _ => h.2⟩, fun h => ⟨h.1, h.2 rfl⟩⟩
  | div =>
    rw [← hother (by decide), ← @correct_div F ar l r (ar.div (ar.ofInt l) (ar.ofInt r)),
      constants, foldConstantsForBinop]
    simp only [ne_eq, ite_not]
  | plus | minus | mul => exact correct_exactly.trans (hother (by decide))
  | idiv => exact correct_idiv.trans (hother (by decide))
  | exp => exact (correct_evalBinop .exp).trans (hother (by decide))
  | rs => exact (correct_evalBinop .rs).trans (hother (by decide))
  | ls => exact (correct_evalBinop .ls).trans (hother (by decide))

theorem fits_neg : Fits (-l.toInt) ↔ l.toInt ≠ -2 ^ 63 := by
  have hl := fits_toInt l
  unfold Fits at *
  omega

end Correct

/-- A computation is correct just if its operands are safe. -/
theorem Calc.correct_iff {F : Type} (ar : FltArith F) (c : Calc) : c.Correct ar ↔ c.Safe := by
  cases c with
  | eval op l r => exact correct_evalBinop op
  | assign op l r =>
    rw [Calc.Correct, Calc.outcome, assigned_eq]
    exact correct_evalBinop op
  | constants op l r => exact correct_constants op
  | unaryMinus l | constantMinus l => exact correct_exactly.trans fits_neg

def ratArith : FltArith ℚ where
  ofInt l := l.toInt
  toInt r := exactly (r.num.tdiv r.den)
  add := (· + ·)
  sub := (· - ·)
  mul := (· * ·)
  div := (· / ·)
  neg := (- ·)
  mod l r := l - r * ((l / r).num.tdiv (l / r).den : ℤ)
  pow l r := l ^ r.num
  isZero r := r = 0
  div_ofInt l r q hr hq _ _ := by
    have hr' : (r.toInt : ℚ) ≠ 0 := by
      intro h
      exact hr (toInt_eq_zero.1 (Int.cast_eq_zero.1 h))
    rw [hq, Int.cast_mul, mul_div_cancel_right₀ _ hr']

/-- A remainder of constants may have the divisor 0, and the smallest integer is divided by -1. -/
theorem not_correct_divisions :
    ¬(Calc.constants .mod 1 0).Correct ratArith ∧
      ¬(Calc.eval .idiv Int64.minValue (-1)).Correct ratArith :=
  ⟨not_correct, not_correct⟩

end Qse.Awk
