import Mathlib.Algebra.Group.Nat.Defs

/-!
# The stream editor

The state of a stream editor and the addresses of its commands, after `lib/sed/sed.c`.
Memory is always found, and reading the input does not fail. The compiled expressions
and their matcher are parameters.
-/

namespace Qse.Sed

/-- The values of `qse_sed_errnum_t` that are set here. -/
inductive Errnum where
  | erexma
  | ea1moi
  | ea2moi
  | enprex
deriving DecidableEq

/-- A part of the text that has been matched against, `rm_so` and `rm_eo`. -/
structure Regmatch where
  so : ℕ
  eo : ℕ
deriving DecidableEq

abbrev Match := Regmatch × (Fin 9 → Option Regmatch)

/-- `qse_tre_execx` with or without `QSE_TRE_NOTBOL`. -/
abbrev Execx (Rex : Type*) := Rex → Bool → List Char → Except Errnum (Option Match)

/-- `qse_sed_adr_t`; an expression is missing if it is `EMPTY_REX`. -/
inductive Adr (Rex : Type*) where
  | none
  | dol
  | line (lno : ℕ)
  | rex (rex : Option Rex)
  | step (lno : ℕ)
  | relline (lno : ℕ)
  | rellinem (lno : ℕ)

/-- `e.in.xbuf` -/
inductive Xbuf where
  | empty
  | one (c : Char)
  | eof
deriving DecidableEq

/-- The member `e` of `qse_sed_t`,
while a script is executed. `rest` is what the input has not given yet. -/
structure Exec (Rex : Type*) where
  line : List Char
  num : ℕ
  xbuf : Xbuf
  rest : List Char
  lastRex : Option Rex
  substDone : Bool
  out : List Char
  files : List (List Char × List Char)

section

variable {Rex : Type*}

/-- `trim_line`: the line without its terminator, and the terminator. -/
def trimLine (line : List Char) : List Char × List Char :=
  match line.reverse with
  | '\n' :: '\r' :: str => (str.reverse, ['\r', '\n'])
  | '\n' :: str => (str.reverse, ['\n'])
  | _ => (line, [])

def readChar (sed : Exec Rex) : Option Char × Exec Rex :=
  match sed.xbuf with
  | .empty =>
    match sed.rest with
    | [] => (none, sed)
    | c :: rest => (some c, { sed with rest := rest })
  | .one c => (some c, { sed with xbuf := .empty })
  | .eof => (none, sed)

/-- The expression to match with, which becomes `e.last_rex`. -/
def resolveRex (sed : Exec Rex) : Option Rex → Except Errnum (Rex × Exec Rex)
  | some rex => .ok (rex, { sed with lastRex := some rex })
  | none =>
    match sed.lastRex with
    | some rex => .ok (rex, sed)
    | none => .error .enprex

end

/-! ## Line selectors -/

/-- The part of `qse_sed_cmd_t` that selects lines. -/
structure Selector (Rex : Type*) where
  a1 : Adr Rex
  a2 : Adr Rex
  negated : Bool

/-- The part of `cmd->state` that selects lines. -/
structure AdrState where
  a1Matched : Bool
  a1MatchLine : ℕ
  cReady : Bool
deriving DecidableEq

section

variable {Rex : Type*}

/-- "0 as the first address is allowed in this two contexts" -/
def zeroAllowed (extended : Bool) : Adr Rex → Bool
  | .step _ => true
  | .rex _ => extended
  | _ => false

def Selector.fromZero (extended : Bool) (sel : Selector Rex) : Bool :=
  match extended, sel.a1, sel.a2 with
  | true, .line 0, .rex _ => true
  | _, _, _ => false

/-- `init_command_block_for_exec`: the state before the first line. -/
def AdrState.init (extended : Bool) (sel : Selector Rex) : AdrState :=
  ⟨sel.fromZero extended, 0, false⟩

variable (execx : Execx Rex)

def matchA (sed : Exec Rex) (state : AdrState) : Adr Rex → Except Errnum (Bool × Exec Rex)
  | .line lno => .ok (sed.num = lno, sed)
  | .rex rex =>
    match resolveRex sed rex with
    | .error e => .error e
    | .ok (rex, sed) =>
      match execx rex false (trimLine sed.line).1 with
      | .error e => .error e
      | .ok found => .ok (found.isSome, sed)
  | .dol =>
    if sed.xbuf = .eof then .ok (true, sed)
    else
      match readChar sed with
      | (none, sed) => .ok (true, { sed with xbuf := .eof })
      | (some c, sed) => .ok (false, { sed with xbuf := .one c })
  | .relline lno => .ok ((state.a1MatchLine + lno) % 2 ^ 64 ≤ sed.num, sed)
  | .rellinem lno =>
    .ok ((state.a1MatchLine + lno - state.a1MatchLine % lno) % 2 ^ 64 ≤ sed.num, sed)
  | _ => .ok (true, sed)

/-- The exits of `match_address` for two addresses once the range has begun. -/
def matchSecond (sel : Selector Rex) (sed : Exec Rex) (state : AdrState) :
    Except Errnum (Bool × AdrState × Exec Rex) :=
  match matchA execx sed state sel.a2 with
  | .error e => .error e
  | .ok (true, sed) => .ok (true, { state with a1Matched := false, cReady := true }, sed)
  | .ok (false, sed) =>
    match sel.a2 with
    | .line lno =>
      -- "matching of the second address could be skipped while it could match"
      if lno < sed.num then .ok (false, { state with a1Matched := false }, sed)
      else .ok (true, state, sed)
    | _ => .ok (true, state, sed)

/-- The exits of `match_address` for two addresses outside of a range. -/
def matchFirst (sel : Selector Rex) (sed : Exec Rex) (state : AdrState) :
    Except Errnum (Bool × AdrState × Exec Rex) :=
  match matchA execx sed state sel.a1 with
  | .error e => .error e
  | .ok (false, sed) => .ok (false, state, sed)
  | .ok (true, sed) =>
    let begun := { state with a1Matched := true, a1MatchLine := sed.num }
    match sel.a2 with
    | .line lno =>
      if lno ≤ sed.num then .ok (true, { state with cReady := true }, sed)
      else .ok (true, begun, sed)
    | _ => .ok (true, begun, sed)

def matchAddress (sel : Selector Rex) (sed : Exec Rex) (state : AdrState) :
    Except Errnum (Bool × AdrState × Exec Rex) :=
  let ready := { state with cReady := true }
  let state := { state with cReady := false }
  match sel.a1, sel.a2 with
  | .none, _ => .ok (true, ready, sed)
  | .line lno, .step step =>
    if sed.num < lno then .ok (false, ready, sed)
    else .ok ((sed.num - lno) % step = 0, ready, sed)
  | a1, .none =>
    match matchA execx sed ready a1 with
    | .error e => .error e
    | .ok (n, sed) => .ok (n, ready, sed)
  | _, _ =>
    if state.a1Matched then matchSecond execx sel sed state else matchFirst execx sel sed state

/-- The `c` command: the pattern space when it has been executed. -/
def change (text : List Char) (state : AdrState) : List Char := if state.cReady then text else []

@[grind =] def reach (sel : Selector Rex) :
    AdrState → List (Exec Rex) → Except Errnum (List (Bool × AdrState))
  | _, [] => .ok []
  | state, sed :: seds =>
    match matchAddress execx sel sed state with
    | .error e => .error e
    | .ok (n, state, _) =>
      match reach sel state seds with
      | .error e => .error e
      | .ok results => .ok ((n != sel.negated, state) :: results)

end

/-! ## The substitution -/

/-- `cmd->u.subst` -/
structure Subst (Rex : Type*) where
  rex : Option Rex
  rpl : List Char
  file : Option (List Char)
  occ : ℕ
  g : Bool
  p : Bool
  k : Bool

/-- What the loop of `do_subst` changes. -/
structure SubstLoop where
  cur : ℕ
  pmat : Option (ℕ × ℕ)
  subCount : ℕ
  scratch : List Char
  repl : Bool

def Regmatch.text (cur : List Char) (m : Regmatch) : List Char := (cur.drop m.so).take (m.eo - m.so)

def groupText (cur : List Char) (group : Option Regmatch) : List Char :=
  (group.map (Regmatch.text cur)).getD []

def groupIndex (c : Char) : Option (Fin 9) :=
  if h : '1' ≤ c ∧ c ≤ '9' then
    some ⟨c.toNat - 49, by
      have hle : c.toNat ≤ 57 := h.2
      omega⟩
  else none

def expand (mat : List Char) (submat : Fin 9 → List Char) : List Char → List Char
  | [] => []
  | '\\' :: nc :: rpl =>
    (match groupIndex nc with
      | some i => submat i
      | none => [nc]) ++ expand mat submat rpl
  | '&' :: rpl => mat ++ expand mat submat rpl
  | c :: rpl => c :: expand mat submat rpl

def Subst.maxCount {Rex : Type*} (subst : Subst Rex) : ℕ := if subst.g then 0 else subst.occ

/-- The label `skip_one_char`. -/
def skipOneChar (str : List Char) (l : SubstLoop) : SubstLoop :=
  { l with
    scratch := l.scratch ++ (str.drop l.cur).take 1
    cur := l.cur + 1 }

section

variable {Rex : Type*} (execx : Execx Rex)

def nextMatch (subst : Subst Rex) (str : List Char) (sed : Exec Rex) (l : SubstLoop) :
    Except Errnum (Option Match × Exec Rex) :=
  if subst.maxCount = 0 ∨ l.subCount < subst.maxCount then
    match resolveRex sed subst.rex with
    | .error e => .error e
    | .ok (rex, sed) =>
      match execx rex (l.cur != 0) (str.drop l.cur) with
      | .error e => .error e
      | .ok found => .ok (found, sed)
  else .ok (none, sed)

/-- The match has been found at `cur` or behind it, and the loop goes on at its end. -/
def passMatch (subst : Subst Rex) (str : List Char) (l : SubstLoop) (found : Match) : SubstLoop :=
  let cur := str.drop l.cur
  let mat := found.1.text cur
  let len := found.1.eo - found.1.so
  let before := if subst.k then [] else cur.take found.1.so
  let selected : Bool := subst.maxCount = 0 ∨ l.subCount + 1 = subst.maxCount
  { cur := l.cur + found.1.so + len
    pmat := some (l.cur + found.1.so, len)
    subCount := l.subCount + 1
    scratch := l.scratch ++ (before ++
      if selected then expand mat (fun i => groupText cur (found.2 i)) subst.rpl
      else if subst.k then [] else mat)
    repl := l.repl || selected }

/-- "special treament is needed if the match length is 0" -/
def takeMatch (subst : Subst Rex) (str : List Char) (l : SubstLoop) (found : Match) : SubstLoop :=
  if found.1.eo - found.1.so = 0 then skipOneChar str (passMatch subst str l found)
  else passMatch subst str l found

/-- The match is empty and "still at the end of the previous match". -/
def touches (l : SubstLoop) (found : Match) : Bool :=
  found.1.eo - found.1.so = 0 ∧ l.pmat.any fun pmat => l.cur + found.1.so = pmat.1 + pmat.2

def substLoop (subst : Subst Rex) (str : List Char) :
    ℕ → Exec Rex → SubstLoop → Except Errnum (SubstLoop × Exec Rex)
  | 0, sed, l => .ok (l, sed)
  | fuel + 1, sed, l =>
    if str.length < l.cur then .ok (l, sed)
    else
      match nextMatch execx subst str sed l with
      | .error e => .error e
      | .ok (none, sed) =>
        .ok ({ l with
          scratch := l.scratch ++ if subst.k then [] else str.drop l.cur }, sed)
      | .ok (some found, sed) =>
        if touches l found then substLoop subst str fuel sed (skipOneChar str l)
        else substLoop subst str fuel sed (takeMatch subst str l found)

/-- `do_subst`; writing does not fail. A round moves `cur` on, so the fuel is enough. -/
def doSubst (subst : Subst Rex) (sed : Exec Rex) : Except Errnum (Exec Rex) :=
  let str := (trimLine sed.line).1
  let lineterm := (trimLine sed.line).2
  match substLoop execx subst str (str.length + 2) sed ⟨0, none, 0, [], false⟩ with
  | .error e => .error e
  | .ok (l, sed) =>
    let line := l.scratch ++ lineterm
    if l.repl then
      .ok { sed with
        line := line
        out := if subst.p then sed.out ++ line else sed.out
        files := sed.files ++ (subst.file.map fun file => (file, line)).toList
        substDone := true }
    else .ok { sed with line := line }

end

end Qse.Sed
