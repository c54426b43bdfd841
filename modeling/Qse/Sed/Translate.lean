import Qse.Sed.Model

/-!
# The translation of characters

The command `y` of `lib/sed/sed.c`: how a script is read character by character, `trans_escaped`,
`terminate_command`, `get_transet`, and the branch of `exec_cmd` that carries the command out.
Characters are wide, as they are by default, and reading the script does not fail.
-/

open List Option

namespace Qse.Sed.Transet

inductive Errnum where
  | ecmdic (cmd : Char)
  | ebsdel
  | etsnsl
  | escexp
deriving DecidableEq

/-- `qse_sed_loc_t` -/
structure Loc where
  line : ℕ
  colm : ℕ
deriving DecidableEq

structure Error where
  errnum : Errnum
  loc : Loc
deriving DecidableEq

/-- The member `src` of `qse_sed_t`: the current character, what follows it, and where it is.
There is no character at the end of the script. -/
structure Src where
  cc : Option Char
  rest : List Char
  loc : Loc
deriving DecidableEq

/-- `getnextsc`, or `NXTSC`. -/
def nxtsc (src : Src) : Src where
  cc := src.rest.head?
  rest := src.rest.tail
  loc := if src.cc = some '\n' then ⟨src.loc.line + 1, 1⟩ else ⟨src.loc.line, src.loc.colm + 1⟩

/-- `peepnextsc`, or `PEEPNXTSC`. -/
def peepnxtsc (src : Src) : Option Char := src.rest.head?

def isSpace (c : Option Char) : Bool := c = some ' ' || c = some '\t' || c = some '\r'

def isCmdterm (c : Option Char) : Bool :=
  c = none || c = some '#' || c = some ';' || c = some '\n' || c = some '{' || c = some '}'

def xdigitToNum (c : Char) : Option ℕ :=
  if '0' ≤ c ∧ c ≤ '9' then some (c.toNat - 48)
  else if 'A' ≤ c ∧ c ≤ 'F' then some (c.toNat - 65 + 10)
  else if 'a' ≤ c ∧ c ≤ 'f' then some (c.toNat - 97 + 10)
  else none

def xdigits : ℕ → ℕ → Src → ℕ × Src
  | 0, c, src => (c, src)
  | n + 1, c, src =>
    match (peepnxtsc src).bind xdigitToNum with
    | none => (c, src)
    | some cc => xdigits n (c * 16 + cc) (nxtsc src)

/-- The branches for `\x` and `\X`, with at most so many digits. -/
def hexEscaped (c : Char) (most : ℕ) (src : Src) : ℕ × Src :=
  match (peepnxtsc src).bind xdigitToNum with
  | none => (c.toNat, src)
  | some cc => xdigits (most - 1) cc (nxtsc src)

/-- `trans_escaped` for the character behind a backslash, with characters of so many bytes. -/
def transEscaped (size : ℕ) (c : Char) (src : Src) : ℕ × Src :=
  match c with
  | 'a' => (7, src)
  -- `case QSE_T('f')` has no `break`, so that the form feed it sets is overwritten.
  | 'f' => (10, src)
  | 'n' => (10, src)
  | 'r' => (13, src)
  | 't' => (9, src)
  | 'v' => (11, src)
  | 'x' => hexEscaped 'x' 2 src
  | 'X' => hexEscaped 'X' (size * 2) src
  | c => (c.toNat, src)

/-- `CHECK_CMDIC` and `CHECK_CMDIC_ESCAPED`: the current character, unless the command is
incomplete. -/
def checkCmdic (escaped : Bool) (src : Src) : Except Error Char :=
  match src.cc with
  | none => .error ⟨.ecmdic 'y', src.loc⟩
  | some c => if c = '\n' ∧ escaped = false then .error ⟨.ecmdic 'y', src.loc⟩ else .ok c

/-- The part that both loops of `get_transet` begin with: the character that is written at this
place, and the reader behind it. A number becomes a `qse_char_t`. -/
def readChar (size : ℕ) (src : Src) : Except Error (Char × Src) := do
  let c ← checkCmdic false src
  if c = '\\' then
    let src := nxtsc src
    let c ← checkCmdic true src
    let (c, src) := transEscaped size c src
    return (Char.ofNat c, src)
  else return (c, src)

def srcLoop (size : ℕ) (delim unset : Char) :
    ℕ → List Char → Src → Option (Except Error (List Char × Src))
  | 0, _, _ => none
  | fuel + 1, t, src =>
    if src.cc = some delim then some (.ok (t, src))
    else
      match readChar size src with
      | .error e => some (.error e)
      | .ok (c, src) => srcLoop size delim unset fuel (t ++ [c, unset]) (nxtsc src)

def dstLoop (size : ℕ) (delim : Char) :
    ℕ → ℕ → List Char → Src → Option (Except Error (ℕ × List Char × Src))
  | 0, _, _, _ => none
  | fuel + 1, pos, t, src =>
    if src.cc = some delim then some (.ok (pos, t, src))
    else
      match readChar size src with
      | .error e => some (.error e)
      | .ok (c, src) =>
        if t.length ≤ pos then some (.error ⟨.etsnsl, src.loc⟩)
        else dstLoop size delim fuel (pos + 2) (t.set pos c) (nxtsc src)

/-- `while (IS_SPACE(c)) NXTSC (sed, c, -1);` -/
def skipSpaces : ℕ → Src → Src
  | 0, src => src
  | fuel + 1, src => if isSpace src.cc then skipSpaces fuel (nxtsc src) else src

def terminateCommand (src : Src) : Except Error Src :=
  let src := skipSpaces (src.rest.length + 1) src
  if isCmdterm src.cc = false then .error ⟨.escexp, src.loc⟩
  else if src.cc = some '#' ∨ src.cc = some '{' ∨ src.cc = some '}' ∨ src.cc = none then .ok src
  else .ok (nxtsc src)

/-- `get_transet`: the table, and the reader behind the command. Every turn reads a character, so
that the fuel lasts. -/
def getTranset (size : ℕ) (unset : Char) (src : Src) : Option (Except Error (List Char × Src)) :=
  match checkCmdic false src with
  | .error e => some (.error e)
  | .ok delim =>
    if delim = '\\' then some (.error ⟨.ebsdel, src.loc⟩)
    else
      match srcLoop size delim unset (src.rest.length + 1) [] (nxtsc src) with
      | none => none
      | some (.error e) => some (.error e)
      | some (.ok (t, src)) =>
        match dstLoop size delim (src.rest.length + 1) 1 t (nxtsc src) with
        | none => none
        | some (.error e) => some (.error e)
        | some (.ok (pos, t, src)) =>
          if pos < t.length then some (.error ⟨.etsnsl, src.loc⟩)
          else
            match terminateCommand (nxtsc src) with
            | .error e => some (.error e)
            | .ok src => some (.ok (t, src))

def lengthToTranslate (str : List Char) : ℕ :=
  if 0 < str.length ∧ str[str.length - 1]? = some '\n' then
    if 0 < str.length - 1 ∧ str[str.length - 1 - 1]? = some '\r' then str.length - 1 - 1
    else str.length - 1
  else str.length

def translateChar : List Char → Char → Char
  | s :: d :: transet, c => if c = s then d else translateChar transet c
  | _, c => c

/-- `case QSE_SED_CMD_TRANSLATE` of `exec_cmd`. -/
def translate {Rex : Type*} (transet : List Char) (sed : Exec Rex) : Exec Rex :=
  { sed with
    line := (sed.line.take (lengthToTranslate sed.line)).map (translateChar transet) ++
      sed.line.drop (lengthToTranslate sed.line) }

/-! ## Written commands -/

inductive Letter where
  | a
  | f
  | n
  | r
  | t
  | v
deriving DecidableEq

def Letter.char : Letter → Char
  | .a => 'a'
  | .f => 'f'
  | .n => 'n'
  | .r => 'r'
  | .t => 't'
  | .v => 'v'

def Letter.denotes : Letter → Char
  | .a => '\x07'
  | .f => '\x0c'
  | .n => '\n'
  | .r => '\r'
  | .t => '\t'
  | .v => '\x0b'

/-- What a list is written with: literal characters, letters behind a backslash, and `\x` with
two digits. -/
inductive Item where
  | literal (c : Char)
  | letter (l : Letter)
  | hex (h l : Char)
deriving DecidableEq

def Item.text : Item → List Char
  | .literal c => [c]
  | .letter l => ['\\', l.char]
  | .hex h l => ['\\', 'x', h, l]

def Item.denotes : Item → Char
  | .literal c => c
  | .letter l => l.denotes
  | .hex h l => Char.ofNat ((xdigitToNum h).getD 0 * 16 + (xdigitToNum l).getD 0)

def Item.Plain (delim : Char) : Item → Prop
  | .literal c => c ≠ delim ∧ c ≠ '\\' ∧ c ≠ '\n'
  | .letter _ => True
  | .hex h l => (xdigitToNum h).isSome ∧ (xdigitToNum l).isSome

structure Command where
  delim : Char
  src : List Item
  dst : List Item
  after : List Char
  delim_ne : delim ≠ '\\' ∧ delim ≠ '\n'
  plain : ∀ i ∈ src ++ dst, i.Plain delim
  ended : ∃ spaces rest, after = spaces ++ rest ∧ (∀ c ∈ spaces, isSpace (some c) = true) ∧
    isCmdterm rest.head? = true

/-- The text behind the letter `y`. -/
def Command.text (y : Command) : List Char :=
  y.delim :: (y.src.flatMap Item.text ++ y.delim :: (y.dst.flatMap Item.text ++ y.delim :: y.after))

def Command.start (y : Command) (loc : Loc) : Src := ⟨y.text.head?, y.text.tail, loc⟩

def Command.pairs (y : Command) : List (Char × Char) :=
  (y.src.map Item.denotes).zip (y.dst.map Item.denotes)

def table (ps : List (Char × Char)) : List Char := ps.flatMap fun p => [p.1, p.2]

def firstPair (ps : List (Char × Char)) (c : Char) : Char :=
  ((ps.find? fun p => p.1 = c).map Prod.snd).getD c

/-- The lists pair as they denote, and the table translates the line but for its terminator;
or they have different lengths and are refused. -/
def Command.Translates (Rex : Type*) (size : ℕ) (unset : Char) (y : Command) (loc : Loc) : Prop :=
  if y.src.length = y.dst.length then
    ∃ transet src, getTranset size unset (y.start loc) = some (.ok (transet, src)) ∧
      transet = table y.pairs ∧
      ∀ sed : Exec Rex, translate transet sed =
        { sed with
          line := (trimLine sed.line).1.map (firstPair y.pairs) ++ (trimLine sed.line).2 }
  else ∃ place, getTranset size unset (y.start loc) = some (.error ⟨.etsnsl, place⟩)

/-! ## Reading an item -/

def Item.read : Item → Char
  | .letter .f => '\n'
  | i => i.denotes

structure Src.At (src : Src) (text : List Char) : Prop where
  cc : src.cc = text.head?
  rest : src.rest = text.tail

variable {size : ℕ} {delim unset : Char}

variable {src : Src}

theorem at_nxtsc {text : List Char} (h : src.rest = text) : (nxtsc src).At text :=
  ⟨congrArg List.head? h, congrArg List.tail h⟩

theorem Item.read_eq_iff (i : Item) : i.read = i.denotes ↔ i ≠ .letter .f := by
  rcases i with c | l | ⟨h, l⟩
  · exact ⟨fun _ h => Item.noConfusion h, fun _ => rfl⟩
  · cases l with
    | f => exact ⟨fun h => absurd h (by decide), fun h => absurd rfl h⟩
    | _ => exact ⟨fun _ => by decide, fun _ => rfl⟩
  · exact ⟨fun _ h => Item.noConfusion h, fun _ => rfl⟩

theorem checkCmdic_some {c : Char} (hcc : src.cc = some c) (escaped : Bool)
    (hc : c ≠ '\n') : checkCmdic escaped src = .ok c := by
  rw [checkCmdic, hcc]
  exact if_neg fun h => hc h.1

theorem transEscaped_letter (l : Letter) (src : Src) :
    transEscaped size l.char src = ((Item.letter l).read.toNat, src) := by
  cases l with
  | _ => rfl

theorem transEscaped_hex {src : Src} {h l : Char} {s : List Char} {hv lv : ℕ}
    (hrest : src.rest = h :: l :: s) (hh : xdigitToNum h = some hv) (hl : xdigitToNum l = some lv) :
    ∃ src', transEscaped size 'x' src = (hv * 16 + lv, src') ∧ src'.rest = s := by
  have hpeep : (peepnxtsc src).bind xdigitToNum = some hv := by
    rw [peepnxtsc, hrest]
    exact hh
  have hnext : (nxtsc src).rest = l :: s := by rw [nxtsc, hrest, tail_cons]
  have hpeep' : (peepnxtsc (nxtsc src)).bind xdigitToNum = some lv := by
    rw [peepnxtsc, hnext]
    exact hl
  refine ⟨nxtsc (nxtsc src), ?_, ?_⟩
  · change hexEscaped 'x' 2 src = _
    rw [hexEscaped, hpeep]
    change xdigits 1 hv (nxtsc src) = _
    rw [xdigits, hpeep']
    rfl
  · change (nxtsc src).rest.tail = s
    rw [hnext, tail_cons]

theorem readChar_item {i : Item} (hi : i.Plain delim) {src : Src} {s : List Char}
    (hsrc : src.At (i.text ++ s)) :
    ∃ src', readChar size src = .ok (i.read, src') ∧ src'.rest = s := by
  obtain ⟨hcc, hrest⟩ := hsrc
  rcases i with c | l | ⟨h, l⟩
  · refine ⟨src, ?_, hrest⟩
    rw [readChar, checkCmdic_some hcc false hi.2.2]
    exact if_neg hi.2.1
  · have hnext : (nxtsc src).cc = some l.char := by
      rw [nxtsc, hrest]
      rfl
    have hl : l.char ≠ '\n' := by cases l <;> decide
    refine ⟨nxtsc src, ?_, ?_⟩
    · rw [readChar, checkCmdic_some hcc false (by decide)]
      change (do
        let c ← checkCmdic true (nxtsc src)
        let (c, src) := transEscaped size c (nxtsc src)
        return (Char.ofNat c, src)) = _
      rw [checkCmdic_some hnext true hl]
      change Except.ok (Char.ofNat (transEscaped size l.char (nxtsc src)).1,
        (transEscaped size l.char (nxtsc src)).2) = _
      rw [transEscaped_letter, Char.ofNat_toNat]
    · rw [nxtsc, hrest]
      rfl
  · obtain ⟨hh, hl⟩ := hi
    obtain ⟨hv, hhv⟩ := isSome_iff_exists.mp hh
    obtain ⟨lv, hlv⟩ := isSome_iff_exists.mp hl
    have hnext : (nxtsc src).cc = some 'x' := by
      rw [nxtsc, hrest]
      rfl
    have hafter : (nxtsc src).rest = h :: l :: s := by
      rw [nxtsc, hrest]
      rfl
    obtain ⟨src', htrans, hsrc'⟩ := @transEscaped_hex size _ h l s hv lv hafter hhv hlv
    refine ⟨src', ?_, hsrc'⟩
    rw [readChar, checkCmdic_some hcc false (by decide)]
    change (do
      let c ← checkCmdic true (nxtsc src)
      let (c, src) := transEscaped size c (nxtsc src)
      return (Char.ofNat c, src)) = _
    rw [checkCmdic_some hnext true (by decide)]
    change Except.ok (Char.ofNat (transEscaped size 'x' (nxtsc src)).1,
      (transEscaped size 'x' (nxtsc src)).2) = _
    rw [htrans, Item.read, Item.denotes, hhv, hlv]
    · rfl
    · exact fun h => Item.noConfusion h

/-! ## The two lists -/

theorem Item.head_text {i : Item} (hi : i.Plain delim) (hdelim : delim ≠ '\\') (s : List Char) :
    (i.text ++ s).head? ≠ some delim := by
  rcases i with c | l | ⟨h, l⟩
  · exact fun h => hi.1 (some.inj h)
  · exact fun h => hdelim (some.inj h).symm
  · exact fun h => hdelim (some.inj h).symm

def halves (unset : Char) (items : List Item) : List Char :=
  items.flatMap fun i => [i.read, unset]

theorem srcLoop_items (hdelim : delim ≠ '\\') {items : List Item}
    (hitems : ∀ i ∈ items, i.Plain delim) {fuel : ℕ} (hfuel : items.length < fuel)
    (t : List Char) {src : Src} {s : List Char}
    (hsrc : src.At (items.flatMap Item.text ++ delim :: s)) :
    ∃ src', srcLoop size delim unset fuel t src = some (.ok (t ++ halves unset items, src')) ∧
      src'.At (delim :: s) := by
  induction items generalizing fuel t src with
  | nil =>
    obtain ⟨fuel, rfl⟩ : ∃ f, fuel = f + 1 := ⟨fuel - 1, (Nat.succ_pred_eq_of_pos hfuel).symm⟩
    refine ⟨src, ?_, hsrc⟩
    have hcc : src.cc = some delim := hsrc.cc
    rw [srcLoop, if_pos hcc, halves, flatMap_nil, append_nil]
  | cons i items ih =>
    have hi := hitems i (.head _)
    have hrest : ∀ j ∈ items, j.Plain delim := fun j hj => hitems j (mem_cons_of_mem i hj)
    rw [length_cons] at hfuel
    obtain ⟨fuel, rfl⟩ : ∃ f, fuel = f + 1 := ⟨fuel - 1, by omega⟩
    rw [flatMap_cons, append_assoc] at hsrc
    have hne : src.cc ≠ some delim := by
      rw [hsrc.cc]
      exact Item.head_text hi hdelim _
    obtain ⟨src1, hread, hsrc1⟩ := @readChar_item size _ i hi src _ hsrc
    obtain ⟨src2, hloop, hsrc2⟩ := @ih hrest fuel (by omega) (t ++ [i.read, unset])
      (nxtsc src1) (at_nxtsc hsrc1)
    refine ⟨src2, ?_, hsrc2⟩
    rw [srcLoop, if_neg hne, hread]
    change srcLoop size delim unset fuel (t ++ [i.read, unset]) (nxtsc src1) = _
    rw [hloop, halves, halves, flatMap_cons, append_assoc]

def joined (unset : Char) (items dst : List Item) : List Char :=
  table ((items.map Item.read).zip (dst.map Item.read)) ++ halves unset (items.drop dst.length)

theorem length_halves (items : List Item) : (halves unset items).length = 2 * items.length := by
  induction items with
  | nil => rfl
  | cons i items ih =>
    rw [halves, flatMap_cons, length_append, ← halves, ih, length_cons]
    simp only [length_cons, length_nil]
    omega

theorem dstLoop_items (hdelim : delim ≠ '\\') {items dst : List Item}
    (hdst : ∀ i ∈ dst, i.Plain delim) {fuel : ℕ} (hfuel : dst.length < fuel)
    {done : List Char} {pos : ℕ} (hpos : pos = done.length + 1) {src : Src} {s : List Char}
    (hsrc : src.At (dst.flatMap Item.text ++ delim :: s)) :
    if dst.length ≤ items.length then
      ∃ src', dstLoop size delim fuel pos (done ++ halves unset items) src =
          some (.ok (pos + 2 * dst.length, done ++ joined unset items dst, src')) ∧
        src'.At (delim :: s)
    else ∃ place, dstLoop size delim fuel pos (done ++ halves unset items) src =
      some (.error ⟨.etsnsl, place⟩) := by
  induction dst generalizing items fuel done pos src with
  | nil =>
    obtain ⟨fuel, rfl⟩ : ∃ f, fuel = f + 1 := ⟨fuel - 1, (Nat.succ_pred_eq_of_pos hfuel).symm⟩
    have hcc : src.cc = some delim := hsrc.cc
    rw [if_pos (by rw [length_nil]; exact Nat.zero_le _)]
    refine ⟨src, ?_, hsrc⟩
    rw [dstLoop, if_pos hcc, joined, map_nil, zip_nil_right]
    rfl
  | cons i dst ih =>
    have hi := hdst i (.head _)
    have hrest : ∀ j ∈ dst, j.Plain delim := fun j hj => hdst j (mem_cons_of_mem i hj)
    rw [length_cons] at hfuel
    obtain ⟨fuel, rfl⟩ : ∃ f, fuel = f + 1 := ⟨fuel - 1, by omega⟩
    rw [flatMap_cons, append_assoc] at hsrc
    have hne : src.cc ≠ some delim := by
      rw [hsrc.cc]
      exact Item.head_text hi hdelim _
    obtain ⟨src1, hread, hsrc1⟩ := @readChar_item size _ i hi src _ hsrc
    have hstep : dstLoop size delim (fuel + 1) pos (done ++ halves unset items) src =
        if (done ++ halves unset items).length ≤ pos then some (.error ⟨.etsnsl, src1.loc⟩)
        else dstLoop size delim fuel (pos + 2) ((done ++ halves unset items).set pos i.read)
          (nxtsc src1) := by
      rw [dstLoop, if_neg hne, hread]
    rw [hstep, length_append, length_halves, hpos]
    cases items with
    | nil =>
      rw [if_neg (by simp), if_pos (by simp)]
      exact ⟨src1.loc, rfl⟩
    | cons j items =>
      have hset : (done ++ halves unset (j :: items)).set (done.length + 1) i.read =
          (done ++ [j.read, i.read]) ++ halves unset items := by
        rw [set_append_right (done.length + 1) _ (Nat.le_add_right _ _),
          Nat.add_sub_cancel_left, append_assoc]
        rfl
      have hloop := @ih items hrest fuel (by omega) (done ++ [j.read, i.read])
        (done.length + 1 + 2) (by simp) (nxtsc src1) (at_nxtsc hsrc1)
      have hjoined : done ++ [j.read, i.read] ++ joined unset items dst =
          done ++ joined unset (j :: items) (i :: dst) := by
        rw [append_assoc]
        rfl
      have hsum : done.length + 1 + 2 + 2 * dst.length =
          done.length + 1 + 2 * (dst.length + 1) := by omega
      have hroom : ¬(done.length + 2 * (items.length + 1) ≤ done.length + 1) := by omega
      rw [hjoined, hsum] at hloop
      simp only [length_cons, if_neg hroom, hset, Nat.add_le_add_iff_right]
      exact hloop

theorem skipSpaces_at {spaces : List Char} (hspaces : ∀ c ∈ spaces, isSpace (some c) = true)
    {rest : List Char} (hrest : isSpace rest.head? = false) {fuel : ℕ}
    (hfuel : spaces.length ≤ fuel) (hsrc : src.At (spaces ++ rest)) :
    (skipSpaces fuel src).At rest := by
  induction spaces generalizing fuel src with
  | nil =>
    cases fuel with
    | zero => exact hsrc
    | succ fuel =>
      rw [skipSpaces, hsrc.cc, nil_append, if_neg (by rw [hrest]; exact Bool.false_ne_true)]
      exact hsrc
  | cons c spaces ih =>
    rw [length_cons] at hfuel
    obtain ⟨fuel, rfl⟩ : ∃ f, fuel = f + 1 := ⟨fuel - 1, by omega⟩
    rw [skipSpaces, hsrc.cc]
    have hc : isSpace ((c :: spaces) ++ rest).head? = true := hspaces c (.head _)
    rw [if_pos hc]
    exact ih (fun d hd => hspaces d (mem_cons_of_mem c hd)) (by omega)
      (at_nxtsc hsrc.rest)

theorem isSpace_of_isCmdterm {c : Option Char} (h : isCmdterm c = true) : isSpace c = false := by
  simp only [isCmdterm, Bool.or_eq_true, decide_eq_true_eq] at h
  rcases h with (((((rfl | rfl) | rfl) | rfl) | rfl) | rfl) <;> rfl

theorem terminateCommand_ok {spaces rest : List Char}
    (hspaces : ∀ c ∈ spaces, isSpace (some c) = true) (hrest : isCmdterm rest.head? = true)
    (hsrc : src.At (spaces ++ rest)) : ∃ src', terminateCommand src = .ok src' := by
  have hskip : (skipSpaces (src.rest.length + 1) src).At rest := by
    apply skipSpaces_at hspaces (isSpace_of_isCmdterm hrest) ?_ hsrc
    rw [hsrc.rest, length_tail, length_append]
    omega
  rw [terminateCommand, hskip.cc, if_neg (by rw [hrest]; exact Bool.noConfusion)]
  split
  · exact ⟨_, rfl⟩
  · exact ⟨_, rfl⟩

/-! ## The whole command -/

theorem length_le_flatMap_text (items : List Item) :
    items.length ≤ (items.flatMap Item.text).length := by
  induction items with
  | nil => exact Nat.le_refl _
  | cons i items ih =>
    have hpos : 0 < i.text.length := by
      rcases i with c | l | ⟨h, l⟩ <;> exact Nat.succ_pos _
    rw [flatMap_cons, length_append, length_cons]
    omega

theorem length_table (ps : List (Char × Char)) : (table ps).length = 2 * ps.length := by
  induction ps with
  | nil => rfl
  | cons p ps ih =>
    rw [table, flatMap_cons, length_append, ← table, ih, length_cons]
    simp only [length_cons, length_nil]
    omega

def Command.read (y : Command) : List (Char × Char) :=
  (y.src.map Item.read).zip (y.dst.map Item.read)

theorem getTranset_eq (y : Command) (loc : Loc) :
    if y.src.length = y.dst.length then
      ∃ src, getTranset size unset (y.start loc) = some (.ok (table y.read, src))
    else ∃ place, getTranset size unset (y.start loc) = some (.error ⟨.etsnsl, place⟩) := by
  obtain ⟨hslash, hnl⟩ := y.delim_ne
  have hsrc : ∀ i ∈ y.src, i.Plain y.delim := fun i hi => y.plain i (mem_append_left _ hi)
  have hdst : ∀ i ∈ y.dst, i.Plain y.delim := fun i hi => y.plain i (mem_append_right _ hi)
  have hcheck : checkCmdic false (y.start loc) = .ok y.delim := checkCmdic_some rfl false hnl
  obtain ⟨src1, hloop1, hsrc1⟩ := @srcLoop_items size y.delim unset hslash y.src hsrc
    ((y.start loc).rest.length + 1)
    (by
      have hle := length_le_flatMap_text y.src
      change _ < (y.src.flatMap Item.text ++ _).length + 1
      rw [length_append]
      omega)
    [] (nxtsc (y.start loc)) (y.dst.flatMap Item.text ++ y.delim :: y.after) (at_nxtsc rfl)
  have hloop2 := @dstLoop_items size y.delim unset hslash y.src y.dst hdst
    (src1.rest.length + 1)
    (by
      have hle := length_le_flatMap_text y.dst
      rw [hsrc1.rest, tail_cons, length_append]
      omega)
    [] 1 rfl (nxtsc src1) y.after (at_nxtsc hsrc1.rest)
  have hstep : getTranset size unset (y.start loc) =
      match dstLoop size y.delim (src1.rest.length + 1) 1 (halves unset y.src) (nxtsc src1) with
      | none => none
      | some (.error e) => some (.error e)
      | some (.ok (pos, t, src)) =>
        if pos < t.length then some (.error ⟨.etsnsl, src.loc⟩)
        else
          match terminateCommand (nxtsc src) with
          | .error e => some (.error e)
          | .ok src => some (.ok (t, src)) := by
    rw [getTranset, hcheck]
    simp only [if_neg hslash, hloop1, nil_append]
  rw [nil_append] at hloop2
  by_cases hle : y.dst.length ≤ y.src.length
  · rw [if_pos hle] at hloop2
    obtain ⟨src2, hloop2, hsrc2⟩ := hloop2
    have hlength : (joined unset y.src y.dst).length = 2 * y.src.length := by
      rw [joined, length_append, length_table, length_halves, length_zip,
        length_map, length_map, length_drop]
      omega
    by_cases heq : y.src.length = y.dst.length
    · obtain ⟨spaces, rest, hafter, hspaces, hrest⟩ := y.ended
      have hnext : (nxtsc src2).At (spaces ++ rest) := by
        rw [← hafter]
        exact at_nxtsc hsrc2.rest
      obtain ⟨src3, hend⟩ := terminateCommand_ok hspaces hrest hnext
      have htable : joined unset y.src y.dst = table y.read := by
        rw [joined, ← heq, drop_length]
        exact append_nil _
      rw [if_pos heq]
      refine ⟨src3, ?_⟩
      rw [hstep, hloop2]
      simp only [nil_append, hend]
      rw [if_neg (by rw [hlength]; omega), htable]
    · rw [if_neg heq]
      refine ⟨src2.loc, ?_⟩
      rw [hstep, hloop2]
      exact if_pos (by rw [nil_append, hlength]; omega)
  · rw [if_neg hle] at hloop2
    obtain ⟨place, hloop2⟩ := hloop2
    rw [if_neg (by omega)]
    refine ⟨place, ?_⟩
    rw [hstep, hloop2]

/-! ## Carrying the command out -/

theorem translateChar_table (ps : List (Char × Char)) (c : Char) :
    translateChar (table ps) c = firstPair ps c := by
  induction ps with
  | nil => rfl
  | cons p ps ih =>
    have htable : table (p :: ps) = p.1 :: p.2 :: table ps := rfl
    rw [htable, translateChar, firstPair, find?_cons]
    by_cases hc : p.1 = c
    · rw [if_pos hc.symm]
      simp [hc]
    · rw [if_neg (fun h => hc h.symm), ih, firstPair]
      simp [hc]

theorem split_lengthToTranslate (line : List Char) :
    (line.take (lengthToTranslate line), line.drop (lengthToTranslate line)) = trimLine line := by
  rcases eq_nil_or_concat line with rfl | ⟨l, c, rfl⟩
  · rfl
  rw [concat_eq_append, lengthToTranslate]
  by_cases hc : c = '\n'
  · subst hc
    rw [if_pos (by simp)]
    rcases eq_nil_or_concat l with rfl | ⟨l, d, rfl⟩
    · rfl
    rw [concat_eq_append]
    by_cases hd : d = '\r'
    · subst hd
      rw [if_pos (by simp)]
      simp [trimLine]
    · rw [if_neg (by simp [hd])]
      simp [trimLine, hd, take_append, take_of_length_le]
  · rw [if_neg (by simp [hc])]
    simp [trimLine, hc, take_of_length_le]

theorem translate_table {Rex : Type*} (ps : List (Char × Char)) (sed : Exec Rex) :
    translate (table ps) sed =
      { sed with line := (trimLine sed.line).1.map (firstPair ps) ++ (trimLine sed.line).2 } := by
  have hmap : translateChar (table ps) = firstPair ps := funext (translateChar_table ps)
  rw [translate, ← split_lengthToTranslate, hmap]

theorem table_injective : Function.Injective table := by
  intro ps
  induction ps with
  | nil =>
    intro qs h
    cases qs with
    | nil => rfl
    | cons q qs => cases h
  | cons p ps ih =>
    intro qs h
    cases qs with
    | nil => cases h
    | cons q qs =>
      have hfst := (List.cons.inj h).1
      have hsnd := (List.cons.inj (List.cons.inj h).2).1
      rw [ih (List.cons.inj (List.cons.inj h).2).2, Prod.ext hfst hsnd]

theorem read_eq_pairs_iff {y : Command} (hlen : y.src.length = y.dst.length) :
    y.read = y.pairs ↔ Item.letter .f ∉ y.src ++ y.dst := by
  have hmap (items : List Item) :
      items.map Item.read = items.map Item.denotes ↔ Item.letter .f ∉ items := by
    rw [map_inj_left]
    constructor
    · intro h hf
      exact (Item.read_eq_iff _).mp (h _ hf) rfl
    · intro h i hi
      apply (Item.read_eq_iff i).mpr
      rintro rfl
      exact h hi
  have hread : (y.src.map Item.read).length = (y.dst.map Item.read).length := by
    rw [length_map, length_map, hlen]
  have hden : (y.src.map Item.denotes).length = (y.dst.map Item.denotes).length := by
    rw [length_map, length_map, hlen]
  rw [mem_append, not_or, ← hmap, ← hmap, Command.read, Command.pairs]
  constructor
  · intro h
    have hunzip := congrArg List.unzip h
    rw [unzip_zip hread, unzip_zip hden] at hunzip
    exact Prod.mk.inj hunzip
  · rintro ⟨hsrc, hdst⟩
    rw [hsrc, hdst]

/-- A command translates as it denotes, or is refused for its lengths, just when the lengths
differ or no form feed is written as `\f`. -/
theorem translates_iff (Rex : Type*) (size : ℕ) (unset : Char) (y : Command) (loc : Loc) :
    y.Translates Rex size unset loc ↔
      (y.src.length ≠ y.dst.length ∨ Item.letter .f ∉ y.src ++ y.dst) := by
  have hcomp := @getTranset_eq size unset y loc
  rw [Command.Translates]
  by_cases hlen : y.src.length = y.dst.length
  · rw [if_pos hlen] at hcomp ⊢
    obtain ⟨src, hcomp⟩ := hcomp
    constructor
    · rintro ⟨transet, src', hcomp', htable, -⟩
      right
      rw [hcomp] at hcomp'
      obtain ⟨rfl, -⟩ := Prod.mk.inj (Except.ok.inj (some.inj hcomp'))
      exact (read_eq_pairs_iff hlen).mp (table_injective htable)
    · rintro (hne | hf)
      · exact absurd hlen hne
      · have hread := (read_eq_pairs_iff hlen).mpr hf
        refine ⟨table y.read, src, hcomp, congrArg table hread, fun sed => ?_⟩
        rw [hread]
        exact translate_table y.pairs sed
  · rw [if_neg hlen] at hcomp ⊢
    exact ⟨fun _ => .inl hlen, fun _ => hcomp⟩

/-- The command `y/\f/p/`. -/
def formFeed : Command where
  delim := '/'
  src := [.letter .f]
  dst := [.literal 'p']
  after := []
  delim_ne := by decide
  plain := by
    intro i hi
    rcases mem_cons.mp hi with rfl | hi
    · exact trivial
    · obtain rfl := mem_singleton.mp hi
      exact ⟨by decide, by decide, by decide⟩
  ended := ⟨[], [], rfl, fun c hc => absurd hc not_mem_nil, rfl⟩

/-- In `y/\f/p/` the source character is a newline. -/
theorem not_translates : ¬∀ (y : Command) (loc : Loc), y.Translates Unit 4 ' ' loc := by
  intro hall
  obtain ⟨transet, src, hcomp, htable, -⟩ := hall formFeed ⟨1, 1⟩
  have hread : getTranset 4 ' ' (formFeed.start ⟨1, 1⟩) =
      some (.ok (['\n', 'p'], ⟨none, [], ⟨1, 7⟩⟩)) := rfl
  rw [hread] at hcomp
  obtain ⟨rfl, -⟩ := Prod.mk.inj (Except.ok.inj (some.inj hcomp))
  exact absurd htable (by decide)

end Qse.Sed.Transet
