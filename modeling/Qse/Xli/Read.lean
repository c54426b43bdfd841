import Qse.Xli.Output

/-!
# Reading the xli format

A translation of `lib/xli/read.c`. A reader is given steps for its calls and loops, and
`xli->dotted_curkey` as an argument.
-/

namespace Qse.Xli

/-! ## Tokens -/

def boolkwtab : List (List ℕ × TokType) := [(wts "false", .false), (wts "true", .true)]

def classifyIdent (trait : Trait) (name : List ℕ) : TokType :=
  if name = wts "@include" then .xinclude
  else if trait.boolean then (boolkwtab.lookup name).getD .ident
  else .ident

/-- `ops` of `get_symbols` -/
def ops : List (ℕ × TokType) :=
  [(wt '=', .eq), (wt ',', .comma), (wt ';', .semicolon), (wt '{', .lbrace), (wt '}', .rbrace)]

/-- What is left of a double-quoted string, behind the characters `name` of it. The flag is
the variable `escaped`. -/
def dqstr : Bool → List ℕ → List ℕ → Except Stop (List ℕ × List ℕ)
  | _, _, [] => .error (.err .estrnc)
  | false, name, c :: t =>
    if c = wt '\\' then dqstr true name t
    else if c = wt '\"' then .ok (name, t)
    else dqstr false (name ++ [c]) t
  | true, name, c :: t => dqstr false (name ++ [c]) t

/-- What is left of a single-quoted string, behind the characters `name` of it -/
def sqstr : List ℕ → List ℕ → Except Stop (List ℕ × List ℕ)
  | _, [] => .error (.err .estrnc)
  | name, c :: t => if c = wt '\'' then .ok (name, t) else sqstr (name ++ [c]) t

def identChar (ctype : Ctype) (c : ℕ) : Bool :=
  c = wt '_' || c = wt '-' || c = wt ':' || c = wt '*' || c = wt '/' || ctype.isAlpha c

def tagChar (ctype : Ctype) (c : ℕ) : Bool :=
  ctype.isAlnum c || c = wt '-' || c = wt '_' || c = wt ':' || c = wt '*' || c = wt '/' ||
    c = wt ',' || c = wt '.' || c = wt '|'

def tag (ctype : Ctype) : List ℕ → List ℕ → Except Stop (List ℕ × List ℕ)
  | _, [] => .error (.err .etagnc)
  | name, c :: t =>
    if c = wt '\n' then .error (.err .etagnc)
    else if c = wt ']' then .ok (name, t)
    else if !tagChar ctype c then .error (.err .etagchr)
    else tag ctype (name ++ [c]) t

/-- The token that `c` begins, and what is left of the stream. `nstr` is the bit
`TOK_STATUS_ENABLE_NSTR`. -/
def token (ctype : Ctype) (trait : Trait) (nstr : Bool) (c : ℕ) (t : List ℕ) :
    Except Stop (Tok × List ℕ) :=
  if c = wt '@' then
    match t with
    | [] => .error (.err .exkwem)
    | d :: _ =>
      if !ctype.isAlpha d then .error (.err .exkwem)
      else
        let name := c :: t.takeWhile ctype.isAlpha
        if classifyIdent trait name = .ident then .error (.err .exkwnr)
        else .ok (⟨classifyIdent trait name, name⟩, t.dropWhile ctype.isAlpha)
  else if c = wt '_' || ctype.isAlpha c || (!nstr && trait.leadDigit && ctype.isDigit c) then
    let s := t.takeWhile fun d => identChar ctype d || ctype.isDigit d
    -- an identifier with a leading digit needs another character
    if ctype.isDigit c && s.all fun d => !identChar ctype d then .error (.err .eident)
    else .ok (⟨classifyIdent trait (c :: s), c :: s⟩,
      t.dropWhile fun d => identChar ctype d || ctype.isDigit d)
  else if nstr && ctype.isDigit c then
    .ok (⟨.nstr, c :: t.takeWhile ctype.isDigit⟩, t.dropWhile ctype.isDigit)
  else if c = wt '\'' then do
    let (name, rest) ← sqstr [] t
    .ok (⟨.sqstr, name⟩, rest)
  else if c = wt '\"' then do
    let (name, rest) ← dqstr false [] t
    .ok (⟨.dqstr, name⟩, rest)
  else if (trait.keyTag || trait.strTag) && c = wt '[' then do
    let (name, rest) ← tag ctype [] t
    .ok (⟨.tag, name⟩, rest)
  else
    match ops.lookup c with
    | some type => .ok (⟨type, [c]⟩, t)
    | none => .error (.err .elxchr)

/-- The next token of the stream that is read, or the end of the stream, which is told by the
flag -/
def scanToken (ctype : Ctype) (opt : Opt) (xli : Reader) : Except Stop (Bool × Reader) :=
  let xli := xli.skip ctype opt.trait.keepText TextFlags.none
  match xli.inp.rest with
  | [] => .ok (false, xli)
  | c :: t => do
    let (tok, rest) ← token ctype opt.trait xli.status c t
    .ok (true, { xli.seek rest with tok := tok })

/-- `get_token_into`, when `prev` are the streams below the one that is read. `semicolon` is
the variable `skip_semicolon_after_include`. -/
def getTokenFrom (ctype : Ctype) (opt : Opt) : List RioArg → Bool → Reader → Except Stop Reader
  | prev, semicolon, xli => do
    let (found, xli) ← scanToken ctype opt xli
    let skipped : Bool := found && semicolon && xli.tok.type = .semicolon
    let scanned := if skipped then scanToken ctype opt xli else .ok (found, xli)
    let (found, xli) ← scanned
    let semicolon := semicolon && !skipped
    if found then if semicolon then .error (.err .escolon) else .ok xli
    else
      match prev with
      | [] =>
        if semicolon then .error (.err .escolon)
        else .ok { xli with tok := ⟨.eof, wts "<EOF>"⟩ }
      | arg :: prev => getTokenFrom ctype opt prev true (endInclude opt.trait arg prev xli)

def getToken (ctype : Ctype) (opt : Opt) (xli : Reader) : Except Stop Reader :=
  getTokenFrom ctype opt xli.prev false xli

/-! ## Pairs -/

def scmValIffy : Scm where
  valNil := false
  valStr := true
  valList := false
  keyNoDup := true
  keyAlias := false
  valIffy := false
  strMinSeg := 1
  strMaxSeg := 1

def keys : List Atom → List (WString × Option WString)
  | [] => []
  | .pair key ali _ _ _ :: rest => (key, ali) :: keys rest
  | .text .. :: rest => keys rest
  | .file _ :: rest => keys rest
  | .eof :: rest => keys rest

def newKey (ctype : Ctype) (opt : Opt) (seen : List (WString × Option WString))
    (key : WString) : Bool :=
  seen.all fun p => !opt.same ctype p.1 key

def newAlias (ctype : Ctype) (opt : Opt) (seen : List (WString × Option WString))
    (key ali : WString) : Bool :=
  seen.all fun p => !(opt.same ctype p.1 key &&
    match p.2 with
    | none => false
    | some a => opt.same ctype a ali)

def dotted (curkey : List ℕ) (key : WString) : List ℕ :=
  (if curkey.isEmpty then [] else curkey ++ [wt '.']) ++ key.chars

def findScm (opt : Opt) (override : Option Scm) (curkey : List ℕ) : Except Stop (Option Scm) :=
  if opt.trait.validate then
    match override with
    | some scm => .ok (some scm)
    | none =>
      match opt.schema curkey with
      | none => .error (.err .eudkey)
      | some scm => .ok (some scm)
  else .ok none

def flag (scm : Option Scm) (f : Scm → Bool) : Bool := scm.any f

def isString (type : TokType) : Bool :=
  type = .sqstr || type = .dqstr || type = .nstr || type = .ident

def check (cond : Bool) (num : Errnum) : Except Stop Unit :=
  if cond then .ok () else .error (.err num)

section Reader

variable (ctype : Ctype) (opt : Opt) (files : WString → Option (List ℕ))

def readAlias (scm : Option Scm) (key : WString) (xli : Reader) :
    Except Stop (Option WString × Reader) :=
  if opt.trait.keyAlias || flag scm Scm.keyAlias then
    if isString xli.tok.type then do
      let ali := WString.of xli.tok.name
      check (newAlias ctype opt (keys xli.list) key ali) .eexist
      let xli ← getToken ctype opt xli
      .ok (some ali, xli)
    else if flag scm Scm.keyAlias then .error (.err .enoali)
    else .ok (none, xli)
  else .ok (none, xli)

def readStrTag (xli : Reader) : Except Stop (Option WString × Reader) :=
  if opt.trait.strTag && xli.tok.type = .tag then do
    let xli' ← getToken ctype opt xli
    .ok (some (.of xli.tok.name), xli')
  else .ok (none, xli)

def readSegs : ℕ → List Str → Reader → Except Stop (List Str × Reader)
  | 0, _, _ => .error .fuel
  | fuel + 1, segs, xli =>
    if opt.trait.mulSegStr && xli.tok.type = .comma then do
      let xli ← getToken ctype opt xli
      let (tag, xli) ← readStrTag ctype opt xli
      check (isString xli.tok.type) .esyntaxErr
      let str : Str := ⟨xli.tok.name, tag, false⟩
      let xli ← getToken ctype opt xli
      readSegs fuel (segs ++ [str]) xli
    else .ok (segs, xli)

/-- An `int` as a `qse_size_t`, for the comparison with the number of segments -/
def sizeOfInt (n : Int32) : ℕ := (n.toInt % 2 ^ 64).toNat

def segCount (scm : Option Scm) (count : ℕ) : Bool :=
  scm.all fun scm => sizeOfInt scm.strMinSeg ≤ count && count ≤ sizeOfInt scm.strMaxSeg

/-- What `read_pair` reads behind `=`, up to the token behind the pair -/
def readStr (fuel : ℕ) (scm : Option Scm) (key : WString) (ali tag : Option WString)
    (xli : Reader) : Except Stop Reader := do
  let xli ← getToken ctype opt xli
  let (strtag, xli) ← readStrTag ctype opt xli
  if xli.tok.type = .true ∨ xli.tok.type = .false then do
    let val : Val := if xli.tok.type = .true then .true else .false
    let xli ← getToken ctype opt (xli.insert (.pair key ali tag val 0))
    check (xli.tok.type = .semicolon) .escolon
    getToken ctype opt xli
  else do
    check (isString xli.tok.type) .evalue
    check (scm.all Scm.valStr) .eilval
    let first : Str := ⟨xli.tok.name, strtag, xli.tok.type = .nstr⟩
    -- the pair is inserted with its first segment, in front of the comments between the others
    let list := xli.list
    let pair (next : List Str) : Atom := .pair key ali tag (.str first next) 0
    let xli ← getToken ctype opt
      { xli with list := [], trace := xli.trace ++ (pair []).found }
    let (next, xli) ← readSegs ctype opt fuel [] xli
    check (xli.tok.type = .semicolon) .escolon
    check (segCount scm (next.length + 1)) .estrseg
    getToken ctype opt { xli with list := list ++ pair next :: xli.list, status := false }

mutual

/-- `read_pair`, up to the token behind the pair -/
@[grind =]
def readPair (fuel : ℕ) (curkey : List ℕ) (keytag : Option WString) (override : Option Scm)
    (xli : Reader) : Except Stop Reader :=
  match fuel with
  | 0 => .error .fuel
  | fuel + 1 => do
    let key := WString.of xli.tok.name
    let curkey := dotted curkey key
    let scm ← findScm opt override curkey
    check (!(opt.trait.keyNoDup || flag scm Scm.keyNoDup) ||
      newKey ctype opt (keys xli.list) key) .eexist
    let xli ← getToken ctype opt { xli with status := true }
    let (ali, xli) ← readAlias ctype opt scm key xli
    match xli.tok.type with
    | .eq => readStr ctype opt fuel scm key ali keytag xli
    | .lbrace =>
      if opt.trait.noList then .error (.err .elbreq)
      else do
        check (scm.all Scm.valList) .eilval
        let list := xli.list
        let pair (atoms : List Atom) : Atom := .pair key ali keytag (.list false atoms) 0
        let xli ← getToken ctype opt
          { xli with list := [], status := false, trace := xli.trace ++ (pair []).found }
        let override := if flag scm Scm.valIffy then some scmValIffy else none
        let xli ← readList fuel curkey override xli
        check (xli.tok.type = .rbrace) .erbrace
        let xli ← getToken ctype opt
          { xli with list := list ++ [pair xli.list], trace := xli.trace ++ [.leave] }
        if xli.tok.type = .semicolon then getToken ctype opt xli else .ok xli
    | .semicolon => do
      check (!opt.trait.noNil) .enoval
      check (scm.all fun scm => scm.valNil || (scm.valStr && scm.strMinSeg ≤ 0)) .enoval
      getToken ctype opt
        ({ xli with status := false }.insert (.pair key ali keytag .nil 0))
    | _ => .error (.err .elbreq)

@[grind =] def readList (fuel : ℕ) (curkey : List ℕ) (override : Option Scm) (xli : Reader) :
    Except Stop Reader :=
  match fuel with
  | 0 => .error .fuel
  | fuel + 1 =>
    match xli.tok.type with
    | .xinclude => do
      let xli ← getToken ctype opt xli
      check (xli.tok.type = .sqstr || xli.tok.type = .dqstr) .einclstr
      let xli ← beginInclude opt files (getToken ctype opt) xli
      readList fuel curkey override xli
    | .tag =>
      if opt.trait.keyTag then do
        let keytag := WString.of xli.tok.name
        let xli ← getToken ctype opt xli
        check (xli.tok.type = .ident || xli.tok.type = .dqstr || xli.tok.type = .sqstr) .enokey
        let xli ← readPair fuel curkey keytag override xli
        readList fuel curkey override xli
      else .ok xli
    | .ident | .dqstr | .sqstr => do
      let xli ← readPair fuel curkey none override xli
      readList fuel curkey override xli
    | .text => do
      let xli ← getToken ctype opt xli
      readList fuel curkey override xli
    | _ => .ok xli

end

/-- `qse_xli_read` into an empty root list. -/
def read (fuel : ℕ) (text : List ℕ) : Except Stop Reader := do
  let xli ← getToken ctype opt (.init text)
  let xli ← readList ctype opt files fuel [] none xli
  check (xli.tok.type = .eof) .esyntaxErr
  .ok xli

end Reader

end Qse.Xli
