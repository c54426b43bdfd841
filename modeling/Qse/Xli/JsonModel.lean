import Qse.Xli.Output

/-!
# The JSON format

A translation of `lib/xli/read-json.c` and `lib/xli/write-json.c`. A reader is given steps
for its calls and loops.

A tree says something in the JSON format if it has the shapes that `qse_xli_writejson` knows.
-/

open List

namespace Qse.Xli.Json

/-! ## Writing -/

def escape (c : ℕ) : List ℕ :=
  if c = wt '\\' ∨ c = wt '\"' ∨ c = 8 ∨ c = 12 ∨ c = wt '\n' ∨ c = wt '\r' ∨ c = wt '\t' then
    [wt '\\', if c = 8 then wt 'b' else if c = 12 then wt 'f' else if c = wt '\n' then wt 'n'
      else if c = wt '\r' then wt 'r' else if c = wt '\t' then wt 't' else c]
  else if c ≤ 0x1F then
    -- the format is %04X
    [wt '\\', wt 'u', wt '0', wt '0', wt '0' + c / 16,
      if c % 16 < 10 then wt '0' + c % 16 else wt 'A' + (c % 16 - 10)]
  else [c]

def quoted (s : List ℕ) : List ℕ := wt '\"' :: s.flatMap escape ++ [wt '\"']

def needComma (opt : Opt) : List Atom → Bool
  | [] => false
  | .pair key ali tag val xtn :: rest =>
    if opt.writable (.pair key ali tag val xtn) then true else needComma opt rest
  | .eof :: _ => false
  | .text .. :: rest => needComma opt rest
  | .file _ :: rest => needComma opt rest

def obrac (arrayed : Bool) : List ℕ := if arrayed then wts "[\n" else wts "\x7b\n"

def cbrac (arrayed : Bool) : List ℕ := if arrayed then wts "]" else wts "\x7d"

def joined (first : Str) : List Str → List ℕ
  | [] => first.ptr
  | str :: next => first.ptr ++ wt ',' :: joined str next

def strText (first : Str) (next : List Str) : List ℕ :=
  if !first.nstr || !next.isEmpty then quoted (joined first next) else joined first next

def ending (comma : Bool) : List ℕ := if comma then wts ",\n" else wts "\n"

mutual

def writeVal (opt : Opt) (depth : ℤ) : Val → Wio → Option Wio
  | .nil, wio => wio.write (wts "nil")
  | .true, wio => wio.write (wts "true")
  | .false, wio => wio.write (wts "false")
  | .str first next, wio => wio.write (strText first next)
  | .list arrayed atoms, wio => do
    let wio ← wio.write (obrac arrayed)
    let wio ← writeList opt arrayed (depth + 1) atoms wio
    wio.write (tabs depth ++ cbrac arrayed)

def writeList (opt : Opt) (arrayed : Bool) (depth : ℤ) : List Atom → Wio → Option Wio
  | [], wio => some wio
  | .pair key ali tag val xtn :: rest, wio =>
    if !opt.writable (.pair key ali tag val xtn) then writeList opt arrayed depth rest wio
    else do
      let wio ← wio.write (tabs depth)
      let wio ← wio.write (if !arrayed then quoted key.chars ++ wts ": " else [])
      let wio ← writeVal opt depth val wio
      let wio ← wio.write (ending (needComma opt rest))
      writeList opt arrayed depth rest wio
  | .text flags ptr :: rest, wio => do
    let wio ← wio.write (tabs (depth - if flags.deindent then 1 else 0))
    let wio ← wio.write ((if !flags.verbatim then wts "#" else []) ++ ptr.chars ++ wts "\n")
    writeList opt arrayed depth rest wio
  | .file path :: rest, wio => do
    let wio ← wio.write (tabs depth)
    let wio ← wio.write (wts "@include " ++ quoted path.chars)
    writeList opt arrayed 0 rest (wio.openwstream path depth)
  | .eof :: rest, wio => do
    let (wio, depth) ← wio.closeactivewstream
    let wio ← wio.write (ending (needComma opt rest))
    writeList opt arrayed depth rest wio

end

def haveOpeningMarker : List Atom → Bool
  | .text flags _ :: rest =>
    flags.arrayedListOpener || flags.listOpener || haveOpeningMarker rest
  | _ => false

/-- `qse_xli_writejson`. The streams are returned in the order in which they are closed. -/
def writejson (opt : Opt) (arrayed : Bool) (atoms : List Atom) : Option (List WioArg) := do
  let marker := haveOpeningMarker atoms
  let wio ← Wio.init.write (if !marker then obrac arrayed else [])
  let wio ← writeList opt arrayed 1 atoms wio
  let wio ← wio.write (if !marker then cbrac arrayed ++ wts "\n" else [])
  some wio.closeAll

/-! ## Tokens -/

def kwtab : List (List ℕ × TokType) :=
  [(wts "@include", .xinclude), (wts "false", .false), (wts "nil", .nil), (wts "true", .true)]

def classifyIdent (name : List ℕ) : TokType := (kwtab.lookup name).getD .ident

/-- `ops` of `get_symbols` -/
def ops : List (ℕ × TokType) :=
  [(wt ',', .comma), (wt ':', .colon), (wt ';', .semicolon), (wt '{', .lbrace),
   (wt '}', .rbrace), (wt '[', .lbrack), (wt ']', .rbrack)]

def hexDigit (c : ℕ) : Option ℕ :=
  if wt '0' ≤ c ∧ c ≤ wt '9' then some (c - wt '0')
  else if wt 'A' ≤ c ∧ c ≤ wt 'F' then some (c - wt 'A' + 10)
  else if wt 'a' ≤ c ∧ c ≤ wt 'f' then some (c - wt 'a' + 10)
  else none

/-- What a character other than `u` stands for behind a backslash. -/
def unescape (c : ℕ) : ℕ :=
  if c = wt 'b' then 8 else if c = wt 'f' then 12 else if c = wt 'n' then wt '\n'
  else if c = wt 'r' then wt '\r' else if c = wt 't' then wt '\t' else c

/-- The variables `escaped`, `digit_count` and `c_acc` -/
inductive Escaped where
  | no
  | one
  | hex (digitCount acc : ℕ)
deriving DecidableEq

@[grind =] def dqstr : Escaped → List ℕ → List ℕ → Except Stop (List ℕ × List ℕ)
  | _, _, [] => .error (.err .estrnc)
  | .no, name, c :: t =>
    if c = wt '\\' then dqstr .one name t
    else if c = wt '\"' then .ok (name, t)
    else dqstr .no (name ++ [c]) t
  | .one, name, c :: t =>
    if c = wt 'u' then dqstr (.hex 0 0) name t else dqstr .no (name ++ [unescape c]) t
  | .hex digitCount acc, name, c :: t =>
    match hexDigit c with
    | some digit =>
      if 4 ≤ digitCount + 1 then dqstr .no (name ++ [acc * 16 + digit]) t
      else dqstr (.hex (digitCount + 1) (acc * 16 + digit)) name t
    | none =>
      -- what has been read is kept and the character is one that is not escaped
      let name := name ++ [if digitCount = 0 then wt 'u' else acc]
      if c = wt '\\' then dqstr .one name t
      else if c = wt '\"' then .ok (name, t)
      else dqstr .no (name ++ [c]) t

def sqstr : List ℕ → List ℕ → Except Stop (List ℕ × List ℕ)
  | _, [] => .error (.err .estrnc)
  | name, c :: t => if c = wt '\'' then .ok (name, t) else sqstr (name ++ [c]) t

/-- The characters in front that satisfy `p`, with those in front of them, as a token -/
def word (type : List ℕ → TokType) (name : List ℕ) (p : ℕ → Bool) (s : List ℕ) : Tok × List ℕ :=
  (⟨type (name ++ s.takeWhile p), name ++ s.takeWhile p⟩, s.dropWhile p)

/-- The token that `c` begins, and what is left of the stream -/
def token (ctype : Ctype) (c : ℕ) (t : List ℕ) : Except Stop (Tok × List ℕ) :=
  if c = wt '@' then
    match t with
    | [] => .error (.err .exkwem)
    | d :: _ =>
      if !ctype.isAlpha d then .error (.err .exkwem)
      else
        let (tok, rest) := word classifyIdent [c] ctype.isAlpha t
        if tok.type = .ident then .error (.err .exkwnr) else .ok (tok, rest)
  else if c = wt '_' ∨ ctype.isAlpha c then
    .ok (word classifyIdent [c] (fun d => d = wt '_' || ctype.isAlnum d) t)
  else if c = wt '-' then
    match t with
    | [] => .error (.err .elxchr)
    | d :: _ =>
      if !ctype.isDigit d then .error (.err .elxchr)
      else .ok (word (fun _ => .nstr) [c] ctype.isDigit t)
  else if ctype.isDigit c then .ok (word (fun _ => .nstr) [c] ctype.isDigit t)
  else if c = wt '\'' then do
    let (name, rest) ← sqstr [] t
    .ok (⟨.sqstr, name⟩, rest)
  else if c = wt '\"' then do
    let (name, rest) ← dqstr .no [] t
    .ok (⟨.dqstr, name⟩, rest)
  else
    match ops.lookup c with
    | some type => .ok (⟨type, [c]⟩, t)
    | none => .error (.err .elxchr)

/-- `get_token_into`, when `prev` are the streams below the one that is read -/
def getTokenFrom (ctype : Ctype) (opt : Opt) : List RioArg → Reader → Except Stop Reader
  | prev, xli =>
    let xli := xli.skip ctype opt.trait.keepText
      { TextFlags.none with deindent := xli.status }
    match xli.inp.rest with
    | c :: t => do
      let (tok, rest) ← token ctype c t
      .ok { xli.seek rest with tok := tok }
    | [] =>
      match prev with
      | [] => .ok { xli with tok := ⟨.eof, wts "<EOF>"⟩ }
      | arg :: prev => getTokenFrom ctype opt prev (endInclude opt.trait arg prev xli)

def getToken (ctype : Ctype) (opt : Opt) (xli : Reader) : Except Stop Reader :=
  getTokenFrom ctype opt xli.prev xli

/-! ## Reading -/

def keys : List Atom → List WString
  | [] => []
  | .pair key _ _ _ _ :: rest => key :: keys rest
  | .text .. :: rest => keys rest
  | .file _ :: rest => keys rest
  | .eof :: rest => keys rest

/-- `check_token_for_key_eligibility`, of a list that has the keys `seen` -/
def eligible (ctype : Ctype) (opt : Opt) (seen : List WString) (key : WString) : Bool :=
  !opt.trait.keyNoDup || seen.all fun k => !opt.same ctype k key

/-- The key `qse_strxfmt` makes of the index of an element -/
def indexKey (index : ℕ) : WString := .of ((Nat.toDigits 10 index).map Char.toNat)

/-- The token after `@include`, which names a file, and the first token of that file -/
def readInclude (ctype : Ctype) (opt : Opt) (files : WString → Option (List ℕ)) (xli : Reader) :
    Except Stop Reader := do
  let xli ← getToken ctype opt xli
  if xli.tok.type = .sqstr ∨ xli.tok.type = .dqstr then
    beginInclude opt files (getToken ctype opt) xli
  else .error (.err .einclstr)

def expect (type : TokType) (num : Errnum) (xli : Reader) : Except Stop Unit :=
  if xli.tok.type = type then .ok () else .error (.err num)

section Parser

variable (ctype : Ctype) (opt : Opt) (files : WString → Option (List ℕ))

mutual

@[grind =] def readValue : ℕ → Reader → Except Stop (Val × Reader)
  | 0, _ => .error .fuel
  | fuel + 1, xli =>
    match xli.tok.type with
    | .xinclude => do
      let xli ← readInclude ctype opt files xli
      readValue fuel xli
    | .dqstr | .sqstr => .ok (.str ⟨xli.tok.name, none, false⟩ [], xli)
    | .nstr => .ok (.str ⟨xli.tok.name, none, true⟩ [], xli)
    | .lbrace => do
      -- a comment behind the brace goes to the list outside
      let xli ← getToken ctype opt xli
      let list := xli.list
      let xli ← readList fuel { xli with list := [] }
      expect .rbrace .erbrace xli
      .ok (.list false xli.list, { xli with list := list })
    | .lbrack => do
      let xli ← getToken ctype opt xli
      let list := xli.list
      let xli ←
        if xli.tok.type = .rbrack then .ok { xli with list := [] }
        else readArray fuel 0 { xli with list := [] }
      expect .rbrack .erbrack xli
      .ok (.list true xli.list, { xli with list := list })
    | .nil => .ok (.nil, xli)
    | .true => .ok (.true, xli)
    | .false => .ok (.false, xli)
    | .text => do
      let xli ← getToken ctype opt xli
      readValue fuel xli
    | _ => .error (.err .evalue)

/-- The loop of `__read_array` -/
@[grind =] def readArray : ℕ → ℕ → Reader → Except Stop Reader
  | 0, _, _ => .error .fuel
  | fuel + 1, index, xli => do
    let (val, xli) ← readValue fuel xli
    let xli ← getToken ctype opt (xli.insert (.pair (indexKey index) none none val 0))
    if xli.tok.type = .rbrack then .ok xli
    else do
      expect .comma .ecomma xli
      let xli ← getToken ctype opt xli
      readArray fuel (index + 1) xli

/-- The loop of `__read_list` -/
@[grind =] def readList : ℕ → Reader → Except Stop Reader
  | 0, _ => .error .fuel
  | fuel + 1, xli =>
    match xli.tok.type with
    | .xinclude => do
      let xli ← readInclude ctype opt files xli
      readList fuel xli
    | .dqstr | .sqstr => do
      -- read_pair
      let key := WString.of xli.tok.name
      if !eligible ctype opt (keys xli.list) key then .error (.err .eexist)
      else do
        let xli ← getToken ctype opt xli
        expect .colon .ecolon xli
        let xli ← getToken ctype opt xli
        let (val, xli) ← readValue fuel xli
        let xli ← getToken ctype opt (xli.insert (.pair key none none val 0))
        if xli.tok.type = .comma then do
          let xli ← getToken ctype opt xli
          readList fuel xli
        else .ok xli
    | .text => do
      let xli ← getToken ctype opt xli
      readList fuel xli
    | _ => .ok xli

end

def marker (arrayed opener : Bool) : TextFlags where
  verbatim := true
  deindent := true
  listOpener := !arrayed && opener
  listCloser := !arrayed && !opener
  arrayedListOpener := arrayed && opener
  arrayedListCloser := arrayed && !opener

/-- The second half of `read_root_list`, from the closing bracket on -/
def closeRoot (arrayed : Bool) (xli : Reader) : Except Stop (Bool × Reader) := do
  expect (if arrayed then .rbrack else .rbrace) (if arrayed then .erbrack else .erbrace) xli
  let xli := xli.insert (.text (marker arrayed false) (.of xli.tok.name))
  let xli ← getToken ctype opt { xli with status := true }
  .ok (arrayed, xli)

def readRootList (fuel : ℕ) (xli : Reader) : Except Stop (Bool × Reader) := do
  let xli ← getToken ctype opt { xli with status := true }
  if xli.tok.type ≠ .lbrack ∧ xli.tok.type ≠ .lbrace then .error (.err .elbrac)
  else do
    let arrayed : Bool := xli.tok.type = .lbrack
    let xli := xli.insert (.text (marker arrayed true) (.of xli.tok.name))
    let xli ← getToken ctype opt { xli with status := false }
    let xli ← readList ctype opt files fuel xli
    closeRoot ctype opt arrayed xli

def endOfText (root : Bool × Reader) : Except Stop (Bool × List Atom) :=
  match root.2.tok.type with
  | .eof => .ok (root.1, root.2.list)
  | .lbrace | .lbrack | .dqstr | .sqstr => .error (.err .ecomma)
  | _ => .error (.err .esyntaxErr)

/-- `qse_xli_readjson` into an empty root list, which is returned with its flag -/
def readjson (fuel : ℕ) (text : List ℕ) : Except Stop (Bool × List Atom) := do
  let root ← readRootList ctype opt files fuel (.init text)
  endOfText root

end Parser

/-! ## What a tree says -/

inductive Value where
  | nil
  | true
  | false
  | str (s : List ℕ)
  | num (s : List ℕ)
  | arr (elements : List Value)
  | obj (members : List (WString × Value))

mutual

def shown (writable : Atom → Bool) : Val → Value
  | .nil => .nil
  | .true => .true
  | .false => .false
  | .str first next =>
    if !first.nstr || !next.isEmpty then .str (joined first next) else .num (joined first next)
  | .list arrayed atoms =>
    if arrayed then .arr ((members writable atoms).map Prod.snd)
    else .obj (members writable atoms)

/-- The pairs of a list that `writable` admits -/
def members (writable : Atom → Bool) : List Atom → List (WString × Value)
  | [] => []
  | .pair key ali tag val xtn :: rest =>
    if writable (.pair key ali tag val xtn) then
      (key, shown writable val) :: members writable rest
    else members writable rest
  | .text .. :: rest => members writable rest
  | .file _ :: rest => members writable rest
  | .eof :: rest => members writable rest

end

abbrev whole : Val → Value := shown fun _ => Bool.true

abbrev wholeMembers : List Atom → List (WString × Value) := members fun _ => Bool.true

theorem members_append (writable : Atom → Bool) (atoms rest : List Atom) :
    members writable (atoms ++ rest) = members writable atoms ++ members writable rest := by
  induction atoms with
  | nil => simp [members]
  | cons atom atoms ih =>
    cases atom <;> simp only [cons_append, members, ih]
    split <;> rfl

theorem keys_eq (atoms : List Atom) : keys atoms = (wholeMembers atoms).map Prod.fst := by
  induction atoms with
  | nil => simp [keys, wholeMembers, members]
  | cons atom atoms ih => cases atom <;> simp [keys, wholeMembers, members, ih]

variable {opt : Opt} {atoms : List Atom} {ctype : Ctype}

theorem needComma_eq (h : ∀ atom ∈ atoms, atom ≠ .eof) :
    needComma opt atoms = !(members opt.writable atoms).isEmpty := by
  induction atoms with
  | nil => rfl
  | cons atom atoms ih =>
    have ih := ih fun a ha => h a (.tail _ ha)
    cases atom with
    | pair key ali tag val xtn =>
      simp only [needComma, members, ih]
      split <;> simp
    | text | file => simpa only [needComma, members] using ih
    | eof => exact absurd rfl (h _ (.head _))

def Numeral (ctype : Ctype) (s : List ℕ) : Prop :=
  ∃ sign digits, s = sign ++ digits ∧ (sign = [] ∨ sign = [wt '-']) ∧ digits ≠ [] ∧
    ∀ c ∈ digits, ctype.isDigit c = true

mutual

def Expressible (ctype : Ctype) : Val → Prop
  | .str first next => first.nstr = true → next = [] → Numeral ctype first.ptr
  | .list _ atoms => Pairs ctype atoms
  | .nil => True
  | .true => True
  | .false => True

def Pairs (ctype : Ctype) : List Atom → Prop
  | [] => True
  | .pair _ _ _ val _ :: rest => Expressible ctype val ∧ Pairs ctype rest
  | .text .. :: _ => False
  | .file _ :: _ => False
  | .eof :: _ => False

end

mutual

def distinct (ctype : Ctype) (opt : Opt) : Val → Bool
  | .list arrayed atoms => distinctFrom ctype opt arrayed [] atoms
  | .nil => Bool.true
  | .true => Bool.true
  | .false => Bool.true
  | .str .. => Bool.true

def distinctFrom (ctype : Ctype) (opt : Opt) (arrayed : Bool) :
    List WString → List Atom → Bool
  | _, [] => Bool.true
  | seen, .pair key ali tag val xtn :: rest =>
    if opt.writable (.pair key ali tag val xtn) then
      (arrayed || eligible ctype opt seen key) && distinct ctype opt val &&
        distinctFrom ctype opt arrayed (seen ++ [key]) rest
    else distinctFrom ctype opt arrayed seen rest
  | seen, .text .. :: rest => distinctFrom ctype opt arrayed seen rest
  | seen, .file _ :: rest => distinctFrom ctype opt arrayed seen rest
  | seen, .eof :: rest => distinctFrom ctype opt arrayed seen rest

end

theorem Pairs.ne_eof (h : Pairs ctype atoms) : ∀ atom ∈ atoms, atom ≠ .eof := by
  induction atoms with
  | nil => simp
  | cons atom atoms ih =>
    cases atom with
    | pair key ali tag val xtn =>
      have hrest := ih h.2
      simpa using hrest
    | text | file | eof => exact absurd h (by simp [Pairs])

/-! ## Its text -/

mutual

/-- The text of a value at `depth` -/
def valText (opt : Opt) (depth : ℤ) : Val → List ℕ
  | .nil => wts "nil"
  | .true => wts "true"
  | .false => wts "false"
  | .str first next => strText first next
  | .list arrayed atoms =>
    obrac arrayed ++ (listText opt arrayed (depth + 1) atoms ++ (tabs depth ++ cbrac arrayed))

/-- The text of pairs at `depth` -/
def listText (opt : Opt) (arrayed : Bool) (depth : ℤ) : List Atom → List ℕ
  | [] => []
  | .pair key ali tag val xtn :: rest =>
    if opt.writable (.pair key ali tag val xtn) then
      tabs depth ++ ((if !arrayed then quoted key.chars ++ wts ": " else []) ++
        (valText opt depth val ++ (ending (needComma opt rest) ++ listText opt arrayed depth rest)))
    else listText opt arrayed depth rest
  | .text .. :: rest => listText opt arrayed depth rest
  | .file _ :: rest => listText opt arrayed depth rest
  | .eof :: rest => listText opt arrayed depth rest

end

theorem listText_eq_nil (h : members opt.writable atoms = []) (arrayed : Bool)
    (depth : ℤ) : listText opt arrayed depth atoms = [] := by
  induction atoms with
  | nil => rfl
  | cons atom atoms ih =>
    cases atom with
    | pair key ali tag val xtn =>
      rw [members] at h
      rw [listText]
      split at h
      · exact absurd h (cons_ne_nil _ _)
      · rename_i hw
        rw [if_neg hw, ih h]
    | text | file | eof => exact ih h

theorem needComma_append (h : ∀ atom ∈ atoms, atom ≠ .eof) {tail : List Atom}
    (htail : needComma opt tail = false) :
    needComma opt (atoms ++ tail) = needComma opt atoms := by
  induction atoms with
  | nil => simpa [needComma] using htail
  | cons atom atoms ih =>
    have ih := ih fun a ha => h a (.tail _ ha)
    cases atom with
    | eof => exact absurd rfl (h _ (.head _))
    | pair | text | file => simp only [cons_append, needComma, ih]

mutual

theorem writeVal_eq {ctype : Ctype} {opt : Opt} {val : Val} (h : Expressible ctype val) (depth : ℤ)
    (name : Option WString) (text : List ℕ) (orgDepth : ℤ) (prev closed : List WioArg) :
    writeVal opt depth val ⟨⟨name, text, orgDepth⟩ :: prev, closed⟩ =
      some ⟨⟨name, text ++ valText opt depth val, orgDepth⟩ :: prev, closed⟩ := by
  match val with
  | .nil | .true | .false | .str first next => rfl
  | .list arrayed atoms =>
    have hatoms := @writeList_append ctype opt atoms h [] rfl arrayed (depth + 1)
    simp only [append_nil] at hatoms
    simp [writeVal, valText, hatoms, writeList, append_assoc]

theorem writeList_append {ctype : Ctype} {opt : Opt} {atoms : List Atom} (h : Pairs ctype atoms)
    {tail : List Atom} (htail : needComma opt tail = false) (arrayed : Bool) (depth : ℤ)
    (name : Option WString) (text : List ℕ) (orgDepth : ℤ) (prev closed : List WioArg) :
    writeList opt arrayed depth (atoms ++ tail) ⟨⟨name, text, orgDepth⟩ :: prev, closed⟩ =
      writeList opt arrayed depth tail
        ⟨⟨name, text ++ listText opt arrayed depth atoms, orgDepth⟩ :: prev, closed⟩ := by
  match atoms with
  | [] => simp [listText]
  | .pair key ali tag val xtn :: rest =>
    have hval := @writeVal_eq ctype opt val h.1 depth
    have hrest := @writeList_append ctype opt rest h.2 tail htail arrayed depth
    have hcomma : needComma opt (rest ++ tail) = needComma opt rest :=
      needComma_append h.2.ne_eof htail
    rw [cons_append, writeList, listText]
    cases opt.writable (.pair key ali tag val xtn) with
    | false => simp [hrest]
    | true => simp [hval, hrest, hcomma, append_assoc]

end

/-- The TEXT atom that `read_root_list` makes of the bracket in front of or behind the list -/
def bracket (arrayed opener : Bool) : Atom :=
  .text (marker arrayed opener)
    (.of [if arrayed then (if opener then wt '[' else wt ']') else
      if opener then wt '{' else wt '}'])

/-- The atoms of a root list that has the pairs `pairs`. A list that was read from the JSON
format also holds its brackets. -/
inductive Root (ctype : Ctype) (arrayed : Bool) (pairs : List Atom) : List Atom → Prop where
  | bare (h : Pairs ctype pairs) : Root ctype arrayed pairs pairs
  | framed (h : Pairs ctype pairs) :
      Root ctype arrayed pairs (bracket arrayed true :: pairs ++ [bracket arrayed false])

def rootText (opt : Opt) (arrayed : Bool) (pairs : List Atom) : List ℕ :=
  obrac arrayed ++ (listText opt arrayed 1 pairs ++ (cbrac arrayed ++ wts "\n"))

theorem Root.pairs {ctype : Ctype} {arrayed : Bool} {pairs atoms : List Atom}
    (h : Root ctype arrayed pairs atoms) : Pairs ctype pairs := by
  cases h <;> assumption

theorem Root.members_eq {arrayed : Bool} {pairs : List Atom} (h : Root ctype arrayed pairs atoms)
    (writable : Atom → Bool) :
    members writable atoms = members writable pairs := by
  cases h with
  | bare => rfl
  | framed =>
    rw [cons_append, bracket, members, members_append, bracket, members, members, append_nil]

theorem haveOpeningMarker_eq {pairs : List Atom} (h : Pairs ctype pairs) :
    haveOpeningMarker pairs = false := by
  match pairs with
  | [] => rfl
  | .pair .. :: _ => rfl

theorem writeList_bracket (opt : Opt) (arrayed opener : Bool) (rest : List Atom)
    (name : Option WString) (text : List ℕ) (orgDepth : ℤ) (prev closed : List WioArg) :
    writeList opt arrayed 1 (bracket arrayed opener :: rest)
        ⟨⟨name, text, orgDepth⟩ :: prev, closed⟩ =
      writeList opt arrayed 1 rest
        ⟨⟨name, text ++ if opener then obrac arrayed else cbrac arrayed ++ wts "\n", orgDepth⟩ ::
          prev, closed⟩ := by
  rw [bracket, writeList]
  simp only [Wio.write_mk, Option.bind_eq_bind, Option.bind_some, append_assoc]
  cases arrayed <;> cases opener <;> rfl

theorem writejson_eq {ctype : Ctype} {arrayed : Bool} {pairs atoms : List Atom}
    (h : Root ctype arrayed pairs atoms) (opt : Opt) :
    writejson opt arrayed atoms = some [⟨none, rootText opt arrayed pairs, 0⟩] := by
  cases h with
  | bare h =>
    have hlist := @writeList_append ctype opt pairs h [] rfl arrayed 1
    simp only [append_nil] at hlist
    simp [writejson, haveOpeningMarker_eq h, Wio.init, hlist, writeList, Wio.closeAll, rootText]
  | framed h =>
    have hlist := @writeList_append ctype opt pairs h [bracket arrayed false] rfl arrayed 1
    have hmarker : haveOpeningMarker (bracket arrayed true :: (pairs ++ [bracket arrayed false])) =
        true := by
      cases arrayed <;> rfl
    simp [writejson, hmarker, Wio.init, writeList_bracket, hlist, writeList, Wio.closeAll, rootText]

end Qse.Xli.Json
