import Mathlib.Data.List.TakeWhile
import Mathlib.Algebra.Group.Nat.Defs
import Mathlib.Algebra.Group.Int.Defs

/-!
# Trees of xli values

The data of `lib/xli/xli.c` and the input that its readers share. A `qse_char_t` is a
wide character and stands for its code. An input stream is what is left of it, as
`qse_xli_getchar` delivers it; its first character is the one last read. Line and column
numbers are left out.
-/

namespace Qse.Xli

/-- `QSE_T` of a character -/
abbrev wt (c : Char) : ℕ := c.toNat

/-- `QSE_T` of a string -/
def wts (s : String) : List ℕ := s.toList.map Char.toNat

structure WString where
  chars : List ℕ
  noNul : 0 ∉ chars
deriving DecidableEq

/-- A string as it is copied by `qse_strcpy` or `qse_strdup`. -/
def WString.of (s : List ℕ) : WString :=
  ⟨s.takeWhile (· ≠ 0), fun h => by simpa using List.mem_takeWhile_imp h⟩

theorem WString.of_chars (s : WString) : WString.of s.chars = s := by
  have hne : ∀ c ∈ s.chars, c ≠ 0 := fun c hc h0 => s.noNul (h0 ▸ hc)
  have h : s.chars.takeWhile (· ≠ 0) = s.chars :=
    List.takeWhile_eq_self_iff.2 fun c hc => by simpa using hne c hc
  simp only [WString.of, h]

/-- `qse_xli_str_t`, a segment of a string value -/
structure Str where
  ptr : List ℕ
  tag : Option WString
  nstr : Bool
deriving DecidableEq

/-- The flags of a `qse_xli_text_t` -/
structure TextFlags where
  verbatim : Bool
  deindent : Bool
  listOpener : Bool
  listCloser : Bool
  arrayedListOpener : Bool
  arrayedListCloser : Bool
deriving DecidableEq

def TextFlags.none : TextFlags := ⟨false, false, false, false, false, false⟩

mutual

/-- `qse_xli_val_t` -/
inductive Val where
  | nil
  | true
  | false
  | str (first : Str) (next : List Str)
  | list (arrayed : Bool) (atoms : List Atom)

/-- `qse_xli_atom_t`. The extension area of a pair belongs to the user and is zero when
the pair is made. -/
inductive Atom where
  | pair (key : WString) (ali tag : Option WString) (val : Val) (xtn : ℕ)
  | text (flags : TextFlags) (ptr : WString)
  | file (path : WString)
  | eof

end

/-- The bits of `qse_xli_trait_t` -/
structure Trait where
  keyNoDup : Bool
  keyAlias : Bool
  keepText : Bool
  keepFile : Bool
  mulSegStr : Bool
  leadDigit : Bool
  noNil : Bool
  noList : Bool
  keyTag : Bool
  strTag : Bool
  boolean : Bool
  caseInsensitive : Bool
  validate : Bool
deriving DecidableEq

def Trait.none : Trait :=
  ⟨false, false, false, false, false, false, false, false, false, false, false, false, false⟩

/-- `qse_xli_scm_t` -/
structure Scm where
  valNil : Bool
  valStr : Bool
  valList : Bool
  keyNoDup : Bool
  keyAlias : Bool
  valIffy : Bool
  strMinSeg : Int32
  strMaxSeg : Int32
deriving DecidableEq

/-- `xli->opt` and `xli->schema` -/
structure Opt where
  trait : Trait
  pairWritable : Option (Atom → Bool)
  schema : List ℕ → Option Scm

/-- `QSE_ISSPACE` and so on, and `QSE_TOUPPER`, of the locale. They are those of C among
the ASCII characters. -/
structure Ctype where
  isSpace : ℕ → Bool
  isAlpha : ℕ → Bool
  isDigit : ℕ → Bool
  toUpper : ℕ → ℕ
  space_ascii : ∀ c < 128, isSpace c = (c == 32 || (9 ≤ c && c ≤ 13))
  alpha_ascii : ∀ c < 128, isAlpha c = ((65 ≤ c && c ≤ 90) || (97 ≤ c && c ≤ 122))
  digit_ascii : ∀ c < 128, isDigit c = (48 ≤ c && c ≤ 57)
  not_space_of_alpha : ∀ c, isAlpha c = true → isSpace c = false
  not_space_of_digit : ∀ c, isDigit c = true → isSpace c = false
  not_alpha_of_digit : ∀ c, isDigit c = true → isAlpha c = false

def Ctype.isAlnum (ctype : Ctype) (c : ℕ) : Bool := ctype.isAlpha c || ctype.isDigit c

theorem Ctype.alnum_ascii (ctype : Ctype) (c : ℕ) (hc : c < 128) : ctype.isAlnum c =
    (((65 ≤ c && c ≤ 90) || (97 ≤ c && c ≤ 122)) || (48 ≤ c && c ≤ 57)) := by
  rw [Ctype.isAlnum, ctype.alpha_ascii c hc, ctype.digit_ascii c hc]

def Ctype.ascii : Ctype where
  isSpace c := c == 32 || (9 ≤ c && c ≤ 13)
  isAlpha c := (65 ≤ c && c ≤ 90) || (97 ≤ c && c ≤ 122)
  isDigit c := 48 ≤ c && c ≤ 57
  toUpper c := if 97 ≤ c ∧ c ≤ 122 then c - 32 else c
  space_ascii _ _ := rfl
  alpha_ascii _ _ := rfl
  digit_ascii _ _ := rfl
  not_space_of_alpha c h := by simp at h ⊢; omega
  not_space_of_digit c h := by simp at h ⊢; omega
  not_alpha_of_digit c h := by simp at h ⊢; omega

/-- `xli->opt.strcmp` returns zero. -/
def Opt.same (opt : Opt) (ctype : Ctype) (s t : WString) : Bool :=
  if opt.trait.caseInsensitive then s.chars.map ctype.toUpper == t.chars.map ctype.toUpper
  else s.chars == t.chars

def Opt.writable (opt : Opt) (atom : Atom) : Bool :=
  match opt.pairWritable with
  | none => true
  | some f => f atom

/-! ## Input -/

/-- What `qse_xli_getchar` delivers of a stream: each of LF CR, CR LF, LF and CR is a single
LF. Behind the first character of such a pair, `ec` is the second one. -/
def delivered : Option ℕ → List ℕ → List ℕ
  | _, [] => []
  | ec, c :: t =>
    if ec = some c then delivered none t
    else if c = wt '\n' then wt '\n' :: delivered (some (wt '\r')) t
    else if c = wt '\r' then wt '\n' :: delivered (some (wt '\n')) t
    else c :: delivered none t

theorem delivered_eq {s : List ℕ} (h : wt '\r' ∉ s) {ec : Option ℕ} (hec : ec ≠ some (wt '\n'))
    (hlf : ∀ c, ec = some c → c = wt '\r') : delivered ec s = s := by
  induction s generalizing ec with
  | nil => rfl
  | cons c t ih =>
    have hc : c ≠ wt '\r' := fun hc => h (by simp [hc])
    have ht : wt '\r' ∉ t := fun ht => h (.tail _ ht)
    rw [delivered, if_neg fun he => hc (hlf c he), if_neg hc]
    split
    · rename_i hn
      rw [ih ht (by decide) (by simp), hn]
    · rw [ih ht (by simp) (by simp)]

theorem notMem_delivered (ec : Option ℕ) (s : List ℕ) : wt '\r' ∉ delivered ec s := by
  induction s generalizing ec with
  | nil => simp [delivered]
  | cons c t ih =>
    rw [delivered]
    split
    · exact ih _
    split
    · simp [ih, (by decide : wt '\r' ≠ wt '\n')]
    split
    · simp [ih, (by decide : wt '\r' ≠ wt '\n')]
    · rename_i hc
      simpa [ih] using fun h => hc h.symm

/-- `qse_xli_errnum_t`, as far as the readers set it -/
inductive Errnum where
  | eexist
  | eiousr
  | esyntaxErr
  | ecolon
  | escolon
  | elbreq
  | elbrac
  | erbrace
  | erbrack
  | ecomma
  | evalue
  | estrnc
  | etagnc
  | elxchr
  | etagchr
  | exkwnr
  | exkwem
  | einclstr
  | eident
  | enokey
  | eudkey
  | enoali
  | eilval
  | enoval
  | estrseg
deriving DecidableEq

inductive Stop where
  | err (num : Errnum)
  | freed
  | fuel
deriving DecidableEq

/-- `qse_xli_tok_type_t` -/
inductive TokType where
  | eof
  | xinclude
  | sqstr
  | dqstr
  | nstr
  | ident
  | tag
  | eq
  | comma
  | colon
  | semicolon
  | lbrace
  | rbrace
  | lbrack
  | rbrack
  | nil
  | true
  | false
  | text
deriving DecidableEq

/-- `qse_xli_tok_t` -/
structure Tok where
  type : TokType
  name : List ℕ
deriving DecidableEq

/-- `qse_xli_io_arg_t` of a stream that is read. The top level stream has no name. -/
structure RioArg where
  name : Option WString
  rest : List ℕ

/-- What a reader does, but for its tokens: a file is opened or closed, a comment or a pair
is found, or the list of a pair ends. -/
inductive Mark where
  | opened (path : WString)
  | closed
  | text (ptr : WString)
  | pair (key : WString)
  | leave
deriving DecidableEq

/-- The state of a reader. `list` is what `xli->parlink->list` holds, `prev` the streams
below `xli->rio.inp`, and `status` the bit of `xli->tok_status` that the reader uses. What
the reader did is recorded in `trace`, which no function reads. -/
structure Reader where
  inp : RioArg
  prev : List RioArg
  tok : Tok
  status : Bool
  list : List Atom
  trace : List Mark

def Reader.init (text : List ℕ) : Reader where
  inp := ⟨none, delivered none text⟩
  prev := []
  tok := ⟨.eof, []⟩
  status := false
  list := []
  trace := []

/-- The stream that is read goes on with `rest`. -/
def Reader.seek (xli : Reader) (rest : List ℕ) : Reader := { xli with inp := { xli.inp with rest :=
    rest } }

/-- What the reader does when it inserts the atom. The FILE and EOF atoms only repeat what
it did before. -/
def Atom.found : Atom → List Mark
  | .pair key _ _ _ _ => [.pair key]
  | .text _ ptr => [.text ptr]
  | .file _ => []
  | .eof => []

/-- `insert_atom` at the tail of the list that is read -/
def Reader.insert (xli : Reader) (atom : Atom) : Reader :=
  { xli with list := xli.list ++ [atom], trace := xli.trace ++ atom.found }

/-- `skip_spaces` and `skip_comment` in turn, until there is neither, with the comments that
are found. Within a comment, `comment` is its text so far. -/
def skipBlanks (ctype : Ctype) (keepText : Bool) (flags : TextFlags) :
    Option (List ℕ) → List ℕ → List ℕ × List Atom
  | none, [] => ([], [])
  | none, c :: t =>
    if ctype.isSpace c then skipBlanks ctype keepText flags none t
    else if c = wt '#' then skipBlanks ctype keepText flags (some []) t
    else (c :: t, [])
  | some comment, [] => ([], if keepText then [.text flags (.of comment)] else [])
  | some comment, c :: t =>
    if c = wt '\n' then
      let (rest, texts) := skipBlanks ctype keepText flags none t
      (rest, if keepText then .text flags (.of comment) :: texts else texts)
    else skipBlanks ctype keepText flags (some (comment ++ [c])) t

def Reader.skip (xli : Reader) (ctype : Ctype) (keepText : Bool) (flags : TextFlags) : Reader :=
  let (rest, texts) := skipBlanks ctype keepText flags none xli.inp.rest
  texts.foldl Reader.insert (xli.seek rest)

/-- `end_include` of an included file, when `arg` and `prev` are the streams below it.
The record of the file is freed. -/
def endInclude (trait : Trait) (arg : RioArg) (prev : List RioArg) (xli : Reader) : Reader :=
  let ended : Reader := { xli with inp := arg, prev := prev, trace := xli.trace ++ [.closed] }
  if trait.keepFile then ended.insert .eof else ended

/-- `begin_include`. The name in the record of the file is needed for the FILE atom, when
the first token of the file has been read. -/
def beginInclude (opt : Opt) (files : WString → Option (List ℕ))
    (getToken : Reader → Except Stop Reader) (xli : Reader) : Except Stop Reader :=
  let name := WString.of xli.tok.name
  match files name with
  | none => .error (.err .eiousr)
  | some text => do
    let depth := xli.prev.length
    let xli ← getToken { xli with
      inp := ⟨some name, delivered none text⟩
      prev := xli.inp :: xli.prev
      trace := xli.trace ++ [.opened name] }
    if opt.trait.keepFile then
      if xli.prev.length ≤ depth then .error .freed
      else .ok (xli.insert (.file name))
    else .ok xli

variable {α β : Type}

@[simp] theorem ok_bind (a : α) (f : α → Except Stop β) :
    (Except.ok a >>= f) = f a := rfl

@[simp] theorem error_bind (e : Stop) (f : α → Except Stop β) :
    (Except.error e >>= f) = .error e := rfl

theorem bind_eq_ok {x : Except Stop α} {f : α → Except Stop β} {b : β} :
    x >>= f = .ok b ↔ ∃ a, x = .ok a ∧ f a = .ok b := by
  cases x with
  | error e => simp
  | ok a => simp

end Qse.Xli
