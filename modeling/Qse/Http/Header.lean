import Qse.Http.Re
import Qse.Path.Model
import Mathlib.Data.List.DropRight
import Mathlib.Algebra.Group.Nat.Defs

/-!
# The header of a message

A translation of the parts of `lib/http/htrd.c` that read the initial line and the header
fields. A pointer into the buffer is the list of the octets from there on; the null that
ends the buffer, which holds no other one, is the end of the list. `toupper` and
`isspace` are those of the C locale, and memory is always found.
-/

namespace Qse.Http

/-- `qse_htrd_option_t` -/
structure Options where
  skipInitialLine : Bool
  canonQPath : Bool
  peekOnly : Bool
  request : Bool
  response : Bool
  trailers : Bool
  strict : Bool
deriving DecidableEq

/-- The values of `qse_htrd_errnum_t` that the reader sets itself. -/
inductive Errnum where
  | badre
  | badhdr
  | suspended
deriving DecidableEq

def isWhspaceOctet (c : UInt8) : Bool := c == mt ' ' || c == mt '\t' || c == mt '\r' || c == mt '\n'

def isSpaceOctet (c : UInt8) : Bool := c == mt ' ' || c == mt '\t' || c == mt '\r'

def isPurespaceOctet (c : UInt8) : Bool := c == mt ' ' || c == mt '\t'

def isAlphaOctet (c : UInt8) : Bool := (mt 'A' ≤ c && c ≤ mt 'Z') || (mt 'a' ≤ c && c ≤ mt 'z')

def digitToNum (c : UInt8) : Option ℕ :=
  if mt '0' ≤ c ∧ c ≤ mt '9' then some (c.toNat - 48) else none

/-- `QSE_MXDIGITTONUM` -/
def xdigitToNum (c : UInt8) : Option ℕ :=
  if mt '0' ≤ c ∧ c ≤ mt '9' then some (c.toNat - 48)
  else if mt 'A' ≤ c ∧ c ≤ mt 'F' then some (c.toNat - 55)
  else if mt 'a' ≤ c ∧ c ≤ mt 'f' then some (c.toNat - 87)
  else none

/-- `QSE_TOMUPPER` -/
def toupper (c : UInt8) : UInt8 := if mt 'a' ≤ c ∧ c ≤ mt 'z' then c - 32 else c

/-- `QSE_ISMSPACE` -/
def isspace (c : UInt8) : Bool := c == mt ' ' || (9 ≤ c && c ≤ 13)

/-- `qse_mbsxncasecmp`; on strings without nulls `qse_mbsxcasecmp` and `qse_mbscasecmp` are
the same. -/
def mbsxncasecmp : List UInt8 → List UInt8 → Ordering
  | [], [] => .eq
  | [], _ :: _ => .lt
  | _ :: _, [] => .gt
  | c1 :: s1, c2 :: s2 =>
    if toupper c2 < toupper c1 then .gt
    else if toupper c1 < toupper c2 then .lt
    else mbsxncasecmp s1 s2

/-- `qse_mbscaseword`: one of the words of `str` is `word`. -/
def mbscaseword (delim : UInt8) (word : List UInt8) : ℕ → List UInt8 → Bool
  | 0, _ => false
  | fuel + 1, str =>
    let isDelim c := isspace c || c == delim
    match str.dropWhile isDelim with
    | [] => false
    | c :: ptr =>
      let s := (c :: ptr).takeWhile fun c => !isDelim c
      if mbsxncasecmp s word = .eq then true
      else mbscaseword delim word fuel ((c :: ptr).dropWhile fun c => !isDelim c)

def octets (s : String) : List UInt8 := s.toList.map mt

def trimEnd (s : List UInt8) : List UInt8 := s.rdropWhile isSpaceOctet

/-- `if (is_purespace_octet (*++p))` and so on. -/
def startsWith (p : UInt8 → Bool) : List UInt8 → Bool
  | [] => false
  | c :: _ => p c

def captureConnection (re : Re) (values : List (List UInt8)) : Except Errnum Re :=
  let val := values.getLast?.getD []
  if mbscaseword (mt ',') (octets "close") (val.length + 1) val then
    .ok { re with flags := { re.flags with keepalive := false } }
  else if mbscaseword (mt ',') (octets "keep-alive") (val.length + 1) val then
    .ok { re with flags := { re.flags with keepalive := true } }
  else if re.major < 1 ∨ (re.major = 1 ∧ re.minor ≤ 0) then
    .ok { re with flags := { re.flags with keepalive := false } }
  else .ok re

/-- The digits of a length; `tmp < len` is the test for an overflow. -/
def readLength : ℕ → List UInt8 → Option ℕ
  | len, [] => some len
  | len, c :: ptr =>
    match digitToNum c with
    | none => none
    | some num =>
      let tmp := (len * 10 + num) % 2 ^ 64
      if tmp < len then none else readLength tmp ptr

def captureContentLength (re : Re) (values : List (List UInt8)) : Except Errnum Re :=
  let val := values.getLast?.getD []
  match readLength 0 val with
  | none => .error .badre
  | some len =>
    if val = [] then .error .badre
    else if re.flags.chunked ∧ 0 < len then .error .badre
    else .ok { re with flags := { re.flags with length := true }, contentLength := len }

def captureExpect (re : Re) (values : List (List UInt8)) : Except Errnum Re :=
  .ok { re with
    flags := { re.flags with
      expect := true
      expect100 := re.flags.expect100 ||
        values.any fun val => mbsxncasecmp val (octets "100-continue") = .eq } }

def captureStatus (re : Re) (values : List (List UInt8)) : Except Errnum Re :=
  .ok { re with status := values.getLast? }

def captureTransferEncoding (re : Re) (values : List (List UInt8)) : Except Errnum Re :=
  if mbsxncasecmp (values.getLast?.getD []) (octets "chunked") = .eq then
    if re.flags.length then .error .badre
    else .ok { re with flags := { re.flags with chunked := true } }
  else .error .badre

/-- `hdrtab` of `capture_key_header` -/
def keyHeaders : List (List UInt8 × (Re → List (List UInt8) → Except Errnum Re)) :=
  [(octets "Connection", captureConnection), (octets "Content-Length", captureContentLength),
   (octets "Expect", captureExpect),
   (octets "Status", captureStatus),
   (octets "Transfer-Encoding", captureTransferEncoding)]

/-- The binary search of `capture_key_header`. -/
def searchKeyHeader {α : Type} (tab : List (List UInt8 × α)) (name : List UInt8) :
    ℕ → ℕ → ℕ → Option α
  | 0, _, _ => none
  | fuel + 1, base, count =>
    if count = 0 then none
    else
      let mid := base + count / 2
      match tab[mid]? with
      | none => none
      | some (key, handler) =>
        match mbsxncasecmp name key with
        | .eq => some handler
        | .gt => searchKeyHeader tab name fuel (mid + 1) ((count - 1) / 2)
        | .lt => searchKeyHeader tab name fuel base (count / 2)

def captureKeyHeader (re : Re) (name : List UInt8) (values : List (List UInt8)) :
    Except Errnum Re :=
  match searchKeyHeader keyHeaders name (keyHeaders.length + 1) 0 keyHeaders.length with
  | some handler => handler re values
  | none => .ok re

def Table.values (tab : Table) (name : List UInt8) : List (List UInt8) :=
  ((tab.find? fun pair => pair.1 = name).map Prod.snd).getD []

/-- `qse_htb_cbsert` with `hdr_cbserter`: a new name goes behind the others, a new value
behind those that have come for its name. -/
def Table.insert (tab : Table) (name value : List UInt8) : Table :=
  if tab.any fun pair => pair.1 = name then
    tab.map fun pair => if pair.1 = name then (pair.1, pair.2 ++ [value]) else pair
  else tab ++ [(name, [value])]

/-- `hdr_cbserter` puts the field into the header table or, if `trailer` is set, into the
table of trailers, and captures it. -/
def insertField (trailer : Bool) (re : Re) (name value : List UInt8) : Except Errnum Re :=
  let tab := if trailer then re.trailers else re.hdrtab
  let tab := tab.insert name value
  let re := if trailer then { re with trailers := tab } else { re with hdrtab := tab }
  captureKeyHeader re name (tab.values name)

/-- `if (*(cpydst-1) == QSE_MT('\r')) cpydst--;` -/
def chopCR (s : List UInt8) : List UInt8 :=
  if s.getLast? = some (mt '\r') then s.dropLast else s

/-- "process all continued lines": what is copied, and the rest. -/
def readContinued : ℕ → List UInt8 → Except Errnum (List UInt8 × List UInt8)
  | 0, _ => .error .badhdr
  | fuel + 1, p =>
    let line := p.takeWhile (· ≠ mt '\n')
    match p.dropWhile (· ≠ mt '\n') with
    | [] => .error .badhdr
    | _ :: p =>
      if startsWith isPurespaceOctet p then
        match readContinued fuel p with
        | .error e => .error e
        | .ok (more, p) => .ok (chopCR line ++ more, p)
      else .ok (chopCR line, p)

/-- The part of `parse_header_field` that looks for a field, from its name on: the field,
unless the line is ignored, and the rest. -/
def readField (strict : Bool) (p : List UInt8) :
    Except Errnum (Option (List UInt8 × List UInt8) × List UInt8) :=
  let name := trimEnd (p.takeWhile fun c => c ≠ mt '\n' ∧ c ≠ mt ':')
  match p.dropWhile fun c => c ≠ mt '\n' ∧ c ≠ mt ':' with
  | [] => .error .badhdr
  | c :: p =>
    if c = mt ':' then
      let skipped := p.takeWhile isSpaceOctet
      let p := p.dropWhile isSpaceOctet
      let line := p.takeWhile (· ≠ mt '\n')
      match p.dropWhile (· ≠ mt '\n') with
      | [] => .error .badhdr
      | _ :: p =>
        if startsWith isPurespaceOctet p then
          match readContinued (p.length + 1) p with
          | .error e => .error e
          | .ok (more, p) =>
            -- an empty line that ends with CR LF: what follows is copied to the
            -- place of CR, which is before the value
            let before := line = [] ∧ skipped.getLast? = some (mt '\r')
            let text := if before then more.drop 1 else chopCR line ++ more
            .ok (some (name, trimEnd text), p)
        else .ok (some (name, trimEnd line), p)
    else if strict then .error .badhdr
    else .ok (none, p)

def parseHeaderField (opts : Options) (trailer : Bool) (re : Re) (line : List UInt8) :
    Except Errnum (Re × List UInt8) :=
  match readField opts.strict line with
  | .error e => .error e
  | .ok (none, p) => .ok (re, p)
  | .ok (some (name, value), p) =>
    match insertField trailer re name value with
    | .error e => .error e
    | .ok re => .ok (re, p)

def parseHeaders (opts : Options) (trailer : Bool) : ℕ → Re → List UInt8 → Except Errnum Re
  | 0, _, _ => .error .badhdr
  | fuel + 1, re, p =>
    match p.dropWhile isWhspaceOctet with
    | [] => .ok re
    | c :: p =>
      match parseHeaderField opts trailer re (c :: p) with
      | .error e => .error e
      | .ok (re, p) => parseHeaders opts trailer fuel re p

/-- The loop over the digits of a status code, whose value is an `int`; an overflow is undefined. -/
def statusVal (code : List UInt8) : Option ℕ :=
  code.foldlM (fun n c =>
    let val := n * 10 + (digitToNum c).getD 0
    if val ≤ 2147483647 then some val else none) 0

/-- A status line behind `HTTP`. -/
def parseStatusLine (name : List UInt8) (re : Re) (p : List UInt8) :
    Except Errnum (Re × List UInt8) :=
  match p with
  | slash :: q :: dotc :: w :: sp :: p =>
    match digitToNum q, digitToNum w with
    | some major, some minor =>
      if slash = mt '/' ∧ dotc = mt '.' ∧ isSpaceOctet sp then
        let p := p.dropWhile isSpaceOctet
        let code := p.takeWhile fun c => (digitToNum c).isSome
        let p := p.dropWhile fun c => (digitToNum c).isSome
        if code = [] ∨ startsWith isSpaceOctet p = false then .error .badre
        else
          let p := p.dropWhile isSpaceOctet
          let mesg := trimEnd (p.takeWhile (· ≠ mt '\n'))
          match p.dropWhile (· ≠ mt '\n') with
          | [] => .error .badre
          | _ :: p =>
            .ok ({ re with
              major := major
              minor := minor
              verstr := name ++ [slash, q, dotc, w]
              line := some (.response (statusVal code) code mesg) }, p)
      else .error .badre
    | _, _ => .error .badre
  | _ => .error .badre

/-- `qse_canonmbspath` on a path or, if it begins with a scheme, on the part of it from the
second slash on. -/
def canonQPath (path : List UInt8) : List UInt8 :=
  let flags : Path.Flags := ⟨false, false, false⟩
  let scheme := path.takeWhile isAlphaOctet
  let qpath := path.dropWhile isAlphaOctet
  if qpath.take 3 = octets "://" then
    scheme ++ qpath.take 2 ++ Path.canonmbspath (qpath.drop 2) flags
  else Path.canonmbspath path flags

def parseRequestLine (opts : Options) (method : List UInt8) (re : Re) (p : List UInt8) :
    Except Errnum (Re × List UInt8) :=
  let url := p.takeWhile fun c => !isSpaceOctet c
  match p.dropWhile fun c => !isSpaceOctet c with
  | [] => .error .badre
  | _ :: p =>
    let path := url.takeWhile (· ≠ mt '?')
    let param :=
      match url.dropWhile (· ≠ mt '?') with
      | [] => none
      | _ :: param => some param
    let path := if opts.canonQPath then canonQPath path else path
    match p.dropWhile isSpaceOctet with
    | h :: t :: t' :: p' :: slash :: q :: dotc :: w :: p =>
      match digitToNum q, digitToNum w with
      | some major, some minor =>
        if [h, t, t', p'].map toupper = octets "HTTP" ∧ slash = mt '/' ∧ dotc = mt '.' then
          match p.dropWhile isSpaceOctet with
          | [] => .error .badre
          | c :: p =>
            if c = mt '\n' then
              .ok ({ re with
                major := major
                minor := minor
                verstr := [h, t, t', p', slash, q, dotc, w]
                line := some (.request method path param) }, p)
            else .error .badre
        else .error .badre
      | _, _ => .error .badre
    | _ => .error .badre

def parseInitialLine (opts : Options) (re : Re) (line : List UInt8) :
    Except Errnum (Re × List UInt8) :=
  let name := line.takeWhile isAlphaOctet
  let p := line.dropWhile isAlphaOctet
  if name = [] then .error .badre
  else
    let parsed :=
      if opts.request then
        if startsWith isSpaceOctet p then
          parseRequestLine opts name re (p.dropWhile isSpaceOctet)
        else .error .badre
      else if opts.response ∧ name = octets "HTTP" then parseStatusLine name re p
      else .error .badre
    match parsed with
    | .error e => .error e
    | .ok (re, p) =>
      -- "adjust Connection: Keep-Alive for HTTP 1.1 or later"
      if 1 < re.major ∨ (re.major = 1 ∧ 1 ≤ re.minor) then
        .ok ({ re with flags := { re.flags with keepalive := true } }, p)
      else .ok (re, p)

/-- `parse_initial_line_and_headers` on the octets of the header. -/
def parseInitialLineAndHeaders (opts : Options) (re : Re) (raw : List UInt8) : Except Errnum Re :=
  let p := raw.dropWhile isSpaceOctet
  if opts.skipInitialLine then parseHeaders opts false (p.length + 1) re p
  else
    match parseInitialLine opts re p with
    | .error e => .error e
    | .ok (re, p) => parseHeaders opts false (p.length + 1) re p

end Qse.Http
