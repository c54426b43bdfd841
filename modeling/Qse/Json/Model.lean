import Qse.Codec.Utf8

/-!
# A JSON parser that is fed

A translation of `lib/xli/json.c` for a build with wide characters and the UTF-8 converter.
Allocations succeed: where one fails, the call fails.
-/

namespace Qse.JsonFeed

/-- The size of a `qse_char_t`, and `QSE_ISMSPACE` and so on. They are those of C among the ASCII
characters; what they say of others is not defined. -/
structure Mctype where
  size : Utf8.WcharSize
  isSpace : UInt32 → Bool
  isAlpha : UInt32 → Bool
  isDigit : UInt32 → Bool
  space_ascii : ∀ c < 128, isSpace c = (c == 32 || (9 ≤ c && c ≤ 13))
  alpha_ascii : ∀ c < 128, isAlpha c = ((65 ≤ c && c ≤ 90) || (97 ≤ c && c ≤ 122))
  digit_ascii : ∀ c < 128, isDigit c = (48 ≤ c && c ≤ 57)

def chars (s : String) : List UInt32 := s.toList.map Char.val

def eof : UInt32 := 0xFFFFFFFF

def unescape (c : UInt32) : UInt32 :=
  if c = 'a'.val then 7
  else if c = 'b'.val then 8
  else if c = 'f'.val then 12
  else if c = 'n'.val then 10
  else if c = 'r'.val then 13
  else if c = 't'.val then 9
  else if c = 'v'.val then 11
  else c

/-- `qse_json_inst_t` -/
inductive Inst where
  | startArray
  | endArray
  | startDic
  | endDic
  | key
  | character
  | string
  | number
  | nil
  | true
  | false
deriving DecidableEq

/-- What the parser has found, an instruction given to the callback with its string, or a
comma or a colon between values -/
inductive Mark where
  | inst (inst : Inst) (str : Option (List UInt32))
  | comma
  | colon
deriving DecidableEq

/-- `qse_json_state_node_t` but for the link and for the state `QSE_JSON_STATE_START`. The
state of a dictionary is 0 when it is ready for a key, 1 behind a key, 2 behind a colon and 3
behind a value. -/
inductive State where
  | inArray (gotValue : Bool)
  | inDic (state : ℕ)
  | inWordValue
  | inNumericValue (dotted : Bool)
  | inStringValue (escaped digitCount : ℕ) (acc : UInt32)
  | inCharacterValue (escaped digitCount : ℕ) (acc : UInt32)
deriving DecidableEq

/-- `qse_json_t`. The nodes of `state_stack` stand above `state_top`, whose state is always
`QSE_JSON_STATE_START`. No function reads `trace`. -/
structure Json where
  stack : List State
  tok : List UInt32
  trace : List Mark
deriving DecidableEq

/-- `qse_json_errnum_t`, as far as it is set -/
inductive Errnum where
  | einval
  | efinis
deriving DecidableEq

inductive Stop where
  /-- an error with its message and the string or character in it -/
  | err (num : Errnum) (text : String) (arg : List UInt32)
  /-- the callback fails -/
  | instcb
  /-- a character is handled more often than it can be -/
  | loop
deriving DecidableEq

/-- `qse_json_instcb_t`, which is told what was found before. It fails if it returns false. -/
abbrev Instcb := List Mark → Inst → Option (List UInt32) → Bool

def Json.open : Json := ⟨[], [], []⟩

def Json.clearToken (json : Json) : Json := { json with tok := [] }

/-- `add_char_to_token` -/
def Json.addChar (json : Json) (c : UInt32) : Json := { json with tok := json.tok ++ [c] }

/-- `push_state` -/
def Json.push (json : Json) (state : State) : Json := { json with stack := state :: json.stack }

/-- What `pop_state` tells the state below. -/
def gotValue : List State → List State
  | .inArray _ :: stack => .inArray true :: stack
  | .inDic state :: stack => .inDic (state + 1) :: stack
  | stack => stack

/-- `pop_state` -/
def Json.pop (json : Json) : Json := { json with stack := gotValue json.stack.tail }

def Json.setTop (json : Json) (state : State) : Json :=
  { json with stack := state :: json.stack.tail }

def Json.note (json : Json) (mark : Mark) : Json := { json with trace := json.trace ++ [mark] }

section Fields

variable (json : Json) (state : State) (c : UInt32) (mark : Mark)

@[simp] theorem clearToken_stack : json.clearToken.stack = json.stack := rfl

@[simp] theorem clearToken_trace : json.clearToken.trace = json.trace := rfl

@[simp] theorem addChar_stack : (json.addChar c).stack = json.stack := rfl

@[simp] theorem addChar_trace : (json.addChar c).trace = json.trace := rfl

@[simp] theorem push_stack : (json.push state).stack = state :: json.stack := rfl

@[simp] theorem push_trace : (json.push state).trace = json.trace := rfl

@[simp] theorem pop_stack : json.pop.stack = gotValue json.stack.tail := rfl

@[simp] theorem pop_trace : json.pop.trace = json.trace := rfl

@[simp] theorem setTop_stack : (json.setTop state).stack = state :: json.stack.tail := rfl

@[simp] theorem setTop_trace : (json.setTop state).trace = json.trace := rfl

@[simp] theorem note_stack : (json.note mark).stack = json.stack := rfl

@[simp] theorem note_trace : (json.note mark).trace = json.trace ++ [mark] := rfl

end Fields

variable {α β : Type}

@[simp] theorem ok_bind (a : α) (f : α → Except Stop β) :
    (Except.ok a >>= f) = f a := rfl

@[simp] theorem error_bind (e : Stop) (f : α → Except Stop β) :
    (Except.error e >>= f) = .error e := rfl

theorem bind_eq_ok {x : Except Stop α} {f : α → Except Stop β} {b : β} :
    x >>= f = .ok b ↔ ∃ a, x = .ok a ∧ f a = .ok b := by
  cases x with
  | error e => simp
  | ok a => simp

section Handle

variable (ctype : Mctype) (instcb : Instcb)

def Json.invoke (json : Json) (inst : Inst) (str : Option (List UInt32)) : Except Stop Json :=
  if instcb json.trace inst str then .ok (json.note (.inst inst str)) else .error .instcb

def invokeDataInst (json : Json) (inst : Inst) : Except Stop Json :=
  match json.stack with
  | .inDic 1 :: _ =>
    if inst = .string then json.invoke instcb .key (some json.tok)
    else .error (.err .einval "dictionary key not a string" json.tok)
  | _ => json.invoke instcb inst (some json.tok)

inductive Escape where
  | more (digitCount : ℕ) (acc : UInt32)
  | done (consumed : Bool) (digitCount : ℕ) (acc : UInt32)
deriving DecidableEq

def octDigit (c : UInt32) : Option UInt32 :=
  if '0'.val ≤ c ∧ c ≤ '7'.val then some (c - '0'.val) else none

def hexDigit (c : UInt32) : Option UInt32 :=
  if '0'.val ≤ c ∧ c ≤ '9'.val then some (c - '0'.val)
  else if 'a'.val ≤ c ∧ c ≤ 'f'.val then some (c - 'a'.val + 10)
  else if 'A'.val ≤ c ∧ c ≤ 'F'.val then some (c - 'A'.val + 10)
  else none

/-- A character within an escape sequence of `escaped` digits -/
def escapeDigit (size : Utf8.WcharSize) (radix : UInt32) (digit : Option UInt32)
    (escaped digitCount : ℕ) (acc : UInt32) : Escape :=
  match digit with
  | some d =>
    if escaped ≤ digitCount + 1 then
      .done true (digitCount + 1) (size.store (acc * radix + d))
    else .more (digitCount + 1) (size.store (acc * radix + d))
  | none => .done false digitCount acc

/-- The number of digits that a character behind a backslash asks for, and the value they
begin with -/
def startEscape (c : UInt32) : Option (ℕ × UInt32) :=
  if '0'.val ≤ c ∧ c ≤ '8'.val then some (3, c - '0'.val)
  else if c = 'x'.val then some (2, 0)
  else if c = 'u'.val then some (4, 0)
  else if c = 'U'.val then some (8, 0)
  else none

def Json.escape (json : Json) (value : ℕ → ℕ → UInt32 → State) (escaped : ℕ) :
    Escape → Bool × Json
  | .more digitCount acc => (true, json.setTop (value escaped digitCount acc))
  | .done consumed digitCount acc =>
    (consumed, (json.setTop (value 0 digitCount acc)).addChar acc)

/-- `handle_string_value_char` in the state with the given fields. The flag is false if the
character is to be handled again. -/
def handleStringValueChar (escaped digitCount : ℕ) (acc : UInt32) (json : Json) (c : UInt32) :
    Except Stop (Bool × Json) :=
  if escaped = 3 then
    .ok (json.escape .inStringValue escaped
      (escapeDigit ctype.size 8 (octDigit c) escaped digitCount acc))
  else if 2 ≤ escaped then
    .ok (json.escape .inStringValue escaped
      (escapeDigit ctype.size 16 (hexDigit c) escaped digitCount acc))
  else if escaped = 1 then
    match startEscape c with
    | some (escaped, acc) => .ok (true, json.setTop (.inStringValue escaped 0 acc))
    | none => .ok (true, (json.setTop (.inStringValue 0 digitCount acc)).addChar (unescape c))
  else if c = '\\'.val then .ok (true, json.setTop (.inStringValue 1 digitCount acc))
  else if c = '\"'.val then do
    let json ← invokeDataInst instcb json.pop .string
    .ok (true, json)
  else .ok (true, json.addChar c)

/-- The part of `handle_character_value_char` in front of its last check. An octal digit that
does not end its sequence is taken as a hexadecimal one, too. -/
def handleCharacterValue (escaped digitCount : ℕ) (acc : UInt32) (json : Json) (c : UInt32) :
    Except Stop (Bool × Json) :=
  if escaped = 3 then
    match escapeDigit ctype.size 8 (octDigit c) escaped digitCount acc with
    | .more digitCount acc => .ok (json.escape .inCharacterValue escaped
        (escapeDigit ctype.size 16 (hexDigit c) escaped digitCount acc))
    | done => .ok (json.escape .inCharacterValue escaped done)
  else if 2 ≤ escaped then
    .ok (json.escape .inCharacterValue escaped
      (escapeDigit ctype.size 16 (hexDigit c) escaped digitCount acc))
  else if escaped = 1 then
    match startEscape c with
    | some (escaped, acc) => .ok (true, json.setTop (.inCharacterValue escaped 0 acc))
    | none => .ok (true, (json.setTop (.inCharacterValue 0 digitCount acc)).addChar (unescape c))
  else if c = '\\'.val then .ok (true, json.setTop (.inCharacterValue 1 digitCount acc))
  else if c = '\''.val then
    if json.tok.length < 1 then
      .error (.err .einval "no character in a character literal" [])
    else do
      let json ← invokeDataInst instcb json.pop .character
      .ok (true, json)
  else .ok (true, json.addChar c)

def handleCharacterValueChar (escaped digitCount : ℕ) (acc : UInt32) (json : Json)
    (c : UInt32) : Except Stop (Bool × Json) := do
  let (consumed, json) ← handleCharacterValue ctype instcb escaped digitCount acc json c
  if 1 < json.tok.length then
    .error (.err .einval "too many characters in a character literal" json.tok)
  else .ok (consumed, json)

def endsWithDigit (tok : List UInt32) : Bool := tok.getLast?.any ctype.isDigit

def handleNumericValueChar (dotted : Bool) (json : Json) (c : UInt32) : Except Stop (Bool × Json) :=
  if ctype.isDigit c || (json.tok.isEmpty && (c = '+'.val || c = '-'.val)) then
    .ok (true, json.addChar c)
  else if !dotted && c = '.'.val && endsWithDigit ctype json.tok then
    .ok (true, (json.addChar c).setTop (.inNumericValue true))
  else if !endsWithDigit ctype json.tok then
    .error (.err .einval "invalid numeric value" json.tok)
  else do
    let json ← invokeDataInst instcb json.pop .number
    .ok (false, json)

def wordInst (tok : List UInt32) : Option Inst :=
  if tok = chars "null" then some .nil
  else if tok = chars "true" then some .true
  else if tok = chars "false" then some .false
  else none

def handleWordValueChar (json : Json) (c : UInt32) : Except Stop (Bool × Json) :=
  if ctype.isAlpha c then .ok (true, json.addChar c)
  else
    match wordInst json.tok with
    | none => .error (.err .einval "invalid word value" json.tok)
    | some inst => do
      let json ← invokeDataInst instcb json.pop inst
      .ok (false, json)

def startArray (json : Json) : Except Stop (Bool × Json) := do
  let json ← (json.push (.inArray false)).invoke instcb .startArray none
  .ok (true, json)

def startDic (json : Json) : Except Stop (Bool × Json) := do
  let json ← (json.push (.inDic 0)).invoke instcb .startDic none
  .ok (true, json)

def handleStartChar (json : Json) (c : UInt32) : Except Stop (Bool × Json) :=
  if c = '['.val then startArray instcb json
  else if c = '{'.val then startDic instcb json
  else if ctype.isSpace c then .ok (true, json)
  else .error (.err .einval "not starting with [ or \x7b" [c])

def startValue (text : String) (json : Json) (c : UInt32) : Except Stop (Bool × Json) :=
  if c = '\"'.val then .ok (true, (json.push (.inStringValue 0 0 0)).clearToken)
  else if c = '\''.val then .ok (true, (json.push (.inCharacterValue 0 0 0)).clearToken)
  else if ctype.isDigit c || c = '+'.val || c = '-'.val then
    .ok (false, (json.push (.inNumericValue false)).clearToken)
  else if ctype.isAlpha c then .ok (false, (json.push .inWordValue).clearToken)
  else if c = '['.val then startArray instcb json
  else if c = '{'.val then startDic instcb json
  else .error (.err .einval text [c])

def handleCharInArray (gotValue : Bool) (json : Json) (c : UInt32) : Except Stop (Bool × Json) :=
  if c = ']'.val then do
    let json ← json.invoke instcb .endArray none
    .ok (true, json.pop)
  else if c = ','.val then
    if !gotValue then .error (.err .einval "redundant comma in array" [c])
    else .ok (true, (json.setTop (.inArray false)).note .comma)
  else if ctype.isSpace c then .ok (true, json)
  else if gotValue then .error (.err .einval "comma required in array" [c])
  else startValue ctype instcb "wrong character inside array" json c

def handleCharInDic (state : ℕ) (json : Json) (c : UInt32) : Except Stop (Bool × Json) :=
  if c = '}'.val then do
    let json ← json.invoke instcb .endDic none
    .ok (true, json.pop)
  else if c = ':'.val then
    if state ≠ 1 then .error (.err .einval "redundant colon in dictionary" [c])
    else .ok (true, (json.setTop (.inDic (state + 1))).note .colon)
  else if c = ','.val then
    if state ≠ 3 then .error (.err .einval "redundant comma in dicitonary" [c])
    else .ok (true, (json.setTop (.inDic 0)).note .comma)
  else if ctype.isSpace c then .ok (true, json)
  else if state = 1 then .error (.err .einval "colon required in dicitonary" [c])
  else if state = 3 then .error (.err .einval "comma required in dicitonary" [c])
  else startValue ctype instcb "wrong character inside dictionary" json c

/-- The switch in `handle_char` -/
def handleState (json : Json) (c : UInt32) : Except Stop (Bool × Json) :=
  match json.stack with
  | [] => handleStartChar ctype instcb json c
  | .inArray gotValue :: _ => handleCharInArray ctype instcb gotValue json c
  | .inDic state :: _ => handleCharInDic ctype instcb state json c
  | .inWordValue :: _ => handleWordValueChar ctype instcb json c
  | .inStringValue escaped digitCount acc :: _ =>
    handleStringValueChar ctype instcb escaped digitCount acc json c
  | .inCharacterValue escaped digitCount acc :: _ =>
    handleCharacterValueChar ctype instcb escaped digitCount acc json c
  | .inNumericValue dotted :: _ => handleNumericValueChar ctype instcb dotted json c

/-- `handle_char` from `start_over` on, which is reached once again at most -/
def startOver : ℕ → Json → UInt32 → Except Stop Json
  | 0, _, _ => .error .loop
  | n + 1, json, c => do
    let (consumed, json) ← handleState ctype instcb json c
    if consumed then .ok json else startOver n json c

def handleChar (json : Json) (c : UInt32) : Except Stop Json :=
  if c = eof then
    match json.stack with
    | [] => .ok json
    | _ :: _ => .error (.err .efinis "" [])
  else startOver ctype instcb 2 json c

/-- The next character of the data, and the data behind it. A byte that begins no character
is taken for one, as a signed value. There is none if the last character is incomplete. -/
def nextChar (size : Utf8.WcharSize) (data : List UInt8) : Option (UInt32 × List UInt8) :=
  match data with
  | [] => none
  | b :: rest =>
    match Utf8.utf8touc size (b :: rest) with
    | (0, _) => some (size.store b.toInt8.toInt32.toUInt32, rest)
    | (n + 1, some uc) => some (uc, (b :: rest).drop (n + 1))
    | (_ + 1, none) => none

/-- `feed_json_data`, with the data that is left. -/
def feedJsonData : ℕ → Json → List UInt8 → Except Stop (Json × List UInt8)
  | 0, json, data => .ok (json, data)
  | steps + 1, json, data =>
    match nextChar ctype.size data with
    | none => .ok (json, data)
    | some (c, rest) => do
      let json ← handleChar ctype instcb json c
      feedJsonData steps json rest

/-- `qse_json_feed`, with the data that is left. Its loop runs once, as there are no more
characters than bytes. -/
def feed (json : Json) (data : List UInt8) : Except Stop (Json × List UInt8) :=
  feedJsonData ctype instcb data.length json data

end Handle

end Qse.JsonFeed
