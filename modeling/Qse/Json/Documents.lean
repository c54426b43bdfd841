import Qse.Json.Nesting

/-!
# JSON documents

The texts of JSON documents whose numbers have no exponent, what a parser is to tell of them,
and what the parser that is fed tells.
-/

namespace Qse.JsonFeed

mutual

inductive Value where
  | string (s : List UInt32)
  | number (text : List UInt32)
  | null
  | true
  | false
  | emptyArray
  | array (values : Values)
  | emptyDic
  | dic (members : Members)

inductive Values where
  | one (value : Value)
  | cons (value : Value) (values : Values)

inductive Members where
  | one (key : List UInt32) (value : Value)
  | cons (key : List UInt32) (value : Value) (members : Members)

end

abbrev Instruction := Inst × Option (List UInt32)

mutual

def Value.insts : Value → List Instruction
  | .string s => [(.string, some s)]
  | .number text => [(.number, some text)]
  | .null => [(.nil, some (chars "null"))]
  | .true => [(.true, some (chars "true"))]
  | .false => [(.false, some (chars "false"))]
  | .emptyArray => [(.startArray, none), (.endArray, none)]
  | .array values => (.startArray, none) :: (values.insts ++ [(.endArray, none)])
  | .emptyDic => [(.startDic, none), (.endDic, none)]
  | .dic members => (.startDic, none) :: (members.insts ++ [(.endDic, none)])

def Values.insts : Values → List Instruction
  | .one value => value.insts
  | .cons value values => value.insts ++ values.insts

def Members.insts : Members → List Instruction
  | .one key value => (.key, some key) :: value.insts
  | .cons key value members => (.key, some key) :: (value.insts ++ members.insts)

end

def Json.insts (json : Json) : List Instruction :=
  json.trace.filterMap fun mark =>
    match mark with
    | .inst inst str => some (inst, str)
    | .comma => none
    | .colon => none

def Ws (s : List UInt32) : Prop := ∀ c ∈ s, c = 32 ∨ c = 9 ∨ c = 10 ∨ c = 13

def escapes : List (UInt32 × UInt32) :=
  [('\"'.val, '\"'.val), ('\\'.val, '\\'.val), ('/'.val, '/'.val), ('b'.val, 8), ('f'.val, 12),
    ('n'.val, 10), ('r'.val, 13), ('t'.val, 9)]

inductive Body : List UInt32 → List UInt32 → Prop where
  | nil : Body [] []
  | plain {c : UInt32} {text s : List UInt32} (hlow : 32 ≤ c) (hhigh : c < 0x110000)
      (hquote : c ≠ '\"'.val) (hslash : c ≠ '\\'.val) (h : Body text s) :
      Body (c :: text) (c :: s)
  | escape {c v : UInt32} {text s : List UInt32} (hmem : (c, v) ∈ escapes) (h : Body text s) :
      Body ('\\'.val :: c :: text) (v :: s)
  | unicode {c₁ c₂ c₃ c₄ d₁ d₂ d₃ d₄ v : UInt32} {text s : List UInt32}
      (h₁ : hexDigit c₁ = some d₁) (h₂ : hexDigit c₂ = some d₂) (h₃ : hexDigit c₃ = some d₃)
      (h₄ : hexDigit c₄ = some d₄) (hv : v = ((d₁ * 16 + d₂) * 16 + d₃) * 16 + d₄)
      (hsurrogate : v < 0xD800 ∨ 0xDFFF < v) (h : Body text s) :
      Body ('\\'.val :: 'u'.val :: c₁ :: c₂ :: c₃ :: c₄ :: text) (v :: s)

def Quoted (text s : List UInt32) : Prop :=
  ∃ body, Body body s ∧ text = '\"'.val :: (body ++ ['\"'.val])

def IsDigit (c : UInt32) : Prop := '0'.val ≤ c ∧ c ≤ '9'.val

def Numeral (text : List UInt32) : Prop :=
  ∃ sign int frac, text = sign ++ int ++ frac ∧ (sign = [] ∨ sign = ['-'.val]) ∧
    (int = ['0'.val] ∨ ∃ d digits, int = d :: digits ∧ IsDigit d ∧ d ≠ '0'.val ∧
      ∀ c ∈ digits, IsDigit c) ∧
    (frac = [] ∨ ∃ digits, frac = '.'.val :: digits ∧ digits ≠ [] ∧ ∀ c ∈ digits, IsDigit c)

mutual

def Value.Text : Value → List UInt32 → Prop
  | .string s, text => Quoted text s
  | .number num, text => Numeral num ∧ text = num
  | .null, text => text = chars "null"
  | .true, text => text = chars "true"
  | .false, text => text = chars "false"
  | .emptyArray, text => ∃ ws, Ws ws ∧ text = '['.val :: (ws ++ [']'.val])
  | .array values, text => ∃ body, values.Text body ∧ text = '['.val :: (body ++ [']'.val])
  | .emptyDic, text => ∃ ws, Ws ws ∧ text = '{'.val :: (ws ++ ['}'.val])
  | .dic members, text => ∃ body, members.Text body ∧ text = '{'.val :: (body ++ ['}'.val])

def Values.Text : Values → List UInt32 → Prop
  | .one value, text => ∃ front t back, Ws front ∧ value.Text t ∧ Ws back ∧
      text = front ++ (t ++ back)
  | .cons value values, text => ∃ front t back rest, Ws front ∧ value.Text t ∧ Ws back ∧
      values.Text rest ∧ text = front ++ (t ++ (back ++ ','.val :: rest))

def Members.Text : Members → List UInt32 → Prop
  | .one key value, text => ∃ front k mid mid' t back, Ws front ∧ Quoted k key ∧ Ws mid ∧
      Ws mid' ∧ value.Text t ∧ Ws back ∧
      text = front ++ (k ++ (mid ++ ':'.val :: (mid' ++ (t ++ back))))
  | .cons key value members, text => ∃ front k mid mid' t back rest, Ws front ∧ Quoted k key ∧
      Ws mid ∧ Ws mid' ∧ value.Text t ∧ Ws back ∧ members.Text rest ∧
      text = front ++ (k ++ (mid ++ ':'.val :: (mid' ++ (t ++ (back ++ ','.val :: rest)))))

end

def Value.IsRoot : Value → Prop
  | .emptyArray => True
  | .array _ => True
  | .emptyDic => True
  | .dic _ => True
  | _ => False

def DocumentText (root : Value) (text : List UInt32) : Prop :=
  root.IsRoot ∧ ∃ front t back, Ws front ∧ root.Text t ∧ Ws back ∧ text = front ++ (t ++ back)

end Qse.JsonFeed
