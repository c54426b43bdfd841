import Qse.Json.Model

/-!
# Well-formed instructions

What a client of the parser is promised of the instructions that it is given, and the steps of
the parser that keep to it.
-/

open List

namespace Qse.JsonFeed

def Inst.IsLeaf (inst : Inst) : Prop :=
  inst ∈ [Inst.character, .string, .number, .nil, .true, .false]

def keyMarks (key : List UInt32) : List Mark := [.inst .key (some key), .colon]

mutual

inductive IsContainer : List Mark → Prop where
  | emptyArray : IsContainer [.inst .startArray none, .inst .endArray none]
  | array {marks : List Mark} (h : IsValues marks) :
      IsContainer (.inst .startArray none :: (marks ++ [.inst .endArray none]))
  | emptyDic : IsContainer [.inst .startDic none, .inst .endDic none]
  | dic {marks : List Mark} (h : IsMembers marks) :
      IsContainer (.inst .startDic none :: (marks ++ [.inst .endDic none]))

inductive IsValue : List Mark → Prop where
  | leaf {inst : Inst} (h : inst.IsLeaf) (str : List UInt32) : IsValue [.inst inst (some str)]
  | container {marks : List Mark} (h : IsContainer marks) : IsValue marks

inductive IsValues : List Mark → Prop where
  | one {marks : List Mark} (h : IsValue marks) : IsValues marks
  | snoc {marks value : List Mark} (h : IsValues marks) (hvalue : IsValue value) :
      IsValues (marks ++ .comma :: value)

inductive IsMembers : List Mark → Prop where
  | one {value : List Mark} (key : List UInt32) (hvalue : IsValue value) :
      IsMembers (keyMarks key ++ value)
  | snoc {marks value : List Mark} (h : IsMembers marks) (key : List UInt32)
      (hvalue : IsValue value) : IsMembers (marks ++ .comma :: (keyMarks key ++ value))

end

inductive WellFormed : List Mark → Prop where
  | nil : WellFormed []
  | snoc {marks root : List Mark} (h : WellFormed marks) (hroot : IsContainer root) :
      WellFormed (marks ++ root)

def IsPrefix (marks : List Mark) : Prop := ∃ rest, WellFormed (marks ++ rest)

def ArrayBody (gotValue : Bool) (body : List Mark) : Prop :=
  if gotValue then IsValues body
  else body = [] ∨ ∃ values, IsValues values ∧ body = values ++ [.comma]

def KeyWanted (body : List Mark) : Prop :=
  body = [] ∨ ∃ members, IsMembers members ∧ body = members ++ [.comma]

def DicBody : ℕ → List Mark → Prop
  | 0, body => KeyWanted body
  | 1, body => ∃ front key, KeyWanted front ∧ body = front ++ [.inst .key (some key)]
  | 2, body => ∃ front key, KeyWanted front ∧ body = front ++ keyMarks key
  | 3, body => IsMembers body
  | _ + 4, _ => False

def WaitsContainer : List State → Prop
  | [] => True
  | .inArray gotValue :: _ => gotValue = false
  | .inDic state :: _ => state = 2
  | _ => False

def WaitsToken : List State → Prop
  | .inArray gotValue :: _ => gotValue = false
  | .inDic state :: _ => state = 0 ∨ state = 2
  | _ => False

/-- What was found is well-formed but for the arrays and dictionaries that are open. -/
def Opened : List State → List Mark → Prop
  | [], marks => WellFormed marks
  | .inArray gotValue :: stack, marks => ∃ front body,
      marks = front ++ .inst .startArray none :: body ∧ Opened stack front ∧
        WaitsContainer stack ∧ ArrayBody gotValue body
  | .inDic state :: stack, marks => ∃ front body,
      marks = front ++ .inst .startDic none :: body ∧ Opened stack front ∧
        WaitsContainer stack ∧ DicBody state body
  | .inWordValue :: stack, marks => Opened stack marks ∧ WaitsToken stack
  | .inNumericValue _ :: stack, marks => Opened stack marks ∧ WaitsToken stack
  | .inStringValue _ _ _ :: stack, marks => Opened stack marks ∧ WaitsToken stack
  | .inCharacterValue _ _ _ :: stack, marks => Opened stack marks ∧ WaitsToken stack

/-- The step is none of those that the parser should have refused. It does not close an array
or a dictionary behind a comma, a key or a colon, and does not open one where a key is
wanted. -/
def Allowed (json : Json) (c : UInt32) : Prop :=
  match json.stack with
  | .inArray _ :: _ => c = ']'.val → json.trace.getLast? ≠ some .comma
  | .inDic state :: _ =>
    (c = '}'.val → state ≠ 1 ∧ state ≠ 2 ∧ json.trace.getLast? ≠ some .comma) ∧
      (state = 0 → c ≠ '['.val ∧ c ≠ '{'.val)
  | _ => True

instance (json : Json) (c : UInt32) : Decidable (Allowed json c) := by
  unfold Allowed
  split <;> infer_instance

def handled (ctype : Mctype) (instcb : Instcb) : ℕ → Json → List UInt8 → List (Json × UInt32)
  | 0, _, _ => []
  | steps + 1, json, data =>
    match nextChar ctype.size data with
    | none => []
    | some (c, rest) => (json, c) ::
        match handleChar ctype instcb json c with
        | .error _ => []
        | .ok json => handled ctype instcb steps json rest

/-- The parser has been fed data, and took none of the steps that it should have refused. -/
inductive Fed (ctype : Mctype) (instcb : Instcb) : Json → Prop where
  | init : Fed ctype instcb Json.open
  | feed {json json' : Json} {data rest : List UInt8} (h : Fed ctype instcb json)
      (hallowed : ∀ p ∈ handled ctype instcb data.length json data, Allowed p.1 p.2)
      (heq : feed ctype instcb json data = .ok (json', rest)) : Fed ctype instcb json'

variable {stack : List State} {marks body : List Mark}

theorem opened_value {value : List Mark} (h : Opened stack marks) (hwaits : WaitsContainer stack)
    (hne : stack ≠ []) (hvalue : IsValue value) :
    Opened (gotValue stack) (marks ++ value) := by
  match stack with
  | [] => exact absurd rfl hne
  | .inArray got :: stack =>
    obtain ⟨front, body, rfl, hfront, hstack, hbody⟩ := h
    obtain rfl : got = false := hwaits
    refine ⟨front, body ++ value, by simp, hfront, hstack, ?_⟩
    rcases hbody with rfl | ⟨values, hvalues, rfl⟩
    · exact .one hvalue
    · simpa [ArrayBody] using IsValues.snoc hvalues hvalue
  | .inDic state :: stack =>
    obtain ⟨front, body, rfl, hfront, hstack, hbody⟩ := h
    obtain rfl : state = 2 := hwaits
    refine ⟨front, body ++ value, by simp, hfront, hstack, ?_⟩
    obtain ⟨pre, key, hpre | ⟨members, hmembers, hpre⟩, rfl⟩ := hbody
    · subst hpre
      exact .one key hvalue
    · subst hpre
      simpa [DicBody] using IsMembers.snoc hmembers key hvalue

theorem opened_container {value : List Mark} (h : Opened stack marks)
    (hwaits : WaitsContainer stack) (hvalue : IsContainer value) :
    Opened (gotValue stack) (marks ++ value) := by
  by_cases hne : stack = []
  · subst hne
    exact .snoc h hvalue
  · exact opened_value h hwaits hne (.container hvalue)

theorem isContainer_array {got : Bool} (h : ArrayBody got body)
    (hlast : body.getLast? ≠ some .comma) :
    IsContainer (.inst .startArray none :: (body ++ [.inst .endArray none])) := by
  cases got with
  | true => exact .array h
  | false =>
    rcases h with rfl | ⟨values, -, rfl⟩
    · exact .emptyArray
    · simp at hlast

theorem isContainer_dic {state : ℕ} (h : DicBody state body) (hstate : state ≠ 1 ∧ state ≠ 2)
    (hlast : body.getLast? ≠ some .comma) :
    IsContainer (.inst .startDic none :: (body ++ [.inst .endDic none])) := by
  match state with
  | 0 =>
    rcases h with rfl | ⟨members, -, rfl⟩
    · exact .emptyDic
    · simp at hlast
  | 1 => exact absurd rfl hstate.1
  | 2 => exact absurd rfl hstate.2
  | 3 => exact .dic h
  | _ + 4 => exact h.elim

theorem getLast?_opened {front : List Mark} {inst : Inst} :
    body.getLast? = some .comma → (front ++ .inst inst none :: body).getLast? = some .comma := by
  intro h
  cases body with
  | nil => cases h
  | cons mark body => simpa using h

theorem isValue_nil : IsValue [.inst .nil (some [])] := .leaf (by simp [Inst.IsLeaf]) []

theorem exists_array {got : Bool} (h : ArrayBody got body) :
    ∃ rest, IsContainer (.inst .startArray none :: (body ++ rest)) := by
  cases got with
  | true => exact ⟨_, .array h⟩
  | false =>
    rcases h with rfl | ⟨values, hvalues, rfl⟩
    · exact ⟨_, .emptyArray⟩
    · refine ⟨[.inst .nil (some []), .inst .endArray none], ?_⟩
      simpa using IsContainer.array (.snoc hvalues isValue_nil)

theorem exists_member (h : KeyWanted body) (key : List UInt32) :
    IsMembers (body ++ keyMarks key ++ [.inst .nil (some [])]) := by
  rcases h with rfl | ⟨members, hmembers, rfl⟩
  · exact .one key isValue_nil
  · simpa [keyMarks] using IsMembers.snoc hmembers key isValue_nil

theorem exists_dic {state : ℕ} (h : DicBody state body) :
    ∃ rest, IsContainer (.inst .startDic none :: (body ++ rest)) := by
  match state with
  | 0 => exact ⟨_, by simpa using IsContainer.dic (exists_member h [])⟩
  | 1 =>
    obtain ⟨front, key, hfront, rfl⟩ := h
    exact ⟨.colon :: [.inst .nil (some []), .inst .endDic none],
      by simpa [keyMarks] using IsContainer.dic (exists_member hfront key)⟩
  | 2 =>
    obtain ⟨front, key, hfront, rfl⟩ := h
    exact ⟨[.inst .nil (some []), .inst .endDic none],
      by simpa using IsContainer.dic (exists_member hfront key)⟩
  | 3 => exact ⟨_, .dic h⟩
  | _ + 4 => exact h.elim

theorem length_gotValue (stack : List State) : (gotValue stack).length = stack.length := by
  unfold gotValue
  split <;> rfl

theorem Opened.isPrefix (h : Opened stack marks) : IsPrefix marks := by
  induction hn : stack.length generalizing stack marks with
  | zero =>
    obtain rfl := length_eq_zero_iff.1 hn
    exact ⟨[], by rw [append_nil]; exact h⟩
  | succ n ih =>
    have hclose {stack : List State} {front body : List Mark} (hfront : Opened stack front)
        (hwaits : WaitsContainer stack) (hlen : stack.length = n) (first : Mark)
        (hbody : ∃ rest, IsContainer (first :: (body ++ rest))) :
        IsPrefix (front ++ first :: body) := by
      obtain ⟨rest, hrest⟩ := hbody
      have hopened := opened_container hfront hwaits hrest
      obtain ⟨rest', hrest'⟩ := ih hopened (by rw [length_gotValue, hlen])
      exact ⟨rest ++ rest', by simpa using hrest'⟩
    match stack with
    | .inArray got :: stack =>
      obtain ⟨front, body, rfl, hfront, hwaits, hbody⟩ := h
      exact hclose hfront hwaits (by simpa using hn) _ (exists_array hbody)
    | .inDic state :: stack =>
      obtain ⟨front, body, rfl, hfront, hwaits, hbody⟩ := h
      exact hclose hfront hwaits (by simpa using hn) _ (exists_dic hbody)
    | .inWordValue :: stack | .inNumericValue _ :: stack | .inStringValue _ _ _ :: stack
    | .inCharacterValue _ _ _ :: stack => exact ih h.1 (by simpa using hn)

/-! ## Steps -/

section Step

variable {ctype : Mctype} {instcb : Instcb}

variable {json json' : Json} {inst : Inst} {stack : List State} {c acc : UInt32} {consumed : Bool}
  {digitCount : ℕ}

theorem invoke_eq_ok {str : Option (List UInt32)}
    (h : json.invoke instcb inst str = .ok json') : json' = json.note (.inst inst str) := by
  rw [Json.invoke] at h
  split at h
  · exact (Except.ok.inj h).symm
  · cases h

theorem invokeDataInst_opened (h : Opened stack json.trace) (hwaits : WaitsToken stack)
    (hstack : json.stack = gotValue stack) (hleaf : inst.IsLeaf)
    (heq : invokeDataInst instcb json inst = .ok json') :
    Opened json'.stack json'.trace ∧ json'.stack = gotValue stack ∧
      (inst ≠ .string → WaitsContainer stack) ∧
      ∃ inst str, json'.trace.getLast? = some (.inst inst str) := by
  match stack with
  | .inArray got :: stack =>
    obtain rfl : got = false := hwaits
    have hplain : json.invoke instcb inst (some json.tok) = .ok json' := by
      simpa [invokeDataInst, hstack, gotValue] using heq
    obtain rfl := invoke_eq_ok hplain
    refine ⟨?_, hstack, fun _ => rfl, inst, some json.tok, by simp [Json.note]⟩
    rw [Json.note, hstack]
    exact opened_value h rfl (cons_ne_nil _ _) (.leaf hleaf _)
  | .inDic 0 :: stack =>
    obtain ⟨front, body, htrace, hfront, hwaits, hbody⟩ := h
    simp only [invokeDataInst, hstack, gotValue] at heq
    split at heq
    · rename_i hstring
      obtain rfl := invoke_eq_ok heq
      refine ⟨?_, hstack, fun hne => absurd hstring hne, .key, some json.tok, by simp [Json.note]⟩
      rw [Json.note, hstack]
      exact ⟨front, body ++ [.inst .key (some json.tok)], by simp [htrace], hfront, hwaits, body,
        _, hbody, rfl⟩
    · cases heq
  | .inDic 2 :: stack =>
    have hplain : json.invoke instcb inst (some json.tok) = .ok json' := by
      simpa [invokeDataInst, hstack, gotValue] using heq
    obtain rfl := invoke_eq_ok hplain
    refine ⟨?_, hstack, fun _ => rfl, inst, some json.tok, by simp [Json.note]⟩
    rw [Json.note, hstack]
    exact opened_value h rfl (cons_ne_nil _ _) (.leaf hleaf _)

theorem wordInst_isLeaf {tok : List UInt32} (h : wordInst tok = some inst) :
    inst.IsLeaf ∧ inst ≠ .string := by
  unfold wordInst at h
  split at h
  · cases h
    exact ⟨by simp [Inst.IsLeaf], by decide⟩
  split at h
  · cases h
    exact ⟨by simp [Inst.IsLeaf], by decide⟩
  split at h
  · cases h
    exact ⟨by simp [Inst.IsLeaf], by decide⟩
  · cases h

/-- What a step keeps: a character that is handled again is allowed, and then it is taken. -/
structure Keeps (ctype : Mctype) (instcb : Instcb) (c : UInt32) (consumed : Bool)
    (json : Json) : Prop where
  opened : Opened json.stack json.trace
  again : consumed = false →
    Allowed json c ∧ ∀ json', handleState ctype instcb json c ≠ .ok (false, json')

theorem Keeps.taken (h : Opened json.stack json.trace) :
    Keeps ctype instcb c true json := ⟨h, by simp⟩

theorem handleCharInArray_got :
    handleCharInArray ctype instcb true json c ≠ .ok (false, json') := by
  intro h
  rw [handleCharInArray] at h
  split at h
  · obtain ⟨json₁, -, h⟩ := bind_eq_ok.1 h
    simp at h
  · split at h
    · simp at h
    · split at h <;> simp at h

theorem handleCharInDic_got : handleCharInDic ctype instcb 3 json c ≠ .ok (false, json') := by
  intro h
  rw [handleCharInDic] at h
  split at h
  · obtain ⟨json₁, -, h⟩ := bind_eq_ok.1 h
    simp at h
  · split at h
    · simp at h
    · split at h
      · simp at h
      · split at h <;> simp at h

theorem keeps_ended (h : Opened stack json.trace) (hwaits : WaitsToken stack)
    (hstack : json.stack = gotValue stack) (hleaf : inst.IsLeaf) (hstring : inst ≠ .string)
    (heq : invokeDataInst instcb json inst = .ok json') :
    Keeps ctype instcb c false json' := by
  obtain ⟨hopened, hstack', hcontainer, inst', str, hlast⟩ :=
    invokeDataInst_opened h hwaits hstack hleaf heq
  refine ⟨hopened, fun _ => ?_⟩
  have hcomma : json'.trace.getLast? ≠ some .comma := by simp [hlast]
  match stack, hcontainer hstring with
  | .inArray got :: stack, _ =>
    refine ⟨?_, fun json'' => ?_⟩
    · rw [Allowed, hstack']
      exact fun _ => hcomma
    · rw [handleState, hstack']
      exact handleCharInArray_got
  | .inDic state :: stack, hstate =>
    obtain rfl : state = 2 := hstate
    refine ⟨?_, fun json'' => ?_⟩
    · rw [Allowed, hstack']
      exact ⟨fun _ => ⟨by decide, by decide, hcomma⟩, fun hzero => absurd hzero (by decide)⟩
    · rw [handleState, hstack']
      exact handleCharInDic_got

theorem start_keeps (h : Opened json.stack json.trace) (hwaits : WaitsContainer json.stack) :
    (startArray instcb json = .ok (consumed, json') → Keeps ctype instcb c consumed json') ∧
      (startDic instcb json = .ok (consumed, json') → Keeps ctype instcb c consumed json') := by
  constructor <;>
  · intro heq
    obtain ⟨json₁, hinvoke, heq⟩ := bind_eq_ok.1 heq
    cases heq
    obtain rfl := invoke_eq_ok hinvoke
    exact .taken ⟨json.trace, [], rfl, h, hwaits, .inl rfl⟩

theorem handleStringValueChar_zero :
    handleStringValueChar ctype instcb 0 digitCount acc json c ≠ .ok (false, json') := by
  intro h
  simp only [handleStringValueChar] at h
  split at h
  · contradiction
  split at h
  · contradiction
  split at h
  · contradiction
  split at h
  · simp at h
  split at h
  · obtain ⟨json₁, -, h⟩ := bind_eq_ok.1 h
    simp at h
  · simp at h

theorem handleCharacterValueChar_zero :
    handleCharacterValueChar ctype instcb 0 digitCount acc json c ≠ .ok (false, json') := by
  intro h
  obtain ⟨⟨consumed, json₁⟩, hvalue, h⟩ := bind_eq_ok.1 h
  have hconsumed : consumed = false := by
    simp only at h
    split at h
    · cases h
    · simpa using (Prod.mk.inj (Except.ok.inj h)).1
  subst hconsumed
  simp only [handleCharacterValue] at hvalue
  split at hvalue
  · contradiction
  split at hvalue
  · contradiction
  split at hvalue
  · contradiction
  split at hvalue
  · simp at hvalue
  split at hvalue
  · split at hvalue
    · cases hvalue
    · obtain ⟨json₂, -, hvalue⟩ := bind_eq_ok.1 hvalue
      simp at hvalue
  · simp at hvalue

theorem handleStringValueChar_keeps {escaped : ℕ} (h : Opened stack json.trace)
    (hwaits : WaitsToken stack)
    (hstack : json.stack = .inStringValue escaped digitCount acc :: stack)
    (heq : handleStringValueChar ctype instcb escaped digitCount acc json c =
      .ok (consumed, json')) :
    Keeps ctype instcb c consumed json' := by
  have hkept : Opened json.stack json.trace := by
    rw [hstack]
    exact ⟨h, hwaits⟩
  have hstring {escaped digitCount : ℕ} {acc : UInt32} :
      Opened (.inStringValue escaped digitCount acc :: json.stack.tail) json.trace := by
    rw [hstack]
    exact ⟨h, hwaits⟩
  have hescape {e : Escape} (heq : json.escape .inStringValue escaped e = (consumed, json')) :
      Keeps ctype instcb c consumed json' := by
    cases e with
    | more digitCount acc =>
      cases heq
      exact .taken hstring
    | done consumed digitCount acc =>
      cases heq
      refine ⟨hstring, fun _ => ⟨trivial, fun json'' => ?_⟩⟩
      exact handleStringValueChar_zero
  simp only [handleStringValueChar] at heq
  split at heq
  · exact hescape (Except.ok.inj heq)
  split at heq
  · exact hescape (Except.ok.inj heq)
  split at heq
  · split at heq <;> cases heq
    · exact .taken hstring
    · exact .taken hstring
  split at heq
  · cases heq
    exact .taken hstring
  split at heq
  · obtain ⟨json₁, hinvoke, heq⟩ := bind_eq_ok.1 heq
    cases heq
    have hpop : json.pop.stack = gotValue stack := by simp [hstack]
    have hleaf : Inst.IsLeaf .string := by simp [Inst.IsLeaf]
    have hopened : Opened stack json.pop.trace := h
    exact .taken (invokeDataInst_opened hopened hwaits hpop hleaf hinvoke).1
  · cases heq
    exact .taken hkept

theorem handleCharacterValueChar_keeps {escaped : ℕ} (h : Opened stack json.trace)
    (hwaits : WaitsToken stack)
    (hstack : json.stack = .inCharacterValue escaped digitCount acc :: stack)
    (heq : handleCharacterValueChar ctype instcb escaped digitCount acc json c =
      .ok (consumed, json')) :
    Keeps ctype instcb c consumed json' := by
  have hkept : Opened json.stack json.trace := by
    rw [hstack]
    exact ⟨h, hwaits⟩
  have hvalue {escaped digitCount : ℕ} {acc : UInt32} :
      Opened (.inCharacterValue escaped digitCount acc :: json.stack.tail) json.trace := by
    rw [hstack]
    exact ⟨h, hwaits⟩
  obtain ⟨⟨consumed', json₁⟩, hfirst, heq⟩ := bind_eq_ok.1 heq
  simp only at heq
  split at heq
  · cases heq
  cases heq
  have hescape {e : Escape} (heq : json.escape .inCharacterValue escaped e = (consumed, json')) :
      Keeps ctype instcb c consumed json' := by
    cases e with
    | more digitCount acc =>
      cases heq
      exact .taken hvalue
    | done consumed digitCount acc =>
      cases heq
      refine ⟨hvalue, fun _ => ⟨trivial, fun json'' => ?_⟩⟩
      exact handleCharacterValueChar_zero
  simp only [handleCharacterValue] at hfirst
  split at hfirst
  · split at hfirst
    · exact hescape (Except.ok.inj hfirst)
    · exact hescape (Except.ok.inj hfirst)
  split at hfirst
  · exact hescape (Except.ok.inj hfirst)
  split at hfirst
  · split at hfirst <;> cases hfirst
    · exact .taken hvalue
    · exact .taken hvalue
  split at hfirst
  · cases hfirst
    exact .taken hvalue
  split at hfirst
  · split at hfirst
    · cases hfirst
    · obtain ⟨json₂, hinvoke, hfirst⟩ := bind_eq_ok.1 hfirst
      cases hfirst
      have hpop : json.pop.stack = gotValue stack := by simp [hstack]
      have hleaf : Inst.IsLeaf .character := by simp [Inst.IsLeaf]
      have hopened : Opened stack json.pop.trace := h
      exact .taken (invokeDataInst_opened hopened hwaits hpop hleaf hinvoke).1
  · cases hfirst
    exact .taken hkept

theorem handleNumericValueChar_keeps {dotted : Bool} (h : Opened stack json.trace)
    (hwaits : WaitsToken stack) (hstack : json.stack = .inNumericValue dotted :: stack)
    (heq : handleNumericValueChar ctype instcb dotted json c = .ok (consumed, json')) :
    Keeps ctype instcb c consumed json' := by
  have hkept : Opened json.stack json.trace := by
    rw [hstack]
    exact ⟨h, hwaits⟩
  have hdotted : Opened (.inNumericValue true :: json.stack.tail) json.trace := by
    rw [hstack]
    exact ⟨h, hwaits⟩
  rw [handleNumericValueChar] at heq
  split at heq
  · cases heq
    exact .taken hkept
  split at heq
  · cases heq
    exact .taken hdotted
  split at heq
  · cases heq
  obtain ⟨json₁, hinvoke, heq⟩ := bind_eq_ok.1 heq
  cases heq
  have hpop : json.pop.stack = gotValue stack := by simp [hstack]
  have hleaf : Inst.IsLeaf .number := by simp [Inst.IsLeaf]
  have hopened : Opened stack json.pop.trace := h
  exact keeps_ended hopened hwaits hpop hleaf (by decide) hinvoke

theorem handleWordValueChar_keeps (h : Opened stack json.trace) (hwaits : WaitsToken stack)
    (hstack : json.stack = .inWordValue :: stack)
    (heq : handleWordValueChar ctype instcb json c = .ok (consumed, json')) :
    Keeps ctype instcb c consumed json' := by
  rw [handleWordValueChar] at heq
  split at heq
  · cases heq
    refine .taken ?_
    rw [addChar_stack, addChar_trace, hstack]
    exact ⟨h, hwaits⟩
  · split at heq
    · cases heq
    · rename_i inst hword
      obtain ⟨hleaf, hstring⟩ := wordInst_isLeaf hword
      obtain ⟨json₁, hinvoke, heq⟩ := bind_eq_ok.1 heq
      cases heq
      have hpop : json.pop.stack = gotValue stack := by simp [hstack]
      have hopened : Opened stack json.pop.trace := h
      exact keeps_ended hopened hwaits hpop hleaf hstring hinvoke

theorem startValue_keeps {text : String} (h : Opened json.stack json.trace)
    (hwaits : WaitsToken json.stack)
    (hcontainer : c = '['.val ∨ c = '{'.val → WaitsContainer json.stack)
    (heq : startValue ctype instcb text json c = .ok (consumed, json')) :
    Keeps ctype instcb c consumed json' := by
  have hdigit (hc : ctype.isDigit c = true ∨ c = '+'.val ∨ c = '-'.val) (json'' : Json) :
      handleState ctype instcb (json.push (.inNumericValue false)).clearToken c ≠
        .ok (false, json'') := by
    have htaken : (ctype.isDigit c || (c = '+'.val || c = '-'.val)) = true := by simpa using hc
    simp only [handleState, Json.push, Json.clearToken, handleNumericValueChar, isEmpty_nil,
      Bool.true_and, htaken, if_true]
    simp
  have halpha (hc : ctype.isAlpha c = true) (json'' : Json) :
      handleState ctype instcb (json.push .inWordValue).clearToken c ≠ .ok (false, json'') := by
    simp only [handleState, Json.push, Json.clearToken, handleWordValueChar, hc, if_true]
    simp
  rw [startValue] at heq
  split at heq
  · cases heq
    exact .taken ⟨h, hwaits⟩
  split at heq
  · cases heq
    exact .taken ⟨h, hwaits⟩
  split at heq
  · rename_i hc
    cases heq
    exact ⟨⟨h, hwaits⟩, fun _ => ⟨trivial, hdigit (by simpa [or_assoc] using hc)⟩⟩
  split at heq
  · rename_i hc
    cases heq
    exact ⟨⟨h, hwaits⟩, fun _ => ⟨trivial, halpha hc⟩⟩
  split at heq
  · rename_i hc
    exact (start_keeps h (hcontainer (.inl hc))).1 heq
  split at heq
  · rename_i hc
    exact (start_keeps h (hcontainer (.inr hc))).2 heq
  · cases heq

theorem handleStartChar_keeps (h : Opened json.stack json.trace) (hstack : json.stack = [])
    (heq : handleStartChar ctype instcb json c = .ok (consumed, json')) :
    Keeps ctype instcb c consumed json' := by
  have hwaits : WaitsContainer json.stack := by
    rw [hstack]
    trivial
  rw [handleStartChar] at heq
  split at heq
  · exact (start_keeps h hwaits).1 heq
  split at heq
  · exact (start_keeps h hwaits).2 heq
  split at heq
  · cases heq
    exact .taken h
  · cases heq

theorem handleCharInArray_keeps {got : Bool} (h : Opened json.stack json.trace)
    (hstack : json.stack = .inArray got :: stack) (hallowed : Allowed json c)
    (heq : handleCharInArray ctype instcb got json c = .ok (consumed, json')) :
    Keeps ctype instcb c consumed json' := by
  have hopened := h
  rw [hstack] at h
  obtain ⟨front, body, htrace, hfront, hwaits, hbody⟩ := h
  rw [handleCharInArray] at heq
  split at heq
  · rename_i hc
    obtain ⟨json₁, hinvoke, heq⟩ := bind_eq_ok.1 heq
    cases heq
    obtain rfl := invoke_eq_ok hinvoke
    have hlast : body.getLast? ≠ some .comma := fun hlast => by
      simp only [Allowed, hstack] at hallowed
      rw [htrace] at hallowed
      exact hallowed hc (getLast?_opened hlast)
    have hclosed := opened_container hfront hwaits (isContainer_array hbody hlast)
    refine .taken ?_
    simpa [hstack, htrace] using hclosed
  split at heq
  · split at heq
    · cases heq
    · rename_i hgot
      cases heq
      refine .taken ?_
      have hvalues : IsValues body := by
        rw [ArrayBody, if_pos (by simpa using hgot)] at hbody
        exact hbody
      simp only [note_stack, setTop_stack, note_trace, setTop_trace, hstack, tail_cons, htrace]
      exact ⟨front, body ++ [.comma], by simp, hfront, hwaits, .inr ⟨body, hvalues, rfl⟩⟩
  split at heq
  · cases heq
    exact .taken hopened
  split at heq
  · cases heq
  · rename_i hgot
    have hgot' : got = false := by simpa using hgot
    refine startValue_keeps hopened ?_ (fun _ => ?_) heq <;> rw [hstack] <;> exact hgot'

theorem handleCharInDic_keeps {state : ℕ} (h : Opened json.stack json.trace)
    (hstack : json.stack = .inDic state :: stack) (hallowed : Allowed json c)
    (heq : handleCharInDic ctype instcb state json c = .ok (consumed, json')) :
    Keeps ctype instcb c consumed json' := by
  have hopened := h
  rw [hstack] at h
  obtain ⟨front, body, htrace, hfront, hwaits, hbody⟩ := h
  simp only [Allowed, hstack] at hallowed
  rw [handleCharInDic] at heq
  split at heq
  · rename_i hc
    obtain ⟨json₁, hinvoke, heq⟩ := bind_eq_ok.1 heq
    cases heq
    obtain rfl := invoke_eq_ok hinvoke
    obtain ⟨hone, htwo, hcomma⟩ := hallowed.1 hc
    have hlast : body.getLast? ≠ some .comma := fun hlast => by
      rw [htrace] at hcomma
      exact hcomma (getLast?_opened hlast)
    have hclosed := opened_container hfront hwaits (isContainer_dic hbody ⟨hone, htwo⟩ hlast)
    refine .taken ?_
    simpa [hstack, htrace] using hclosed
  split at heq
  · split at heq
    · cases heq
    · rename_i hstate
      cases heq
      obtain rfl : state = 1 := by simpa using hstate
      obtain ⟨pre, key, hpre, rfl⟩ := hbody
      refine .taken ?_
      simp only [note_stack, setTop_stack, note_trace, setTop_trace, hstack, tail_cons, htrace]
      exact ⟨front, pre ++ keyMarks key, by simp [keyMarks], hfront, hwaits, pre, key, hpre, rfl⟩
  split at heq
  · split at heq
    · cases heq
    · rename_i hstate
      cases heq
      obtain rfl : state = 3 := by simpa using hstate
      refine .taken ?_
      simp only [note_stack, setTop_stack, note_trace, setTop_trace, hstack, tail_cons, htrace]
      exact ⟨front, body ++ [.comma], by simp, hfront, hwaits, .inr ⟨body, hbody, rfl⟩⟩
  split at heq
  · cases heq
    exact .taken hopened
  split at heq
  · cases heq
  split at heq
  · cases heq
  rename_i hone hthree
  have hstate : state = 0 ∨ state = 2 := by
    match state with
    | 0 => exact .inl rfl
    | 1 => exact absurd rfl hone
    | 2 => exact .inr rfl
    | 3 => exact absurd rfl hthree
    | _ + 4 => exact hbody.elim
  refine startValue_keeps hopened (by rw [hstack]; exact hstate) (fun hc => ?_) heq
  rw [hstack]
  rcases hstate with hzero | htwo
  · obtain ⟨hbrack, hbrace⟩ := hallowed.2 hzero
    rcases hc with hc | hc
    · exact absurd hc hbrack
    · exact absurd hc hbrace
  · exact htwo

theorem handleState_keeps (h : Opened json.stack json.trace) (hallowed : Allowed json c)
    (heq : handleState ctype instcb json c = .ok (consumed, json')) :
    Keeps ctype instcb c consumed json' := by
  have hopened := h
  rw [handleState] at heq
  match hstack : json.stack with
  | [] =>
    rw [hstack] at heq
    exact handleStartChar_keeps hopened hstack heq
  | .inArray got :: stack =>
    rw [hstack] at heq
    exact handleCharInArray_keeps hopened hstack hallowed heq
  | .inDic state :: stack =>
    rw [hstack] at heq
    exact handleCharInDic_keeps hopened hstack hallowed heq
  | .inWordValue :: stack =>
    rw [hstack] at heq h
    exact handleWordValueChar_keeps h.1 h.2 hstack heq
  | .inStringValue escaped digitCount acc :: stack =>
    rw [hstack] at heq h
    exact handleStringValueChar_keeps h.1 h.2 hstack heq
  | .inCharacterValue escaped digitCount acc :: stack =>
    rw [hstack] at heq h
    exact handleCharacterValueChar_keeps h.1 h.2 hstack heq
  | .inNumericValue dotted :: stack =>
    rw [hstack] at heq h
    exact handleNumericValueChar_keeps h.1 h.2 hstack heq

theorem handleChar_opened (h : Opened json.stack json.trace) (hallowed : Allowed json c)
    (heq : handleChar ctype instcb json c = .ok json') :
    Opened json'.stack json'.trace := by
  rw [handleChar] at heq
  split at heq
  · split at heq
    · cases heq
      exact h
    · cases heq
  rw [startOver] at heq
  obtain ⟨⟨consumed, json₁⟩, hfirst, heq⟩ := bind_eq_ok.1 heq
  obtain ⟨hopened, hagain⟩ := handleState_keeps h hallowed hfirst
  cases consumed with
  | true =>
    cases heq
    exact hopened
  | false =>
    obtain ⟨hallowed', htaken⟩ := hagain rfl
    simp only [Bool.false_eq_true, if_false, startOver] at heq
    obtain ⟨⟨consumed₂, json₂⟩, hsecond, heq⟩ := bind_eq_ok.1 heq
    have hconsumed : consumed₂ = true := by
      rw [← Bool.not_eq_false]
      rintro rfl
      exact htaken _ hsecond
    subst hconsumed
    cases heq
    exact (handleState_keeps hopened hallowed' hsecond).opened

theorem feedJsonData_opened {steps : ℕ} {data rest : List UInt8} (h : Opened json.stack json.trace)
    (hallowed : ∀ p ∈ handled ctype instcb steps json data, Allowed p.1 p.2)
    (heq : feedJsonData ctype instcb steps json data = .ok (json', rest)) :
    Opened json'.stack json'.trace := by
  induction steps generalizing json data with
  | zero =>
    cases heq
    exact h
  | succ steps ih =>
    rw [feedJsonData] at heq
    rw [handled] at hallowed
    cases hnext : nextChar ctype.size data with
    | none =>
      rw [hnext] at heq
      cases heq
      exact h
    | some p =>
      obtain ⟨c, more⟩ := p
      rw [hnext] at heq hallowed
      obtain ⟨json₁, hchar, heq⟩ := bind_eq_ok.1 heq
      simp only [hchar] at hallowed
      obtain ⟨hfirst, hrest⟩ := forall_mem_cons.1 hallowed
      exact ih (handleChar_opened h hfirst hchar) hrest heq

theorem Fed.opened (h : Fed ctype instcb json) : Opened json.stack json.trace := by
  induction h with
  | init => exact .nil
  | feed _ hallowed heq ih => exact feedJsonData_opened ih hallowed heq

/-- As long as the parser takes none of the steps that it should have refused, what it has
found can go on to documents. -/
theorem isPrefix_of_fed {json : Json} (h : Fed ctype instcb json) : IsPrefix json.trace :=
  h.opened.isPrefix

end Step

def Mctype.ascii (size : Utf8.WcharSize) : Mctype where
  size := size
  isSpace c := c == 32 || (9 ≤ c && c ≤ 13)
  isAlpha c := (65 ≤ c && c ≤ 90) || (97 ≤ c && c ≤ 122)
  isDigit c := 48 ≤ c && c ≤ 57
  space_ascii _ _ := rfl
  alpha_ascii _ _ := rfl
  digit_ascii _ _ := rfl

def bytes (s : String) : List UInt8 := s.toList.map Char.toUInt8

def takeAll : Instcb := fun _ _ _ => true

def withinWord : Json where
  stack := [.inWordValue, .inDic 2, .inArray false]
  tok := chars "nu"
  trace := [.inst .startArray none, .inst .number (some (chars "1")), .comma,
    .inst .startDic none, .inst .key (some (chars "a")), .colon]

theorem isPrefix_of_fed_word :
    feed (Mctype.ascii .two) takeAll Json.open (bytes "[1,\x7b\"a\":nu") = .ok (withinWord, []) ∧
      IsPrefix withinWord.trace := by
  have hfeed : feed (Mctype.ascii .two) takeAll Json.open (bytes "[1,\x7b\"a\":nu") =
      .ok (withinWord, []) := by decide +kernel
  exact ⟨hfeed, isPrefix_of_fed (.feed .init (by decide +kernel) hfeed)⟩

theorem WellFormed.front (h : WellFormed marks) :
    marks = [] ∨ ∃ root more, IsContainer root ∧ marks = root ++ more := by
  induction h with
  | nil => exact .inl rfl
  | @snoc marks root _ hroot ih =>
    rcases ih with rfl | ⟨root', more, hroot', rfl⟩
    · exact .inr ⟨root, [], hroot, by simp⟩
    · exact .inr ⟨root', more ++ root, hroot', by simp⟩

theorem exists_key : ∀ {marks : List Mark}, IsMembers marks →
    ∃ key more, marks = .inst .key (some key) :: more
  | _, .one key _ => ⟨key, _, rfl⟩
  | _, .snoc h _ _ => by
    obtain ⟨key, more, rfl⟩ := exists_key h
    exact ⟨key, _, rfl⟩

def withinKey : Json where
  stack := [.inArray false, .inDic 0]
  tok := []
  trace := [.inst .startDic none, .inst .startArray none]

/-- An array is entered where a key is wanted. -/
theorem not_isPrefix_array_key :
    feed (Mctype.ascii .two) takeAll Json.open (bytes "\x7b[") = .ok (withinKey, []) ∧
      ¬IsPrefix withinKey.trace := by
  refine ⟨by decide +kernel, ?_⟩
  rintro ⟨rest, hrest⟩
  rcases hrest.front with hnil | ⟨root, more, hroot, heq⟩
  · cases hnil
  · cases hroot with
    | emptyArray | array hvalues | emptyDic => cases heq
    | dic hmembers =>
      obtain ⟨key, more', rfl⟩ := exists_key hmembers
      cases heq

end Qse.JsonFeed
