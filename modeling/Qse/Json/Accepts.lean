import Mathlib.Data.Bool.AllAny
import Qse.Json.Documents

/-!
# Documents are accepted

What the parser does of the characters of a document.
-/

open List

namespace Qse.JsonFeed

variable {ctype : Mctype} {instcb : Instcb}

/-! ## Characters -/

def run (ctype : Mctype) (instcb : Instcb) (json : Json) (cs : List UInt32) : Except Stop Json :=
  cs.foldlM (handleChar ctype instcb) json

theorem run_nil (json : Json) : run ctype instcb json [] = .ok json := rfl

theorem run_cons (json : Json) (c : UInt32) (cs : List UInt32) :
    run ctype instcb json (c :: cs) =
      handleChar ctype instcb json c >>= fun json => run ctype instcb json cs :=
  foldlM_cons ..

theorem run_append (json : Json) (cs cs' : List UInt32) :
    run ctype instcb json (cs ++ cs') =
      run ctype instcb json cs >>= fun json => run ctype instcb json cs' :=
  foldlM_append ..

variable {json json' json₁ : Json} {c d : UInt32} {stack : List State} {trace : List Mark}
  {text : List UInt32} {acc : UInt32}

theorem handleChar_taken (hc : c < 0x110000)
    (h : handleState ctype instcb json c = .ok (true, json')) :
    handleChar ctype instcb json c = .ok json' := by
  have heof : c ≠ eof := by
    rintro rfl
    exact absurd hc (by decide)
  rw [handleChar, if_neg heof, startOver, h]
  rfl

theorem handleChar_again (hc : c < 0x110000)
    (h : handleState ctype instcb json c = .ok (false, json₁))
    (htaken : ∀ json', handleState ctype instcb json₁ c ≠ .ok (false, json')) :
    handleChar ctype instcb json c = handleChar ctype instcb json₁ c := by
  have heof : c ≠ eof := by
    rintro rfl
    exact absurd hc (by decide)
  rw [handleChar, if_neg heof, handleChar, if_neg heof, startOver, h]
  simp only [ok_bind, Bool.false_eq_true, if_false, startOver]
  cases hnext : handleState ctype instcb json₁ c with
  | error e => rfl
  | ok p =>
    obtain ⟨consumed, json₂⟩ := p
    cases consumed with
    | false => exact absurd hnext (htaken _)
    | true => rfl

theorem insts_note (json : Json) (inst : Inst) (str : Option (List UInt32)) :
    (json.note (.inst inst str)).insts = json.insts ++ [(inst, str)] := by
  simp [Json.insts]

theorem insts_note_comma (json : Json) : (json.note .comma).insts = json.insts := by
  simp [Json.insts]

theorem insts_note_colon (json : Json) : (json.note .colon).insts = json.insts := by
  simp [Json.insts]

def Between : List State → Prop
  | [] => True
  | .inArray _ :: _ => True
  | .inDic _ :: _ => True
  | _ => False

variable {c : UInt32} {json : Json} {stack : List State} {text : List UInt32}
  {insts : List Instruction}

theorem Ws.space (h : c = 32 ∨ c = 9 ∨ c = 10 ∨ c = 13) :
    ctype.isSpace c = true ∧ c < 0x110000 ∧ c ≠ '['.val ∧ c ≠ ']'.val ∧ c ≠ '{'.val ∧
      c ≠ '}'.val ∧ c ≠ ','.val ∧ c ≠ ':'.val := by
  rcases h with rfl | rfl | rfl | rfl <;>
  exact ⟨by rw [ctype.space_ascii _ (by decide)]; rfl, by decide⟩

theorem run_ws {ws : List UInt32} (hws : Ws ws) (hbetween : Between json.stack) :
    run ctype instcb json ws = .ok json := by
  induction ws with
  | nil => rfl
  | cons c ws ih =>
    obtain ⟨hspace, hlow, hlbrack, hrbrack, hlbrace, hrbrace, hcomma, hcolon⟩ :=
      @Ws.space ctype c (hws c (.head _))
    have hstate : handleState ctype instcb json c = .ok (true, json) := by
      unfold handleState
      split
      · rw [handleStartChar, if_neg hlbrack, if_neg hlbrace, if_pos hspace]
      · rw [handleCharInArray, if_neg hrbrack, if_neg hcomma, if_pos hspace]
      · rw [handleCharInDic, if_neg hrbrace, if_neg hcolon, if_neg hcomma, if_pos hspace]
      all_goals
        rename_i hstack
        rw [hstack] at hbetween
        exact hbetween.elim
    rw [run_cons, handleChar_taken hlow hstate, ok_bind]
    exact ih fun d hd => hws d (.tail _ hd)

/-! ## Strings -/

theorem lt_of_hexDigit (h : hexDigit c = some d) : c < 0x110000 := by
  have hbound {lo hi : UInt32} (hc : lo ≤ c ∧ c ≤ hi) (hhi : hi < 0x110000) : c < 0x110000 :=
    UInt32.lt_of_le_of_lt hc.2 hhi
  unfold hexDigit at h
  split at h
  · exact hbound ‹_› (by decide)
  split at h
  · exact hbound ‹_› (by decide)
  split at h
  · exact hbound ‹_› (by decide)
  · cases h

theorem handleState_string {escaped digitCount : ℕ} {acc : UInt32}
    (h : json.stack = .inStringValue escaped digitCount acc :: stack) (c : UInt32) :
    handleState ctype instcb json c =
      handleStringValueChar ctype instcb escaped digitCount acc json c := by
  rw [handleState, h]

theorem escapes_plain : ∀ p ∈ escapes,
    startEscape p.1 = none ∧ unescape p.1 = p.2 ∧ p.1 < 0x110000 :=
  all_iff_forall_prop.1 (by decide)

theorem handleState_slash {tok : List UInt32} (digitCount : ℕ) (acc : UInt32) :
    handleState ctype instcb ⟨.inStringValue 0 digitCount acc :: stack, tok, trace⟩ '\\'.val =
      .ok (true, ⟨.inStringValue 1 digitCount acc :: stack, tok, trace⟩) := rfl

theorem hexDigit_lt (h : hexDigit c = some d) : d.toNat < 16 := by
  have hsub {lo hi : UInt32} (hc : lo ≤ c ∧ c ≤ hi) : (c - lo).toNat + lo.toNat ≤ hi.toNat := by
    have hlo := UInt32.le_iff_toNat_le.1 hc.1
    have hhi := UInt32.le_iff_toNat_le.1 hc.2
    rw [UInt32.toNat_sub_of_le _ _ hc.1]
    omega
  unfold hexDigit at h
  split at h
  · have hle := hsub ‹_›
    cases h
    change _ + 48 ≤ 57 at hle
    omega
  split at h
  · have hle := hsub ‹_›
    cases h
    change _ + 97 ≤ 102 at hle
    rw [UInt32.toNat_add]
    change (_ + 10) % _ < _
    omega
  split at h
  · have hle := hsub ‹_›
    cases h
    change _ + 65 ≤ 70 at hle
    rw [UInt32.toNat_add]
    change (_ + 10) % _ < _
    omega
  · cases h

theorem acc_toNat (hacc : acc.toNat < 2 ^ 12) (hd : d.toNat < 16) :
    (acc * 16 + d).toNat = acc.toNat * 16 + d.toNat := by
  rw [UInt32.toNat_add, UInt32.toNat_mul]
  change (acc.toNat * 16 % 2 ^ 32 + d.toNat) % 2 ^ 32 = _
  omega

theorem acc_store (hacc : acc.toNat < 2 ^ 12) (hd : d.toNat < 16) :
    ctype.size.store (acc * 16 + d) = acc * 16 + d := by
  refine Utf8.fits_iff.2 fun _ => ?_
  rw [acc_toNat hacc hd]
  omega

theorem handleState_digit {tok : List UInt32} {trace : List Mark}
    {d : UInt32} (h : hexDigit c = some d) (digitCount : ℕ) (acc : UInt32)
    (hmore : digitCount + 1 < 4) (hacc : acc.toNat < 2 ^ 12) :
    handleState ctype instcb ⟨.inStringValue 4 digitCount acc :: stack, tok, trace⟩ c =
      .ok (true, ⟨.inStringValue 4 (digitCount + 1) (acc * 16 + d) :: stack, tok, trace⟩) := by
  rw [handleState_string rfl, handleStringValueChar, if_neg (by decide), if_pos (by decide), h,
    escapeDigit, if_neg (by omega), acc_store hacc (hexDigit_lt h)]
  rfl

theorem run_body {s : List UInt32} (hbody : Body text s) :
    ∀ (tok : List UInt32) (trace : List Mark) (digitCount : ℕ) (acc : UInt32),
      ∃ digitCount' acc', run ctype instcb
        ⟨.inStringValue 0 digitCount acc :: stack, tok, trace⟩ text =
          .ok ⟨.inStringValue 0 digitCount' acc' :: stack, tok ++ s, trace⟩ := by
  induction hbody with
  | nil => exact fun tok trace digitCount acc => ⟨digitCount, acc, by simp [run_nil]⟩
  | @plain c text s hlow hhigh hquote hslash _ ih =>
    intro tok trace digitCount acc
    obtain ⟨digitCount', acc', hrest⟩ := ih (tok ++ [c]) trace digitCount acc
    refine ⟨digitCount', acc', ?_⟩
    have hstate : handleState ctype instcb
        ⟨.inStringValue 0 digitCount acc :: stack, tok, trace⟩ c =
          .ok (true, ⟨.inStringValue 0 digitCount acc :: stack, tok ++ [c], trace⟩) := by
      rw [handleState_string rfl, handleStringValueChar, if_neg (by decide), if_neg (by decide),
        if_neg (by decide), if_neg hslash, if_neg hquote]
      rfl
    rw [run_cons, handleChar_taken hhigh hstate, ok_bind, hrest]
    simp
  | @escape c v text s hmem _ ih =>
    intro tok trace digitCount acc
    obtain ⟨hstart, hunescape, hlow⟩ := escapes_plain _ hmem
    obtain ⟨digitCount', acc', hrest⟩ := ih (tok ++ [v]) trace digitCount acc
    refine ⟨digitCount', acc', ?_⟩
    have hstate : handleState ctype instcb
        ⟨.inStringValue 1 digitCount acc :: stack, tok, trace⟩ c =
          .ok (true, ⟨.inStringValue 0 digitCount acc :: stack, tok ++ [v], trace⟩) := by
      rw [handleState_string rfl, handleStringValueChar, if_neg (by decide), if_neg (by decide),
        if_pos rfl, hstart, hunescape]
      rfl
    rw [run_cons, handleChar_taken (by decide) (handleState_slash _ _), ok_bind, run_cons,
      handleChar_taken hlow hstate, ok_bind, hrest]
    simp
  | @unicode c₁ c₂ c₃ c₄ d₁ d₂ d₃ d₄ v text s h₁ h₂ h₃ h₄ hv _ _ ih =>
    intro tok trace digitCount acc
    obtain ⟨digitCount', acc', hrest⟩ := ih (tok ++ [v]) trace 4 v
    refine ⟨digitCount', acc', ?_⟩
    have hu : handleState ctype instcb
        ⟨.inStringValue 1 digitCount acc :: stack, tok, trace⟩ 'u'.val =
          .ok (true, ⟨.inStringValue 4 0 0 :: stack, tok, trace⟩) := rfl
    have hzero : (0 : UInt32) * 16 + d₁ = d₁ := by simp
    have hd₁ := hexDigit_lt h₁
    have hd₂ := hexDigit_lt h₂
    have hd₃ := hexDigit_lt h₃
    have hacc₂ : (d₁ * 16 + d₂).toNat < 2 ^ 8 := by
      rw [acc_toNat (by omega) hd₂]
      omega
    have hacc₃ : ((d₁ * 16 + d₂) * 16 + d₃).toNat < 2 ^ 12 := by
      rw [acc_toNat (by omega) hd₃]
      omega
    have hfirst := @handleState_digit ctype instcb c₁ stack tok trace d₁ h₁ 0 0 (by decide)
      (by decide)
    have hsecond := @handleState_digit ctype instcb c₂ stack tok trace d₂ h₂ 1 d₁ (by decide)
      (by omega)
    have hthird := @handleState_digit ctype instcb c₃ stack tok trace d₃ h₃ 2 (d₁ * 16 + d₂)
      (by decide) (by omega)
    have hlast : handleState ctype instcb ⟨.inStringValue 4 3 ((d₁ * 16 + d₂) * 16 + d₃) :: stack,
        tok, trace⟩ c₄ = .ok (true, ⟨.inStringValue 0 4 v :: stack, tok ++ [v], trace⟩) := by
      rw [handleState_string rfl, handleStringValueChar, if_neg (by decide), if_pos (by decide),
        h₄, hv, escapeDigit, if_pos (by decide), acc_store hacc₃ (hexDigit_lt h₄)]
      rfl
    rw [hzero] at hfirst
    rw [run_cons, handleChar_taken (by decide) (handleState_slash _ _), ok_bind, run_cons,
      handleChar_taken (by decide) hu, ok_bind, run_cons,
      handleChar_taken (lt_of_hexDigit h₁) hfirst, ok_bind, run_cons,
      handleChar_taken (lt_of_hexDigit h₂) hsecond, ok_bind, run_cons,
      handleChar_taken (lt_of_hexDigit h₃) hthird, ok_bind, run_cons,
      handleChar_taken (lt_of_hexDigit h₄) hlast, ok_bind, hrest]
    simp

def NeverFails (instcb : Instcb) : Prop := ∀ trace inst str, instcb trace inst str = true

theorem NeverFails.invoke (h : NeverFails instcb) (json : Json) (inst : Inst)
    (str : Option (List UInt32)) :
    json.invoke instcb inst str = .ok (json.note (.inst inst str)) := by
  rw [Json.invoke, if_pos (h _ _ _)]

theorem NeverFails.value (h : NeverFails instcb) (json : Json) (hwaits : WaitsContainer stack)
    (hne : stack ≠ []) (hstack : json.stack = gotValue stack) (inst : Inst) :
    invokeDataInst instcb json inst = .ok (json.note (.inst inst (some json.tok))) := by
  match stack with
  | [] => exact absurd rfl hne
  | .inArray got :: stack =>
    simp only [invokeDataInst, hstack, gotValue]
    exact h.invoke _ _ _
  | .inDic state :: stack =>
    obtain rfl : state = 2 := hwaits
    simp only [invokeDataInst, hstack, gotValue]
    exact h.invoke _ _ _

theorem NeverFails.key (h : NeverFails instcb) (json : Json) (stack : List State)
    (hstack : json.stack = .inDic 1 :: stack) :
    invokeDataInst instcb json .string = .ok (json.note (.inst .key (some json.tok))) := by
  rw [invokeDataInst, hstack]
  exact h.invoke _ _ _

theorem handleState_start (hwaits : WaitsToken json.stack)
    (hc : c ≠ ']'.val ∧ c ≠ '}'.val ∧ c ≠ ','.val ∧ c ≠ ':'.val)
    (hspace : ctype.isSpace c = false) :
    ∃ text, handleState ctype instcb json c = startValue ctype instcb text json c := by
  obtain ⟨hrbrack, hrbrace, hcomma, hcolon⟩ := hc
  rw [handleState]
  cases hstack : json.stack with
  | nil => simp [hstack, WaitsToken] at hwaits
  | cons top stack =>
    rw [hstack] at hwaits
    cases top with
    | inArray got =>
      obtain rfl : got = false := hwaits
      refine ⟨"wrong character inside array", ?_⟩
      simp only [handleCharInArray, if_neg hrbrack, if_neg hcomma, hspace, Bool.false_eq_true,
        if_false]
    | inDic state =>
      have hstate : state ≠ 1 ∧ state ≠ 3 := by
        rcases hwaits with rfl | rfl <;> decide
      refine ⟨"wrong character inside dictionary", ?_⟩
      simp only [handleCharInDic, if_neg hrbrace, if_neg hcomma, if_neg hcolon, hspace,
        Bool.false_eq_true, if_false, if_neg hstate.1, if_neg hstate.2]
    | _ => simp [WaitsToken] at hwaits

theorem run_quoted {s : List UInt32} (h : Quoted text s) (hwaits : WaitsToken json.stack) :
    run ctype instcb json text =
      invokeDataInst instcb ⟨gotValue json.stack, s, json.trace⟩ .string := by
  obtain ⟨body, hbody, rfl⟩ := h
  obtain ⟨text, hstart⟩ := @handleState_start ctype instcb '\"'.val json hwaits (by decide)
    (by rw [ctype.space_ascii _ (by decide)]; rfl)
  have hopen : handleState ctype instcb json '\"'.val =
      .ok (true, ⟨.inStringValue 0 0 0 :: json.stack, [], json.trace⟩) := by
    rw [hstart, startValue, if_pos rfl]
    rfl
  obtain ⟨digitCount, acc, hrun⟩ := @run_body ctype instcb json.stack _ _ hbody [] json.trace 0 0
  rw [run_cons, handleChar_taken (by decide) hopen, ok_bind, run_append, hrun, ok_bind, run_cons]
  simp only [run_nil, nil_append]
  have hclose : handleState ctype instcb ⟨.inStringValue 0 digitCount acc :: json.stack, s,
      json.trace⟩ '\"'.val = invokeDataInst instcb ⟨gotValue json.stack, s, json.trace⟩ .string >>=
        fun json => .ok (true, json) := rfl
  cases hinvoke : invokeDataInst instcb ⟨gotValue json.stack, s, json.trace⟩ .string with
  | error e =>
    rw [hinvoke] at hclose
    rw [handleChar, if_neg (by decide), startOver, hclose]
    rfl
  | ok json' =>
    rw [hinvoke] at hclose
    rw [handleChar_taken (by decide) hclose]
    rfl

/-! ## Numbers and words -/

def Delimits (c : UInt32) : Prop :=
  c ∈ [','.val, ']'.val, '}'.val, 32, 9, 10, 13]

theorem Delimits.plain (h : Delimits c) :
    ctype.isDigit c = false ∧ ctype.isAlpha c = false ∧ c ≠ '.'.val ∧ c ≠ '+'.val ∧
      c ≠ '-'.val ∧ c < 0x110000 := by
  have hall : ∀ c ∈ [','.val, ']'.val, '}'.val, 32, 9, 10, 13],
      (c < 128 ∧ (48 ≤ c && c ≤ 57) = false ∧
        ((65 ≤ c && c ≤ 90) || (97 ≤ c && c ≤ 122)) = false) ∧ c ≠ '.'.val ∧ c ≠ '+'.val ∧
          c ≠ '-'.val ∧ c < 0x110000 :=
    all_iff_forall_prop.1 (by decide)
  obtain ⟨⟨hlow, hdigit, halpha⟩, hrest⟩ := hall c h
  exact ⟨(ctype.digit_ascii c hlow).trans hdigit, (ctype.alpha_ascii c hlow).trans halpha, hrest⟩

theorem handleState_got (hwaits : WaitsContainer stack) (hne : stack ≠ [])
    (hstack : json.stack = gotValue stack) :
    handleState ctype instcb json c ≠ .ok (false, json') := by
  match stack with
  | [] => exact absurd rfl hne
  | .inArray got :: stack =>
    rw [handleState, hstack]
    exact handleCharInArray_got
  | .inDic state :: stack =>
    obtain rfl : state = 2 := hwaits
    rw [handleState, hstack]
    exact handleCharInDic_got

theorem WaitsContainer.token (h : WaitsContainer stack) (hne : stack ≠ []) : WaitsToken stack := by
  match stack with
  | [] => exact absurd rfl hne
  | .inArray _ :: _ => exact h
  | .inDic _ :: _ => exact .inr h

theorem IsDigit.plain (h : IsDigit c) :
    ctype.isDigit c = true ∧ ctype.isSpace c = false ∧ c < 0x110000 ∧
      (c ≠ ']'.val ∧ c ≠ '}'.val ∧ c ≠ ','.val ∧ c ≠ ':'.val) ∧ c ≠ '\"'.val ∧ c ≠ '\''.val := by
  have hall : ∀ n < 58, 48 ≤ n → (UInt32.ofNat n < 128 ∧
      (48 ≤ UInt32.ofNat n && UInt32.ofNat n ≤ 57) = true ∧
      (UInt32.ofNat n == 32 || (9 ≤ UInt32.ofNat n && UInt32.ofNat n ≤ 13)) = false) ∧
        UInt32.ofNat n < 0x110000 ∧
      (UInt32.ofNat n ≠ ']'.val ∧ UInt32.ofNat n ≠ '}'.val ∧ UInt32.ofNat n ≠ ','.val ∧
        UInt32.ofNat n ≠ ':'.val) ∧ UInt32.ofNat n ≠ '\"'.val ∧ UInt32.ofNat n ≠ '\''.val := by
    decide
  have hlow : 48 ≤ c.toNat := UInt32.le_iff_toNat_le.1 h.1
  have hhigh : c.toNat ≤ 57 := UInt32.le_iff_toNat_le.1 h.2
  have hc := hall c.toNat (by omega) hlow
  rw [UInt32.ofNat_toNat] at hc
  obtain ⟨⟨hascii, hdigit, hspace⟩, hrest⟩ := hc
  exact ⟨(ctype.digit_ascii c hascii).trans hdigit, (ctype.space_ascii c hascii).trans hspace,
    hrest⟩

theorem run_digits {digits : List UInt32} (h : ∀ c ∈ digits, IsDigit c) {dotted : Bool} :
    ∀ tok, run ctype instcb ⟨.inNumericValue dotted :: stack, tok, trace⟩ digits =
      .ok ⟨.inNumericValue dotted :: stack, tok ++ digits, trace⟩ := by
  induction digits with
  | nil => exact fun tok => by simp [run_nil]
  | cons c digits ih =>
    intro tok
    obtain ⟨hdigit, -, hlow, -⟩ := @IsDigit.plain ctype c (h c (.head _))
    have hstate : handleState ctype instcb ⟨.inNumericValue dotted :: stack, tok, trace⟩ c =
        .ok (true, ⟨.inNumericValue dotted :: stack, tok ++ [c], trace⟩) := by
      simp only [handleState, handleNumericValueChar, hdigit, Bool.true_or, if_true]
      rfl
    rw [run_cons, handleChar_taken hlow hstate, ok_bind, ih fun d hd => h d (.tail _ hd)]
    simp

theorem handleChar_number (hwaits : WaitsToken json.stack) (hc : IsDigit c ∨ c = '-'.val) :
    handleChar ctype instcb json c =
      .ok ⟨.inNumericValue false :: json.stack, [c], json.trace⟩ := by
  have hfacts : (ctype.isDigit c || c = '+'.val || c = '-'.val) = true ∧
      ctype.isSpace c = false ∧ c < 0x110000 ∧
      (c ≠ ']'.val ∧ c ≠ '}'.val ∧ c ≠ ','.val ∧ c ≠ ':'.val) ∧ c ≠ '\"'.val ∧ c ≠ '\''.val := by
    rcases hc with hc | rfl
    · obtain ⟨hdigit, hrest⟩ := @IsDigit.plain ctype c hc
      exact ⟨by rw [hdigit]; rfl, hrest⟩
    · exact ⟨by simp, by rw [ctype.space_ascii _ (by decide)]; rfl, by decide⟩
  obtain ⟨hnumber, hspace, hlow, hplain, hquote, hchar⟩ := hfacts
  obtain ⟨text, hstart⟩ := @handleState_start ctype instcb c json hwaits hplain hspace
  have hfirst : handleState ctype instcb json c =
      .ok (false, ⟨.inNumericValue false :: json.stack, [], json.trace⟩) := by
    rw [hstart, startValue, if_neg hquote, if_neg hchar, if_pos hnumber]
    rfl
  have hsecond : handleState ctype instcb ⟨.inNumericValue false :: json.stack, [], json.trace⟩ c =
      .ok (true, ⟨.inNumericValue false :: json.stack, [c], json.trace⟩) := by
    have htaken : (ctype.isDigit c || (c = '+'.val || c = '-'.val)) = true := by
      rw [← Bool.or_assoc]
      exact hnumber
    simp only [handleState, handleNumericValueChar, isEmpty_nil, Bool.true_and, htaken, if_true]
    rfl
  rw [handleChar_again hlow hfirst fun json' => by rw [hsecond]; simp,
    handleChar_taken hlow hsecond]

theorem endsWithDigit_append {tok digits : List UInt32} (hne : digits ≠ [])
    (h : ∀ c ∈ digits, IsDigit c) : endsWithDigit ctype (tok ++ digits) = true := by
  have hlast := (@IsDigit.plain ctype _ (h _ (getLast_mem hne))).1
  rw [endsWithDigit, getLast?_append, getLast?_eq_some_getLast hne]
  simpa using hlast

theorem run_int {sign int : List UInt32} (hwaits : WaitsToken json.stack)
    (hsign : sign = [] ∨ sign = ['-'.val]) (hne : int ≠ []) (hint : ∀ c ∈ int, IsDigit c) :
    run ctype instcb json (sign ++ int) =
      .ok ⟨.inNumericValue false :: json.stack, sign ++ int, json.trace⟩ := by
  rcases hsign with rfl | rfl
  · obtain ⟨d, digits, rfl⟩ := exists_cons_of_ne_nil hne
    obtain ⟨hd, hdigits⟩ := forall_mem_cons.1 hint
    rw [nil_append, run_cons, handleChar_number hwaits (.inl hd), ok_bind, run_digits hdigits]
    rfl
  · rw [cons_append, nil_append, run_cons, handleChar_number hwaits (.inr rfl), ok_bind,
      run_digits hint]
    rfl

theorem run_numeral (h : Numeral text) (hwaits : WaitsToken json.stack) :
    endsWithDigit ctype text = true ∧ ∃ dotted, run ctype instcb json text =
      .ok ⟨.inNumericValue dotted :: json.stack, text, json.trace⟩ := by
  obtain ⟨sign, int, frac, rfl, hsign, hint, hfrac⟩ := h
  have hdigits : int ≠ [] ∧ ∀ c ∈ int, IsDigit c := by
    rcases hint with rfl | ⟨d, digits, rfl, hd, -, hdigits⟩
    · exact ⟨by simp, by simp [IsDigit]⟩
    · exact ⟨by simp, forall_mem_cons.2 ⟨hd, hdigits⟩⟩
  have hrun := @run_int ctype instcb json sign int hwaits hsign hdigits.1 hdigits.2
  have hend := @endsWithDigit_append ctype sign int hdigits.1 hdigits.2
  rcases hfrac with rfl | ⟨digits, rfl, hne, hfrac⟩
  · rw [append_nil]
    exact ⟨hend, false, hrun⟩
  have hdot : handleState ctype instcb
      ⟨.inNumericValue false :: json.stack, sign ++ int, json.trace⟩ '.'.val =
        .ok (true, ⟨.inNumericValue true :: json.stack, sign ++ int ++ ['.'.val],
          json.trace⟩) := by
    have hdigit : ctype.isDigit '.'.val = false := by
      rw [ctype.digit_ascii _ (by decide)]
      rfl
    have hnot : (ctype.isDigit '.'.val || ((sign ++ int).isEmpty &&
        ('.'.val = '+'.val || '.'.val = '-'.val))) = false := by
      rw [hdigit, Bool.false_or, Bool.and_eq_false_iff]
      exact .inr (by decide)
    simp only [handleState, handleNumericValueChar, hnot, Bool.false_eq_true, if_false, hend]
    rfl
  refine ⟨?_, true, ?_⟩
  · have happend := @endsWithDigit_append ctype (sign ++ int ++ ['.'.val]) digits hne hfrac
    simpa using happend
  · rw [run_append, hrun, ok_bind, run_cons, handleChar_taken (by decide) hdot, ok_bind,
      run_digits hfrac]
    simp

theorem run_letters {letters : List UInt32} (h : ∀ c ∈ letters, c < 128 ∧
    ((65 ≤ c && c ≤ 90) || (97 ≤ c && c ≤ 122)) = true) :
    ∀ tok, run ctype instcb ⟨.inWordValue :: stack, tok, trace⟩ letters =
      .ok ⟨.inWordValue :: stack, tok ++ letters, trace⟩ := by
  induction letters with
  | nil => exact fun tok => by simp [run_nil]
  | cons c letters ih =>
    intro tok
    obtain ⟨hascii, hletter⟩ := h c (.head _)
    have halpha := (ctype.alpha_ascii c hascii).trans hletter
    have hstate : handleState ctype instcb ⟨.inWordValue :: stack, tok, trace⟩ c =
        .ok (true, ⟨.inWordValue :: stack, tok ++ [c], trace⟩) := by
      simp only [handleState, handleWordValueChar, halpha, if_true]
      rfl
    have hlow : c < 0x110000 := UInt32.lt_of_lt_of_le hascii (by decide)
    rw [run_cons, handleChar_taken hlow hstate, ok_bind, ih fun d hd => h d (.tail _ hd)]
    simp

theorem run_word {word : List UInt32}
    (h : word = chars "null" ∨ word = chars "true" ∨ word = chars "false")
    (hwaits : WaitsToken json.stack) :
    run ctype instcb json word = .ok ⟨.inWordValue :: json.stack, word, json.trace⟩ := by
  obtain ⟨c, letters, rfl, hc, hascii, hletters⟩ : ∃ c letters, word = c :: letters ∧
      ((c < 128 ∧ ((65 ≤ c && c ≤ 90) || (97 ≤ c && c ≤ 122)) = true ∧
        (48 ≤ c && c ≤ 57) = false ∧ (c == 32 || (9 ≤ c && c ≤ 13)) = false) ∧
      (c ≠ ']'.val ∧ c ≠ '}'.val ∧ c ≠ ','.val ∧ c ≠ ':'.val) ∧ c ≠ '\"'.val ∧ c ≠ '\''.val ∧
        c ≠ '+'.val ∧ c ≠ '-'.val) ∧ c < 0x110000 ∧
      ∀ c ∈ letters, c < 128 ∧ ((65 ≤ c && c ≤ 90) || (97 ≤ c && c ≤ 122)) = true := by
    rcases h with rfl | rfl | rfl
    · exact ⟨_, _, rfl, by decide, by decide, all_iff_forall_prop.1 (by decide +kernel)⟩
    · exact ⟨_, _, rfl, by decide, by decide, all_iff_forall_prop.1 (by decide +kernel)⟩
    · exact ⟨_, _, rfl, by decide, by decide, all_iff_forall_prop.1 (by decide +kernel)⟩
  obtain ⟨⟨hlow, halpha, hdigit, hspace⟩, hplain, hquote, hchar, hplus, hminus⟩ := hc
  have halpha' := (ctype.alpha_ascii c hlow).trans halpha
  have hdigit' := (ctype.digit_ascii c hlow).trans hdigit
  obtain ⟨text, hstart⟩ := @handleState_start ctype instcb c json hwaits hplain
    ((ctype.space_ascii c hlow).trans hspace)
  have hfirst : handleState ctype instcb json c =
      .ok (false, ⟨.inWordValue :: json.stack, [], json.trace⟩) := by
    have hnumber : (ctype.isDigit c || c = '+'.val || c = '-'.val) = false := by
      rw [hdigit', Bool.false_or, Bool.or_eq_false_iff]
      exact ⟨decide_eq_false hplus, decide_eq_false hminus⟩
    rw [hstart, startValue, if_neg hquote, if_neg hchar,
      if_neg (by rw [hnumber]; exact Bool.false_ne_true), if_pos halpha']
    rfl
  have hsecond : handleState ctype instcb ⟨.inWordValue :: json.stack, [], json.trace⟩ c =
      .ok (true, ⟨.inWordValue :: json.stack, [c], json.trace⟩) := by
    simp only [handleState, handleWordValueChar, halpha', if_true]
    rfl
  rw [run_cons, handleChar_again hascii hfirst fun json' => by rw [hsecond]; simp,
    handleChar_taken hascii hsecond, ok_bind, run_letters hletters]
  rfl

/-! ## Values -/

def Leads (ctype : Mctype) (instcb : Instcb) (json : Json) (text : List UInt32) (d : UInt32)
    (json' : Json) : Prop :=
  ∀ rest, run ctype instcb json (text ++ d :: rest) = run ctype instcb json' (d :: rest)

def Reads (ctype : Mctype) (instcb : Instcb) (json : Json) (text : List UInt32)
    (insts : List Instruction) : Prop :=
  ∃ json', json'.stack = gotValue json.stack ∧ json'.insts = json.insts ++ insts ∧
    ∀ d, Delimits d → Leads ctype instcb json text d json'

def Enters (ctype : Mctype) (instcb : Instcb) (json : Json) (text : List UInt32)
    (insts : List Instruction) : Prop :=
  ∃ json', run ctype instcb json text = .ok json' ∧ json'.stack = gotValue json.stack ∧
    json'.insts = json.insts ++ insts

def ReadsBody (ctype : Mctype) (instcb : Instcb) (json : Json) (text : List UInt32) (d : UInt32)
    (insts : List Instruction) (stack : List State) : Prop :=
  ∃ json', json'.stack = stack ∧ json'.insts = json.insts ++ insts ∧
    Leads ctype instcb json text d json'

theorem Leads.of_run (h : run ctype instcb json text = .ok json') (d : UInt32) :
    Leads ctype instcb json text d json' := by
  intro rest
  rw [run_append, h, ok_bind]

theorem Leads.after {json₂ : Json} {front : List UInt32}
    (hfront : run ctype instcb json front = .ok json₁) (h : Leads ctype instcb json₁ text d json₂) :
    Leads ctype instcb json (front ++ text) d json₂ := by
  intro rest
  rw [append_assoc, run_append, hfront, ok_bind]
  exact h rest

theorem Leads.before {json₂ json₃ : Json} {rest : List UInt32}
    (h : Leads ctype instcb json text c json₁) (hc : run ctype instcb json₁ [c] = .ok json₂)
    (hrest : Leads ctype instcb json₂ rest d json₃) :
    Leads ctype instcb json (text ++ c :: rest) d json₃ := by
  intro tail
  have hfirst := h (rest ++ d :: tail)
  have hlast := Leads.after hc hrest tail
  rw [append_assoc, cons_append, hfirst]
  exact hlast

theorem Enters.reads
    (h : Enters ctype instcb json text insts) : Reads ctype instcb json text insts := by
  obtain ⟨json', hrun, hstack, hinsts⟩ := h
  exact ⟨json', hstack, hinsts, fun d _ => .of_run hrun d⟩

theorem WaitsContainer.between (h : WaitsContainer stack) :
    Between (gotValue stack) := by
  match stack with
  | [] | .inArray _ :: _ | .inDic _ :: _ => trivial

theorem Reads.leads_ws {back : List UInt32}
    (h : Reads ctype instcb json text insts) (hwaits : WaitsContainer json.stack)
    (hback : Ws back) :
    ∃ json', json'.stack = gotValue json.stack ∧ json'.insts = json.insts ++ insts ∧
      ∀ d, Delimits d → Leads ctype instcb json (text ++ back) d json' := by
  obtain ⟨json', hstack, hinsts, hleads⟩ := h
  refine ⟨json', hstack, hinsts, fun d hd rest => ?_⟩
  have hbetween : Between json'.stack := by
    rw [hstack]
    exact hwaits.between
  have hws := @run_ws ctype instcb _ _ hback hbetween
  cases back with
  | nil =>
    rw [append_nil]
    exact hleads d hd rest
  | cons c back =>
    have hc : Delimits c := by
      rcases hback c (.head _) with rfl | rfl | rfl | rfl <;>
      simp [Delimits]
    have hfirst := hleads c hc (back ++ d :: rest)
    have hlast := Leads.of_run hws d rest
    rw [append_assoc, cons_append, hfirst]
    exact hlast

theorem reads_number (hfails : NeverFails instcb) (h : Numeral text)
    (hwaits : WaitsContainer json.stack) (hne : json.stack ≠ []) :
    Reads ctype instcb json text [(.number, some text)] := by
  obtain ⟨hend, dotted, hrun⟩ := @run_numeral ctype instcb json text h (hwaits.token hne)
  have hinvoke := hfails.value ⟨gotValue json.stack, text, json.trace⟩ hwaits hne rfl
    .number
  refine ⟨_, rfl, insts_note ⟨gotValue json.stack, text, json.trace⟩ .number (some text), ?_⟩
  intro d hd rest
  obtain ⟨hdigit, -, hdot, hplus, hminus, hlow⟩ := @Delimits.plain ctype d hd
  have hstate : handleState ctype instcb
      ⟨.inNumericValue dotted :: json.stack, text, json.trace⟩ d =
        .ok (false, Json.note ⟨gotValue json.stack, text, json.trace⟩
          (.inst .number (some text))) := by
    have hnot : (ctype.isDigit d || (text.isEmpty && (d = '+'.val || d = '-'.val))) = false := by
      rw [hdigit, decide_eq_false hplus, decide_eq_false hminus]
      simp
    have hdotted : (!dotted && d = '.'.val) = false := by
      rw [decide_eq_false hdot, Bool.and_false]
    simp only [handleState, handleNumericValueChar, hnot, hdotted, hend, Bool.false_and,
      Bool.not_true, Bool.false_eq_true, if_false]
    exact congrArg (· >>= fun json => Except.ok (false, json)) hinvoke
  rw [run_append, hrun, ok_bind, run_cons, run_cons,
    handleChar_again hlow hstate fun json' => handleState_got hwaits hne rfl]

theorem reads_word (hfails : NeverFails instcb) {word : List UInt32} {inst : Inst}
    (h : (word = chars "null" ∧ inst = .nil) ∨ (word = chars "true" ∧ inst = .true) ∨
      (word = chars "false" ∧ inst = .false))
    (hwaits : WaitsContainer json.stack) (hne : json.stack ≠ []) :
    Reads ctype instcb json word [(inst, some word)] := by
  have hword : wordInst word = some inst := by
    rcases h with ⟨rfl, rfl⟩ | ⟨rfl, rfl⟩ | ⟨rfl, rfl⟩ <;> decide
  have hrun := @run_word ctype instcb json word
    (h.imp And.left fun h => h.imp And.left And.left) (hwaits.token hne)
  have hinvoke := hfails.value ⟨gotValue json.stack, word, json.trace⟩ hwaits hne rfl
    inst
  refine ⟨_, rfl, insts_note ⟨gotValue json.stack, word, json.trace⟩ inst (some word), ?_⟩
  intro d hd rest
  obtain ⟨-, halpha, -, -, -, hlow⟩ := @Delimits.plain ctype d hd
  have hstate : handleState ctype instcb ⟨.inWordValue :: json.stack, word, json.trace⟩ d =
      .ok (false, Json.note ⟨gotValue json.stack, word, json.trace⟩
        (.inst inst (some word))) := by
    simp only [handleState, handleWordValueChar, halpha, Bool.false_eq_true, if_false, hword]
    exact congrArg (· >>= fun json => Except.ok (false, json)) hinvoke
  rw [run_append, hrun, ok_bind, run_cons, run_cons,
    handleChar_again hlow hstate fun json' => handleState_got hwaits hne rfl]

theorem run_start (hfails : NeverFails instcb) (hwaits : WaitsContainer json.stack) :
    run ctype instcb json ['['.val] =
        .ok ((json.push (.inArray false)).note (.inst .startArray none)) ∧
      run ctype instcb json ['{'.val] =
        .ok ((json.push (.inDic 0)).note (.inst .startDic none)) := by
  have hspace : ctype.isSpace '['.val = false ∧ ctype.isSpace '{'.val = false := by
    rw [ctype.space_ascii _ (by decide), ctype.space_ascii _ (by decide)]
    decide
  have hnumber : (ctype.isDigit '['.val || '['.val = '+'.val || '['.val = '-'.val) = false ∧
      (ctype.isDigit '{'.val || '{'.val = '+'.val || '{'.val = '-'.val) = false := by
    rw [ctype.digit_ascii _ (by decide), ctype.digit_ascii _ (by decide)]
    decide
  have halpha : ctype.isAlpha '['.val = false ∧ ctype.isAlpha '{'.val = false := by
    rw [ctype.alpha_ascii _ (by decide), ctype.alpha_ascii _ (by decide)]
    decide
  have hstates : handleState ctype instcb json '['.val = startArray instcb json ∧
      handleState ctype instcb json '{'.val = startDic instcb json := by
    by_cases hne : json.stack = []
    · rw [handleState, handleState, hne]
      exact ⟨rfl, rfl⟩
    obtain ⟨text, harray⟩ := @handleState_start ctype instcb '['.val json (hwaits.token hne)
      (by decide) hspace.1
    obtain ⟨text', hdic⟩ := @handleState_start ctype instcb '{'.val json (hwaits.token hne)
      (by decide) hspace.2
    rw [harray, hdic]
    constructor
    · simp only [startValue, hnumber.1, halpha.1, Bool.false_eq_true, if_false]
      rfl
    · simp only [startValue, hnumber.2, halpha.2, Bool.false_eq_true, if_false]
      rfl
  constructor
  · have hstate := hstates.1
    rw [startArray, hfails.invoke, ok_bind] at hstate
    rw [run_cons, handleChar_taken (by decide) hstate]
    rfl
  · have hstate := hstates.2
    rw [startDic, hfails.invoke, ok_bind] at hstate
    rw [run_cons, handleChar_taken (by decide) hstate]
    rfl

theorem run_end (hfails : NeverFails instcb) :
    (∀ got, json.stack = .inArray got :: stack →
      run ctype instcb json [']'.val] = .ok (json.note (.inst .endArray none)).pop) ∧
    ∀ state, json.stack = .inDic state :: stack →
      run ctype instcb json ['}'.val] = .ok (json.note (.inst .endDic none)).pop := by
  constructor
  · intro got hstack
    have hstate : handleState ctype instcb json ']'.val =
        .ok (true, (json.note (.inst .endArray none)).pop) := by
      rw [handleState, hstack]
      simp only [handleCharInArray, if_true, hfails.invoke, ok_bind]
    rw [run_cons, handleChar_taken (by decide) hstate]
    rfl
  · intro state hstack
    have hstate : handleState ctype instcb json '}'.val =
        .ok (true, (json.note (.inst .endDic none)).pop) := by
      rw [handleState, hstack]
      simp only [handleCharInDic, if_true, hfails.invoke, ok_bind]
    rw [run_cons, handleChar_taken (by decide) hstate]
    rfl

theorem insts_pop (json : Json) : json.pop.insts = json.insts := rfl

theorem insts_push (json : Json) (state : State) : (json.push state).insts = json.insts := rfl

theorem enters_array (hfails : NeverFails instcb) {body : List UInt32} {got : Bool}
    (hwaits : WaitsContainer json.stack)
    (h : ReadsBody ctype instcb ((json.push (.inArray false)).note (.inst .startArray none)) body
      ']'.val insts (.inArray got :: json.stack)) :
    Enters ctype instcb json ('['.val :: (body ++ [']'.val]))
      ((.startArray, none) :: (insts ++ [(.endArray, none)])) := by
  obtain ⟨json', hstack, hinsts, hleads⟩ := h
  have hend := (@run_end ctype instcb json' json.stack hfails).1 got hstack
  have hstart := (@run_start ctype instcb json hfails hwaits).1
  refine ⟨(json'.note (.inst .endArray none)).pop, ?_, ?_, ?_⟩
  · rw [← singleton_append, run_append, hstart, ok_bind]
    exact (hleads []).trans hend
  · rw [pop_stack, note_stack, hstack]
    rfl
  · rw [insts_pop, insts_note, hinsts, insts_note, insts_push]
    simp

theorem enters_dic (hfails : NeverFails instcb) {body : List UInt32} {state : ℕ}
    (hwaits : WaitsContainer json.stack)
    (h : ReadsBody ctype instcb ((json.push (.inDic 0)).note (.inst .startDic none)) body
      '}'.val insts (.inDic state :: json.stack)) :
    Enters ctype instcb json ('{'.val :: (body ++ ['}'.val]))
      ((.startDic, none) :: (insts ++ [(.endDic, none)])) := by
  obtain ⟨json', hstack, hinsts, hleads⟩ := h
  have hend := (@run_end ctype instcb json' json.stack hfails).2 state hstack
  have hstart := (@run_start ctype instcb json hfails hwaits).2
  refine ⟨(json'.note (.inst .endDic none)).pop, ?_, ?_, ?_⟩
  · rw [← singleton_append, run_append, hstart, ok_bind]
    exact (hleads []).trans hend
  · rw [pop_stack, note_stack, hstack]
    rfl
  · rw [insts_pop, insts_note, hinsts, insts_note, insts_push]
    simp

theorem readsBody_ws {ws : List UInt32} (hws : Ws ws) (hbetween : Between json.stack)
    (d : UInt32) : ReadsBody ctype instcb json ws d [] json.stack :=
  ⟨json, rfl, by simp, .of_run (run_ws hws hbetween) d⟩

theorem run_comma :
    (json.stack = .inArray true :: stack → run ctype instcb json [','.val] =
      .ok ((json.setTop (.inArray false)).note .comma)) ∧
    (json.stack = .inDic 3 :: stack → run ctype instcb json [','.val] =
      .ok ((json.setTop (.inDic 0)).note .comma)) := by
  constructor
  · intro hstack
    have hstate : handleState ctype instcb json ','.val =
        .ok (true, (json.setTop (.inArray false)).note .comma) := by
      rw [handleState, hstack]
      rfl
    rw [run_cons, handleChar_taken (by decide) hstate]
    rfl
  · intro hstack
    have hstate : handleState ctype instcb json ','.val =
        .ok (true, (json.setTop (.inDic 0)).note .comma) := by
      rw [handleState, hstack]
      rfl
    rw [run_cons, handleChar_taken (by decide) hstate]
    rfl

theorem run_key (hfails : NeverFails instcb)
    {front k key mid mid' : List UInt32} (hstack : json.stack = .inDic 0 :: stack)
    (hfront : Ws front) (hk : Quoted k key) (hmid : Ws mid) (hmid' : Ws mid') :
    ∃ json', run ctype instcb json (front ++ (k ++ (mid ++ ':'.val :: mid'))) = .ok json' ∧
      json'.stack = .inDic 2 :: stack ∧ json'.insts = json.insts ++ [(.key, some key)] := by
  have hbetween : Between json.stack := by
    rw [hstack]
    trivial
  have hwaits : WaitsToken json.stack := by
    rw [hstack]
    exact .inl rfl
  have hquoted := @run_quoted ctype instcb json k key hk hwaits
  have hinvoke := hfails.key ⟨gotValue json.stack, key, json.trace⟩ stack
    (by rw [hstack]; rfl)
  rw [hinvoke, hstack] at hquoted
  obtain ⟨json₁, hjson₁⟩ : ∃ json₁, json₁ =
      Json.note ⟨.inDic 1 :: stack, key, json.trace⟩ (.inst .key (some key)) := ⟨_, rfl⟩
  have hstack₁ : json₁.stack = .inDic 1 :: stack := by rw [hjson₁]; rfl
  have hinsts₁ : json₁.insts = json.insts ++ [(.key, some key)] := by
    rw [hjson₁]
    exact insts_note json .key (some key)
  have hkey : run ctype instcb json k = .ok json₁ := by
    rw [hjson₁]
    exact hquoted
  have hcolon : handleState ctype instcb json₁ ':'.val =
      .ok (true, (json₁.setTop (.inDic 2)).note .colon) := by
    rw [handleState, hstack₁]
    rfl
  have hbetween₁ : Between json₁.stack := by
    rw [hstack₁]
    trivial
  have hbetween₂ : Between ((json₁.setTop (.inDic 2)).note .colon).stack := trivial
  refine ⟨(json₁.setTop (.inDic 2)).note .colon, ?_, by simp [hstack₁], ?_⟩
  · rw [run_append, run_ws hfront hbetween, ok_bind, run_append, hkey, ok_bind, run_append,
      run_ws hmid hbetween₁, ok_bind, run_cons, handleChar_taken (by decide) hcolon, ok_bind,
      run_ws hmid' hbetween₂]
  · rw [insts_note_colon]
    exact hinsts₁

/-! ## Documents -/

mutual

theorem Value.reads (hfails : NeverFails instcb) (value : Value) {json : Json} {text : List UInt32}
    (htext : value.Text text) (hwaits : WaitsContainer json.stack)
    (hroot : value.IsRoot ∨ json.stack ≠ []) :
    Reads ctype instcb json text value.insts ∧
      (value.IsRoot → Enters ctype instcb json text value.insts) := by
  match value with
  | .string s =>
    have hne : json.stack ≠ [] := hroot.resolve_left id
    have hquoted := @run_quoted ctype instcb json text s htext (hwaits.token hne)
    have hinvoke := hfails.value ⟨gotValue json.stack, s, json.trace⟩ hwaits hne rfl
      .string
    have henters : Enters ctype instcb json text [(.string, some s)] :=
      ⟨_, hquoted.trans hinvoke, rfl, insts_note json .string (some s)⟩
    exact ⟨henters.reads, False.elim⟩
  | .number num =>
    obtain ⟨hnum, rfl⟩ := htext
    exact ⟨reads_number hfails hnum hwaits (hroot.resolve_left id), False.elim⟩
  | .null =>
    have hreads := @reads_word ctype instcb json hfails text .nil (.inl ⟨htext, rfl⟩) hwaits
      (hroot.resolve_left id)
    cases htext
    exact ⟨hreads, False.elim⟩
  | .true =>
    have hreads := @reads_word ctype instcb json hfails text .true (.inr (.inl ⟨htext, rfl⟩))
      hwaits (hroot.resolve_left id)
    cases htext
    exact ⟨hreads, False.elim⟩
  | .false =>
    have hreads := @reads_word ctype instcb json hfails text .false (.inr (.inr ⟨htext, rfl⟩))
      hwaits (hroot.resolve_left id)
    cases htext
    exact ⟨hreads, False.elim⟩
  | .emptyArray =>
    obtain ⟨ws, hws, rfl⟩ := htext
    have henters := @enters_array ctype instcb json [] hfails ws false hwaits
      (readsBody_ws hws (by trivial) _)
    exact ⟨henters.reads, fun _ => henters⟩
  | .array values =>
    obtain ⟨body, hbody, rfl⟩ := htext
    have henters := @enters_array ctype instcb json values.insts hfails body true hwaits
      (values.readsBody hfails hbody rfl)
    exact ⟨henters.reads, fun _ => henters⟩
  | .emptyDic =>
    obtain ⟨ws, hws, rfl⟩ := htext
    have henters := @enters_dic ctype instcb json [] hfails ws 0 hwaits
      (readsBody_ws hws (by trivial) _)
    exact ⟨henters.reads, fun _ => henters⟩
  | .dic members =>
    obtain ⟨body, hbody, rfl⟩ := htext
    have henters := @enters_dic ctype instcb json members.insts hfails body 3 hwaits
      (members.readsBody hfails hbody rfl)
    exact ⟨henters.reads, fun _ => henters⟩

theorem Values.readsBody (hfails : NeverFails instcb) (values : Values) {json : Json}
    {text : List UInt32} {stack : List State} (htext : values.Text text)
    (hstack : json.stack = .inArray false :: stack) :
    ReadsBody ctype instcb json text ']'.val values.insts (.inArray true :: stack) := by
  have hwaits : WaitsContainer json.stack := by
    rw [hstack]
    rfl
  have hbetween : Between json.stack := by
    rw [hstack]
    trivial
  have hne : json.stack ≠ [] := by simp [hstack]
  match values with
  | .one value =>
    obtain ⟨front, t, back, hfront, ht, hback, rfl⟩ := htext
    have hreads := (@Value.reads hfails value json t ht hwaits (.inr hne)).1
    obtain ⟨json', hstack', hinsts, hleads⟩ := hreads.leads_ws hwaits hback
    rw [hstack] at hstack'
    exact ⟨json', hstack', hinsts, .after (run_ws hfront hbetween)
      (hleads _ (by simp [Delimits]))⟩
  | .cons value values =>
    obtain ⟨front, t, back, rest, hfront, ht, hback, hrest, rfl⟩ := htext
    have hreads := (@Value.reads hfails value json t ht hwaits (.inr hne)).1
    obtain ⟨json', hstack', hinsts, hleads⟩ := hreads.leads_ws hwaits hback
    rw [hstack] at hstack'
    have hcomma := (@run_comma ctype instcb json' stack).1 hstack'
    obtain ⟨json'', hstack'', hinsts', hleads'⟩ := @Values.readsBody hfails values
      ((json'.setTop (.inArray false)).note .comma) rest stack hrest (by simp [hstack', gotValue])
    refine ⟨json'', hstack'', ?_, ?_⟩
    · rw [hinsts', insts_note_comma]
      exact (congrArg (· ++ values.insts) hinsts).trans (append_assoc ..)
    · have hvalue := (hleads ','.val (by simp [Delimits])).before hcomma hleads'
      rw [append_assoc] at hvalue
      exact .after (run_ws hfront hbetween) hvalue

theorem Members.readsBody (hfails : NeverFails instcb) (members : Members) {json : Json}
    {text : List UInt32} {stack : List State} (htext : members.Text text)
    (hstack : json.stack = .inDic 0 :: stack) :
    ReadsBody ctype instcb json text '}'.val members.insts (.inDic 3 :: stack) := by
  match members with
  | .one key value =>
    obtain ⟨front, k, mid, mid', t, back, hfront, hk, hmid, hmid', ht, hback, rfl⟩ := htext
    obtain ⟨json₁, hkey, hstack₁, hinsts₁⟩ :=
      @run_key ctype instcb json stack hfails _ _ _ _ _ hstack hfront hk hmid hmid'
    have hwaits : WaitsContainer json₁.stack := by
      rw [hstack₁]
      rfl
    have hreads := (@Value.reads hfails value json₁ t ht hwaits (.inr (by simp [hstack₁]))).1
    obtain ⟨json', hstack', hinsts, hleads⟩ := hreads.leads_ws hwaits hback
    rw [hstack₁] at hstack'
    refine ⟨json', hstack', ?_, ?_⟩
    · rw [hinsts, hinsts₁]
      simp [Members.insts]
    · have hlast := Leads.after hkey (hleads '}'.val (by simp [Delimits]))
      simpa using hlast
  | .cons key value members =>
    obtain ⟨front, k, mid, mid', t, back, rest, hfront, hk, hmid, hmid', ht, hback, hrest, rfl⟩ :=
      htext
    obtain ⟨json₁, hkey, hstack₁, hinsts₁⟩ :=
      @run_key ctype instcb json stack hfails _ _ _ _ _ hstack hfront hk hmid hmid'
    have hwaits : WaitsContainer json₁.stack := by
      rw [hstack₁]
      rfl
    have hreads := (@Value.reads hfails value json₁ t ht hwaits (.inr (by simp [hstack₁]))).1
    obtain ⟨json', hstack', hinsts, hleads⟩ := hreads.leads_ws hwaits hback
    rw [hstack₁] at hstack'
    have hcomma := (@run_comma ctype instcb json' stack).2 hstack'
    obtain ⟨json'', hstack'', hinsts', hleads'⟩ := @Members.readsBody hfails members
      ((json'.setTop (.inDic 0)).note .comma) rest stack hrest (by simp [hstack', gotValue])
    refine ⟨json'', hstack'', ?_, ?_⟩
    · rw [hinsts', insts_note_comma]
      have hbefore : (json'.setTop (.inDic 0)).insts = json'.insts := rfl
      rw [hbefore, hinsts, hinsts₁]
      simp [Members.insts]
    · have hvalue := (hleads ','.val (by simp [Delimits])).before hcomma hleads'
      have hlast := Leads.after hkey hvalue
      simpa using hlast

end

theorem run_document (hfails : NeverFails instcb) {root : Value} (h : DocumentText root text) :
    ∃ json, run ctype instcb Json.open text = .ok json ∧ json.stack = [] ∧
      json.insts = root.insts := by
  obtain ⟨hroot, front, t, back, hfront, ht, hback, rfl⟩ := h
  obtain ⟨json, hrun, hstack, hinsts⟩ :=
    (@Value.reads ctype instcb hfails root Json.open t ht trivial (.inl hroot)).2 hroot
  have hbetween : Between json.stack := by
    rw [hstack]
    trivial
  refine ⟨json, ?_, hstack, hinsts⟩
  rw [run_append, run_ws hfront (by trivial), ok_bind, run_append, hrun, ok_bind,
    run_ws hback hbetween]

end Qse.JsonFeed
