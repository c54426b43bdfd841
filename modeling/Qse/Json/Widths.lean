import Qse.Json.Accepts

/-!
# Characters that a build can hold

Whatever text the parser is fed, the client is told of characters of the size of the build only.
So a document with others is not told as it stands.
-/

open List

namespace Qse.JsonFeed

open Utf8

variable {ctype : Mctype} {instcb : Instcb} {size : WcharSize}

/-! ## What the parser holds -/

def State.acc : State → UInt32
  | .inStringValue _ _ acc => acc
  | .inCharacterValue _ _ acc => acc
  | _ => 0

def Escape.acc : Escape → UInt32
  | .more _ acc => acc
  | .done _ _ acc => acc

def InstFits (size : WcharSize) (p : Instruction) : Prop := ∀ s, p.2 = some s → ∀ c ∈ s, size.Fits c

structure Json.Fits (size : WcharSize) (json : Json) : Prop where
  acc : ∀ state ∈ json.stack, size.Fits state.acc
  tok : ∀ c ∈ json.tok, size.Fits c
  told : ∀ p ∈ json.insts, InstFits size p

variable {json json' : Json} {c acc : UInt32} {state : State} {inst : Inst}
  {str : Option (List UInt32)}

theorem fits_store (w : UInt32) : size.Fits (size.store w) := by
  rw [fits_iff]
  rintro rfl
  rw [two_store_toNat]
  exact Nat.mod_lt _ (by decide)

theorem fits_ascii (hc : c < 128) : size.Fits c := by
  rw [fits_iff]
  have hlt := UInt32.lt_iff_toNat_lt.1 hc
  change c.toNat < 128 at hlt
  omega

theorem Json.Fits.push (h : json.Fits size) (hacc : size.Fits state.acc) :
    (json.push state).Fits size :=
  ⟨forall_mem_cons.2 ⟨hacc, h.acc⟩, h.tok, h.told⟩

theorem Json.Fits.setTop (h : json.Fits size) (hacc : size.Fits state.acc) :
    (json.setTop state).Fits size :=
  ⟨forall_mem_cons.2 ⟨hacc, fun state hmem => h.acc state (mem_of_mem_tail hmem)⟩, h.tok, h.told⟩

theorem Json.Fits.pop (h : json.Fits size) : json.pop.Fits size := by
  refine ⟨?_, h.tok, h.told⟩
  have htail : ∀ state ∈ json.stack.tail, size.Fits state.acc :=
    fun state hmem => h.acc state (mem_of_mem_tail hmem)
  have hzero : size.Fits 0 := fits_ascii (by decide)
  rw [pop_stack]
  unfold gotValue
  split
  · rename_i hstack
    rw [hstack, forall_mem_cons] at htail
    exact forall_mem_cons.2 ⟨hzero, htail.2⟩
  · rename_i hstack
    rw [hstack, forall_mem_cons] at htail
    exact forall_mem_cons.2 ⟨hzero, htail.2⟩
  · exact htail

theorem Json.Fits.clearToken (h : json.Fits size) : json.clearToken.Fits size :=
  ⟨h.acc, by simp [Json.clearToken], h.told⟩

theorem Json.Fits.addChar (h : json.Fits size) (hc : size.Fits c) : (json.addChar c).Fits size := by
  refine ⟨h.acc, fun d hd => ?_, h.told⟩
  rcases mem_append.1 hd with hd | hd
  · exact h.tok d hd
  · rw [mem_singleton.1 hd]
    exact hc

theorem Json.Fits.comma (h : json.Fits size) : (json.note .comma).Fits size :=
  ⟨h.acc, h.tok, by rw [insts_note_comma]; exact h.told⟩

theorem Json.Fits.colon (h : json.Fits size) : (json.note .colon).Fits size :=
  ⟨h.acc, h.tok, by rw [insts_note_colon]; exact h.told⟩

theorem Json.Fits.invoke (h : json.Fits size) (hstr : InstFits size (inst, str))
    (heq : json.invoke instcb inst str = .ok json') : json'.Fits size := by
  rw [invoke_eq_ok heq]
  refine ⟨h.acc, h.tok, ?_⟩
  rw [insts_note, forall_mem_append, forall_mem_singleton]
  exact ⟨h.told, hstr⟩

theorem Json.Fits.invokeData (h : json.Fits size)
    (heq : invokeDataInst instcb json inst = .ok json') : json'.Fits size := by
  have hstr (inst : Inst) : InstFits size (inst, some json.tok) := by
    rintro s ⟨⟩
    exact h.tok
  unfold invokeDataInst at heq
  split at heq
  · split at heq
    · exact h.invoke (hstr _) heq
    · cases heq
  · exact h.invoke (hstr _) heq

/-! ## Steps -/

def Fitting (size : WcharSize) (r : Except Stop (Bool × Json)) : Prop :=
  ∀ consumed json, r = .ok (consumed, json) → json.Fits size

theorem Fitting.ok {consumed : Bool} (h : json.Fits size) :
    Fitting size (.ok (consumed, json)) := by
  rintro _ _ ⟨⟩
  exact h

theorem Fitting.error {e : Stop} : Fitting size (.error e) := by
  rintro _ _ ⟨⟩

theorem Fitting.bind {x : Except Stop Json} {consumed : Bool}
    (h : ∀ json, x = .ok json → json.Fits size) :
    Fitting size (x >>= fun json => .ok (consumed, json)) := by
  intro consumed' json' heq
  obtain ⟨json, hx, heq⟩ := bind_eq_ok.1 heq
  cases heq
  exact h _ hx

theorem escapeDigit_fits (radix : UInt32) (digit : Option UInt32) (escaped digitCount : ℕ)
    (hacc : size.Fits acc) :
    size.Fits (escapeDigit size radix digit escaped digitCount acc).acc := by
  unfold escapeDigit
  split
  · split <;> exact fits_store _
  · exact hacc

theorem Fitting.escape {value : ℕ → ℕ → UInt32 → State}
    (hvalue : ∀ escaped digitCount acc, (value escaped digitCount acc).acc = acc)
    (h : json.Fits size) {e : Escape} (he : size.Fits e.acc) (escaped : ℕ) :
    Fitting size (.ok (json.escape value escaped e)) := by
  cases e with
  | more digitCount acc => exact .ok (h.setTop (by rwa [hvalue]))
  | done consumed digitCount acc => exact .ok ((h.setTop (by rwa [hvalue])).addChar he)

theorem startEscape_fits {escaped : ℕ} (h : startEscape c = some (escaped, acc)) :
    size.Fits acc := by
  have hzero : size.Fits 0 := fits_ascii (by decide)
  unfold startEscape at h
  split_ifs at h with hc
  · cases h
    apply fits_ascii
    have hhigh := UInt32.le_iff_toNat_le.1 hc.2
    rw [UInt32.lt_iff_toNat_lt, UInt32.toNat_sub_of_le _ _ hc.1]
    change c.toNat ≤ 56 at hhigh
    change c.toNat - 48 < 128
    omega
  all_goals
    cases h
    exact hzero

theorem unescape_fits (hc : size.Fits c) : size.Fits (unescape c) := by
  unfold unescape
  split_ifs
  all_goals first | exact fits_ascii (by decide) | exact hc

section Handlers

variable {escaped digitCount : ℕ} (h : json.Fits ctype.size) (hc : ctype.size.Fits c)
include h hc

theorem handleStringValueChar_fits (hacc : ctype.size.Fits acc) :
    Fitting ctype.size (handleStringValueChar ctype instcb escaped digitCount acc json c) := by
  unfold handleStringValueChar
  split
  · exact .escape (fun _ _ _ => rfl) h (escapeDigit_fits _ _ _ _ hacc) _
  split
  · exact .escape (fun _ _ _ => rfl) h (escapeDigit_fits _ _ _ _ hacc) _
  split
  · split
    · exact .ok (h.setTop (startEscape_fits ‹_›))
    · exact .ok (.addChar (h.setTop hacc) (unescape_fits hc))
  split
  · exact .ok (h.setTop hacc)
  split
  · exact .bind fun _ => h.pop.invokeData
  · exact .ok (h.addChar hc)

theorem handleCharacterValueChar_fits (hacc : ctype.size.Fits acc) :
    Fitting ctype.size (handleCharacterValueChar ctype instcb escaped digitCount acc json c) := by
  have hfirst :
      Fitting ctype.size (handleCharacterValue ctype instcb escaped digitCount acc json c) := by
    unfold handleCharacterValue
    split
    · have hoct := escapeDigit_fits 8 (octDigit c) escaped digitCount hacc
      split
      · rename_i heq
        rw [heq] at hoct
        exact .escape (fun _ _ _ => rfl) h (escapeDigit_fits _ _ _ _ hoct) _
      · exact .escape (fun _ _ _ => rfl) h hoct _
    split
    · exact .escape (fun _ _ _ => rfl) h (escapeDigit_fits _ _ _ _ hacc) _
    split
    · split
      · exact .ok (h.setTop (startEscape_fits ‹_›))
      · exact .ok (.addChar (h.setTop hacc) (unescape_fits hc))
    split
    · exact .ok (h.setTop hacc)
    split
    · split
      · exact .error
      · exact .bind fun _ => h.pop.invokeData
    · exact .ok (h.addChar hc)
  intro consumed json' heq
  obtain ⟨⟨consumed', json₁⟩, hdone, heq⟩ := bind_eq_ok.1 heq
  dsimp only at heq
  split at heq
  · cases heq
  · cases heq
    exact hfirst _ _ hdone

theorem handleNumericValueChar_fits (dotted : Bool) :
    Fitting ctype.size (handleNumericValueChar ctype instcb dotted json c) := by
  unfold handleNumericValueChar
  split
  · exact .ok (h.addChar hc)
  split
  · exact .ok (.setTop (h.addChar hc) (fits_ascii (by decide)))
  split
  · exact .error
  · exact .bind fun _ => h.pop.invokeData

theorem handleWordValueChar_fits :
    Fitting ctype.size (handleWordValueChar ctype instcb json c) := by
  unfold handleWordValueChar
  split
  · exact .ok (h.addChar hc)
  split
  · exact .error
  · exact .bind fun _ => h.pop.invokeData

omit hc in
theorem startContainer_fits :
    Fitting ctype.size (startArray instcb json) ∧ Fitting ctype.size (startDic instcb json) := by
  have hnone (inst : Inst) : InstFits ctype.size (inst, none) := by rintro s ⟨⟩
  constructor
  · exact .bind fun _ => (h.push (fits_ascii (by decide))).invoke (hnone _)
  · exact .bind fun _ => (h.push (fits_ascii (by decide))).invoke (hnone _)

omit hc in
theorem startValue_fits (text : String) :
    Fitting ctype.size (startValue ctype instcb text json c) := by
  have hzero : ctype.size.Fits 0 := fits_ascii (by decide)
  unfold startValue
  split
  · exact .ok (.clearToken (h.push hzero))
  split
  · exact .ok (.clearToken (h.push hzero))
  split
  · exact .ok (.clearToken (h.push hzero))
  split
  · exact .ok (.clearToken (h.push hzero))
  split
  · exact (startContainer_fits h).1
  split
  · exact (startContainer_fits h).2
  · exact .error

theorem handleState_fits : Fitting ctype.size (handleState ctype instcb json c) := by
  have hzero : ctype.size.Fits 0 := fits_ascii (by decide)
  have hnone (inst : Inst) : InstFits ctype.size (inst, none) := by rintro s ⟨⟩
  unfold handleState
  split
  · unfold handleStartChar
    split
    · exact (startContainer_fits h).1
    split
    · exact (startContainer_fits h).2
    split
    · exact .ok h
    · exact .error
  · unfold handleCharInArray
    split
    · intro consumed json' heq
      obtain ⟨json₁, hinvoke, heq⟩ := bind_eq_ok.1 heq
      cases heq
      exact (h.invoke (hnone _) hinvoke).pop
    split
    · split
      · exact .error
      · exact .ok (.comma (h.setTop hzero))
    split
    · exact .ok h
    split
    · exact .error
    · exact startValue_fits h _
  · unfold handleCharInDic
    split
    · intro consumed json' heq
      obtain ⟨json₁, hinvoke, heq⟩ := bind_eq_ok.1 heq
      cases heq
      exact (h.invoke (hnone _) hinvoke).pop
    split
    · split
      · exact .error
      · exact .ok (.colon (h.setTop hzero))
    split
    · split
      · exact .error
      · exact .ok (.comma (h.setTop hzero))
    split
    · exact .ok h
    split
    · exact .error
    split
    · exact .error
    · exact startValue_fits h _
  · exact handleWordValueChar_fits h hc
  · rename_i escaped digitCount acc _ hstack
    have hacc := h.acc (.inStringValue escaped digitCount acc) (by rw [hstack]; exact mem_cons_self)
    exact handleStringValueChar_fits h hc hacc
  · rename_i escaped digitCount acc _ hstack
    have hacc := h.acc (.inCharacterValue escaped digitCount acc)
      (by rw [hstack]; exact mem_cons_self)
    exact handleCharacterValueChar_fits h hc hacc
  · exact handleNumericValueChar_fits h hc _

theorem handleChar_fits (heq : handleChar ctype instcb json c = .ok json') :
    json'.Fits ctype.size := by
  have hstart (n : ℕ) {json : Json} (h : json.Fits ctype.size) {json' : Json}
      (heq : startOver ctype instcb n json c = .ok json') : json'.Fits ctype.size := by
    induction n generalizing json with
    | zero => cases heq
    | succ n ih =>
      obtain ⟨⟨consumed, json₁⟩, hstate, heq⟩ := bind_eq_ok.1 heq
      have h₁ := handleState_fits h hc _ _ hstate
      cases consumed with
      | true =>
        cases heq
        exact h₁
      | false => exact ih h₁ heq
  unfold handleChar at heq
  split at heq
  · split at heq
    · cases heq
      exact h
    · cases heq
  · exact hstart 2 h heq

end Handlers

theorem run_fits : ∀ {cs : List UInt32} {json json' : Json}, json.Fits ctype.size →
    (∀ c ∈ cs, ctype.size.Fits c) → run ctype instcb json cs = .ok json' → json'.Fits ctype.size
  | [], json, json', h, _, heq => by
    cases heq
    exact h
  | c :: cs, json, json', h, hcs, heq => by
    rw [run_cons] at heq
    obtain ⟨json₁, hc, heq⟩ := bind_eq_ok.1 heq
    obtain ⟨hfirst, hrest⟩ := forall_mem_cons.1 hcs
    exact run_fits (handleChar_fits h hfirst hc) hrest heq

/-! ## Documents -/

theorem ws_fits {ws : List UInt32} (h : Ws ws) : ∀ c ∈ ws, size.Fits c := by
  intro c hc
  apply fits_ascii
  rcases h c hc with rfl | rfl | rfl | rfl <;> decide

theorem hexDigit_ascii (h : hexDigit c = some acc) : c < 128 := by
  have hbound {lo hi : UInt32} (hc : lo ≤ c ∧ c ≤ hi) (hhi : hi < 128) : c < 128 :=
    UInt32.lt_of_le_of_lt hc.2 hhi
  unfold hexDigit at h
  split_ifs at h
  all_goals exact hbound ‹_› (by decide)

theorem body_fits {text s : List UInt32} (h : Body text s) (hs : ∀ c ∈ s, size.Fits c) :
    ∀ c ∈ text, size.Fits c := by
  have hslash : size.Fits '\\'.val := fits_ascii (by decide)
  induction h with
  | nil => exact hs
  | plain _ _ _ _ _ ih =>
    obtain ⟨hc, hs⟩ := forall_mem_cons.1 hs
    exact forall_mem_cons.2 ⟨hc, ih hs⟩
  | @escape c v text s hmem _ ih =>
    have hc : ∀ p ∈ escapes, p.1 < 128 := all_iff_forall_prop.1 (by decide)
    obtain ⟨-, hs⟩ := forall_mem_cons.1 hs
    exact forall_mem_cons.2 ⟨hslash, forall_mem_cons.2 ⟨fits_ascii (hc _ hmem), ih hs⟩⟩
  | unicode h₁ h₂ h₃ h₄ _ _ _ ih =>
    obtain ⟨-, hs⟩ := forall_mem_cons.1 hs
    simp only [forall_mem_cons]
    exact ⟨hslash, fits_ascii (by decide), fits_ascii (hexDigit_ascii h₁),
      fits_ascii (hexDigit_ascii h₂), fits_ascii (hexDigit_ascii h₃),
      fits_ascii (hexDigit_ascii h₄), ih hs⟩

theorem quoted_fits {text s : List UInt32} (h : Quoted text s) (hs : ∀ c ∈ s, size.Fits c) :
    ∀ c ∈ text, size.Fits c := by
  obtain ⟨body, hbody, rfl⟩ := h
  have hquote : size.Fits '\"'.val := fits_ascii (by decide)
  rw [forall_mem_cons, forall_mem_append, forall_mem_singleton]
  exact ⟨hquote, body_fits hbody hs, hquote⟩

mutual

theorem Value.fits (value : Value) {text : List UInt32} (htext : value.Text text)
    (h : ∀ p ∈ value.insts, InstFits size p) : ∀ c ∈ text, size.Fits c := by
  have hword (s : String) (hs : ∀ c ∈ chars s, c < 128) : ∀ c ∈ chars s, size.Fits c :=
    fun c hc => fits_ascii (hs c hc)
  match value with
  | .string s => exact quoted_fits htext (h _ (.head _) s rfl)
  | .number num =>
    obtain ⟨-, rfl⟩ := htext
    exact h _ (.head _) _ rfl
  | .null =>
    cases htext
    exact hword "null" (all_iff_forall_prop.1 (by decide))
  | .true =>
    cases htext
    exact hword "true" (all_iff_forall_prop.1 (by decide))
  | .false =>
    cases htext
    exact hword "false" (all_iff_forall_prop.1 (by decide))
  | .emptyArray | .emptyDic =>
    obtain ⟨ws, hws, rfl⟩ := htext
    rw [forall_mem_cons, forall_mem_append, forall_mem_singleton]
    exact ⟨fits_ascii (by decide), ws_fits hws, fits_ascii (by decide)⟩
  | .array values =>
    obtain ⟨body, hbody, rfl⟩ := htext
    rw [Value.insts, forall_mem_cons, forall_mem_append] at h
    rw [forall_mem_cons, forall_mem_append, forall_mem_singleton]
    exact ⟨fits_ascii (by decide), values.fits hbody h.2.1, fits_ascii (by decide)⟩
  | .dic members =>
    obtain ⟨body, hbody, rfl⟩ := htext
    rw [Value.insts, forall_mem_cons, forall_mem_append] at h
    rw [forall_mem_cons, forall_mem_append, forall_mem_singleton]
    exact ⟨fits_ascii (by decide), members.fits hbody h.2.1, fits_ascii (by decide)⟩

theorem Values.fits (values : Values) {text : List UInt32} (htext : values.Text text)
    (h : ∀ p ∈ values.insts, InstFits size p) : ∀ c ∈ text, size.Fits c := by
  match values with
  | .one value =>
    obtain ⟨front, t, back, hfront, ht, hback, rfl⟩ := htext
    simp only [forall_mem_append]
    exact ⟨ws_fits hfront, value.fits ht h, ws_fits hback⟩
  | .cons value values =>
    obtain ⟨front, t, back, rest, hfront, ht, hback, hrest, rfl⟩ := htext
    rw [Values.insts, forall_mem_append] at h
    simp only [forall_mem_append, forall_mem_cons]
    exact ⟨ws_fits hfront, value.fits ht h.1, ws_fits hback, fits_ascii (by decide),
      values.fits hrest h.2⟩

theorem Members.fits (members : Members) {text : List UInt32} (htext : members.Text text)
    (h : ∀ p ∈ members.insts, InstFits size p) : ∀ c ∈ text, size.Fits c := by
  match members with
  | .one key value =>
    obtain ⟨front, k, mid, mid', t, back, hfront, hk, hmid, hmid', ht, hback, rfl⟩ := htext
    rw [Members.insts, forall_mem_cons] at h
    simp only [forall_mem_append, forall_mem_cons]
    exact ⟨ws_fits hfront, quoted_fits hk (h.1 key rfl), ws_fits hmid, fits_ascii (by decide),
      ws_fits hmid', value.fits ht h.2, ws_fits hback⟩
  | .cons key value members =>
    obtain ⟨front, k, mid, mid', t, back, rest, hfront, hk, hmid, hmid', ht, hback, hrest, rfl⟩ :=
      htext
    rw [Members.insts, forall_mem_cons, forall_mem_append] at h
    simp only [forall_mem_append, forall_mem_cons]
    exact ⟨ws_fits hfront, quoted_fits hk (h.1 key rfl), ws_fits hmid, fits_ascii (by decide),
      ws_fits hmid', value.fits ht h.2.1, ws_fits hback, fits_ascii (by decide),
      members.fits hrest h.2.2⟩

end

theorem DocumentText.fits {root : Value} {text : List UInt32} (h : DocumentText root text)
    (hroot : ∀ p ∈ root.insts, InstFits size p) : ∀ c ∈ text, size.Fits c := by
  obtain ⟨-, front, t, back, hfront, ht, hback, rfl⟩ := h
  simp only [forall_mem_append]
  exact ⟨ws_fits hfront, root.fits ht hroot, ws_fits hback⟩

end Qse.JsonFeed
