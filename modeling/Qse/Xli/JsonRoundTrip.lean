import Qse.Xli.JsonTokens

/-!
# Reading back what was written in the JSON format

Of an object that is written, the reader makes an object with the same members.
-/

open List

namespace Qse.Xli.Json

variable {ctype : Ctype} {opt : Opt} {files : WString → Option (List ℕ)}

variable {ws rest : List ℕ} {val : Val} {atoms : List Atom} {key : WString} {xli xli₁ xli₂ : Reader}
  {fuel N : ℕ} {depth : ℤ}

theorem Spaces.append {ws' : List ℕ} (h : Spaces ctype ws) (h' : Spaces ctype ws') :
    Spaces ctype (ws ++ ws') := fun c hc => (mem_append.1 hc).elim (h c) (h' c)

theorem spaces_nil (ctype : Ctype) : Spaces ctype [] := fun _ h => nomatch h

theorem spaces_tabs (ctype : Ctype) (depth : ℤ) : Spaces ctype (tabs depth) := by
  intro c hc
  rw [tabs, mem_replicate] at hc
  rw [hc.2]
  exact ctype.space_ascii _ (by decide)

theorem spaces_line (ctype : Ctype) : Spaces ctype (wts "\n") := by
  intro c hc
  obtain rfl : c = wt '\n' := mem_singleton.1 hc
  exact ctype.space_ascii _ (by decide)

theorem spaces_space (ctype : Ctype) : Spaces ctype (wts " ") := by
  intro c hc
  obtain rfl : c = wt ' ' := mem_singleton.1 hc
  exact ctype.space_ascii _ (by decide)

theorem ends_ending (comma : Bool) (rest : List ℕ) : Ends (ending comma ++ rest) := by
  cases comma with
  | false => exact ⟨wt '\n', rest, rfl, .inr rfl⟩
  | true => exact ⟨wt ',', wt '\n' :: rest, rfl, .inl rfl⟩

def valueTypes : List TokType := [.dqstr, .nstr, .nil, .true, .false, .lbrace, .lbrack]

theorem exists_reads_valText {val : Val} (h : Expressible ctype val) (depth : ℤ) {rest : List ℕ}
    (hrest : Ends rest) :
    ∃ text rest₀ tok, valText opt depth val ++ rest = text ++ rest₀ ∧
      Reads ctype text rest₀ tok ∧ tok.type ∈ valueTypes ∧
      (tok.type = .dqstr → rest₀ = rest) := by
  match val with
  | .nil | .true | .false =>
    exact ⟨_, rest, _, rfl, reads_word ctype (by decide) hrest, by decide, fun _ => rfl⟩
  | .str first next =>
    rw [valText, strText]
    split
    · exact ⟨_, rest, _, rfl, reads_quoted ctype _ rest, by simp [valueTypes], fun _ => rfl⟩
    · rename_i hquote
      obtain ⟨hnstr, hnext⟩ : first.nstr = true ∧ next = [] := by simpa using hquote
      have hnum := h hnstr hnext
      rw [hnext, joined]
      exact ⟨_, rest, _, rfl, reads_numeral hnum hrest, by simp [valueTypes], fun _ => rfl⟩
  | .list false atoms =>
    exact ⟨[wt '{'], _, _, rfl, reads_op ctype (by decide) rfl _, by decide, by simp⟩
  | .list true atoms =>
    exact ⟨[wt '['], _, _, rfl, reads_op ctype (by decide) rfl _, by decide, by simp⟩

theorem isSome_next_valText (h : Expressible ctype val) (depth : ℤ) (hws : Spaces ctype ws)
    (hrest : Ends rest) :
    (next ctype (ws ++ (valText opt depth val ++ rest))).isSome = true := by
  obtain ⟨text, rest₀, tok, heq, hreads, -⟩ :=
    @exists_reads_valText ctype opt val h depth rest hrest
  rw [heq, next_reads hws hreads]
  rfl

theorem isSome_next_listText (h : Pairs ctype atoms) (arrayed : Bool) (depth : ℤ)
    {ws' close : List ℕ} {tok : Tok} (hws : Spaces ctype ws) (hws' : Spaces ctype ws')
    (hclose : Reads ctype close rest tok) :
    (next ctype (ws ++ (listText opt arrayed depth atoms ++ (ws' ++ (close ++ rest))))).isSome =
      true := by
  induction atoms with
  | nil =>
    have hnext := next_reads (hws.append hws') hclose
    rw [append_assoc] at hnext
    rw [listText, nil_append, hnext]
    rfl
  | cons atom atoms ih =>
    match atom with
    | .pair key ali tag val xtn =>
      rw [listText]
      split
      · have htabs := hws.append (spaces_tabs ctype depth)
        cases arrayed with
        | true =>
          simp only [Bool.not_true, Bool.false_eq_true, if_false, nil_append, append_assoc]
          rw [← append_assoc ws]
          exact isSome_next_valText h.1 depth htabs (ends_ending _ _)
        | false =>
          simp only [Bool.not_false, if_true, append_assoc]
          rw [← append_assoc ws, next_reads htabs (reads_quoted ctype key.chars _)]
          rfl
      · exact ih h.2

theorem readList_pair {xli₃ xli₄ : Reader} (htok : xli.tok = ⟨.dqstr, key.chars⟩)
    (hkey : eligible ctype opt (keys xli.list) key = true) (h₁ : getToken ctype opt xli = .ok xli₁)
    (hcolon : xli₁.tok.type = .colon) (h₂ : getToken ctype opt xli₁ = .ok xli₂)
    (h₃ : readValue ctype opt files fuel xli₂ = .ok (val, xli₃))
    (h₄ : getToken ctype opt (xli₃.insert (.pair key none none val 0)) = .ok xli₄) :
    readList ctype opt files (fuel + 1) xli =
      if xli₄.tok.type = .comma then getToken ctype opt xli₄ >>= readList ctype opt files fuel
      else .ok xli₄ := by
  rw [readList]
  simp only [htok, WString.of_chars, hkey, h₁, expect, hcolon, h₂, h₃, h₄, ok_bind]
  rfl

theorem readArray_element {index : ℕ} (h₁ : readValue ctype opt files fuel xli = .ok (val, xli₁))
    (h₂ : getToken ctype opt (xli₁.insert (.pair (indexKey index) none none val 0)) = .ok xli₂)
    (hclose : xli₂.tok.type = .comma ∨ xli₂.tok.type = .rbrack) :
    readArray ctype opt files (fuel + 1) index xli =
      if xli₂.tok.type = .comma then
        getToken ctype opt xli₂ >>= readArray ctype opt files fuel (index + 1)
      else .ok xli₂ := by
  rw [readArray]
  rcases hclose with hclose | hclose <;> simp [h₁, h₂, hclose, expect]

theorem readValue_object (htok : xli.tok.type = .lbrace) (h₁ : getToken ctype opt xli = .ok xli₁)
    (h₂ : readList ctype opt files fuel { xli₁ with list := [] } = .ok xli₂)
    (hclose : xli₂.tok.type = .rbrace) :
    readValue ctype opt files (fuel + 1) xli =
      .ok (.list false xli₂.list, { xli₂ with list := xli₁.list }) := by
  rw [readValue]
  simp only [htok, h₁, h₂, ok_bind, expect, hclose, if_true]

theorem readValue_empty (htok : xli.tok.type = .lbrack) (h₁ : getToken ctype opt xli = .ok xli₁)
    (hclose : xli₁.tok.type = .rbrack) :
    readValue ctype opt files (fuel + 1) xli = .ok (.list true [], xli₁) := by
  rw [readValue]
  simp only [htok, h₁, ok_bind, expect, hclose, if_true]

theorem readValue_array (htok : xli.tok.type = .lbrack) (h₁ : getToken ctype opt xli = .ok xli₁)
    (hopen : xli₁.tok.type ≠ .rbrack)
    (h₂ : readArray ctype opt files fuel 0 { xli₁ with list := [] } = .ok xli₂)
    (hclose : xli₂.tok.type = .rbrack) :
    readValue ctype opt files (fuel + 1) xli =
      .ok (.list true xli₂.list, { xli₂ with list := xli₁.list }) := by
  rw [readValue]
  simp only [htok, h₁, hopen, h₂, ok_bind, expect, hclose, if_true, if_false]

theorem readValue_ne_rbrack {p : Val × Reader}
    (h : readValue ctype opt files fuel xli = .ok p) : xli.tok.type ≠ .rbrack := by
  intro htok
  match fuel with
  | 0 => simp [readValue] at h
  | fuel + 1 => simp [readValue, htok] at h

theorem readArray_ne_rbrack {xli xli' : Reader} {fuel index : ℕ}
    (h : readArray ctype opt files fuel index xli = .ok xli') : xli.tok.type ≠ .rbrack := by
  match fuel with
  | 0 => simp [readArray] at h
  | fuel + 1 =>
    rw [readArray] at h
    match hval : readValue ctype opt files fuel xli with
    | .error e => simp [hval] at h
    | .ok p => exact readValue_ne_rbrack hval

theorem getToken_ending {xli : Reader} {atoms list : List Atom} {arrayed : Bool} {depth : ℤ}
    {ws close rest : List ℕ} {tok : Tok} (h : Pairs ctype atoms) (hws : Spaces ctype ws)
    (hclose : Reads ctype close rest tok) (hxli : At xli (ending (needComma opt atoms) ++
      (listText opt arrayed depth atoms ++ (ws ++ (close ++ rest)))) list) :
    ∃ xli₁, getToken ctype opt xli = .ok xli₁ ∧
      (members opt.writable atoms = [] ∧ xli₁.tok = tok ∧ At xli₁ rest list ∨
        members opt.writable atoms ≠ [] ∧ xli₁.tok.type = .comma ∧
        ∃ xli₂, getToken ctype opt xli₁ = .ok xli₂ ∧
          Ahead ctype xli₂ (wts "\n" ++
            (listText opt arrayed depth atoms ++ (ws ++ (close ++ rest)))) list) := by
  by_cases hempty : members opt.writable atoms = []
  · have hcomma : needComma opt atoms = false := by rw [needComma_eq h.ne_eof, hempty]; rfl
    rw [hcomma, listText_eq_nil hempty, nil_append] at hxli
    have hxli : At xli (wts "\n" ++ ws ++ (close ++ rest)) list := by
      rw [append_assoc]
      exact hxli
    obtain ⟨xli₁, heq, htok, hat⟩ := getToken_reads hxli ((spaces_line ctype).append hws) hclose
    exact ⟨xli₁, heq, .inl ⟨hempty, htok, hat⟩⟩
  · have hcomma : needComma opt atoms = true := by
      rw [needComma_eq h.ne_eof]
      simpa using hempty
    rw [hcomma] at hxli
    obtain ⟨xli₁, heq, htok, hat⟩ := @getToken_reads ctype opt xli [] [wt ','] _ _ list hxli
      (spaces_nil ctype) (reads_op ctype (by decide) rfl _)
    obtain ⟨xli₂, heq₂, hahead⟩ := @getToken_next ctype opt xli₁ _ list hat
      (isSome_next_listText h arrayed depth (spaces_line ctype) hws hclose)
    exact ⟨xli₁, heq, .inr ⟨hempty, by rw [htok], xli₂, heq₂, hahead⟩⟩

section Back

variable (ctype opt files)

def ValueBack (depth : ℤ) (val : Val) (N : ℕ) : Prop :=
  ∀ fuel ≥ N, ∀ (xli : Reader) (ws rest : List ℕ) (list : List Atom),
    Spaces ctype ws → Ends rest → Ahead ctype xli (ws ++ (valText opt depth val ++ rest)) list →
    ∃ val' xli', readValue ctype opt files fuel xli = .ok (val', xli') ∧ At xli' rest list ∧
      whole val' = shown opt.writable val

def PairsBack (depth : ℤ) (seen : List WString) (atoms : List Atom) (N : ℕ) : Prop :=
  ∀ fuel ≥ N, ∀ (xli : Reader) (ws ws' rest : List ℕ) (list : List Atom),
    Spaces ctype ws → Spaces ctype ws' → keys list = seen →
    Ahead ctype xli (ws ++ (listText opt false depth atoms ++ (ws' ++ ([wt '}'] ++ rest)))) list →
    ∃ xli' new, readList ctype opt files fuel xli = .ok xli' ∧ xli'.tok.type = .rbrace ∧
      At xli' rest (list ++ new) ∧ wholeMembers new = members opt.writable atoms

def ElementsBack (depth : ℤ) (atoms : List Atom) (N : ℕ) : Prop :=
  ∀ fuel ≥ N, ∀ (xli : Reader) (ws ws' rest : List ℕ) (list : List Atom) (index : ℕ),
    Spaces ctype ws → Spaces ctype ws' →
    Ahead ctype xli (ws ++ (listText opt true depth atoms ++ (ws' ++ ([wt ']'] ++ rest)))) list →
    ∃ xli' new, readArray ctype opt files fuel index xli = .ok xli' ∧
      xli'.tok.type = .rbrack ∧ At xli' rest (list ++ new) ∧
      (wholeMembers new).map Prod.snd = (members opt.writable atoms).map Prod.snd

end Back

theorem valueBack_token {val val' : Val} {depth : ℤ} {type : TokType} {name : List ℕ}
    (htext : ∀ rest, Ends rest → Reads ctype (valText opt depth val) rest ⟨type, name⟩)
    (hread : ∀ fuel xli, xli.tok = ⟨type, name⟩ →
      readValue ctype opt files (fuel + 1) xli = .ok (val', xli))
    (hshown : whole val' = shown opt.writable val) : ValueBack ctype opt files depth val 1 := by
  intro fuel hfuel xli ws rest list hws hrest hxli
  obtain ⟨htok, hat⟩ := hxli.reads hws (htext rest hrest)
  obtain ⟨fuel, rfl⟩ := Nat.exists_eq_add_of_le' hfuel
  exact ⟨val', xli, hread fuel xli htok, hat, hshown⟩

theorem valueBack_str {first : Str} {next : List Str} (h : Expressible ctype (.str first next))
    (depth : ℤ) : ValueBack ctype opt files depth (.str first next) 1 := by
  by_cases hquote : (!first.nstr || !next.isEmpty) = true
  · refine @valueBack_token ctype opt files _ (.str ⟨joined first next, none, false⟩ []) depth
      .dqstr (joined first next) (fun rest _ => ?_) (fun fuel xli htok => ?_) ?_
    · rw [valText, strText, if_pos hquote]
      exact reads_quoted ctype _ rest
    · rw [readValue]
      simp only [htok]
    · simp [whole, shown, hquote, joined]
  · obtain ⟨hnstr, hnext⟩ : first.nstr = true ∧ next = [] := by simpa using hquote
    refine @valueBack_token ctype opt files _ (.str ⟨first.ptr, none, true⟩ []) depth
      .nstr first.ptr (fun rest hrest => ?_) (fun fuel xli htok => ?_) ?_
    · rw [valText, strText, if_neg hquote, hnext, joined]
      exact reads_numeral (h hnstr hnext) hrest
    · rw [readValue]
      simp only [htok]
    · simp [whole, shown, hnstr, hnext, joined]

theorem reads_cbrac (ctype : Ctype) (arrayed : Bool) (rest : List ℕ) :
    Reads ctype (cbrac arrayed) rest
      ⟨if arrayed then .rbrack else .rbrace, [if arrayed then wt ']' else wt '}']⟩ := by
  cases arrayed <;> exact reads_op ctype (by decide) rfl _

theorem Ahead.bracket {arrayed : Bool} {list : List Atom} (h : Pairs ctype atoms)
    (hws : Spaces ctype ws)
    (hxli : Ahead ctype xli (ws ++ (valText opt depth (.list arrayed atoms) ++ rest)) list) :
    xli.tok.type = (if arrayed then .lbrack else .lbrace) ∧
      ∃ xli₁, getToken ctype opt xli = .ok xli₁ ∧
        Ahead ctype xli₁ (wts "\n" ++ (listText opt arrayed (depth + 1) atoms ++
          (tabs depth ++ (cbrac arrayed ++ rest)))) list := by
  have htext : valText opt depth (.list arrayed atoms) ++ rest =
      [if arrayed then wt '[' else wt '{'] ++ (wts "\n" ++
        (listText opt arrayed (depth + 1) atoms ++ (tabs depth ++ (cbrac arrayed ++ rest)))) := by
    simp only [valText, append_assoc]
    cases arrayed <;> rfl
  rw [htext] at hxli
  have hreads (rest : List ℕ) : Reads ctype [if arrayed then wt '[' else wt '{'] rest
      ⟨if arrayed then .lbrack else .lbrace, [if arrayed then wt '[' else wt '{']⟩ := by
    cases arrayed <;> exact reads_op ctype (by decide) rfl _
  obtain ⟨htok, hat⟩ := hxli.reads hws (hreads _)
  obtain ⟨xli₁, heq₁, hahead⟩ := @getToken_next ctype opt xli _ list hat
    (isSome_next_listText h arrayed (depth + 1) (spaces_line ctype) (spaces_tabs ctype depth)
      (reads_cbrac ctype arrayed rest))
  exact ⟨by rw [htok], xli₁, heq₁, hahead⟩

theorem exists_fuel {N fuel : ℕ} (h : N + 1 ≤ fuel) : ∃ n, fuel = n + 1 :=
  Nat.exists_eq_add_of_le' (Nat.le_of_add_left_le h)

theorem valueBack_object (h : Pairs ctype atoms)
    (hatoms : PairsBack ctype opt files (depth + 1) [] atoms N) :
    ValueBack ctype opt files depth (.list false atoms) (N + 1) := by
  intro fuel hfuel xli ws rest list hws hrest hxli
  obtain ⟨fuel, rfl⟩ := exists_fuel hfuel
  obtain ⟨htok, xli₁, heq₁, hahead⟩ := hxli.bracket h hws
  obtain ⟨xli₂, new, heq₂, hclose, hat₂, hnew⟩ := hatoms fuel (by omega) _ _ _ _ []
    (spaces_line ctype) (spaces_tabs ctype depth) rfl (hahead.relist [])
  refine ⟨.list false xli₂.list, _, readValue_object htok heq₁ heq₂ hclose, ?_, ?_⟩
  · rw [← hahead.list]
    exact hat₂.relist _
  · rw [hat₂.list, nil_append]
    simp [whole, shown, hnew]

theorem valueBack_array (h : Pairs ctype atoms) (hatoms : members opt.writable atoms ≠ [] →
      ElementsBack ctype opt files (depth + 1) atoms N) :
    ValueBack ctype opt files depth (.list true atoms) (N + 1) := by
  intro fuel hfuel xli ws rest list hws hrest hxli
  obtain ⟨fuel, rfl⟩ := exists_fuel hfuel
  obtain ⟨htok, xli₁, heq₁, hahead⟩ := hxli.bracket h hws
  by_cases hempty : members opt.writable atoms = []
  · rw [listText_eq_nil hempty, nil_append, ← append_assoc] at hahead
    obtain ⟨htok₁, hat₁⟩ := hahead.reads
      ((spaces_line ctype).append (spaces_tabs ctype depth)) (reads_cbrac ctype true rest)
    refine ⟨.list true [], xli₁, readValue_empty htok heq₁ (by rw [htok₁]; rfl), hat₁, ?_⟩
    simp [whole, shown, hempty, members]
  · obtain ⟨xli₂, new, heq₂, hclose, hat₂, hnew⟩ := hatoms hempty fuel (by omega) _ _ _ _ [] 0
      (spaces_line ctype) (spaces_tabs ctype depth) (hahead.relist [])
    have hopen : xli₁.tok.type ≠ .rbrack :=
      @readArray_ne_rbrack ctype opt files { xli₁ with list := [] } xli₂ fuel 0 heq₂
    refine ⟨.list true xli₂.list, _, readValue_array htok heq₁ hopen heq₂ hclose, ?_, ?_⟩
    · rw [← hahead.list]
      exact hat₂.relist _
    · rw [hat₂.list, nil_append]
      simp [whole, shown, hnew]

theorem pairsBack_empty (hempty : members opt.writable atoms = []) (depth : ℤ)
    (seen : List WString) : PairsBack ctype opt files depth seen atoms 1 := by
  intro fuel hfuel xli ws ws' rest list hws hws' _ hxli
  obtain ⟨fuel, rfl⟩ := Nat.exists_eq_add_of_le' hfuel
  rw [listText_eq_nil hempty, nil_append, ← append_assoc] at hxli
  obtain ⟨htok, hat⟩ := hxli.reads (hws.append hws') (reads_op ctype (by decide) rfl _)
  refine ⟨xli, [], ?_, by rw [htok], by simpa using hat, ?_⟩
  · rw [readList]
    simp only [htok]
  · rw [hempty]
    rfl

theorem Ahead.pair {key : WString} {ali tag : Option WString} {val : Val} {xtn : ℕ}
    {rest : List Atom} {depth : ℤ} {xli : Reader} {ws ws' text : List ℕ} {list : List Atom}
    (hw : opt.writable (.pair key ali tag val xtn) = true) (h : Expressible ctype val)
    (hws : Spaces ctype ws)
    (hxli : Ahead ctype xli (ws ++ (listText opt false depth (.pair key ali tag val xtn :: rest) ++
      (ws' ++ ([wt '}'] ++ text)))) list) :
    xli.tok = ⟨.dqstr, key.chars⟩ ∧ ∃ xli₁ xli₂, getToken ctype opt xli = .ok xli₁ ∧
      xli₁.tok.type = .colon ∧ getToken ctype opt xli₁ = .ok xli₂ ∧
      Ahead ctype xli₂ (wts " " ++ (valText opt depth val ++ (ending (needComma opt rest) ++
        (listText opt false depth rest ++ (ws' ++ ([wt '}'] ++ text)))))) list := by
  rw [listText, if_pos hw] at hxli
  simp only [Bool.not_false, if_true, append_assoc] at hxli
  rw [← append_assoc ws] at hxli
  obtain ⟨htok, hat⟩ :=
    hxli.reads (hws.append (spaces_tabs ctype depth)) (reads_quoted ctype key.chars _)
  obtain ⟨xli₁, heq₁, htok₁, hat₁⟩ := @getToken_reads ctype opt xli [] [wt ':']
    (wts " " ++ _) _ list hat (spaces_nil ctype) (reads_op ctype (by decide) rfl _)
  obtain ⟨xli₂, heq₂, hahead₂⟩ := @getToken_next ctype opt xli₁ _ list hat₁
    (isSome_next_valText h depth (spaces_space ctype) (ends_ending _ _))
  exact ⟨htok, xli₁, xli₂, heq₁, by rw [htok₁], heq₂, hahead₂⟩

theorem pairsBack_pair {ali tag : Option WString} {xtn : ℕ} {rest : List Atom} {seen : List WString}
    {N' : ℕ} (hw : opt.writable (.pair key ali tag val xtn) = true)
    (hkey : eligible ctype opt seen key = true)
    (h : Pairs ctype (.pair key ali tag val xtn :: rest))
    (hval : ValueBack ctype opt files depth val N)
    (hrest : PairsBack ctype opt files depth (seen ++ [key]) rest N') :
    PairsBack ctype opt files depth seen (.pair key ali tag val xtn :: rest)
      (N + N' + 1) := by
  intro fuel hfuel xli ws ws' text list hws hws' hseen hxli
  obtain ⟨fuel, rfl⟩ := exists_fuel hfuel
  obtain ⟨htok, xli₁, xli₂, heq₁, hcolon, heq₂, hahead₂⟩ := @Ahead.pair ctype opt key ali tag val
    xtn rest depth xli ws ws' text list hw h.1 hws hxli
  rw [← hseen, ← hxli.list] at hkey
  obtain ⟨val', xli₃, heq₃, hat₃, hshown⟩ :=
    hval fuel (by omega) xli₂ _ _ list (spaces_space ctype) (ends_ending _ _) hahead₂
  -- what follows the pair
  obtain ⟨xli₄, heq₄, hnext⟩ := @getToken_ending ctype opt _ rest _ false depth ws' [wt '}'] text _
    h.2 hws' (reads_op ctype (by decide) rfl _) (hat₃.insert (.pair key none none val' 0))
  have hstep := readList_pair htok hkey heq₁ hcolon heq₂ heq₃ heq₄
  rw [members, if_pos hw]
  rcases hnext with ⟨hempty, htok₄, hat₄⟩ | ⟨-, hcomma, xli₅, heq₅, hahead₅⟩
  · refine ⟨xli₄, [.pair key none none val' 0], ?_, by rw [htok₄], hat₄, ?_⟩
    · rw [hstep, htok₄]
      rfl
    · simp [wholeMembers, members, hempty, ← hshown]
  · obtain ⟨xli₆, new, heq₆, hclose, hat₆, hnew⟩ := hrest fuel (by omega) xli₅ _ _ _ _
      (spaces_line ctype) hws' (by rw [← hseen]; simp [keys_eq, wholeMembers, members_append,
        members]) hahead₅
    refine ⟨xli₆, .pair key none none val' 0 :: new, ?_, hclose, by simpa using hat₆, ?_⟩
    · rw [hstep, if_pos hcomma, heq₅]
      exact heq₆
    · simp [wholeMembers, members, hnew, ← hshown]

theorem elementsBack_element {ali tag : Option WString} {xtn : ℕ} {rest : List Atom} {N' : ℕ}
    (hw : opt.writable (.pair key ali tag val xtn) = true)
    (h : Pairs ctype (.pair key ali tag val xtn :: rest))
    (hval : ValueBack ctype opt files depth val N)
    (hrest : members opt.writable rest ≠ [] → ElementsBack ctype opt files depth rest N') :
    ElementsBack ctype opt files depth (.pair key ali tag val xtn :: rest) (N + N' + 1) := by
  intro fuel hfuel xli ws ws' text list index hws hws' hxli
  obtain ⟨fuel, rfl⟩ := exists_fuel hfuel
  rw [listText, if_pos hw] at hxli
  simp only [Bool.not_true, Bool.false_eq_true, if_false, nil_append, append_assoc] at hxli
  rw [← append_assoc ws] at hxli
  obtain ⟨val', xli₁, heq₁, hat₁, hshown⟩ := hval fuel (by omega) xli _ _ list
    (hws.append (spaces_tabs ctype depth)) (ends_ending _ _) hxli
  obtain ⟨xli₂, heq₂, hnext⟩ := @getToken_ending ctype opt _ rest _ true depth ws' [wt ']'] text _
    h.2 hws' (reads_op ctype (by decide) rfl _)
    (hat₁.insert (.pair (indexKey index) none none val' 0))
  rw [members, if_pos hw]
  rcases hnext with ⟨hempty, htok₂, hat₂⟩ | ⟨hne, hcomma, xli₃, heq₃, hahead₃⟩
  · have hstep := readArray_element heq₁ heq₂ (.inr (by rw [htok₂]))
    refine ⟨xli₂, [.pair (indexKey index) none none val' 0], ?_, by rw [htok₂], hat₂, ?_⟩
    · rw [hstep, htok₂]
      rfl
    · simp [wholeMembers, members, hempty, ← hshown]
  · have hstep := readArray_element heq₁ heq₂ (.inl hcomma)
    obtain ⟨xli₄, new, heq₄, hclose, hat₄, hnew⟩ := hrest hne fuel (by omega) xli₃ _ _ _ _
      (index + 1) (spaces_line ctype) hws' hahead₃
    refine ⟨xli₄, .pair (indexKey index) none none val' 0 :: new, ?_, hclose,
      by simpa using hat₄, ?_⟩
    · rw [hstep, if_pos hcomma, heq₃]
      exact heq₄
    · simp [wholeMembers, members, hnew, ← hshown]

mutual

theorem exists_valueBack {val : Val} (h : Expressible ctype val)
    (hd : distinct ctype opt val = true) (depth : ℤ) :
    ∃ N, ValueBack ctype opt files depth val N := by
  match val with
  | .nil | .true | .false =>
    exact ⟨1, valueBack_token (fun _ => reads_word ctype (by decide))
      (fun fuel xli htok => by rw [readValue]; simp only [htok]; rfl) rfl⟩
  | .str first next => exact ⟨1, valueBack_str h depth⟩
  | .list false atoms =>
    obtain ⟨N, hatoms⟩ := @exists_pairsBack atoms h [] hd (depth + 1)
    exact ⟨N + 1, valueBack_object h hatoms⟩
  | .list true atoms =>
    obtain ⟨N, hatoms⟩ := @exists_elementsBack atoms h [] hd (depth + 1)
    exact ⟨N + 1, valueBack_array h hatoms⟩

theorem exists_pairsBack {atoms : List Atom} (h : Pairs ctype atoms) {seen : List WString}
    (hd : distinctFrom ctype opt false seen atoms = true) (depth : ℤ) :
    ∃ N, PairsBack ctype opt files depth seen atoms N := by
  match atoms with
  | [] => exact ⟨1, pairsBack_empty rfl depth seen⟩
  | .pair key ali tag val xtn :: rest =>
    rw [distinctFrom] at hd
    split at hd
    · rename_i hw
      simp only [Bool.false_or, Bool.and_eq_true] at hd
      obtain ⟨N, hval⟩ := exists_valueBack h.1 hd.1.2 depth
      obtain ⟨N', hrest⟩ := exists_pairsBack h.2 hd.2 depth
      exact ⟨N + N' + 1, pairsBack_pair hw hd.1.1 h hval hrest⟩
    · rename_i hw
      obtain ⟨N, hrest⟩ := exists_pairsBack h.2 hd depth
      refine ⟨N, ?_⟩
      simpa only [PairsBack, listText, members, if_neg hw] using hrest

theorem exists_elementsBack {atoms : List Atom} (h : Pairs ctype atoms) {seen : List WString}
    (hd : distinctFrom ctype opt true seen atoms = true) (depth : ℤ) :
    ∃ N, members opt.writable atoms ≠ [] → ElementsBack ctype opt files depth atoms N := by
  match atoms with
  | [] => exact ⟨0, fun hne => absurd rfl hne⟩
  | .pair key ali tag val xtn :: rest =>
    rw [distinctFrom] at hd
    split at hd
    · rename_i hw
      simp only [Bool.true_or, Bool.true_and, Bool.and_eq_true] at hd
      obtain ⟨N, hval⟩ := exists_valueBack h.1 hd.1 depth
      obtain ⟨N', hrest⟩ := exists_elementsBack h.2 hd.2 depth
      exact ⟨N + N' + 1, fun _ => elementsBack_element hw h hval hrest⟩
    · rename_i hw
      obtain ⟨N, hrest⟩ := exists_elementsBack h.2 hd depth
      refine ⟨N, ?_⟩
      simpa only [ElementsBack, listText, members, if_neg hw] using hrest

end

end Qse.Xli.Json
