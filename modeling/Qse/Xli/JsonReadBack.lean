import Qse.Xli.JsonRoundTrip

/-!
# When a tree is read back from the JSON format

Refused are a key that is repeated, if the reader is told to refuse it, and an array at the root.
-/

open List

namespace Qse.Xli.Json

section Refused

variable (ctype : Ctype) (opt : Opt) (files : WString → Option (List ℕ))

def ValueRefused (depth : ℤ) (val : Val) (N : ℕ) : Prop :=
  ∀ fuel ≥ N, ∀ (xli : Reader) (ws rest : List ℕ) (list : List Atom),
    Spaces ctype ws → Ends rest → Ahead ctype xli (ws ++ (valText opt depth val ++ rest)) list →
    ∃ e, readValue ctype opt files fuel xli = .error e

def PairsRefused (depth : ℤ) (seen : List WString) (atoms : List Atom) (N : ℕ) : Prop :=
  ∀ fuel ≥ N, ∀ (xli : Reader) (ws ws' rest : List ℕ) (list : List Atom),
    Spaces ctype ws → Spaces ctype ws' → keys list = seen →
    Ahead ctype xli (ws ++ (listText opt false depth atoms ++ (ws' ++ ([wt '}'] ++ rest)))) list →
    ∃ e, readList ctype opt files fuel xli = .error e

def ElementsRefused (depth : ℤ) (atoms : List Atom) (N : ℕ) : Prop :=
  ∀ fuel ≥ N, ∀ (xli : Reader) (ws ws' rest : List ℕ) (list : List Atom) (index : ℕ),
    Spaces ctype ws → Spaces ctype ws' →
    Ahead ctype xli (ws ++ (listText opt true depth atoms ++ (ws' ++ ([wt ']'] ++ rest)))) list →
    xli.tok.type ≠ .rbrack ∧ ∃ e, readArray ctype opt files fuel index xli = .error e

end Refused

variable {ctype : Ctype} {opt : Opt} {files : WString → Option (List ℕ)}

variable {seen : List WString} {atoms rest : List Atom} {depth : ℤ} {N xtn : ℕ} {key : WString}
  {ali tag : Option WString} {val : Val}

theorem members_ne_nil {arrayed : Bool} (h : distinctFrom ctype opt arrayed seen atoms = false) :
    members opt.writable atoms ≠ [] := by
  induction atoms generalizing seen with
  | nil => simp [distinctFrom] at h
  | cons atom atoms ih =>
    cases atom with
    | pair key ali tag val xtn =>
      rw [distinctFrom] at h
      rw [members]
      split at h
      · rename_i hw
        simp [hw]
      · rename_i hw
        rw [if_neg hw]
        exact ih h
    | text | file | eof => exact ih h

theorem valueRefused_object (h : Pairs ctype atoms)
    (hatoms : PairsRefused ctype opt files (depth + 1) [] atoms N) :
    ValueRefused ctype opt files depth (.list false atoms) (N + 1) := by
  intro fuel hfuel xli ws rest list hws hrest hxli
  obtain ⟨fuel, rfl⟩ := exists_fuel hfuel
  obtain ⟨htok, xli₁, heq₁, hahead⟩ := hxli.bracket h hws
  obtain ⟨e, heq₂⟩ := hatoms fuel (by omega) _ _ _ _ []
    (spaces_line ctype) (spaces_tabs ctype depth) rfl (hahead.relist [])
  refine ⟨e, ?_⟩
  rw [readValue]
  simp [htok, heq₁, heq₂]

theorem valueRefused_array (h : Pairs ctype atoms)
    (hatoms : ElementsRefused ctype opt files (depth + 1) atoms N) :
    ValueRefused ctype opt files depth (.list true atoms) (N + 1) := by
  intro fuel hfuel xli ws rest list hws hrest hxli
  obtain ⟨fuel, rfl⟩ := exists_fuel hfuel
  obtain ⟨htok, xli₁, heq₁, hahead⟩ := hxli.bracket h hws
  obtain ⟨hopen, e, heq₂⟩ := hatoms fuel (by omega) _ _ _ _ [] 0
    (spaces_line ctype) (spaces_tabs ctype depth) (hahead.relist [])
  have hopen : xli₁.tok.type ≠ .rbrack := hopen
  refine ⟨e, ?_⟩
  rw [readValue]
  simp [htok, heq₁, hopen, heq₂]

theorem Ahead.element {key : WString} {ali tag : Option WString} {val : Val} {xtn : ℕ}
    {rest : List Atom} {depth : ℤ} {xli : Reader} {ws ws' text : List ℕ} {list : List Atom}
    (hw : opt.writable (.pair key ali tag val xtn) = true) (h : Expressible ctype val)
    (hws : Spaces ctype ws)
    (hxli : Ahead ctype xli (ws ++ (listText opt true depth (.pair key ali tag val xtn :: rest) ++
      (ws' ++ ([wt ']'] ++ text)))) list) :
    xli.tok.type ∈ valueTypes ∧
      Ahead ctype xli (ws ++ tabs depth ++ (valText opt depth val ++ (ending (needComma opt rest) ++
        (listText opt true depth rest ++ (ws' ++ ([wt ']'] ++ text)))))) list := by
  rw [listText, if_pos hw] at hxli
  simp only [Bool.not_true, Bool.false_eq_true, if_false, nil_append, append_assoc] at hxli
  rw [← append_assoc ws] at hxli
  obtain ⟨first, rest₀, tok, heq, hreads, htype, -⟩ := @exists_reads_valText ctype opt val h depth
    _ (ends_ending (needComma opt rest) (listText opt true depth rest ++
      (ws' ++ ([wt ']'] ++ text))))
  refine ⟨?_, hxli⟩
  rw [heq] at hxli
  rw [(hxli.reads (hws.append (spaces_tabs ctype depth)) hreads).1]
  exact htype

section

variable (hw : opt.writable (.pair key ali tag val xtn) = true)
include hw

theorem pairsRefused_key (hkey : eligible ctype opt seen key = false) (h : Expressible ctype val) :
    PairsRefused ctype opt files depth seen (.pair key ali tag val xtn :: rest) 1 := by
  intro fuel hfuel xli ws ws' text list hws hws' hseen hxli
  obtain ⟨fuel, rfl⟩ := Nat.exists_eq_add_of_le' hfuel
  obtain ⟨htok, -⟩ := @Ahead.pair ctype opt key ali tag val xtn rest depth xli ws ws' text list hw
    h hws hxli
  rw [← hseen, ← hxli.list] at hkey
  refine ⟨.err .eexist, ?_⟩
  rw [readList]
  simp [htok, WString.of_chars, hkey]

theorem pairsRefused_value (h : Expressible ctype val)
    (hval : ValueRefused ctype opt files depth val N) :
    PairsRefused ctype opt files depth seen (.pair key ali tag val xtn :: rest) (N + 1) := by
  intro fuel hfuel xli ws ws' text list hws hws' hseen hxli
  obtain ⟨fuel, rfl⟩ := exists_fuel hfuel
  obtain ⟨htok, xli₁, xli₂, heq₁, hcolon, heq₂, hahead₂⟩ := @Ahead.pair ctype opt key ali tag val
    xtn rest depth xli ws ws' text list hw h hws hxli
  obtain ⟨e, heq₃⟩ := hval fuel (by omega) xli₂ _ _ list (spaces_space ctype) (ends_ending _ _)
    hahead₂
  rw [readList]
  cases hkey : eligible ctype opt (keys xli.list) key with
  | false => exact ⟨.err .eexist, by simp [htok, WString.of_chars, hkey]⟩
  | true => exact ⟨e, by simp [htok, WString.of_chars, hkey, heq₁, expect, hcolon, heq₂, heq₃]⟩

theorem pairsRefused_rest {N' : ℕ} (hkey : eligible ctype opt seen key = true)
    (h : Pairs ctype (.pair key ali tag val xtn :: rest))
    (hval : ValueBack ctype opt files depth val N) (hne : members opt.writable rest ≠ [])
    (hrest : PairsRefused ctype opt files depth (seen ++ [key]) rest N') :
    PairsRefused ctype opt files depth seen (.pair key ali tag val xtn :: rest) (N + N' + 1) := by
  intro fuel hfuel xli ws ws' text list hws hws' hseen hxli
  obtain ⟨fuel, rfl⟩ := exists_fuel hfuel
  obtain ⟨htok, xli₁, xli₂, heq₁, hcolon, heq₂, hahead₂⟩ := @Ahead.pair ctype opt key ali tag val
    xtn rest depth xli ws ws' text list hw h.1 hws hxli
  rw [← hseen, ← hxli.list] at hkey
  obtain ⟨val', xli₃, heq₃, hat₃, -⟩ :=
    hval fuel (by omega) xli₂ _ _ list (spaces_space ctype) (ends_ending _ _) hahead₂
  obtain ⟨xli₄, heq₄, hnext⟩ := @getToken_ending ctype opt _ rest _ false depth ws' [wt '}'] text _
    h.2 hws' (reads_op ctype (by decide) rfl _) (hat₃.insert (.pair key none none val' 0))
  have hstep := readList_pair htok hkey heq₁ hcolon heq₂ heq₃ heq₄
  rcases hnext with ⟨hempty, -⟩ | ⟨-, hcomma, xli₅, heq₅, hahead₅⟩
  · exact absurd hempty hne
  · obtain ⟨e, heq₆⟩ := hrest fuel (by omega) xli₅ _ _ _ _ (spaces_line ctype) hws'
      (by rw [← hseen]; simp [keys_eq, wholeMembers, members_append, members]) hahead₅
    refine ⟨e, ?_⟩
    rw [hstep, if_pos hcomma, heq₅]
    exact heq₆

theorem elementsRefused_value (h : Expressible ctype val)
    (hval : ValueRefused ctype opt files depth val N) :
    ElementsRefused ctype opt files depth (.pair key ali tag val xtn :: rest) (N + 1) := by
  intro fuel hfuel xli ws ws' text list index hws hws' hxli
  obtain ⟨fuel, rfl⟩ := exists_fuel hfuel
  obtain ⟨htype, hxli⟩ := @Ahead.element ctype opt key ali tag val xtn rest depth xli ws ws' text
    list hw h hws hxli
  obtain ⟨e, heq⟩ := hval fuel (by omega) xli _ _ list (hws.append (spaces_tabs ctype depth))
    (ends_ending _ _) hxli
  refine ⟨fun hr => absurd (hr ▸ htype) (by decide), e, ?_⟩
  rw [readArray, heq, error_bind]

theorem elementsRefused_rest {N' : ℕ} (h : Pairs ctype (.pair key ali tag val xtn :: rest))
    (hval : ValueBack ctype opt files depth val N) (hne : members opt.writable rest ≠ [])
    (hrest : ElementsRefused ctype opt files depth rest N') :
    ElementsRefused ctype opt files depth (.pair key ali tag val xtn :: rest) (N + N' + 1) := by
  intro fuel hfuel xli ws ws' text list index hws hws' hxli
  obtain ⟨fuel, rfl⟩ := exists_fuel hfuel
  obtain ⟨htype, hxli⟩ := @Ahead.element ctype opt key ali tag val xtn rest depth xli ws ws' text
    list hw h.1 hws hxli
  obtain ⟨val', xli₁, heq₁, hat₁, -⟩ := hval fuel (by omega) xli _ _ list
    (hws.append (spaces_tabs ctype depth)) (ends_ending _ _) hxli
  obtain ⟨xli₂, heq₂, hnext⟩ := @getToken_ending ctype opt _ rest _ true depth ws' [wt ']'] text _
    h.2 hws' (reads_op ctype (by decide) rfl _)
    (hat₁.insert (.pair (indexKey index) none none val' 0))
  rcases hnext with ⟨hempty, -⟩ | ⟨-, hcomma, xli₃, heq₃, hahead₃⟩
  · exact absurd hempty hne
  · obtain ⟨-, e, heq₄⟩ := hrest fuel (by omega) xli₃ _ _ _ _ (index + 1) (spaces_line ctype) hws'
      hahead₃
    refine ⟨fun hr => absurd (hr ▸ htype) (by decide), e, ?_⟩
    rw [readArray_element heq₁ heq₂ (.inl hcomma), if_pos hcomma, heq₃]
    exact heq₄

end

mutual

theorem exists_valueRefused {val : Val} (h : Expressible ctype val)
    (hd : distinct ctype opt val = false) (depth : ℤ) :
    ∃ N, ValueRefused ctype opt files depth val N := by
  match val with
  | .list false atoms =>
    obtain ⟨N, hatoms⟩ := @exists_pairsRefused atoms h [] hd (depth + 1)
    exact ⟨N + 1, valueRefused_object h hatoms⟩
  | .list true atoms =>
    obtain ⟨N, hatoms⟩ := @exists_elementsRefused atoms h [] hd (depth + 1)
    exact ⟨N + 1, valueRefused_array h hatoms⟩

theorem exists_pairsRefused {atoms : List Atom} (h : Pairs ctype atoms) {seen : List WString}
    (hd : distinctFrom ctype opt false seen atoms = false) (depth : ℤ) :
    ∃ N, PairsRefused ctype opt files depth seen atoms N := by
  match atoms with
  | .pair key ali tag val xtn :: rest =>
    rw [distinctFrom] at hd
    split at hd
    · rename_i hw
      cases hkey : eligible ctype opt seen key with
      | false => exact ⟨1, pairsRefused_key hw hkey h.1⟩
      | true =>
        cases hval : distinct ctype opt val with
        | false =>
          obtain ⟨N, hval⟩ := exists_valueRefused h.1 hval depth
          exact ⟨N + 1, pairsRefused_value hw h.1 hval⟩
        | true =>
          simp only [hkey, hval, Bool.false_or, Bool.true_and] at hd
          obtain ⟨N, hval⟩ := exists_valueBack h.1 hval depth
          obtain ⟨N', hrest⟩ := exists_pairsRefused h.2 hd depth
          exact ⟨N + N' + 1, pairsRefused_rest hw hkey h hval (members_ne_nil hd) hrest⟩
    · rename_i hw
      obtain ⟨N, hrest⟩ := exists_pairsRefused h.2 hd depth
      refine ⟨N, ?_⟩
      simpa only [PairsRefused, listText, if_neg hw] using hrest

theorem exists_elementsRefused {atoms : List Atom} (h : Pairs ctype atoms) {seen : List WString}
    (hd : distinctFrom ctype opt true seen atoms = false) (depth : ℤ) :
    ∃ N, ElementsRefused ctype opt files depth atoms N := by
  match atoms with
  | .pair key ali tag val xtn :: rest =>
    rw [distinctFrom] at hd
    split at hd
    · rename_i hw
      cases hval : distinct ctype opt val with
      | false =>
        obtain ⟨N, hval⟩ := exists_valueRefused h.1 hval depth
        exact ⟨N + 1, elementsRefused_value hw h.1 hval⟩
      | true =>
        simp only [hval, Bool.true_or, Bool.true_and] at hd
        obtain ⟨N, hval⟩ := exists_valueBack h.1 hval depth
        obtain ⟨N', hrest⟩ := exists_elementsRefused h.2 hd depth
        exact ⟨N + N' + 1, elementsRefused_rest hw h hval (members_ne_nil hd) hrest⟩
    · rename_i hw
      obtain ⟨N, hrest⟩ := exists_elementsRefused h.2 hd depth
      refine ⟨N, ?_⟩
      simpa only [ElementsRefused, listText, if_neg hw] using hrest

end

/-! ## The text has no CR -/

variable {ctype : Ctype} {opt : Opt} {files : WString → Option (List ℕ)}

theorem notMem_escape (c : ℕ) : wt '\r' ∉ escape c := by
  by_cases hle : c ≤ 0x1F
  · have hall : ∀ c < 32, wt '\r' ∉ escape c := by decide
    exact hall c (by omega)
  rw [escape]
  split
  · rename_i hc
    rcases hc with rfl | rfl | rfl | rfl | rfl | rfl | rfl <;> decide
  · rename_i hc
    rw [mem_singleton]
    exact fun h => hc (by simp [← h])

theorem notMem_quoted (s : List ℕ) : wt '\r' ∉ quoted s := by
  simp only [quoted, cons_append, mem_cons, mem_append, mem_flatMap,
    not_mem_nil, or_false, not_or, not_exists, not_and]
  exact ⟨by decide, fun c _ => notMem_escape c, by decide⟩

theorem notMem_tabs (depth : ℤ) : wt '\r' ∉ tabs depth := by
  rw [tabs, mem_replicate]
  exact fun h => absurd h.2 (by decide)

theorem notMem_ending (comma : Bool) : wt '\r' ∉ ending comma := by
  cases comma <;> decide

theorem notMem_obrac (arrayed : Bool) : wt '\r' ∉ obrac arrayed := by
  cases arrayed <;> decide

theorem notMem_cbrac (arrayed : Bool) : wt '\r' ∉ cbrac arrayed := by
  cases arrayed <;> decide

theorem Numeral.notMem {s : List ℕ} (h : Numeral ctype s) : wt '\r' ∉ s := by
  obtain ⟨sign, digits, rfl, hsign, -, hdigits⟩ := h
  intro hmem
  rcases mem_append.1 hmem with hmem | hmem
  · rcases hsign with rfl | rfl <;> exact absurd hmem (by decide)
  · have hdigit := hdigits _ hmem
    rw [ctype.digit_ascii _ (by decide)] at hdigit
    exact absurd hdigit (by decide)

mutual

theorem notMem_valText {val : Val} (h : Expressible ctype val) (depth : ℤ) :
    wt '\r' ∉ valText opt depth val := by
  match val with
  | .nil | .true | .false => simp only [valText]; decide
  | .str first next =>
    rw [valText, strText]
    split
    · exact notMem_quoted _
    · rename_i hquote
      obtain ⟨hnstr, hnext⟩ : first.nstr = true ∧ next = [] := by simpa using hquote
      rw [hnext, joined]
      exact (h hnstr hnext).notMem
  | .list arrayed atoms =>
    have hatoms := @notMem_listText atoms h arrayed (depth + 1)
    simp only [valText, mem_append, not_or]
    exact ⟨notMem_obrac _, hatoms, notMem_tabs _, notMem_cbrac _⟩

theorem notMem_listText {atoms : List Atom} (h : Pairs ctype atoms) (arrayed : Bool)
    (depth : ℤ) : wt '\r' ∉ listText opt arrayed depth atoms := by
  match atoms with
  | [] => simp [listText]
  | .pair key ali tag val xtn :: rest =>
    have hval := @notMem_valText val h.1 depth
    have hrest := @notMem_listText rest h.2 arrayed depth
    have hkey : wt '\r' ∉ (if !arrayed then quoted key.chars ++ wts ": " else []) := by
      split
      · rw [mem_append, not_or]
        exact ⟨notMem_quoted _, by decide⟩
      · simp
    rw [listText]
    split
    · simp only [mem_append, not_or] at hkey ⊢
      exact ⟨notMem_tabs _, hkey, hval, notMem_ending _, hrest⟩
    · exact hrest

end

theorem delivered_rootText {pairs : List Atom} (h : Pairs ctype pairs) (arrayed : Bool) :
    delivered none (rootText opt arrayed pairs) = rootText opt arrayed pairs := by
  have hmem : wt '\r' ∉ rootText opt arrayed pairs := by
    simp only [rootText, mem_append, not_or]
    exact ⟨notMem_obrac _, notMem_listText h arrayed 1, notMem_cbrac _, by decide⟩
  exact delivered_eq hmem (by simp) (by simp)

/-! ## The root of the text -/

theorem getToken_eof {xli : Reader} {list : List Atom} (h : At xli (wts "\n") list) :
    ∃ xli', getToken ctype opt xli = .ok xli' ∧ xli'.tok.type = .eof ∧ xli'.list = list := by
  have hskip (flags : TextFlags) : xli.skip ctype opt.trait.keepText flags = xli.seek [] := by
    have hspace := spaces_line ctype (wt '\n') (mem_singleton.2 rfl)
    have hblanks : skipBlanks ctype opt.trait.keepText flags none (wts "\n") = ([], []) := by
      rw [show wts "\n" = [wt '\n'] from rfl, skipBlanks, if_pos hspace, skipBlanks]
    rw [Reader.skip, h.rest, hblanks]
    rfl
  refine ⟨{ xli.seek [] with tok := ⟨.eof, wts "<EOF>"⟩ }, ?_, rfl, h.list⟩
  rw [getToken, h.prev, getTokenFrom, hskip]
  rfl

theorem readjson_open {arrayed : Bool} {pairs : List Atom} (h : Pairs ctype pairs) :
    ∃ xli, Ahead ctype xli (wts "\n" ++ (listText opt arrayed 1 pairs ++
        ([] ++ (cbrac arrayed ++ wts "\n")))) [bracket arrayed true] ∧
      ∀ fuel, readjson ctype opt files fuel (rootText opt arrayed pairs) =
        (readList ctype opt files fuel xli >>= closeRoot ctype opt arrayed) >>= endOfText := by
  have hat : At { Reader.init (rootText opt arrayed pairs) with status := true }
      ([] ++ ([if arrayed then wt '[' else wt '{'] ++ (wts "\n" ++ (listText opt arrayed 1 pairs ++
        ([] ++ (cbrac arrayed ++ wts "\n")))))) [] := by
    refine ⟨rfl, ?_, rfl⟩
    rw [Reader.init, delivered_rootText h, rootText]
    cases arrayed <;> rfl
  obtain ⟨xli₁, heq₁, htok₁, hat₁⟩ := @getToken_reads ctype opt _ _ _ _
    ⟨if arrayed then .lbrack else .lbrace, [if arrayed then wt '[' else wt '{']⟩ _ hat
    (spaces_nil ctype) (by cases arrayed <;> exact reads_op ctype (by decide) rfl _)
  have hat₂ : At { xli₁.insert (bracket arrayed true) with status := false }
      (wts "\n" ++ (listText opt arrayed 1 pairs ++ ([] ++ (cbrac arrayed ++ wts "\n"))))
      [bracket arrayed true] := (hat₁.insert (bracket arrayed true)).restatus false
  obtain ⟨xli₂, heq₂, hahead₂⟩ := @getToken_next ctype opt _ _ _ hat₂
    (isSome_next_listText h arrayed 1 (spaces_line ctype) (spaces_nil ctype)
      (reads_cbrac ctype arrayed _))
  refine ⟨xli₂, hahead₂, fun fuel => ?_⟩
  rw [readjson, readRootList, heq₁]
  cases arrayed <;> simp only [bracket] at heq₂ <;> simp [htok₁] <;> simp at heq₂ <;> simp [heq₂]

theorem closeRoot_eq {xli : Reader} {list : List Atom} {arrayed : Bool}
    (hclose : xli.tok.type = if arrayed then .rbrack else .rbrace) (h : At xli (wts "\n") list) :
    closeRoot ctype opt arrayed xli >>= endOfText =
      .ok (arrayed, list ++ [.text (marker arrayed false) (.of xli.tok.name)]) := by
  obtain ⟨xli', heq, htok, hlist⟩ := @getToken_eof ctype opt _ _
    ((h.insert (.text (marker arrayed false) (.of xli.tok.name))).restatus true)
  have hexpect : expect (if arrayed then .rbrack else .rbrace)
      (if arrayed then .erbrack else .erbrace) xli = .ok () := by
    rw [expect, if_pos hclose]
  rw [closeRoot, hexpect]
  simp only [ok_bind, heq, endOfText, htok, hlist]

theorem readjson_object {pairs : List Atom} (h : Pairs ctype pairs)
    (hd : distinctFrom ctype opt false [] pairs = true) :
    ∃ N, ∀ fuel ≥ N, ∃ atoms,
      readjson ctype opt files fuel (rootText opt false pairs) = .ok (false, atoms) ∧
        wholeMembers atoms = members opt.writable pairs := by
  obtain ⟨N, hpairs⟩ := @exists_pairsBack ctype opt files pairs h [] hd 1
  obtain ⟨xli, hahead, hread⟩ := @readjson_open ctype opt files false pairs h
  refine ⟨N, fun fuel hfuel => ?_⟩
  obtain ⟨xli', new, heq, hclose, hat, hnew⟩ := hpairs fuel hfuel xli _ _ _ _
    (spaces_line ctype) (spaces_nil ctype) rfl hahead
  have hend := @closeRoot_eq ctype opt xli' _ false hclose hat
  rw [← ok_bind xli' (closeRoot ctype opt false), ← heq, ← hread] at hend
  refine ⟨_, hend, ?_⟩
  simpa [wholeMembers, members_append, bracket, members] using hnew

theorem readjson_object_refused {pairs : List Atom} (h : Pairs ctype pairs)
    (hd : distinctFrom ctype opt false [] pairs = false) :
    ∃ N, ∀ fuel ≥ N, ∃ e, readjson ctype opt files fuel (rootText opt false pairs) = .error e := by
  obtain ⟨N, hpairs⟩ := @exists_pairsRefused ctype opt files pairs h [] hd 1
  obtain ⟨xli, hahead, hread⟩ := @readjson_open ctype opt files false pairs h
  refine ⟨N, fun fuel hfuel => ?_⟩
  obtain ⟨e, heq⟩ := hpairs fuel hfuel xli _ _ _ _
    (spaces_line ctype) (spaces_nil ctype) rfl hahead
  exact ⟨e, by rw [hread, heq]; rfl⟩

theorem readjson_empty {pairs : List Atom} (h : Pairs ctype pairs)
    (hempty : members opt.writable pairs = []) (fuel : ℕ) : ∃ atoms,
    readjson ctype opt files (fuel + 1) (rootText opt true pairs) = .ok (true, atoms) ∧
      wholeMembers atoms = [] := by
  obtain ⟨xli, hahead, hread⟩ := @readjson_open ctype opt files true pairs h
  rw [listText_eq_nil hempty, nil_append, nil_append] at hahead
  obtain ⟨htok, hat⟩ := hahead.reads (spaces_line ctype) (reads_cbrac ctype true _)
  have hlist : readList ctype opt files (fuel + 1) xli = .ok xli := by
    rw [readList]
    simp [htok]
  have hend := @closeRoot_eq ctype opt xli _ true (by rw [htok]) hat
  rw [← ok_bind xli (closeRoot ctype opt true), ← hlist, ← hread] at hend
  refine ⟨_, hend, ?_⟩
  simp [wholeMembers, bracket, members]

theorem readList_value {xli : Reader} (htype : xli.tok.type ∈ valueTypes)
    (hquoted : xli.tok.type ≠ .dqstr) (fuel : ℕ) :
    readList ctype opt files (fuel + 1) xli = .ok xli := by
  rw [readList]
  simp only [valueTypes, mem_cons, not_mem_nil, or_false] at htype
  rcases htype with h | h | h | h | h | h | h
  · exact absurd h hquoted
  all_goals simp only [h]

theorem readList_quoted {rest : List Atom} (h : Pairs ctype rest) {xli : Reader}
    {ws text : List ℕ} {list : List Atom} (hws : Spaces ctype ws) (hlist : keys list = [])
    (hquoted : xli.tok.type = .dqstr) (hat : At xli (ending (needComma opt rest) ++
      (listText opt true 1 rest ++ (ws ++ ([wt ']'] ++ text)))) list) (fuel : ℕ) :
    readList ctype opt files (fuel + 1) xli = .error (.err .ecolon) := by
  obtain ⟨xli₁, heq₁, hnext⟩ := @getToken_ending ctype opt xli rest list true 1 ws [wt ']'] text
    ⟨.rbrack, [wt ']']⟩ h hws (reads_op ctype (by decide) rfl _) hat
  have hcolon : xli₁.tok.type ≠ .colon := by
    rcases hnext with ⟨-, htok, -⟩ | ⟨-, htok, -⟩
    · rw [htok]
      decide
    · rw [htok]
      decide
  have hkey : eligible ctype opt (keys xli.list) (.of xli.tok.name) = true := by
    simp [hat.list, hlist, eligible]
  rw [readList]
  simp [hquoted, hkey, heq₁, expect, hcolon]

theorem readList_elements {pairs : List Atom} (h : Pairs ctype pairs)
    (hne : members opt.writable pairs ≠ []) {xli : Reader} {ws ws' text : List ℕ}
    {list : List Atom} (hws : Spaces ctype ws) (hws' : Spaces ctype ws') (hlist : keys list = [])
    (hxli : Ahead ctype xli (ws ++ (listText opt true 1 pairs ++ (ws' ++ ([wt ']'] ++ text)))) list)
    (fuel : ℕ) :
    ∃ e, readList ctype opt files (fuel + 1) xli >>= closeRoot ctype opt true = .error e := by
  induction pairs with
  | nil => exact absurd rfl hne
  | cons pair rest ih =>
    match pair with
    | .pair key ali tag val xtn =>
      by_cases hw : opt.writable (.pair key ali tag val xtn) = true
      · obtain ⟨-, hahead⟩ := @Ahead.element ctype opt key ali tag val xtn rest 1 xli ws ws' text
          list hw h.1 hws hxli
        obtain ⟨first, rest₀, tok, heq, hreads, htype, hquoted⟩ :=
          @exists_reads_valText ctype opt val h.1 1 _ (ends_ending (needComma opt rest)
            (listText opt true 1 rest ++ (ws' ++ ([wt ']'] ++ text))))
        rw [heq] at hahead
        obtain ⟨htok, hat⟩ := hahead.reads (hws.append (spaces_tabs ctype 1)) hreads
        rw [← htok] at htype hquoted
        by_cases hq : xli.tok.type = .dqstr
        · rw [hquoted hq] at hat
          exact ⟨_, by rw [readList_quoted h.2 hws' hlist hq hat]; rfl⟩
        · have hclose : xli.tok.type ≠ .rbrack := fun hr => absurd (hr ▸ htype) (by decide)
          refine ⟨.err .erbrack, ?_⟩
          rw [readList_value htype hq, ok_bind, closeRoot]
          simp [expect, hclose]
      · rw [members, if_neg hw] at hne
        rw [listText, if_neg hw] at hxli
        exact ih h.2 hne hxli

theorem readjson_array_refused {pairs : List Atom} (h : Pairs ctype pairs)
    (hne : members opt.writable pairs ≠ []) (fuel : ℕ) :
    ∃ e, readjson ctype opt files (fuel + 1) (rootText opt true pairs) = .error e := by
  obtain ⟨xli, hahead, hread⟩ := @readjson_open ctype opt files true pairs h
  obtain ⟨e, heq⟩ := @readList_elements ctype opt files pairs h hne xli _ _ _ _
    (spaces_line ctype) (spaces_nil ctype) rfl hahead fuel
  exact ⟨e, by rw [hread, heq]; rfl⟩

/-! ## When a tree is read back -/

/-- The text that is written is read, and what is read is the tree without the pairs that are
not written. -/
def ReadsBack (ctype : Ctype) (opt : Opt) (files : WString → Option (List ℕ)) (arrayed : Bool)
    (atoms : List Atom) : Prop :=
  ∃ text, writejson opt arrayed atoms = some [⟨none, text, 0⟩] ∧
    ∃ N, ∀ fuel ≥ N, ∃ atoms', readjson ctype opt files fuel text = .ok (arrayed, atoms') ∧
      whole (.list arrayed atoms') = shown opt.writable (.list arrayed atoms)

theorem distinctFrom_append_text (arrayed : Bool) (seen : List WString) (atoms : List Atom)
    (flags : TextFlags) (ptr : WString) :
    distinctFrom ctype opt arrayed seen (atoms ++ [.text flags ptr]) =
      distinctFrom ctype opt arrayed seen atoms := by
  induction atoms generalizing seen with
  | nil => simp [distinctFrom]
  | cons atom atoms ih => cases atom <;> simp only [cons_append, distinctFrom, ih]

theorem Root.distinctFrom_eq {arrayed : Bool} {pairs atoms : List Atom}
    (h : Root ctype arrayed pairs atoms) (opt : Opt) :
    distinctFrom ctype opt arrayed [] atoms = distinctFrom ctype opt arrayed [] pairs := by
  cases h with
  | bare => rfl
  | framed => rw [cons_append, bracket, distinctFrom, bracket, distinctFrom_append_text]

theorem distinctFrom_of_empty {arrayed : Bool} {seen : List WString} {atoms : List Atom}
    (h : members opt.writable atoms = []) : distinctFrom ctype opt arrayed seen atoms = true := by
  by_contra hd
  exact members_ne_nil (by simpa using hd) h

/-- A tree is read back if and only if its root is an object or an array without an element
that is written, and the reader accepts the keys of every object. -/
theorem readsBack_iff {arrayed : Bool} {pairs atoms : List Atom}
    (h : Root ctype arrayed pairs atoms) :
    ReadsBack ctype opt files arrayed atoms ↔
      (arrayed = true → members opt.writable atoms = []) ∧
        distinctFrom ctype opt arrayed [] atoms = true := by
  have hwrite := writejson_eq h opt
  rw [h.members_eq, h.distinctFrom_eq]
  constructor
  · rintro ⟨text, htext, N, hread⟩
    obtain rfl : rootText opt arrayed pairs = text := by simpa [hwrite] using htext
    cases arrayed with
    | true =>
      have hempty : members opt.writable pairs = [] := by
        by_contra hne
        obtain ⟨atoms', heq, -⟩ := hread (N + 1) (by omega)
        obtain ⟨e, herr⟩ := @readjson_array_refused ctype opt files pairs h.pairs hne N
        rw [heq] at herr
        cases herr
      exact ⟨fun _ => hempty, distinctFrom_of_empty hempty⟩
    | false =>
      refine ⟨by simp, ?_⟩
      by_contra hd
      obtain ⟨N', hrefused⟩ :=
        @readjson_object_refused ctype opt files pairs h.pairs (by simpa using hd)
      obtain ⟨atoms', heq, -⟩ := hread (N + N') (by omega)
      obtain ⟨e, herr⟩ := hrefused (N + N') (by omega)
      rw [heq] at herr
      cases herr
  · rintro ⟨hempty, hd⟩
    refine ⟨_, hwrite, ?_⟩
    cases arrayed with
    | true =>
      refine ⟨1, fun fuel hfuel => ?_⟩
      obtain ⟨fuel, rfl⟩ := Nat.exists_eq_add_of_le' hfuel
      obtain ⟨atoms', heq, hmembers⟩ :=
        @readjson_empty ctype opt files pairs h.pairs (hempty rfl) fuel
      exact ⟨atoms', heq, by simp [whole, shown, hmembers, h.members_eq, hempty]⟩
    | false =>
      obtain ⟨N, hread⟩ := @readjson_object ctype opt files pairs h.pairs hd
      refine ⟨N, fun fuel hfuel => ?_⟩
      obtain ⟨atoms', heq, hmembers⟩ := hread fuel hfuel
      exact ⟨atoms', heq, by simp [whole, shown, hmembers, h.members_eq]⟩

/-- The trait is not set and there is no callback, no schema and no file to include. -/
def plainOpt : Opt := ⟨Trait.none, none, fun _ => none⟩

def numberPair (key : String) (number : String) : Atom :=
  .pair (.of (wts key)) none none (.str ⟨wts number, none, true⟩ []) 0

/-- No key may be repeated, and pairs with a mark in their extension are not written. -/
def pickyOpt : Opt where
  trait := { Trait.none with keyNoDup := true }
  pairWritable := some fun
    | .pair _ _ _ _ xtn => xtn = 0
    | _ => true
  schema _ := none

/-- A string with a quotation mark, an array in an object, and another pair with the first key,
which is not written -/
def pickyPairs : List Atom :=
  [.pair (.of (wts "a")) none none (.str ⟨wts "x\"y", none, false⟩ []) 0,
    .pair (.of (wts "b")) none none (.list false [.pair (.of (wts "c")) none none
      (.list true [numberPair "0" "-1", .pair (.of (wts "1")) none none .true 0]) 0]) 0,
    .pair (.of (wts "a")) none none .nil 1]

theorem pairs_picky : Pairs Ctype.ascii pickyPairs :=
  ⟨nofun, ⟨⟨⟨fun _ _ => ⟨wts "-", wts "1", rfl, .inr rfl, by decide, by decide⟩, trivial, trivial⟩,
    trivial⟩, trivial, trivial⟩⟩

theorem readsBack_iff_picky : ReadsBack Ctype.ascii pickyOpt (fun _ => none) false pickyPairs :=
  (readsBack_iff (.bare pairs_picky)).2 ⟨by simp, by decide⟩

/-- An array of a number is not read back. -/
theorem not_readsBack_array : Root Ctype.ascii true [numberPair "0" "12"] [numberPair "0" "12"] ∧
    ¬ReadsBack Ctype.ascii plainOpt (fun _ => none) true [numberPair "0" "12"] := by
  have hpairs : Pairs Ctype.ascii [numberPair "0" "12"] :=
    ⟨fun _ _ => ⟨[], wts "12", rfl, .inl rfl, by decide, by decide⟩, trivial⟩
  refine ⟨.bare hpairs, ?_⟩
  rintro ⟨text, htext, N, hread⟩
  have hwrite : writejson plainOpt true [numberPair "0" "12"] =
      some [⟨none, rootText plainOpt true [numberPair "0" "12"], 0⟩] :=
        writejson_eq (.bare hpairs) _
  obtain rfl : rootText plainOpt true [numberPair "0" "12"] = text := by simpa [hwrite] using htext
  obtain ⟨atoms', heq, -⟩ := hread (N + 1) (by omega)
  obtain ⟨e, herr⟩ := @readjson_array_refused Ctype.ascii plainOpt (fun _ => none) _ hpairs
    (cons_ne_nil _ _) N
  rw [herr] at heq
  cases heq

end Qse.Xli.Json
