import Qse.Xli.JsonModel

/-!
# Reading what was written in the JSON format, token by token

The reader takes a token at a time, one ahead of what it works on. For each token that the
writer puts out it is shown what `get_token` makes of it.
-/

open List

namespace Qse.Xli.Json

variable {ctype : Ctype} {opt : Opt}

theorem hexDigit_upper : ∀ n < 16,
    hexDigit (if n < 10 then wt '0' + n else wt 'A' + (n - 10)) = some n := by
  decide

theorem dqstr_hex {d v n : ℕ} (hd : hexDigit d = some v) (hn : n < 3) (acc : ℕ) (name t : List ℕ) :
    dqstr (.hex n acc) name (d :: t) = dqstr (.hex (n + 1) (acc * 16 + v)) name t := by
  rw [dqstr, hd]
  exact if_neg (by omega)

theorem dqstr_hex_last {d v : ℕ} (hd : hexDigit d = some v) (acc : ℕ) (name t : List ℕ) :
    dqstr (.hex 3 acc) name (d :: t) = dqstr .no (name ++ [acc * 16 + v]) t := by
  rw [dqstr, hd]
  exact if_pos (by omega)

theorem dqstr_escape (c : ℕ) (name t : List ℕ) :
    dqstr .no name (escape c ++ t) = dqstr .no (name ++ [c]) t := by
  rw [escape]
  split
  · rename_i hc
    rcases hc with rfl | rfl | rfl | rfl | rfl | rfl | rfl <;> rfl
  rename_i hc
  split
  · rename_i hle
    have hhigh : hexDigit (wt '0' + c / 16) = some (c / 16) := by
      have h := hexDigit_upper (c / 16) (by omega)
      rwa [if_pos (by omega)] at h
    have hlow := hexDigit_upper (c % 16) (by omega)
    have hzero : hexDigit (wt '0') = some 0 := rfl
    calc dqstr .no name _
        = dqstr (.hex 0 0) name (wt '0' :: wt '0' :: (wt '0' + c / 16) ::
            (if c % 16 < 10 then wt '0' + c % 16 else wt 'A' + (c % 16 - 10)) :: t) := rfl
      _ = dqstr .no (name ++ [(((0 * 16 + 0) * 16 + 0) * 16 + c / 16) * 16 + c % 16]) t := by
          rw [dqstr_hex hzero (by omega), dqstr_hex hzero (by omega), dqstr_hex hhigh (by omega),
            dqstr_hex_last hlow]
      _ = dqstr .no (name ++ [c]) t := by
          rw [show (((0 * 16 + 0) * 16 + 0) * 16 + c / 16) * 16 + c % 16 = c by omega]
  · have hb : c ≠ wt '\\' := fun h => hc (.inl h)
    have hq : c ≠ wt '\"' := fun h => hc (.inr (.inl h))
    rw [singleton_append, dqstr, if_neg hb, if_neg hq]

theorem dqstr_quoted (s name rest : List ℕ) :
    dqstr .no name (s.flatMap escape ++ wt '\"' :: rest) = .ok (name ++ s, rest) := by
  induction s generalizing name with
  | nil => simp [dqstr, (by decide : wt '\"' ≠ wt '\\')]
  | cons c s ih =>
    rw [flatMap_cons, append_assoc, dqstr_escape, ih, append_assoc]
    rfl

def Reads (ctype : Ctype) (text rest : List ℕ) (tok : Tok) : Prop :=
  ∃ c t, text ++ rest = c :: t ∧ ctype.isSpace c = false ∧ c ≠ wt '#' ∧
    token ctype c t = .ok (tok, rest)

theorem ops_plain : ∀ c < 128, (ops.lookup c).isSome = true →
    (c == 32 || (9 ≤ c && c ≤ 13)) = false ∧
    ((65 ≤ c && c ≤ 90) || (97 ≤ c && c ≤ 122)) = false ∧ (48 ≤ c && c ≤ 57) = false ∧
    c ≠ wt '#' ∧ c ≠ wt '@' ∧ c ≠ wt '_' ∧ c ≠ wt '-' ∧ c ≠ wt '\'' ∧ c ≠ wt '\"' := by
  decide

theorem reads_op (ctype : Ctype) {c : ℕ} (hlt : c < 128) {type : TokType}
    (h : ops.lookup c = some type) (rest : List ℕ) : Reads ctype [c] rest ⟨type, [c]⟩ := by
  obtain ⟨hspace, halpha, hdigit, hhash, hat, hscore, hminus, hquote, hdquote⟩ :=
    ops_plain c hlt (by rw [h]; rfl)
  rw [← ctype.space_ascii c hlt] at hspace
  rw [← ctype.alpha_ascii c hlt] at halpha
  rw [← ctype.digit_ascii c hlt] at hdigit
  refine ⟨c, rest, rfl, hspace, hhash, ?_⟩
  unfold token
  rw [if_neg hat, if_neg (by simp [hscore, halpha]), if_neg hminus, if_neg (by simp [hdigit]),
    if_neg hquote, if_neg hdquote, h]

theorem reads_quoted (ctype : Ctype) (s rest : List ℕ) :
    Reads ctype (quoted s) rest ⟨.dqstr, s⟩ := by
  have hspace : ctype.isSpace (wt '\"') = false := ctype.space_ascii _ (by decide)
  have halpha : ctype.isAlpha (wt '\"') = false := ctype.alpha_ascii _ (by decide)
  have hdigit : ctype.isDigit (wt '\"') = false := ctype.digit_ascii _ (by decide)
  refine ⟨wt '\"', s.flatMap escape ++ wt '\"' :: rest, by simp [quoted], hspace, by decide, ?_⟩
  unfold token
  have hword : ¬(wt '\"' = wt '_' ∨ ctype.isAlpha (wt '\"') = true) := by
    rw [halpha]
    decide
  rw [if_neg (by decide), if_neg hword, if_neg (by decide), if_neg (by simp [hdigit]),
    if_neg (by decide), if_pos rfl, dqstr_quoted]
  rfl

def Ends (rest : List ℕ) : Prop := ∃ c t, rest = c :: t ∧ (c = wt ',' ∨ c = wt '\n')

theorem word_eq {p : ℕ → Bool} {s rest : List ℕ} (hs : ∀ c ∈ s, p c = true) (hrest : Ends rest)
    (hcomma : p (wt ',') = false) (hline : p (wt '\n') = false) (type : List ℕ → TokType)
    (name : List ℕ) : word type name p (s ++ rest) = (⟨type (name ++ s), name ++ s⟩, rest) := by
  obtain ⟨c, t, rfl, hc⟩ := hrest
  have hstop : p c = false := by rcases hc with rfl | rfl <;> assumption
  rw [word, takeWhile_append_of_pos hs, dropWhile_append_of_pos hs]
  simp [List.takeWhile, List.dropWhile, hstop]

theorem reads_word (ctype : Ctype) {c : ℕ} {s : List ℕ}
    (h : ∀ d ∈ c :: s, 97 ≤ d ∧ d ≤ 122) {rest : List ℕ} (hrest : Ends rest) :
    Reads ctype (c :: s) rest ⟨classifyIdent (c :: s), c :: s⟩ := by
  have halpha : ∀ d ∈ c :: s, ctype.isAlpha d = true := by
    intro d hd
    obtain ⟨hlow, hhigh⟩ := h d hd
    rw [ctype.alpha_ascii d (by omega)]
    simp [hlow, hhigh]
  obtain ⟨hlow, hhigh⟩ := h c (.head _)
  have hc := halpha c (.head _)
  have hat : c ≠ wt '@' := fun he => absurd (he ▸ hlow) (by decide)
  have hhash : c ≠ wt '#' := fun he => absurd (he ▸ hlow) (by decide)
  refine ⟨c, s ++ rest, rfl, ctype.not_space_of_alpha c hc, hhash, ?_⟩
  unfold token
  rw [if_neg hat, if_pos (.inr hc)]
  have hword := @word_eq (fun d => d = wt '_' || ctype.isAlnum d) s rest
    (fun d hd => by simp [Ctype.isAlnum, halpha d (.tail _ hd)]) hrest
    (by simp only [ctype.alnum_ascii (wt ',') (by decide)]; rfl)
    (by simp only [ctype.alnum_ascii (wt '\n') (by decide)]; rfl) classifyIdent [c]
  rw [hword]
  rfl

variable {s rest : List ℕ} {xli : Reader} {list : List Atom}

theorem reads_numeral (h : Numeral ctype s) (hrest : Ends rest) :
    Reads ctype s rest ⟨.nstr, s⟩ := by
  obtain ⟨sign, digits, rfl, hsign, hne, hdigits⟩ := h
  obtain ⟨d, digits, rfl⟩ := exists_cons_of_ne_nil hne
  have hd : ctype.isDigit d = true := hdigits d (.head _)
  have hword (s name : List ℕ) (hs : ∀ c ∈ s, ctype.isDigit c = true) :
      word (fun _ => .nstr) name ctype.isDigit (s ++ rest) = (⟨.nstr, name ++ s⟩, rest) :=
    word_eq hs hrest (ctype.digit_ascii _ (by decide)) (ctype.digit_ascii _ (by decide)) _ _
  have hplain : ∀ c < 128, ctype.isDigit c = false → d ≠ c := fun c _ hc hdc =>
    absurd (hdc ▸ hd) (by simp [hc])
  rcases hsign with rfl | rfl
  · have hat := hplain (wt '@') (by decide) (ctype.digit_ascii _ (by decide))
    have hhash := hplain (wt '#') (by decide) (ctype.digit_ascii _ (by decide))
    have hscore := hplain (wt '_') (by decide) (ctype.digit_ascii _ (by decide))
    have hminus := hplain (wt '-') (by decide) (ctype.digit_ascii _ (by decide))
    refine ⟨d, digits ++ rest, rfl, ctype.not_space_of_digit d hd, hhash, ?_⟩
    unfold token
    rw [if_neg hat, if_neg (by simp [hscore, ctype.not_alpha_of_digit d hd]), if_neg hminus,
      if_pos hd, hword digits [d] fun c hc => hdigits c (.tail _ hc)]
    rfl
  have halpha : ctype.isAlpha (wt '-') = false := ctype.alpha_ascii _ (by decide)
  have hnot : ¬(wt '-' = wt '_' ∨ ctype.isAlpha (wt '-') = true) := by
    rw [halpha]
    decide
  refine ⟨wt '-', d :: digits ++ rest, rfl, ctype.space_ascii _ (by decide), by decide, ?_⟩
  unfold token
  rw [if_neg (by decide), if_neg hnot, if_pos rfl]
  simp only [cons_append, hd]
  have h := hword (d :: digits) [wt '-'] hdigits
  simp only [cons_append] at h
  simp [h]

def Spaces (ctype : Ctype) (ws : List ℕ) : Prop := ∀ c ∈ ws, ctype.isSpace c = true

def next (ctype : Ctype) (s : List ℕ) : Option (Tok × List ℕ) :=
  match s.dropWhile ctype.isSpace with
  | [] => none
  | c :: t => if c = wt '#' then none else (token ctype c t).toOption

/-- The reader, which reads no included file, has `rest` in front of it and `list` behind. -/
structure At (xli : Reader) (rest : List ℕ) (list : List Atom) : Prop where
  prev : xli.prev = []
  rest : xli.inp.rest = rest
  list : xli.list = list

structure Ahead (ctype : Ctype) (xli : Reader) (s : List ℕ) (list : List Atom) : Prop where
  prev : xli.prev = []
  next : next ctype s = some (xli.tok, xli.inp.rest)
  list : xli.list = list

theorem next_reads {ws text : List ℕ} {tok : Tok} (hws : Spaces ctype ws)
    (h : Reads ctype text rest tok) : next ctype (ws ++ (text ++ rest)) = some (tok, rest) := by
  obtain ⟨c, t, heq, hc, hhash, htok⟩ := h
  have hdrop : (ws ++ c :: t).dropWhile ctype.isSpace = c :: t := by
    rw [dropWhile_append_of_pos hws, dropWhile_cons_of_neg (by simp [hc])]
  rw [next, heq, hdrop]
  simp [hhash, htok, Except.toOption]

theorem Ahead.reads {xli : Reader} {ws text rest : List ℕ} {tok : Tok} {list : List Atom}
    (h : Ahead ctype xli (ws ++ (text ++ rest)) list) (hws : Spaces ctype ws)
    (htext : Reads ctype text rest tok) : xli.tok = tok ∧ At xli rest list := by
  have hnext := h.next
  rw [next_reads hws htext] at hnext
  cases hnext
  exact ⟨rfl, h.prev, rfl, h.list⟩

theorem Ahead.relist (h : Ahead ctype xli s list)
    (list' : List Atom) : Ahead ctype { xli with list := list' } s list' := ⟨h.prev, h.next, rfl⟩

theorem At.insert (h : At xli rest list)
    (atom : Atom) : At (xli.insert atom) rest (list ++ [atom]) :=
  ⟨h.prev, h.rest, congrArg (· ++ [atom]) h.list⟩

theorem At.relist (h : At xli rest list)
    (list' : List Atom) : At { xli with list := list' } rest list' := ⟨h.prev, h.rest, rfl⟩

theorem At.restatus (h : At xli rest list)
    (status : Bool) : At { xli with status := status } rest list := ⟨h.prev, h.rest, h.list⟩

theorem skipBlanks_eq {c : ℕ} {t : List ℕ} (h : s.dropWhile ctype.isSpace = c :: t)
    (hhash : c ≠ wt '#') (keepText : Bool)
    (flags : TextFlags) : skipBlanks ctype keepText flags none s = (c :: t, []) := by
  induction s with
  | nil => simp at h
  | cons d s ih =>
    rw [skipBlanks]
    cases hd : ctype.isSpace d with
    | true =>
      rw [dropWhile_cons_of_pos hd] at h
      exact ih h
    | false =>
      rw [dropWhile_cons_of_neg (by simp [hd])] at h
      obtain ⟨rfl, rfl⟩ := List.cons.inj h
      simp [hhash]

theorem getToken_next {xli : Reader} {s : List ℕ} {list : List Atom} (h : At xli s list)
    (hnext : (next ctype s).isSome = true) :
    ∃ xli', getToken ctype opt xli = .ok xli' ∧ Ahead ctype xli' s list := by
  obtain ⟨⟨tok, rest⟩, hnext⟩ := Option.isSome_iff_exists.1 hnext
  have hnext' := hnext
  rw [next] at hnext
  match hdrop : s.dropWhile ctype.isSpace with
  | [] => simp [hdrop] at hnext
  | c :: t =>
    have hhash : c ≠ wt '#' := fun hc => by simp [hdrop, hc] at hnext
    have htok : token ctype c t = .ok (tok, rest) := by
      simp only [hdrop, if_neg hhash] at hnext
      match htoken : token ctype c t with
      | .error e => simp [htoken, Except.toOption] at hnext
      | .ok p => simpa [htoken, Except.toOption] using hnext
    have hskip (flags : TextFlags) :
        xli.skip ctype opt.trait.keepText flags = xli.seek (c :: t) := by
      rw [Reader.skip, h.rest, skipBlanks_eq hdrop hhash]
      rfl
    refine ⟨{ xli.seek rest with tok := tok }, ?_, h.prev, hnext', h.list⟩
    rw [getToken, h.prev, getTokenFrom, hskip]
    simp only [Reader.seek, htok, ok_bind]

theorem getToken_reads {xli : Reader} {ws text rest : List ℕ} {tok : Tok} {list : List Atom}
    (h : At xli (ws ++ (text ++ rest)) list) (hws : Spaces ctype ws)
    (htext : Reads ctype text rest tok) :
    ∃ xli', getToken ctype opt xli = .ok xli' ∧ xli'.tok = tok ∧ At xli' rest list := by
  obtain ⟨xli', heq, hahead⟩ := @getToken_next ctype opt xli _ list h
    (by rw [next_reads hws htext]; rfl)
  exact ⟨xli', heq, hahead.reads hws htext⟩

end Qse.Xli.Json
