import Qse.Xli.Read
import Mathlib.Tactic.Tauto

/-!
# The trees that are read from the xli format

What `qse_xli_read` has checked of a tree, its schema among it.
-/

open List

namespace Qse.Xli

variable {ctype : Ctype} {opt : Opt} {files : WString → Option (List ℕ)}

/-! ## Trees -/

def NoCr (s : List ℕ) : Prop := wt '\r' ∉ s

def Includes (files : WString → Option (List ℕ)) : Prop := ∃ path text, files path = some text

def TextOk (trait : Trait) (atom : Atom) : Prop :=
  trait.keepText = true ∧ ∃ ptr, atom = .text TextFlags.none ptr ∧ NoCr ptr.chars ∧
    wt '\n' ∉ ptr.chars

def NoteOk (trait : Trait) (files : WString → Option (List ℕ)) (atom : Atom) : Prop :=
  TextOk trait atom ∨ Includes files ∧ ((∃ path, atom = .file path) ∨ atom = .eof)

def TagOk (ctype : Ctype) (enabled : Bool) (tag : Option WString) : Prop :=
  ∀ t, tag = some t → enabled = true ∧ ∀ c ∈ t.chars, tagChar ctype c = true

def Digits (ctype : Ctype) (s : List ℕ) : Prop := s ≠ [] ∧ ∀ c ∈ s, ctype.isDigit c = true

def StrOk (ctype : Ctype) (trait : Trait) (str : Str) : Prop :=
  NoCr str.ptr ∧ TagOk ctype trait.strTag str.tag ∧ (str.nstr = true → Digits ctype str.ptr)

def AliasOk (ctype : Ctype) (opt : Opt) (seen : List (WString × Option WString))
    (scm : Option Scm) (key : WString) : Option WString → Prop
  | none => flag scm Scm.keyAlias = false
  | some ali => (opt.trait.keyAlias || flag scm Scm.keyAlias) = true ∧
      newAlias ctype opt seen key ali = true ∧ NoCr ali.chars

def HeadOk (ctype : Ctype) (opt : Opt) (seen : List (WString × Option WString))
    (scm : Option Scm) (key : WString) (ali tag : Option WString) : Prop :=
  (!(opt.trait.keyNoDup || flag scm Scm.keyNoDup) || newKey ctype opt seen key) = true ∧
    NoCr key.chars ∧ AliasOk ctype opt seen scm key ali ∧ TagOk ctype opt.trait.keyTag tag

def inner (scm : Option Scm) : Option Scm :=
  if flag scm Scm.valIffy then some scmValIffy else none

mutual

def ValOk (ctype : Ctype) (opt : Opt) (files : WString → Option (List ℕ)) (curkey : List ℕ)
    (scm : Option Scm) : Val → Prop
  | .nil => opt.trait.noNil = false ∧
      (scm.all fun scm => scm.valNil || (scm.valStr && scm.strMinSeg ≤ 0)) = true
  | .true => opt.trait.boolean = true
  | .false => opt.trait.boolean = true
  | .str first next => StrOk ctype opt.trait first ∧
      (∀ str ∈ next, StrOk ctype opt.trait str ∧ str.nstr = false) ∧
      (next ≠ [] → opt.trait.mulSegStr = true) ∧ scm.all Scm.valStr = true ∧
      segCount scm (next.length + 1) = true
  | .list arrayed atoms => arrayed = false ∧ opt.trait.noList = false ∧
      scm.all Scm.valList = true ∧ AtomsOk ctype opt files curkey (inner scm) [] atoms

def AtomsOk (ctype : Ctype) (opt : Opt) (files : WString → Option (List ℕ)) (curkey : List ℕ)
    (override : Option Scm) : List (WString × Option WString) → List Atom → Prop
  | _, [] => True
  | seen, .pair key ali tag val xtn :: rest =>
    (∃ scm, findScm opt override (dotted curkey key) = .ok scm ∧
      HeadOk ctype opt seen scm key ali tag ∧
      ValOk ctype opt files (dotted curkey key) scm val) ∧
    xtn = 0 ∧ AtomsOk ctype opt files curkey override (seen ++ [(key, ali)]) rest
  | seen, .text flags ptr :: rest =>
    NoteOk opt.trait files (.text flags ptr) ∧ AtomsOk ctype opt files curkey override seen rest
  | seen, .file path :: rest =>
    NoteOk opt.trait files (.file path) ∧ AtomsOk ctype opt files curkey override seen rest
  | seen, .eof :: rest =>
    NoteOk opt.trait files .eof ∧ AtomsOk ctype opt files curkey override seen rest

end

theorem keys_append (atoms rest : List Atom) : keys (atoms ++ rest) = keys atoms ++ keys rest := by
  induction atoms with
  | nil => rfl
  | cons atom atoms ih => cases atom <;> simp [keys, ih]

variable {name s rest curkey : List ℕ} {notes notes' : List Atom} {override scm : Option Scm}
  {seen : List (WString × Option WString)} {xli xli' : Reader} {fuel : ℕ} {trait : Trait}

theorem keys_notes (h : ∀ atom ∈ notes, NoteOk opt.trait files atom) :
    keys notes = [] := by
  induction notes with
  | nil => rfl
  | cons atom notes ih =>
    have hrest := ih fun a ha => h a (.tail _ ha)
    rcases h atom (.head _) with ⟨-, ptr, rfl, -⟩ | ⟨-, ⟨path, rfl⟩ | rfl⟩ <;>
    exact hrest

theorem AtomsOk.append {atoms rest : List Atom}
    (h : AtomsOk ctype opt files curkey override seen atoms)
    (hrest : AtomsOk ctype opt files curkey override (seen ++ keys atoms) rest) :
    AtomsOk ctype opt files curkey override seen (atoms ++ rest) := by
  induction atoms generalizing seen with
  | nil => simpa [keys] using hrest
  | cons atom atoms ih =>
    cases atom with
    | pair key ali tag val xtn =>
      exact ⟨h.1, h.2.1, ih h.2.2 (by simpa [keys] using hrest)⟩
    | text flags ptr | file path | eof => exact ⟨h.1, ih h.2 hrest⟩

theorem atomsOk_notes (h : ∀ atom ∈ notes, NoteOk opt.trait files atom)
    (curkey : List ℕ) (override : Option Scm) (seen : List (WString × Option WString)) :
    AtomsOk ctype opt files curkey override seen notes := by
  induction notes with
  | nil => trivial
  | cons atom notes ih =>
    have hnote := h atom (.head _)
    have hrest := ih fun a ha => h a (.tail _ ha)
    rcases id hnote with ⟨-, ptr, rfl, -⟩ | ⟨-, ⟨path, rfl⟩ | rfl⟩ <;>
    exact ⟨hnote, hrest⟩

/-! ## Tokens -/

theorem NoCr.of_subset {t : List ℕ} (h : NoCr t) (hs : ∀ c ∈ s, c ∈ t) : NoCr s :=
  fun hmem => h (hs _ hmem)

theorem dqstr_subset {escaped : Bool} {name' : List ℕ}
    (h : dqstr escaped name s = .ok (name', rest)) : ∀ c ∈ name' ++ rest, c ∈ name ++ s := by
  induction s generalizing escaped name with
  | nil => cases escaped <;> cases h
  | cons d s ih =>
    cases escaped with
    | true =>
      intro c hc
      have hmem := @ih (name ++ [d]) false h c hc
      simpa [or_assoc] using hmem
    | false =>
      rw [dqstr] at h
      intro c hc
      split at h
      · have hmem := ih h c hc
        simp only [mem_append, mem_cons] at hmem ⊢
        tauto
      split at h
      · cases h
        simp only [mem_append, mem_cons] at hc ⊢
        tauto
      · have hmem := ih h c hc
        simpa [or_assoc] using hmem

theorem sqstr_subset {name' : List ℕ} (h : sqstr name s = .ok (name', rest)) :
    ∀ c ∈ name' ++ rest, c ∈ name ++ s := by
  induction s generalizing name with
  | nil => cases h
  | cons d s ih =>
    rw [sqstr] at h
    intro c hc
    split at h
    · cases h
      simp only [mem_append, mem_cons] at hc ⊢
      tauto
    · have hmem := ih h c hc
      simpa [or_assoc] using hmem

theorem tag_subset {name' : List ℕ} (h : tag ctype name s = .ok (name', rest)) :
    (∀ c ∈ name' ++ rest, c ∈ name ++ s) ∧
      ((∀ c ∈ name, tagChar ctype c = true) → ∀ c ∈ name', tagChar ctype c = true) := by
  induction s generalizing name with
  | nil => cases h
  | cons d s ih =>
    rw [tag] at h
    split at h
    · cases h
    split at h
    · cases h
      refine ⟨fun c hc => ?_, id⟩
      simp only [mem_append, mem_cons] at hc ⊢
      tauto
    split at h
    · cases h
    rename_i hchar
    obtain ⟨hsub, htag⟩ := ih h
    refine ⟨fun c hc => by simpa [or_assoc] using hsub c hc, fun hname => htag ?_⟩
    intro c hc
    rcases mem_append.1 hc with hc | hc
    · exact hname c hc
    · rw [mem_singleton.1 hc]
      simpa using hchar

structure TokOk (ctype : Ctype) (trait : Trait) (tok : Tok) : Prop where
  noCr : NoCr tok.name
  nstr : tok.type = .nstr → Digits ctype tok.name
  tag : tok.type = .tag → ∀ c ∈ tok.name, tagChar ctype c = true
  boolean : tok.type = .true ∨ tok.type = .false → trait.boolean = true

theorem mem_takeWhile {p : ℕ → Bool} {c : ℕ} (h : c ∈ s.takeWhile p) : c ∈ s :=
  (takeWhile_sublist p).subset h

theorem mem_dropWhile {p : ℕ → Bool} {c : ℕ} (h : c ∈ s.dropWhile p) : c ∈ s :=
  (dropWhile_sublist p).subset h

theorem classifyIdent_cases (trait : Trait) (name : List ℕ) :
    classifyIdent trait name = .xinclude ∨ classifyIdent trait name = .ident ∨
      trait.boolean = true ∧
        (classifyIdent trait name = .true ∨ classifyIdent trait name = .false) := by
  rw [classifyIdent]
  split
  · exact .inl rfl
  split
  · rename_i hb
    by_cases hf : name = wts "false"
    · exact .inr (.inr ⟨hb, .inr (by simp [boolkwtab, hf])⟩)
    by_cases ht : name = wts "true"
    · exact .inr (.inr ⟨hb, .inl (by rw [ht]; rfl)⟩)
    · refine .inr (.inl ?_)
      have hf' : (name == wts "false") = false := by simpa using hf
      have ht' : (name == wts "true") = false := by simpa using ht
      simp [boolkwtab, lookup_cons, hf', ht']
  · exact .inr (.inl rfl)

theorem tokOk_word (h : NoCr name) :
    TokOk ctype trait ⟨classifyIdent trait name, name⟩ := by
  refine ⟨h, fun hn => ?_, fun hn => ?_, fun hn => ?_⟩ <;>
  rcases classifyIdent_cases trait name with hc | hc | ⟨hb, hc | hc⟩ <;> simp_all

theorem token_ok {nstr : Bool} {c : ℕ} {t : List ℕ} {tok : Tok}
    (h : token ctype trait nstr c t = .ok (tok, rest)) (hcr : NoCr (c :: t)) :
    TokOk ctype trait tok ∧ NoCr rest := by
  have hc : c ≠ wt '\r' := fun hc => hcr (by simp [hc])
  have ht : NoCr t := fun ht => hcr (.tail _ ht)
  have hword (p : ℕ → Bool) : NoCr (c :: t.takeWhile p) :=
    hcr.of_subset fun d hd => by
      rcases mem_cons.1 hd with rfl | hd
      · exact .head _
      · exact .tail _ (mem_takeWhile hd)
  have hrest (p : ℕ → Bool) : NoCr (t.dropWhile p) := ht.of_subset fun d hd => mem_dropWhile hd
  have hplain {type : TokType} {name : List ℕ} (hname : NoCr name)
      (htype : type ≠ .nstr ∧ type ≠ .tag ∧ type ≠ .true ∧ type ≠ .false) :
      TokOk ctype trait ⟨type, name⟩ :=
    ⟨hname, fun he => absurd he htype.1, fun he => absurd he htype.2.1,
      fun he => absurd he (by tauto)⟩
  unfold token at h
  split at h
  · match t with
    | [] => cases h
    | d :: t =>
      simp only at h
      split at h
      · cases h
      split at h
      · cases h
      · cases h
        exact ⟨tokOk_word (hword _), hrest _⟩
  split at h
  · simp only at h
    split at h
    · cases h
    · cases h
      exact ⟨tokOk_word (hword _), hrest _⟩
  split at h
  · rename_i hdigit
    cases h
    simp only [Bool.and_eq_true] at hdigit
    refine ⟨⟨hword _, fun _ => ⟨by simp, ?_⟩, by simp, by simp⟩, hrest _⟩
    intro d hd
    rcases mem_cons.1 hd with rfl | hd
    · exact hdigit.2
    · exact mem_takeWhile_imp hd
  split at h
  · obtain ⟨⟨name, rest⟩, hq, h⟩ := bind_eq_ok.1 h
    cases h
    have hsub := sqstr_subset hq
    exact ⟨hplain (ht.of_subset fun d hd => hsub d (mem_append_left _ hd)) (by decide),
      ht.of_subset fun d hd => hsub d (mem_append_right _ hd)⟩
  split at h
  · obtain ⟨⟨name, rest⟩, hq, h⟩ := bind_eq_ok.1 h
    cases h
    have hsub := dqstr_subset hq
    exact ⟨hplain (ht.of_subset fun d hd => hsub d (mem_append_left _ hd)) (by decide),
      ht.of_subset fun d hd => hsub d (mem_append_right _ hd)⟩
  split at h
  · obtain ⟨⟨name, rest⟩, hq, h⟩ := bind_eq_ok.1 h
    cases h
    obtain ⟨hsub, htag⟩ := tag_subset hq
    refine ⟨⟨ht.of_subset fun d hd => hsub d (mem_append_left _ hd), by simp,
      fun _ => htag (by simp), by simp⟩, ht.of_subset fun d hd => hsub d (mem_append_right _ hd)⟩
  match hops : ops.lookup c with
  | none => simp [hops] at h
  | some type =>
    simp only [hops] at h
    cases h
    obtain ⟨l₁, l₂, heq, -⟩ := lookup_eq_some_iff.1 hops
    have hmem : type ∈ ops.map Prod.snd := by simp [heq]
    have hall : ∀ type ∈ ops.map Prod.snd,
        type ≠ .nstr ∧ type ≠ .tag ∧ type ≠ .true ∧ type ≠ .false := by decide
    exact ⟨hplain (fun hm => hc (mem_singleton.1 hm).symm) (hall type hmem), ht⟩

theorem skipBlanks_ok {comment : Option (List ℕ)} (hs : NoCr s)
    (hcomment : ∀ t, comment = some t → NoCr t ∧ wt '\n' ∉ t) :
    NoCr (skipBlanks ctype trait.keepText TextFlags.none comment s).1 ∧
      ∀ atom ∈ (skipBlanks ctype trait.keepText TextFlags.none comment s).2, TextOk trait atom := by
  have htext {t : List ℕ} (hkeep : trait.keepText = true) (ht : NoCr t ∧ wt '\n' ∉ t) :
      TextOk trait (.text TextFlags.none (.of t)) :=
    ⟨hkeep, _, rfl, ht.1.of_subset fun c hc => mem_takeWhile hc, fun hc => ht.2 (mem_takeWhile hc)⟩
  induction s generalizing comment with
  | nil =>
    cases comment with
    | none => simp [skipBlanks, NoCr]
    | some t =>
      rw [skipBlanks]
      refine ⟨hs, ?_⟩
      split
      · rename_i hkeep
        simpa using htext hkeep (hcomment t rfl)
      · simp
  | cons c s ih =>
    have hc : c ≠ wt '\r' := fun hc => hs (by simp [hc])
    have hs' : NoCr s := fun hm => hs (.tail _ hm)
    cases comment with
    | none =>
      rw [skipBlanks]
      split
      · exact ih hs' (by simp)
      split
      · exact ih hs' (by simp [NoCr])
      · exact ⟨hs, by simp⟩
    | some t =>
      rw [skipBlanks]
      split
      · obtain ⟨hrest, htexts⟩ := @ih none hs' (by simp)
        refine ⟨hrest, fun atom hatom => ?_⟩
        by_cases hkeep : trait.keepText = true
        · simp only [if_pos hkeep, mem_cons] at hatom
          rcases hatom with rfl | hatom
          · exact htext hkeep (hcomment t rfl)
          · exact htexts atom hatom
        · simp only [if_neg hkeep] at hatom
          exact htexts atom hatom
      · rename_i hline
        refine ih hs' fun t' ht' => ?_
        obtain rfl : t ++ [c] = t' := Option.some.inj ht'
        obtain ⟨hcr, hlf⟩ := hcomment t rfl
        exact ⟨by simp [NoCr] at hcr ⊢; exact ⟨hcr, fun h => hc h.symm⟩,
          by simp; exact ⟨hlf, fun h => hline h.symm⟩⟩

/-! ## The reader -/

/-- No CR is in front of the reader, and it reads no file that is not there. -/
structure Clean (files : WString → Option (List ℕ)) (xli : Reader) : Prop where
  rest : ∀ arg ∈ xli.inp :: xli.prev, NoCr arg.rest
  prev : xli.prev ≠ [] → Includes files

/-- The reader goes from `xli` to `xli'`, which has taken a token and added atoms to the list. -/
structure Adds (ctype : Ctype) (opt : Opt) (files : WString → Option (List ℕ))
    (xli xli' : Reader) (new : List Atom) : Prop where
  clean : Clean files xli'
  tok : TokOk ctype opt.trait xli'.tok
  list : xli'.list = xli.list ++ new

def Notes (opt : Opt) (files : WString → Option (List ℕ)) (atoms : List Atom) : Prop :=
  ∀ atom ∈ atoms, NoteOk opt.trait files atom

theorem notes_nil : Notes opt files [] := by simp [Notes]

theorem Notes.append (h : Notes opt files notes)
    (h' : Notes opt files notes') : Notes opt files (notes ++ notes') :=
  fun atom hatom => (mem_append.1 hatom).elim (h atom) (h' atom)

theorem foldl_insert (notes : List Atom) (xli : Reader) :
    notes.foldl Reader.insert xli = { xli with
      list := xli.list ++ notes, trace := xli.trace ++ notes.flatMap Atom.found } := by
  induction notes generalizing xli with
  | nil => simp
  | cons note notes ih => simp [ih, Reader.insert]

theorem tokOk_eof (trait : Trait) : TokOk ctype trait ⟨.eof, wts "<EOF>"⟩ :=
  ⟨by simp only [NoCr]; decide, by simp, by simp, by simp⟩

theorem scanToken_adds {found : Bool} (h : Clean files xli)
    (heq : scanToken ctype opt xli = .ok (found, xli')) :
    ∃ notes, Notes opt files notes ∧ Clean files xli' ∧ xli'.prev = xli.prev ∧
      xli'.list = xli.list ++ notes ∧ (found = true → TokOk ctype opt.trait xli'.tok) := by
  obtain ⟨hrest, htexts⟩ :=
    @skipBlanks_ok ctype xli.inp.rest opt.trait none (h.rest _ (.head _)) (by simp)
  have hskip : xli.skip ctype opt.trait.keepText TextFlags.none = _ := foldl_insert _ _
  have hclean {rest : List ℕ} (hcr : NoCr rest) :
      ∀ arg ∈ ({ xli.inp with rest := rest } : RioArg) :: xli.prev, NoCr arg.rest :=
    forall_mem_cons.2 ⟨hcr, fun arg harg => h.rest arg (.tail _ harg)⟩
  refine ⟨_, fun atom hatom => .inl (htexts atom hatom), ?_⟩
  rw [scanToken, hskip] at heq
  simp only [Reader.seek] at heq
  match hblank : (skipBlanks ctype opt.trait.keepText TextFlags.none none xli.inp.rest).1 with
  | [] =>
    simp only [hblank] at heq
    cases heq
    exact ⟨⟨hclean (by simp [NoCr]), h.prev⟩, rfl, rfl, by simp⟩
  | c :: t =>
    simp only [hblank] at heq
    obtain ⟨⟨tok, rest⟩, htok, heq⟩ := bind_eq_ok.1 heq
    cases heq
    obtain ⟨hok, hcr⟩ := token_ok htok (hblank ▸ hrest)
    exact ⟨⟨hclean hcr, h.prev⟩, rfl, rfl, fun _ => hok⟩

theorem endInclude_adds {arg : RioArg} {prev : List RioArg} (h : Clean files xli)
    (hprev : xli.prev = arg :: prev) :
    ∃ notes, Notes opt files notes ∧ Clean files (endInclude opt.trait arg prev xli) ∧
      (endInclude opt.trait arg prev xli).prev = prev ∧
      (endInclude opt.trait arg prev xli).list = xli.list ++ notes := by
  have hincludes : Includes files := h.prev (by simp [hprev])
  have hrest : ∀ a ∈ arg :: prev, NoCr a.rest := fun a ha =>
    h.rest a (.tail _ (hprev ▸ ha))
  rw [endInclude]
  split
  · exact ⟨[.eof], by simpa [Notes, NoteOk] using .inr hincludes, ⟨hrest, fun _ => hincludes⟩, rfl,
      rfl⟩
  · exact ⟨[], notes_nil, ⟨hrest, fun _ => hincludes⟩, rfl, by simp⟩

theorem scanAgain_adds {again : Bool} {xli₁ xli₂ : Reader} {found₁ found₂ : Bool}
    (h : Clean files xli) (heq₁ : scanToken ctype opt xli = .ok (found₁, xli₁))
    (heq₂ : (if again then scanToken ctype opt xli₁ else .ok (found₁, xli₁)) = .ok (found₂, xli₂)) :
    ∃ notes, Notes opt files notes ∧ Clean files xli₂ ∧ xli₂.prev = xli.prev ∧
      xli₂.list = xli.list ++ notes ∧ (found₂ = true → TokOk ctype opt.trait xli₂.tok) := by
  obtain ⟨notes₁, hnotes₁, hclean₁, hprev₁, hlist₁, htok₁⟩ := scanToken_adds h heq₁
  split at heq₂
  · obtain ⟨notes₂, hnotes₂, hclean₂, hprev₂, hlist₂, htok₂⟩ := scanToken_adds hclean₁ heq₂
    exact ⟨_, hnotes₁.append hnotes₂, hclean₂, hprev₂.trans hprev₁, by simp [hlist₂, hlist₁], htok₂⟩
  · cases heq₂
    exact ⟨notes₁, hnotes₁, hclean₁, hprev₁, hlist₁, htok₁⟩

theorem getTokenFrom_adds {prev : List RioArg} {semicolon : Bool}
    (h : Clean files xli) (hprev : xli.prev = prev)
    (heq : getTokenFrom ctype opt prev semicolon xli = .ok xli') :
    ∃ notes, Notes opt files notes ∧ Adds ctype opt files xli xli' notes := by
  induction prev generalizing semicolon xli with
  | nil =>
    rw [getTokenFrom] at heq
    obtain ⟨⟨found₁, xli₁⟩, heq₁, heq⟩ := bind_eq_ok.1 heq
    obtain ⟨⟨found₂, xli₂⟩, heq₂, heq⟩ := bind_eq_ok.1 heq
    obtain ⟨notes, hnotes, hclean, -, hlist, htok⟩ := scanAgain_adds h heq₁ heq₂
    simp only at heq
    split at heq
    · rename_i hfound
      split at heq
      · cases heq
      · cases heq
        exact ⟨notes, hnotes, hclean, htok hfound, hlist⟩
    · split at heq
      · cases heq
      · cases heq
        exact ⟨notes, hnotes, ⟨hclean.rest, hclean.prev⟩, tokOk_eof _, hlist⟩
  | cons arg prev ih =>
    rw [getTokenFrom] at heq
    obtain ⟨⟨found₁, xli₁⟩, heq₁, heq⟩ := bind_eq_ok.1 heq
    obtain ⟨⟨found₂, xli₂⟩, heq₂, heq⟩ := bind_eq_ok.1 heq
    obtain ⟨notes, hnotes, hclean, hprev₂, hlist, htok⟩ := scanAgain_adds h heq₁ heq₂
    simp only at heq
    split at heq
    · rename_i hfound
      split at heq
      · cases heq
      · cases heq
        exact ⟨notes, hnotes, hclean, htok hfound, hlist⟩
    · obtain ⟨ends, hends, hclean', hprev', hlist'⟩ :=
        endInclude_adds hclean (hprev₂.trans hprev)
      obtain ⟨notes', hnotes', hadds⟩ := ih hclean' hprev' heq
      refine ⟨_, (hnotes.append hends).append hnotes', hadds.clean, hadds.tok, ?_⟩
      rw [hadds.list, hlist', hlist]
      simp

theorem getToken_adds (h : Clean files xli) (heq : getToken ctype opt xli = .ok xli') :
    ∃ notes, Notes opt files notes ∧ Adds ctype opt files xli xli' notes :=
  getTokenFrom_adds h rfl heq

theorem Adds.trans {xli₁ xli₂ : Reader} {new new' : List Atom}
    (h : Adds ctype opt files xli xli₁ new) (h' : Adds ctype opt files xli₁ xli₂ new') :
    Adds ctype opt files xli xli₂ (new ++ new') :=
  ⟨h'.clean, h'.tok, by rw [h'.list, h.list, append_assoc]⟩

theorem check_eq_ok {cond : Bool} {num : Errnum} {u : Unit} :
    check cond num = .ok u ↔ cond = true := by
  rw [check]
  cases cond <;> simp

theorem noCr_of (h : NoCr s) : NoCr (WString.of s).chars :=
  h.of_subset fun _ hc => mem_takeWhile hc

theorem readAlias_adds {key : WString}
    {ali : Option WString} (h : Clean files xli) (htok : TokOk ctype opt.trait xli.tok)
    (heq : readAlias ctype opt scm key xli = .ok (ali, xli')) :
    ∃ notes, Notes opt files notes ∧ Adds ctype opt files xli xli' notes ∧
      AliasOk ctype opt (keys xli.list) scm key ali := by
  have hnone : Adds ctype opt files xli xli [] := ⟨h, htok, by simp⟩
  rw [readAlias] at heq
  split at heq
  · rename_i henabled
    split at heq
    · obtain ⟨u, hnew, heq⟩ := bind_eq_ok.1 heq
      obtain ⟨xli₁, htoken, heq⟩ := bind_eq_ok.1 heq
      cases heq
      obtain ⟨notes, hnotes, hadds⟩ := getToken_adds h htoken
      exact ⟨notes, hnotes, hadds, henabled, check_eq_ok.1 hnew, noCr_of htok.noCr⟩
    split at heq
    · cases heq
    · rename_i hflag
      cases heq
      exact ⟨[], notes_nil, hnone, by simpa [AliasOk] using hflag⟩
  · rename_i henabled
    cases heq
    refine ⟨[], notes_nil, hnone, ?_⟩
    simp only [Bool.or_eq_true, not_or, Bool.not_eq_true] at henabled
    exact henabled.2

theorem readStrTag_adds {tag : Option WString} (h : Clean files xli)
    (htok : TokOk ctype opt.trait xli.tok) (heq : readStrTag ctype opt xli = .ok (tag, xli')) :
    ∃ notes, Notes opt files notes ∧ Adds ctype opt files xli xli' notes ∧
      TagOk ctype opt.trait.strTag tag := by
  rw [readStrTag] at heq
  split at heq
  · rename_i htag
    simp only [Bool.and_eq_true, decide_eq_true_eq] at htag
    obtain ⟨xli₁, htoken, heq⟩ := bind_eq_ok.1 heq
    cases heq
    obtain ⟨notes, hnotes, hadds⟩ := getToken_adds h htoken
    refine ⟨notes, hnotes, hadds, fun t ht => ?_⟩
    obtain rfl := Option.some.inj ht
    exact ⟨htag.1, fun c hc => htok.tag htag.2 c (mem_takeWhile hc)⟩
  · cases heq
    exact ⟨[], notes_nil, ⟨h, htok, by simp⟩, by simp [TagOk]⟩

theorem readSegs_adds {segs next : List Str} (h : Clean files xli)
    (htok : TokOk ctype opt.trait xli.tok)
    (heq : readSegs ctype opt fuel segs xli = .ok (next, xli')) :
    ∃ notes, Notes opt files notes ∧ Adds ctype opt files xli xli' notes ∧
      ∃ more, next = segs ++ more ∧ (∀ str ∈ more, StrOk ctype opt.trait str ∧ str.nstr = false) ∧
        (more ≠ [] → opt.trait.mulSegStr = true) := by
  induction fuel generalizing segs xli with
  | zero => cases heq
  | succ fuel ih =>
    rw [readSegs] at heq
    split at heq
    · rename_i hcomma
      simp only [Bool.and_eq_true, decide_eq_true_eq] at hcomma
      obtain ⟨xli₁, heq₁, heq⟩ := bind_eq_ok.1 heq
      obtain ⟨⟨tag, xli₂⟩, heq₂, heq⟩ := bind_eq_ok.1 heq
      obtain ⟨u, hstr, heq⟩ := bind_eq_ok.1 heq
      obtain ⟨xli₃, heq₃, heq⟩ := bind_eq_ok.1 heq
      obtain ⟨notes₁, hnotes₁, hadds₁⟩ := getToken_adds h heq₁
      obtain ⟨notes₂, hnotes₂, hadds₂, htag⟩ := readStrTag_adds hadds₁.clean hadds₁.tok heq₂
      obtain ⟨notes₃, hnotes₃, hadds₃⟩ := getToken_adds hadds₂.clean heq₃
      obtain ⟨notes₄, hnotes₄, hadds₄, more, hnext, hmore, -⟩ :=
        ih hadds₃.clean hadds₃.tok heq
      refine ⟨_, ((hnotes₁.append hnotes₂).append hnotes₃).append hnotes₄,
        ((hadds₁.trans hadds₂).trans hadds₃).trans hadds₄, ⟨xli₂.tok.name, tag, false⟩ :: more,
        by rw [hnext]; simp, ?_, fun _ => hcomma.1⟩
      intro str hmem
      rcases mem_cons.1 hmem with rfl | hmem
      · exact ⟨⟨hadds₂.tok.noCr, htag, by simp⟩, rfl⟩
      · exact hmore str hmem
    · cases heq
      exact ⟨[], notes_nil, ⟨h, htok, by simp⟩, [], by simp, by simp, by simp⟩

theorem readStr_adds {key : WString} {ali tag : Option WString} (h : Clean files xli)
    (heq : readStr ctype opt fuel scm key ali tag xli = .ok xli') :
    ∃ notes notes' val, Notes opt files notes ∧ Notes opt files notes' ∧
      ValOk ctype opt files curkey scm val ∧
      Adds ctype opt files xli xli' (notes ++ .pair key ali tag val 0 :: notes') := by
  rw [readStr] at heq
  obtain ⟨xli₁, heq₁, heq⟩ := bind_eq_ok.1 heq
  obtain ⟨⟨strtag, xli₂⟩, heq₂, heq⟩ := bind_eq_ok.1 heq
  obtain ⟨notes₁, hnotes₁, hadds₁⟩ := getToken_adds h heq₁
  obtain ⟨notes₂, hnotes₂, hadds₂, htag⟩ := readStrTag_adds hadds₁.clean hadds₁.tok heq₂
  have hadds := hadds₁.trans hadds₂
  simp only at heq
  split at heq
  · rename_i hbool
    obtain ⟨xli₃, heq₃, heq⟩ := bind_eq_ok.1 heq
    obtain ⟨u, -, heq₄⟩ := bind_eq_ok.1 heq
    have hclean : Clean files (xli₂.insert (.pair key ali tag
        (if xli₂.tok.type = .true then .true else .false) 0)) := ⟨hadds.clean.rest,
          hadds.clean.prev⟩
    obtain ⟨notes₃, hnotes₃, hadds₃⟩ := getToken_adds hclean heq₃
    obtain ⟨notes₄, hnotes₄, hadds₄⟩ := getToken_adds hadds₃.clean heq₄
    refine ⟨_, _, if xli₂.tok.type = .true then .true else .false, hnotes₁.append hnotes₂,
      hnotes₃.append hnotes₄, ?_, hadds₄.clean, hadds₄.tok, ?_⟩
    · have hboolean := hadds.tok.boolean hbool
      split <;> exact hboolean
    · rw [hadds₄.list, hadds₃.list, Reader.insert, hadds.list]
      simp
  · obtain ⟨u₁, hstr, heq⟩ := bind_eq_ok.1 heq
    obtain ⟨u₂, hval, heq⟩ := bind_eq_ok.1 heq
    obtain ⟨xli₃, heq₃, heq⟩ := bind_eq_ok.1 heq
    obtain ⟨⟨next, xli₄⟩, heq₄, heq⟩ := bind_eq_ok.1 heq
    obtain ⟨u₃, -, heq⟩ := bind_eq_ok.1 heq
    obtain ⟨u₄, hcount, heq₅⟩ := bind_eq_ok.1 heq
    obtain ⟨notes₃, hnotes₃, hadds₃⟩ :=
      getToken_adds (by exact ⟨hadds.clean.rest, hadds.clean.prev⟩) heq₃
    obtain ⟨notes₄, hnotes₄, hadds₄, more, hnext, hmore, hmul⟩ :=
      readSegs_adds hadds₃.clean hadds₃.tok heq₄
    obtain ⟨notes₅, hnotes₅, hadds₅⟩ :=
      getToken_adds (by exact ⟨hadds₄.clean.rest, hadds₄.clean.prev⟩) heq₅
    obtain rfl : next = more := by simpa using hnext
    refine ⟨_, _, .str ⟨xli₂.tok.name, strtag, decide (xli₂.tok.type = .nstr)⟩ next,
      hnotes₁.append hnotes₂, (hnotes₃.append hnotes₄).append hnotes₅, ?_,
      hadds₅.clean, hadds₅.tok, ?_⟩
    · exact ⟨⟨hadds.tok.noCr, htag, fun hn => hadds.tok.nstr (by simpa using hn)⟩, hmore, hmul,
        check_eq_ok.1 hval, check_eq_ok.1 hcount⟩
    · rw [hadds₅.list]
      simp [hadds₄.list, hadds₃.list, hadds.list]

theorem atomsOk_pair (hnotes : Notes opt files notes)
    (hnotes' : Notes opt files notes') {key : WString} {ali tag : Option WString} {val : Val}
    (hscm : findScm opt override (dotted curkey key) = .ok scm)
    (hhead : HeadOk ctype opt seen scm key ali tag)
    (hval : ValOk ctype opt files (dotted curkey key) scm val) :
    AtomsOk ctype opt files curkey override seen (notes ++ .pair key ali tag val 0 :: notes') := by
  refine (atomsOk_notes hnotes _ _ _).append ?_
  rw [keys_notes hnotes, append_nil]
  exact ⟨⟨scm, hscm, hhead, hval⟩, rfl, atomsOk_notes hnotes' _ _ _⟩

theorem beginInclude_adds (h : Clean files xli)
    (heq : beginInclude opt files (getToken ctype opt) xli = .ok xli') :
    ∃ notes, Notes opt files notes ∧ Adds ctype opt files xli xli' notes := by
  rw [beginInclude] at heq
  simp only at heq
  split at heq
  · cases heq
  rename_i text htext
  have hincludes : Includes files := ⟨_, _, htext⟩
  obtain ⟨xli₁, heq₁, heq⟩ := bind_eq_ok.1 heq
  obtain ⟨notes, hnotes, hadds⟩ := getToken_adds (by
    exact ⟨forall_mem_cons.2 ⟨notMem_delivered _ _, h.rest⟩, fun _ => hincludes⟩) heq₁
  split at heq
  · split at heq
    · cases heq
    · cases heq
      have hfile : Notes opt files [.file (.of xli.tok.name)] := by
        simpa [Notes, NoteOk] using .inr hincludes
      refine ⟨_, hnotes.append hfile, ⟨hadds.clean.rest, hadds.clean.prev⟩, hadds.tok, ?_⟩
      simp [Reader.insert, hadds.list]
  · cases heq
    exact ⟨notes, hnotes, hadds.clean, hadds.tok, hadds.list⟩

/-- With the steps given, `read_list` adds atoms that are readable where the list stands. -/
def ListAdds (ctype : Ctype) (opt : Opt) (files : WString → Option (List ℕ)) (fuel : ℕ) : Prop :=
  ∀ curkey override xli xli', Clean files xli → TokOk ctype opt.trait xli.tok →
    readList ctype opt files fuel curkey override xli = .ok xli' →
    ∃ new, AtomsOk ctype opt files curkey override (keys xli.list) new ∧
      Adds ctype opt files xli xli' new

theorem readPair_adds (ih : ∀ n < fuel, ListAdds ctype opt files n)
    {keytag : Option WString} (h : Clean files xli)
    (htok : TokOk ctype opt.trait xli.tok) (htag : TagOk ctype opt.trait.keyTag keytag)
    (heq : readPair ctype opt files fuel curkey keytag override xli = .ok xli') :
    ∃ new, AtomsOk ctype opt files curkey override (keys xli.list) new ∧
      Adds ctype opt files xli xli' new := by
  match fuel with
  | 0 => simp [readPair] at heq
  | fuel + 1 =>
    rw [readPair] at heq
    obtain ⟨scm, hscm, heq⟩ := bind_eq_ok.1 heq
    obtain ⟨u, hdup, heq⟩ := bind_eq_ok.1 heq
    obtain ⟨xli₁, heq₁, heq⟩ := bind_eq_ok.1 heq
    obtain ⟨⟨ali, xli₂⟩, heq₂, heq⟩ := bind_eq_ok.1 heq
    obtain ⟨notes₁, hnotes₁, hadds₁⟩ := getToken_adds (by exact ⟨h.rest, h.prev⟩) heq₁
    obtain ⟨notes₂, hnotes₂, hadds₂, hali⟩ := readAlias_adds hadds₁.clean hadds₁.tok heq₂
    have hnotes := hnotes₁.append hnotes₂
    have hkeys : keys xli₁.list = keys xli.list := by
      rw [hadds₁.list, keys_append, keys_notes hnotes₁, append_nil]
    have hlist : xli₂.list = xli.list ++ (notes₁ ++ notes₂) := by
      rw [hadds₂.list, hadds₁.list, append_assoc]
    have hhead : HeadOk ctype opt (keys xli.list) scm (.of xli.tok.name) ali keytag :=
      ⟨check_eq_ok.1 hdup, noCr_of htok.noCr, hkeys ▸ hali, htag⟩
    simp only at heq
    split at heq
    · obtain ⟨notes₃, notes₄, val, hnotes₃, hnotes₄, hval, hadds⟩ :=
        readStr_adds hadds₂.clean heq
      refine ⟨_, atomsOk_pair (hnotes.append hnotes₃) hnotes₄ hscm hhead hval,
        hadds.clean, hadds.tok, ?_⟩
      rw [hadds.list, hlist]
      simp
    · split at heq
      · cases heq
      rename_i hnolist
      obtain ⟨u₁, hvallist, heq⟩ := bind_eq_ok.1 heq
      obtain ⟨xli₃, heq₃, heq⟩ := bind_eq_ok.1 heq
      obtain ⟨xli₄, heq₄, heq⟩ := bind_eq_ok.1 heq
      obtain ⟨u₂, -, heq⟩ := bind_eq_ok.1 heq
      obtain ⟨xli₅, heq₅, heq⟩ := bind_eq_ok.1 heq
      obtain ⟨notes₃, hnotes₃, hadds₃⟩ :=
        getToken_adds (by exact ⟨hadds₂.clean.rest, hadds₂.clean.prev⟩) heq₃
      obtain ⟨atoms, hatoms, hadds₄⟩ := ih fuel (by omega) _ _ _ _ hadds₃.clean hadds₃.tok heq₄
      obtain ⟨notes₅, hnotes₅, hadds₅⟩ :=
        getToken_adds (by exact ⟨hadds₄.clean.rest, hadds₄.clean.prev⟩) heq₅
      have hinner : AtomsOk ctype opt files (dotted curkey (.of xli.tok.name)) (inner scm) []
          (notes₃ ++ atoms) := by
        refine (atomsOk_notes hnotes₃ _ _ _).append ?_
        simpa [hadds₃.list, inner] using hatoms
      have hval : ValOk ctype opt files (dotted curkey (.of xli.tok.name)) scm
          (.list false (notes₃ ++ atoms)) :=
        ⟨rfl, by simpa using hnolist, check_eq_ok.1 hvallist, hinner⟩
      have hlist₅ : xli₅.list = xli.list ++ ((notes₁ ++ notes₂) ++
          .pair (.of xli.tok.name) ali keytag (.list false (notes₃ ++ atoms)) 0 :: notes₅) := by
        rw [hadds₅.list]
        simp [hadds₄.list, hadds₃.list, hlist]
      split at heq
      · obtain ⟨notes₆, hnotes₆, hadds₆⟩ := getToken_adds hadds₅.clean heq
        refine ⟨_, atomsOk_pair hnotes (hnotes₅.append hnotes₆) hscm hhead hval,
          hadds₆.clean, hadds₆.tok, ?_⟩
        rw [hadds₆.list, hlist₅]
        simp
      · cases heq
        exact ⟨_, atomsOk_pair hnotes hnotes₅ hscm hhead hval, hadds₅.clean, hadds₅.tok, hlist₅⟩
    · obtain ⟨u₁, hnonil, heq⟩ := bind_eq_ok.1 heq
      obtain ⟨u₂, hvalnil, heq⟩ := bind_eq_ok.1 heq
      obtain ⟨notes₃, hnotes₃, hadds₃⟩ :=
        getToken_adds (by exact ⟨hadds₂.clean.rest, hadds₂.clean.prev⟩) heq
      have hval : ValOk ctype opt files (dotted curkey (.of xli.tok.name)) scm .nil :=
        ⟨by simpa using check_eq_ok.1 hnonil, check_eq_ok.1 hvalnil⟩
      refine ⟨_, atomsOk_pair hnotes hnotes₃ hscm hhead hval, hadds₃.clean, hadds₃.tok, ?_⟩
      rw [hadds₃.list]
      simp [Reader.insert, hlist]
    · cases heq

theorem listAdds_trans {xli₁ xli₂ : Reader}
    {new : List Atom} (hnew : AtomsOk ctype opt files curkey override (keys xli.list) new)
    (hadds : Adds ctype opt files xli xli₁ new)
    (hrest : ∃ new', AtomsOk ctype opt files curkey override (keys xli₁.list) new' ∧
      Adds ctype opt files xli₁ xli₂ new') :
    ∃ new', AtomsOk ctype opt files curkey override (keys xli.list) new' ∧
      Adds ctype opt files xli xli₂ new' := by
  obtain ⟨new', hnew', hadds'⟩ := hrest
  rw [hadds.list, keys_append] at hnew'
  exact ⟨_, hnew.append hnew', hadds.trans hadds'⟩

theorem tagOk_none {enabled : Bool} : TagOk ctype enabled none := by simp [TagOk]

theorem readList_adds (fuel : ℕ) : ListAdds ctype opt files fuel := by
  induction fuel using Nat.strong_induction_on with
  | _ fuel ih =>
    intro curkey override xli xli' h htok heq
    match fuel with
    | 0 => simp [readList] at heq
    | fuel + 1 =>
      have hlt : ∀ n < fuel, ListAdds ctype opt files n := fun n hn => ih n (by omega)
      have hself : Adds ctype opt files xli xli [] := ⟨h, htok, by simp⟩
      have hpair {curkey : List ℕ} {override : Option Scm} {xli₁ xli₂ : Reader}
          {keytag : Option WString} (h : Clean files xli₁) (htok : TokOk ctype opt.trait xli₁.tok)
          (htag : TagOk ctype opt.trait.keyTag keytag)
          (heq : (readPair ctype opt files fuel curkey keytag override xli₁ >>=
            readList ctype opt files fuel curkey override) = .ok xli₂) :
          ∃ new, AtomsOk ctype opt files curkey override (keys xli₁.list) new ∧
            Adds ctype opt files xli₁ xli₂ new := by
        obtain ⟨xli₃, heq₃, heq⟩ := bind_eq_ok.1 heq
        obtain ⟨new, hnew, hadds⟩ := readPair_adds hlt h htok htag heq₃
        exact listAdds_trans hnew hadds
          (ih fuel (by omega) _ _ _ _ hadds.clean hadds.tok heq)
      rw [readList] at heq
      split at heq
      · obtain ⟨xli₁, heq₁, heq⟩ := bind_eq_ok.1 heq
        obtain ⟨u, -, heq⟩ := bind_eq_ok.1 heq
        obtain ⟨xli₂, heq₂, heq⟩ := bind_eq_ok.1 heq
        obtain ⟨notes₁, hnotes₁, hadds₁⟩ := getToken_adds h heq₁
        obtain ⟨notes₂, hnotes₂, hadds₂⟩ := beginInclude_adds hadds₁.clean heq₂
        exact listAdds_trans (atomsOk_notes (hnotes₁.append hnotes₂) _ _ _)
          (hadds₁.trans hadds₂) (ih fuel (by omega) _ _ _ _ hadds₂.clean hadds₂.tok heq)
      · rename_i htype
        split at heq
        · rename_i henabled
          obtain ⟨xli₁, heq₁, heq⟩ := bind_eq_ok.1 heq
          obtain ⟨u, -, heq⟩ := bind_eq_ok.1 heq
          obtain ⟨notes, hnotes, hadds⟩ := getToken_adds h heq₁
          have htag : TagOk ctype opt.trait.keyTag (some (.of xli.tok.name)) := by
            intro t ht
            obtain rfl := Option.some.inj ht
            exact ⟨henabled, fun c hc => htok.tag htype c (mem_takeWhile hc)⟩
          exact listAdds_trans (atomsOk_notes hnotes _ _ _) hadds
            (hpair hadds.clean hadds.tok htag heq)
        · cases heq
          exact ⟨[], trivial, hself⟩
      · exact hpair h htok tagOk_none heq
      · exact hpair h htok tagOk_none heq
      · exact hpair h htok tagOk_none heq
      · obtain ⟨xli₁, heq₁, heq⟩ := bind_eq_ok.1 heq
        obtain ⟨notes, hnotes, hadds⟩ := getToken_adds h heq₁
        exact listAdds_trans (atomsOk_notes hnotes _ _ _) hadds
          (ih fuel (by omega) _ _ _ _ hadds.clean hadds.tok heq)
      · cases heq
        exact ⟨[], trivial, hself⟩

theorem read_ok {text : List ℕ} (h : read ctype opt files fuel text = .ok xli) :
    AtomsOk ctype opt files [] none [] xli.list := by
  obtain ⟨xli₁, heq₁, h⟩ := bind_eq_ok.1 h
  obtain ⟨xli₂, heq₂, h⟩ := bind_eq_ok.1 h
  obtain ⟨u, -, h⟩ := bind_eq_ok.1 h
  cases h
  have hinit : Clean files (.init text) :=
    ⟨by simpa [Reader.init, NoCr] using notMem_delivered _ _, by simp [Reader.init]⟩
  obtain ⟨notes, hnotes, hadds⟩ := getToken_adds hinit heq₁
  obtain ⟨new, hnew, hadds'⟩ :=
    listAdds_trans (atomsOk_notes hnotes _ _ _) hadds
      (readList_adds fuel _ _ _ _ hadds.clean hadds.tok heq₂)
  rw [hadds'.list]
  exact hnew

end Qse.Xli
