import Qse.Xli.Readable

/-!
# Trees that conform to a schema

What `qse_xli_definepair` and `QSE_XLI_VALIDATE` are for, and which of the trees that
`qse_xli_read` accepts keep to it.
-/

open Option

namespace Qse.Xli

variable {ctype : Ctype} {opt : Opt} {files : WString → Option (List ℕ)}

/-- `qse_xli_definepair`. -/
def definepair (schema : List ℕ → Option Scm) (fqpn : WString) (scm : Scm) :
    Option (List ℕ → Option Scm) :=
  if [scm.valList, scm.valStr, scm.valNil].count true = 1 then
    some fun name => if name = fqpn.chars then some scm else schema name
  else none

def definition (opt : Opt) (iffy : Bool) (name : List ℕ) : Option Scm :=
  if iffy then some scmValIffy else opt.schema name

def InBounds (scm : Scm) (count : ℕ) : Prop :=
  scm.strMinSeg.toInt ≤ count ∧ (count : ℤ) ≤ scm.strMaxSeg.toInt

/-- The value is one that the definition permits. A boolean value counts as a string of one
segment, and no value as a string of no segment. -/
def Permits (scm : Scm) : Val → Prop
  | .nil => scm.valNil = true ∨ scm.valStr = true ∧ scm.strMinSeg ≤ 0
  | .true => scm.valStr = true ∧ InBounds scm 1
  | .false => scm.valStr = true ∧ InBounds scm 1
  | .str _ next => scm.valStr = true ∧ InBounds scm (next.length + 1)
  | .list _ _ => scm.valList = true

def UniqueKey (ctype : Ctype) (opt : Opt) (others : List (WString × Option WString))
    (key : WString) : Prop :=
  ∀ p ∈ others, opt.same ctype p.1 key = false

def UniqueAlias (ctype : Ctype) (opt : Opt) (others : List (WString × Option WString))
    (key : WString) (ali : Option WString) : Prop :=
  ∃ a, ali = some a ∧ ∀ p ∈ others, opt.same ctype p.1 key = true →
    ∀ b, p.2 = some b → opt.same ctype b a = false

mutual

/-- The pairs in a value conform, when the pair itself has the dotted name `curkey`. -/
def ValConforms (ctype : Ctype) (opt : Opt) (curkey : List ℕ) (scm : Scm) : Val → Prop
  | .nil => True
  | .true => True
  | .false => True
  | .str _ _ => True
  | .list _ atoms => Conforms ctype opt curkey scm.valIffy [] atoms

/-- The pairs of a list conform, when pairs with the keys `seen` stand in front of them. -/
def Conforms (ctype : Ctype) (opt : Opt) (curkey : List ℕ) (iffy : Bool) :
    List (WString × Option WString) → List Atom → Prop
  | _, [] => True
  | seen, .pair key ali _ val _ :: rest =>
    (∃ scm, definition opt iffy (dotted curkey key) = some scm ∧ Permits scm val ∧
      (scm.keyNoDup = true → UniqueKey ctype opt (seen ++ keys rest) key) ∧
      (scm.keyAlias = true → UniqueAlias ctype opt (seen ++ keys rest) key ali) ∧
      ValConforms ctype opt (dotted curkey key) scm val) ∧
    Conforms ctype opt curkey iffy (seen ++ [(key, ali)]) rest
  | seen, .text _ _ :: rest => Conforms ctype opt curkey iffy seen rest
  | seen, .file _ :: rest => Conforms ctype opt curkey iffy seen rest
  | seen, .eof :: rest => Conforms ctype opt curkey iffy seen rest

end

/-- A boolean value stands where a string of one segment is permitted, and no string where
the greatest number of segments is negative. -/
def Guarded (scm : Scm) : Val → Prop
  | .nil => True
  | .true => scm.valStr = true ∧ InBounds scm 1
  | .false => scm.valStr = true ∧ InBounds scm 1
  | .str _ _ => 0 ≤ scm.strMaxSeg.toInt
  | .list _ _ => True

/-- Behind a pair whose key must be unique, the key of a pair that has the same key must be unique,
too. -/
def Agreed (ctype : Ctype) (opt : Opt) (curkey : List ℕ) (iffy : Bool) (scm : Scm)
    (key : WString) (rest : List (WString × Option WString)) : Prop :=
  scm.keyNoDup = true → ∀ p ∈ rest, opt.same ctype p.1 key = true →
    ∀ scm', definition opt iffy (dotted curkey p.1) = some scm' → scm'.keyNoDup = true

mutual

def ValSafe (ctype : Ctype) (opt : Opt) (curkey : List ℕ) (scm : Scm) : Val → Prop
  | .nil => True
  | .true => True
  | .false => True
  | .str _ _ => True
  | .list _ atoms => Safe ctype opt curkey scm.valIffy atoms

def Safe (ctype : Ctype) (opt : Opt) (curkey : List ℕ) (iffy : Bool) : List Atom → Prop
  | [] => True
  | .pair key _ _ val _ :: rest =>
    (∀ scm, definition opt iffy (dotted curkey key) = some scm →
      Guarded scm val ∧ Agreed ctype opt curkey iffy scm key (keys rest) ∧
        ValSafe ctype opt (dotted curkey key) scm val) ∧
    Safe ctype opt curkey iffy rest
  | .text _ _ :: rest => Safe ctype opt curkey iffy rest
  | .file _ :: rest => Safe ctype opt curkey iffy rest
  | .eof :: rest => Safe ctype opt curkey iffy rest

end

/-! ## Keys -/

theorem same_comm (ctype : Ctype) (opt : Opt) (s t : WString) :
    opt.same ctype s t = opt.same ctype t s := by
  simp only [Opt.same]
  split <;> exact Bool.beq_comm

variable {seen : List (WString × Option WString)} {key : WString} {scm : Scm} {curkey : List ℕ}

theorem newKey_iff : newKey ctype opt seen key = true ↔ UniqueKey ctype opt seen key := by
  simp [newKey, UniqueKey]

theorem findScm_eq_ok (hvalidate : opt.trait.validate = true) {iffy : Bool} {name : List ℕ}
    {scm : Option Scm} (h : findScm opt (if iffy then some scmValIffy else none) name = .ok scm) :
    ∃ s, scm = some s ∧ definition opt iffy name = some s := by
  unfold findScm at h
  rw [if_pos hvalidate] at h
  rw [definition]
  cases iffy with
  | true =>
    cases h
    exact ⟨_, rfl, rfl⟩
  | false =>
    cases hs : opt.schema name with
    | none => simp [hs] at h
    | some s =>
      simp only [Bool.false_eq_true, if_false, hs] at h
      cases h
      exact ⟨s, rfl, by simp⟩

theorem atomsOk_later {override : Option Scm} {atoms : List Atom}
    (h : AtomsOk ctype opt files curkey override seen atoms) {p : WString × Option WString}
    (hp : p ∈ keys atoms) :
    ∃ scm seen', (∀ q ∈ seen, q ∈ seen') ∧ findScm opt override (dotted curkey p.1) = .ok scm ∧
      (flag scm Scm.keyNoDup = true → UniqueKey ctype opt seen' p.1) ∧
      AliasOk ctype opt seen' scm p.1 p.2 := by
  induction atoms generalizing seen with
  | nil => simp [keys] at hp
  | cons atom atoms ih =>
    cases atom with
    | pair key ali tag val xtn =>
      obtain ⟨⟨scm, hscm, ⟨hkey, -, hali, -⟩, -⟩, -, hrest⟩ := h
      rw [keys, List.mem_cons] at hp
      rcases hp with rfl | hp
      · refine ⟨scm, seen, fun q hq => hq, hscm, fun hflag => ?_, hali⟩
        exact newKey_iff.1 (by simpa [hflag] using hkey)
      · obtain ⟨scm', seen', hsub, hlater⟩ := ih hrest hp
        exact ⟨scm', seen', fun q hq => hsub q (List.mem_append_left _ hq), hlater⟩
    | text flags ptr | file path | eof => exact ih h.2 hp

theorem uniqueAlias {override : Option Scm} {ali : Option WString} {rest : List Atom}
    (halias : scm.keyAlias = true) (hali : AliasOk ctype opt seen (some scm) key ali)
    (hrest : AtomsOk ctype opt files curkey override (seen ++ [(key, ali)]) rest) :
    UniqueAlias ctype opt (seen ++ keys rest) key ali := by
  cases ali with
  | none => simp [AliasOk, flag, halias] at hali
  | some a =>
    refine ⟨a, rfl, fun p hp hsame b hb => ?_⟩
    rcases List.mem_append.1 hp with hp | hp
    · have hnew := hali.2.1
      simp only [newAlias, List.all_eq_true] at hnew
      simpa [hsame, hb] using hnew p hp
    · obtain ⟨scm', seen', hsub, -, -, hali'⟩ := atomsOk_later hrest hp
      rw [hb] at hali'
      have hnew := hali'.2.1
      simp only [newAlias, List.all_eq_true] at hnew
      have hlast := hnew (key, some a) (hsub _ (by simp))
      rw [same_comm] at hsame
      rw [same_comm]
      simpa [hsame] using hlast

theorem uniqueKey_iff (hvalidate : opt.trait.validate = true) {iffy : Bool} {ali : Option WString}
    {rest : List Atom}
    (hkey : (!(opt.trait.keyNoDup || scm.keyNoDup) || newKey ctype opt seen key) = true)
    (hrest : AtomsOk ctype opt files curkey (if iffy then some scmValIffy else none)
      (seen ++ [(key, ali)]) rest) :
    (scm.keyNoDup = true → UniqueKey ctype opt (seen ++ keys rest) key) ↔
      Agreed ctype opt curkey iffy scm key (keys rest) := by
  refine forall_congr' fun hnodup => ⟨fun h p hp hsame => ?_, fun h p hp => ?_⟩
  · rw [h p (List.mem_append_right _ hp)] at hsame
    cases hsame
  · rcases List.mem_append.1 hp with hp | hp
    · exact newKey_iff.1 (by simpa [hnodup] using hkey) p hp
    · by_contra hsame
      rw [Bool.not_eq_false] at hsame
      obtain ⟨scm', seen', hsub, hscm', hunique, -⟩ := atomsOk_later hrest hp
      obtain ⟨s, rfl, hdef⟩ := findScm_eq_ok hvalidate hscm'
      have hlast := hunique (h p hp hsame s hdef) (key, ali) (hsub _ (by simp))
      rw [same_comm, hsame] at hlast
      cases hlast

theorem le_sizeOfInt (n : Int32) : n.toInt ≤ sizeOfInt n := by
  have hlo := n.le_toInt
  have hhi := n.toInt_lt
  rw [sizeOfInt]
  omega

theorem sizeOfInt_of_nonneg {n : Int32} (h : 0 ≤ n.toInt) : (sizeOfInt n : ℤ) = n.toInt := by
  have hhi := n.toInt_lt
  rw [sizeOfInt]
  omega

theorem permits_iff {val : Val}
    (h : ValOk ctype opt files curkey (some scm) val) : Permits scm val ↔ Guarded scm val := by
  cases val with
  | nil =>
    obtain ⟨-, hnil⟩ := h
    simpa [Permits, Guarded] using hnil
  | true | false => exact Iff.rfl
  | str first next =>
    obtain ⟨-, -, -, hstr, hcount⟩ := h
    simp only [all_some] at hstr
    simp only [segCount, all_some, Bool.and_eq_true, decide_eq_true_eq] at hcount
    have hmin := le_sizeOfInt scm.strMinSeg
    refine ⟨fun hp => ?_, fun hmax => ⟨hstr, ?_, ?_⟩⟩
    · have hmax := hp.2.2
      simp only [Guarded]
      omega
    · omega
    · have heq := sizeOfInt_of_nonneg hmax
      omega
  | list arrayed atoms =>
    obtain ⟨-, -, hlist, -⟩ := h
    simpa [Permits, Guarded] using hlist

mutual

theorem valConforms_iff (hvalidate : opt.trait.validate = true) {curkey : List ℕ} {scm : Scm} :
    ∀ {val : Val}, ValOk ctype opt files curkey (some scm) val →
      (ValConforms ctype opt curkey scm val ↔ ValSafe ctype opt curkey scm val)
  | .nil, _ => Iff.rfl
  | .true, _ => Iff.rfl
  | .false, _ => Iff.rfl
  | .str _ _, _ => Iff.rfl
  | .list _ _, h => atomsConform_iff hvalidate h.2.2.2

theorem atomsConform_iff (hvalidate : opt.trait.validate = true) {curkey : List ℕ} {iffy : Bool} :
    ∀ {seen : List (WString × Option WString)} {atoms : List Atom},
      AtomsOk ctype opt files curkey (if iffy then some scmValIffy else none) seen atoms →
      (Conforms ctype opt curkey iffy seen atoms ↔ Safe ctype opt curkey iffy atoms)
  | _, [], _ => Iff.rfl
  | seen, .pair key ali _ val _ :: rest, h => by
    obtain ⟨⟨scm, hscm, ⟨hkey, -, hali, -⟩, hval⟩, -, hrest⟩ := h
    obtain ⟨s, rfl, hdef⟩ := findScm_eq_ok hvalidate hscm
    refine and_congr ?_ (atomsConform_iff hvalidate hrest)
    have hpermits := permits_iff hval
    have hunique := uniqueKey_iff hvalidate (by simpa [flag] using hkey) hrest
    have hinner := valConforms_iff hvalidate hval
    rw [hdef]
    refine ⟨fun ⟨s', hs', hp, hu, _, hv⟩ s'' hs'' => ?_, fun hsafe => ?_⟩
    · obtain rfl := some.inj hs'
      obtain rfl := some.inj hs''
      exact ⟨hpermits.1 hp, hunique.1 hu, hinner.1 hv⟩
    · obtain ⟨hg, ha, hv⟩ := hsafe s rfl
      exact ⟨s, rfl, hpermits.2 hg, hunique.2 ha, fun halias => uniqueAlias halias hali hrest,
        hinner.2 hv⟩
  | _, .text _ _ :: _, h => by
    rw [Conforms, Safe]
    exact atomsConform_iff hvalidate h.2
  | _, .file _ :: _, h => by
    rw [Conforms, Safe]
    exact atomsConform_iff hvalidate h.2
  | _, .eof :: _, h => by
    rw [Conforms, Safe]
    exact atomsConform_iff hvalidate h.2

end

/-! ## Without a schema -/

/-- The options with which every alias is read and nothing is checked against a schema -/
def Opt.unchecked (opt : Opt) : Opt :=
  { opt with trait := { opt.trait with validate := false, keyNoDup := false, keyAlias := true } }

theorem getTokenFrom_unchecked (ctype : Ctype) (opt : Opt) (prev : List RioArg) (semicolon : Bool)
    (xli : Reader) :
    getTokenFrom ctype opt.unchecked prev semicolon xli =
      getTokenFrom ctype opt prev semicolon xli := by
  induction prev generalizing semicolon xli with
  | nil => rfl
  | cons arg prev ih =>
    rw [getTokenFrom, getTokenFrom]
    simp only [ih]
    rfl

theorem getToken_unchecked (ctype : Ctype) (opt : Opt) :
    getToken ctype opt.unchecked = getToken ctype opt :=
  funext fun xli => getTokenFrom_unchecked ctype opt xli.prev false xli

theorem readStrTag_unchecked (ctype : Ctype) (opt : Opt) (xli : Reader) :
    readStrTag ctype opt.unchecked xli = readStrTag ctype opt xli := by
  simp only [readStrTag, getToken_unchecked]
  rfl

theorem readSegs_unchecked (ctype : Ctype) (opt : Opt) (fuel : ℕ) (segs : List Str) (xli : Reader) :
    readSegs ctype opt.unchecked fuel segs xli = readSegs ctype opt fuel segs xli := by
  induction fuel generalizing segs xli with
  | zero => rfl
  | succ fuel ih =>
    simp only [readSegs, getToken_unchecked, readStrTag_unchecked, ih]
    rfl

section Plain

variable {fuel : ℕ} {scm override : Option Scm} {key : WString} {ali tag : Option WString}
  {xli xli' : Reader} {curkey : List ℕ}

theorem readAlias_unchecked (h : readAlias ctype opt scm key xli = .ok (ali, xli'))
    (hnot : isString xli'.tok.type = false) :
    readAlias ctype opt.unchecked none key xli = .ok (ali, xli') := by
  have hon : (opt.unchecked.trait.keyAlias || flag none Scm.keyAlias) = true := rfl
  rw [readAlias] at h
  rw [readAlias, if_pos hon, getToken_unchecked]
  split at h
  · split at h
    · rename_i hstring
      rw [if_pos hstring]
      exact h
    · rename_i hstring
      rw [if_neg hstring]
      split at h
      · cases h
      · exact h
  · cases h
    rw [if_neg (Bool.eq_false_iff.1 hnot)]
    rfl

theorem readStr_unchecked (h : readStr ctype opt fuel scm key ali tag xli = .ok xli') :
    readStr ctype opt.unchecked fuel none key ali tag xli = .ok xli' := by
  rw [readStr] at h
  rw [readStr]
  simp only [getToken_unchecked, readStrTag_unchecked, readSegs_unchecked]
  obtain ⟨xli₁, h₁, h⟩ := bind_eq_ok.1 h
  obtain ⟨⟨strtag, xli₂⟩, h₂, h⟩ := bind_eq_ok.1 h
  refine bind_eq_ok.2 ⟨xli₁, h₁, bind_eq_ok.2 ⟨(strtag, xli₂), h₂, ?_⟩⟩
  simp only at h ⊢
  split at h
  · rename_i hbool
    rw [if_pos hbool]
    exact h
  rename_i hbool
  obtain ⟨u₁, hstr, h⟩ := bind_eq_ok.1 h
  obtain ⟨u₂, -, h⟩ := bind_eq_ok.1 h
  obtain ⟨xli₃, h₃, h⟩ := bind_eq_ok.1 h
  obtain ⟨⟨next, xli₄⟩, h₄, h⟩ := bind_eq_ok.1 h
  obtain ⟨u₃, hend, h⟩ := bind_eq_ok.1 h
  obtain ⟨u₄, -, h⟩ := bind_eq_ok.1 h
  rw [if_neg hbool]
  exact bind_eq_ok.2 ⟨u₁, hstr, bind_eq_ok.2 ⟨(), rfl, bind_eq_ok.2 ⟨xli₃, h₃,
    bind_eq_ok.2 ⟨(next, xli₄), h₄, bind_eq_ok.2 ⟨u₃, hend, bind_eq_ok.2 ⟨(), rfl, h⟩⟩⟩⟩⟩⟩

theorem beginInclude_unchecked (opt : Opt) (files : WString → Option (List ℕ))
    (getToken : Reader → Except Stop Reader) :
    beginInclude opt.unchecked files getToken = beginInclude opt files getToken := rfl

theorem readPair_unchecked
    (ih : ∀ {curkey : List ℕ} {override : Option Scm} {xli xli' : Reader},
      readList ctype opt files fuel curkey override xli = .ok xli' →
        readList ctype opt.unchecked files fuel curkey none xli = .ok xli')
    (h : readPair ctype opt files (fuel + 1) curkey tag override xli = .ok xli') :
    readPair ctype opt.unchecked files (fuel + 1) curkey tag none xli = .ok xli' := by
  rw [readPair] at h
  obtain ⟨scm, -, h⟩ := bind_eq_ok.1 h
  obtain ⟨u, -, h⟩ := bind_eq_ok.1 h
  obtain ⟨xli₁, h₁, h⟩ := bind_eq_ok.1 h
  obtain ⟨⟨ali, xli₂⟩, h₂, h⟩ := bind_eq_ok.1 h
  simp only at h
  have hnot : isString xli₂.tok.type = false := by
    split at h
    all_goals simp_all [isString]
  rw [readPair]
  refine bind_eq_ok.2 ⟨none, rfl, bind_eq_ok.2 ⟨(), rfl, ?_⟩⟩
  rw [getToken_unchecked]
  refine bind_eq_ok.2 ⟨xli₁, h₁, bind_eq_ok.2 ⟨(ali, xli₂), readAlias_unchecked h₂ hnot, ?_⟩⟩
  simp only
  split at h
  · exact readStr_unchecked h
  · split at h
    · cases h
    · rename_i hlist
      obtain ⟨u₁, -, h⟩ := bind_eq_ok.1 h
      obtain ⟨xli₃, h₃, h⟩ := bind_eq_ok.1 h
      obtain ⟨xli₄, h₄, h⟩ := bind_eq_ok.1 h
      obtain ⟨u₂, hend, h⟩ := bind_eq_ok.1 h
      rw [if_neg (by exact hlist)]
      exact bind_eq_ok.2 ⟨(), rfl, bind_eq_ok.2 ⟨xli₃, h₃, bind_eq_ok.2 ⟨xli₄, ih h₄,
        bind_eq_ok.2 ⟨u₂, hend, h⟩⟩⟩⟩
  · obtain ⟨u₁, hnil, h⟩ := bind_eq_ok.1 h
    obtain ⟨u₂, -, h⟩ := bind_eq_ok.1 h
    exact bind_eq_ok.2 ⟨u₁, hnil, bind_eq_ok.2 ⟨(), rfl, h⟩⟩
  · cases h

theorem readList_unchecked (h : readList ctype opt files fuel curkey override xli = .ok xli') :
    readList ctype opt.unchecked files fuel curkey none xli = .ok xli' := by
  induction fuel using Nat.strong_induction_on generalizing curkey override xli xli' with
  | _ fuel ih =>
    cases fuel with
    | zero => simp [readList] at h
    | succ fuel =>
      have hpair {tag : Option WString} {xli xli' : Reader}
          (h : readPair ctype opt files fuel curkey tag override xli = .ok xli') :
          readPair ctype opt.unchecked files fuel curkey tag none xli = .ok xli' := by
        cases fuel with
        | zero => simp [readPair] at h
        | succ fuel => exact readPair_unchecked (fun h => ih fuel (by omega) h) h
      have hrest {xli xli' : Reader}
          (h : readList ctype opt files fuel curkey override xli = .ok xli') :
          readList ctype opt.unchecked files fuel curkey none xli = .ok xli' :=
        ih fuel (Nat.lt_succ_self fuel) h
      rw [readList] at h
      rw [readList, getToken_unchecked]
      split at h
      · obtain ⟨xli₁, h₁, h⟩ := bind_eq_ok.1 h
        obtain ⟨u, hstr, h⟩ := bind_eq_ok.1 h
        obtain ⟨xli₂, h₂, h⟩ := bind_eq_ok.1 h
        exact bind_eq_ok.2 ⟨xli₁, h₁, bind_eq_ok.2 ⟨u, hstr, bind_eq_ok.2 ⟨xli₂, h₂, hrest h⟩⟩⟩
      · split at h
        · rename_i htag
          obtain ⟨xli₁, h₁, h⟩ := bind_eq_ok.1 h
          obtain ⟨u, hkey, h⟩ := bind_eq_ok.1 h
          obtain ⟨xli₂, h₂, h⟩ := bind_eq_ok.1 h
          rw [if_pos (by exact htag)]
          exact bind_eq_ok.2 ⟨xli₁, h₁, bind_eq_ok.2 ⟨u, hkey,
            bind_eq_ok.2 ⟨xli₂, hpair h₂, hrest h⟩⟩⟩
        · rename_i htag
          rw [if_neg (by exact htag)]
          exact h
      · obtain ⟨xli₁, h₁, h⟩ := bind_eq_ok.1 h
        exact bind_eq_ok.2 ⟨xli₁, hpair h₁, hrest h⟩
      · obtain ⟨xli₁, h₁, h⟩ := bind_eq_ok.1 h
        exact bind_eq_ok.2 ⟨xli₁, hpair h₁, hrest h⟩
      · obtain ⟨xli₁, h₁, h⟩ := bind_eq_ok.1 h
        exact bind_eq_ok.2 ⟨xli₁, hpair h₁, hrest h⟩
      · obtain ⟨xli₁, h₁, h⟩ := bind_eq_ok.1 h
        exact bind_eq_ok.2 ⟨xli₁, h₁, hrest h⟩
      · exact h

theorem read_unchecked {text : List ℕ} (h : read ctype opt files fuel text = .ok xli) :
    read ctype opt.unchecked files fuel text = .ok xli := by
  rw [read] at h
  rw [read, getToken_unchecked]
  obtain ⟨xli₁, h₁, h⟩ := bind_eq_ok.1 h
  obtain ⟨xli₂, h₂, h⟩ := bind_eq_ok.1 h
  exact bind_eq_ok.2 ⟨xli₁, h₁, bind_eq_ok.2 ⟨xli₂, readList_unchecked h₂, h⟩⟩

end Plain

/-! ## Reading -/

/-- A tree that is read conforms to the schema if and only if the text, as it is read without a
schema, has none of the pairs that the reader should have checked. -/
theorem conforms_iff (hvalidate : opt.trait.validate = true) {fuel : ℕ} {text : List ℕ}
    {xli : Reader} (h : read ctype opt files fuel text = .ok xli) :
    ∃ plain, read ctype opt.unchecked files fuel text = .ok plain ∧
      (Conforms ctype opt [] false [] xli.list ↔ Safe ctype opt [] false plain.list) :=
  ⟨xli, read_unchecked h, atomsConform_iff hvalidate (read_ok h)⟩

theorem safe_pair {iffy : Bool} {ali tag : Option WString} {val : Val} {xtn : ℕ} {rest : List Atom}
    (hdef : definition opt iffy (dotted curkey key) = some scm) (hguarded : Guarded scm val)
    (hagreed : Agreed ctype opt curkey iffy scm key (keys rest))
    (hval : ValSafe ctype opt (dotted curkey key) scm val)
    (hrest : Safe ctype opt curkey iffy rest) :
    Safe ctype opt curkey iffy (.pair key ali tag val xtn :: rest) := by
  refine ⟨fun scm' hscm' => ?_, hrest⟩
  obtain rfl := some.inj (hdef.symm.trans hscm')
  exact ⟨hguarded, hagreed, hval⟩

def oneScm (list : Bool) : Scm := ⟨false, !list, list, false, false, false, 1, 1⟩

def oneSchema (scm : Scm) (name : List ℕ) : Option Scm := if name = wts "a" then some scm else none

def validating (scm : Scm) : Opt :=
  ⟨{ Trait.none with validate := true, boolean := true }, none, oneSchema scm⟩

def onlyTrue : List Atom → Option WString
  | [.pair key _ _ .true _] => some key
  | _ => none

theorem onlyTrue_eq_some {atoms : List Atom} (h : onlyTrue atoms = some key) :
    ∃ ali tag xtn, atoms = [.pair key ali tag .true xtn] := by
  unfold onlyTrue at h
  split at h
  · cases h
    exact ⟨_, _, _, rfl⟩
  · cases h

theorem read_view {α : Type} {opt : Opt} {fuel : ℕ} {text : List ℕ} {view : List Atom → Option α}
    {a : α} (h : (read Ctype.ascii opt (fun _ => none) fuel text).toOption.bind
      (fun xli => view xli.list) = some a) :
    ∃ xli, read Ctype.ascii opt (fun _ => none) fuel text = .ok xli ∧ view xli.list = some a := by
  cases hread : read Ctype.ascii opt (fun _ => none) fuel text with
  | error e => simp [hread, Except.toOption] at h
  | ok xli =>
    rw [hread] at h
    exact ⟨xli, rfl, h⟩

def onceScm : Scm := ⟨false, true, false, true, false, false, 1, 1⟩

def aliasScm : Scm := ⟨false, false, true, false, true, false, 1, 1⟩

def nestedSchema (name : List ℕ) : Option Scm :=
  if name = wts "a" ∨ name = wts "b.c" then some onceScm
  else if name = wts "b" then some (oneScm true)
  else if name = wts "b.d" then some aliasScm
  else none

def nestedOpt : Opt :=
  ⟨{ Trait.none with validate := true, boolean := true, caseInsensitive := true }, none,
    nestedSchema⟩

def nestedPairs : List Atom → Option (WString × List ℕ × List WString)
  | [.pair a none none (.str ⟨ptr, none, false⟩ []) 0, .pair b none none (.list false
      [.pair c none none .true 0, .pair d (some e) none (.list false []) 0]) 0] =>
    some (a, ptr, [b, c, d, e])
  | _ => none

theorem nestedPairs_eq_some {atoms : List Atom} {a b c d e : WString} {ptr : List ℕ}
    (h : nestedPairs atoms = some (a, ptr, [b, c, d, e])) :
    atoms = [.pair a none none (.str ⟨ptr, none, false⟩ []) 0, .pair b none none (.list false
      [.pair c none none .true 0, .pair d (some e) none (.list false []) 0]) 0] := by
  unfold nestedPairs at h
  split at h
  · cases h
    rfl
  · cases h

theorem conforms_iff_nested :
    ∃ xli, read Ctype.ascii nestedOpt (fun _ => none) 9
        (wts "a = \"x\\\"y\"; b { c = true; d e { } }") = .ok xli ∧
      Conforms Ctype.ascii nestedOpt [] false [] xli.list := by
  obtain ⟨xli, hread, hview⟩ := @read_view _ nestedOpt 9
    (wts "a = \"x\\\"y\"; b { c = true; d e { } }") nestedPairs (.of (wts "a"), wts "x\"y",
      [.of (wts "b"), .of (wts "c"), .of (wts "d"), .of (wts "e")]) (by decide +kernel)
  obtain ⟨plain, hplain, hiff⟩ := conforms_iff rfl hread
  obtain rfl := Except.ok.inj ((read_unchecked hread).symm.trans hplain)
  refine ⟨xli, hread, hiff.2 ?_⟩
  rw [nestedPairs_eq_some hview]
  have hc : definition nestedOpt false (dotted (dotted [] (.of (wts "b"))) (.of (wts "c"))) =
      some onceScm := by decide
  have hd : definition nestedOpt false (dotted (dotted [] (.of (wts "b"))) (.of (wts "d"))) =
      some aliasScm := by decide
  have ha : definition nestedOpt false (dotted [] (.of (wts "a"))) = some onceScm := by decide
  have hb : definition nestedOpt false (dotted [] (.of (wts "b"))) = some (oneScm true) := by decide
  have hlist : Safe Ctype.ascii nestedOpt (dotted [] (.of (wts "b"))) false
      [.pair (.of (wts "c")) none none .true 0,
        .pair (.of (wts "d")) (some (.of (wts "e"))) none (.list false []) 0] := by
    refine safe_pair hc ⟨rfl, by decide, by decide⟩ ?_ trivial
      (safe_pair hd trivial (fun h => by cases h) trivial trivial)
    simp only [Agreed, keys]
    decide
  refine safe_pair ha (show (0 : ℤ) ≤ Int32.toInt 1 by decide) ?_ trivial
    (safe_pair hb trivial (fun h => by cases h) hlist trivial)
  simp only [Agreed, keys]
  decide

/-- A boolean value is accepted where the definition permits a list only. -/
theorem not_conforms_boolean :
    definepair (fun _ => none) (.of (wts "a")) (oneScm true) =
        some (validating (oneScm true)).schema ∧
      ∃ xli, read Ctype.ascii (validating (oneScm true)) (fun _ => none) 2 (wts "a = true;") =
          .ok xli ∧ ¬Conforms Ctype.ascii (validating (oneScm true)) [] false [] xli.list := by
  obtain ⟨xli, hread, hview⟩ := @read_view _ (validating (oneScm true)) 2 (wts "a = true;") onlyTrue
    (.of (wts "a")) (by decide +kernel)
  obtain ⟨ali, tag, xtn, hlist⟩ := onlyTrue_eq_some hview
  refine ⟨rfl, xli, hread, ?_⟩
  rw [hlist]
  rintro ⟨⟨scm, hscm, hpermits, -⟩, -⟩
  have hdef : definition (validating (oneScm true)) false
      (dotted [] (.of (wts "a"))) = some (oneScm true) := by decide
  obtain rfl := some.inj (hdef.symm.trans hscm)
  exact absurd hpermits.1 (by decide)

end Qse.Xli
