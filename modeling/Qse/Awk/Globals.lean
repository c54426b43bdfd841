import Qse.Awk.Compare

/-!
# Special variables

A translation of `set_global` in `lib/awk/run.c` for the special variables whose values are kept a
second time in `gbl`. A compiled regular expression is given as the text that it was compiled from.
-/

namespace Qse.Awk

inductive Gbl where
  | convfmt
  | fs
  | ignorecase
  | ofmt
  | ofs
  | ors
  | rs
  | striprecspc
  | subsep
deriving DecidableEq

/-- What the conversion of values depends on besides `CONVFMT` -/
structure Conv (F : Type) where
  /-- `QSE_AWK_FLEXMAP` and `QSE_AWK_STRIPSTRSPC` -/
  flexmap : Bool
  strip : Bool
  ctype : Ctype
  mctype : Ctype
  flt : Flt F
  wcs : List UInt8 → List UInt32
  name : ℕ → List UInt32

variable {F : Type}

def Content.isNil : Content F → Bool
  | .nil => true
  | _ => false

def Content.isRef : Content F → Bool
  | .ref _ _ => true
  | _ => false

/-- A value that can be assigned. -/
structure Val (F : Type) where
  ptr : Vtr
  content : Content F
  direct : content.isRef = false

def Val.nil : Val F := ⟨.pointer valNil, .nil, rfl⟩

namespace Conv

variable (conv : Conv F)

/-- `qse_awk_rtx_valtostr`, but for the memory -/
def valtostr (convfmt : List UInt32) : Content F → Option (List UInt32)
  | .nil => some []
  | .int v => some (intToStr v)
  | .flt f => conv.flt.format convfmt f
  | .str text => some text
  | .mbs text => some (conv.wcs text)
  | .fn f => some (conv.name f)
  | .map _ => if conv.flexmap then some ['#'.val, 'M'.val, 'A'.val, 'P'.val] else none
  | .rex _ _ => none
  | .ref _ _ => none

def valtonum : Content F → Option (Num F)
  | .nil => some (.int 0)
  | .int v => some (.int v)
  | .flt f => some (.flt f)
  | .str text => strtonum conv.ctype conv.strip conv.flt false 0 text
  | .mbs text => strtonum conv.mctype conv.strip conv.flt false 0 (ofBytes text)
  | .fn _ => none
  | .map pairs => if conv.flexmap then some (.int (mapSize pairs)) else none
  | .rex _ _ => none
  | .ref _ _ => none

def sign : Num F → ℤ
  | .int l => if l > 0 then 1 else if l < 0 then -1 else 0
  | .flt r =>
    if conv.flt.gt r (conv.flt.ofInt 0) then 1
    else if conv.flt.gt (conv.flt.ofInt 0) r then -1
    else 0

end Conv

/-- A field separator is a regular expression if it has more than one character, and is not a
question mark and four others. -/
def fsIsRex (fs : List UInt32) : Bool :=
  fs.length > 1 && !(fs.length = 5 && fs.head? = some '?'.val)

/-- A record separator is a regular expression if it has more than one character. -/
def rsIsRex (rs : List UInt32) : Bool := rs.length > 1

/-- The second copies in `gbl` -/
structure Copies where
  convfmt : List UInt32
  ofmt : List UInt32
  ofs : List UInt32
  ors : List UInt32
  subsep : List UInt32
  fs : Option (List UInt32)
  rs : Option (List UInt32)
  ignorecase : ℤ
  striprecspc : ℤ
deriving DecidableEq

structure Globals (F : Type) where
  slot : Gbl → Val F
  gbl : Copies

/-- The variables in front of `init_globals` -/
def Globals.open : Globals F where
  slot _ := .nil
  gbl := ⟨[], [], [], [], [], none, none, 0, -1⟩

/-- A call of `set_global`, with what comes of the calls it makes: whether the memory for a text
is granted and whether `qse_awk_buildrex` makes a regular expression -/
structure SetGlobal (F : Type) where
  id : Gbl
  val : Val F
  assign : Bool
  dup : Bool
  rex : Bool

namespace Globals

variable (conv : Conv F) (s : Globals F) (c : SetGlobal F)

/-- A map is not assigned, and neither is another value to a map. -/
def refused : Bool :=
  let old := (s.slot c.id).content
  (!conv.flexmap &&
    if c.val.content.isMap then !(old.isNil || (!c.assign && old.isMap)) else old.isMap) ||
  c.val.content.isMap

def dupText : Option (List UInt32) :=
  if c.dup then conv.valtostr s.gbl.convfmt c.val.content else none

def sepText : Except Stop (Option (List UInt32)) :=
  match c.val.content with
  | .str text => .ok (some text)
  | .rex _ _ => .error .assert
  | _ => .ok (s.dupText conv c)

def store (gbl : Copies) : Globals F := ⟨Function.update s.slot c.id c.val, gbl⟩

/-- An assignment of a text, which may have to be free of null characters -/
def setText (noNul : Bool) (copy : List UInt32 → Copies) : Globals F × Bool :=
  match s.dupText conv c with
  | none => (s, false)
  | some text => if noNul ∧ 0 ∈ text then (s, false) else (s.store c (copy text), true)

def setSign (copy : ℤ → Copies) : Globals F × Bool :=
  match conv.valtonum c.val.content with
  | none => (s, false)
  | some num => (s.store c (copy (conv.sign num)), true)

/-- `set_global`, and whether it succeeds -/
def setGlobal : Except Stop (Globals F × Bool) :=
  if s.refused conv c then .ok (s, false)
  else if (s.slot c.id).ptr = c.val.ptr then .ok (s, true)
  else
    match c.id with
    | .convfmt => .ok (s.setText conv c true fun text => { s.gbl with convfmt := text })
    | .fs => do
      match ← s.sepText conv c with
      | none => .ok (s, false)
      | some fs =>
        if fsIsRex fs then
          if c.rex then .ok (s.store c { s.gbl with fs := some fs }, true)
          else .ok (s, false)
        else .ok (s.store c s.gbl, true)
    | .ignorecase => .ok (s.setSign conv c fun sign => { s.gbl with ignorecase := sign })
    | .ofmt => .ok (s.setText conv c true fun text => { s.gbl with ofmt := text })
    | .ofs => .ok (s.setText conv c false fun text => { s.gbl with ofs := text })
    | .ors => .ok (s.setText conv c false fun text => { s.gbl with ors := text })
    | .rs => do
      match ← s.sepText conv c with
      | none => .ok (s, false)
      | some rs =>
        let s := { s with gbl := { s.gbl with rs := none } }
        if rsIsRex rs then
          if c.rex then .ok (s.store c { s.gbl with rs := some rs }, true)
          else .ok (s, false)
        else .ok (s.store c s.gbl, true)
    | .striprecspc => .ok (s.setSign conv c fun sign => { s.gbl with striprecspc := sign })
    | .subsep => .ok (s.setText conv c false fun text => { s.gbl with subsep := text })

end Globals

inductive Copy where
  | text (text : List UInt32)
  | rex (text : Option (List UInt32))
  | sign (sign : ℤ)
deriving DecidableEq

def Copies.copy (gbl : Copies) : Gbl → Copy
  | .convfmt => .text gbl.convfmt
  | .fs => .rex gbl.fs
  | .ignorecase => .sign gbl.ignorecase
  | .ofmt => .text gbl.ofmt
  | .ofs => .text gbl.ofs
  | .ors => .text gbl.ors
  | .rs => .rex gbl.rs
  | .striprecspc => .sign gbl.striprecspc
  | .subsep => .text gbl.subsep

/-- The copy that is derived from a value: its text, the regular expression of a separator that
is used as one, or the sign of its number -/
def Conv.derive (conv : Conv F) (convfmt : List UInt32) (content : Content F) : Gbl → Option Copy
  | .fs => (conv.valtostr convfmt content).map fun fs => .rex (if fsIsRex fs then some fs else none)
  | .rs => (conv.valtostr convfmt content).map fun rs => .rex (if rsIsRex rs then some rs else none)
  | .ignorecase => (conv.valtonum content).map fun num => .sign (conv.sign num)
  | .striprecspc => (conv.valtonum content).map fun num => .sign (conv.sign num)
  | _ => (conv.valtostr convfmt content).map .text

/-- Every copy is the one derived from the value of the variable, but for that of `STRIPRECSPC`,
which is -1 until there is a value. -/
structure Derived (conv : Conv F) (s : Globals F) : Prop where
  copies : ∀ id, id ≠ .striprecspc →
    conv.derive s.gbl.convfmt (s.slot id).content id = some (s.gbl.copy id)
  strip : conv.derive s.gbl.convfmt (s.slot .striprecspc).content .striprecspc =
      some (.sign s.gbl.striprecspc) ∨
    ((s.slot .striprecspc).content = .nil ∧ s.gbl.striprecspc = -1)
  index : s.gbl.ignorecase = 0 ∨ s.gbl.ignorecase = 1

theorem derived_open (conv : Conv F) : Derived conv Globals.open where
  copies id hid := by
    cases id with
    | striprecspc => exact absurd rfl hid
    | convfmt | fs | ignorecase | ofmt | ofs | ors | rs | subsep => rfl
  strip := .inr ⟨rfl, rfl⟩
  index := .inl rfl

variable {F : Type} {conv : Conv F} {s s' : Globals F} {c : SetGlobal F}

/-- The assignment is none of those that leave a copy behind: a new `CONVFMT` makes the same
copies of the other variables, and of itself; `FS` does not go from a regular expression to a
separator that is none; a regular expression in `RS` is not followed by one that cannot be
compiled; and `IGNORECASE` is not negative. -/
def SetGlobal.Meets (conv : Conv F) (s : Globals F) (c : SetGlobal F) : Prop :=
  s.refused conv c = true ∨ (s.slot c.id).ptr = c.val.ptr ∨ match c.id with
    | .convfmt => ∀ text, s.dupText conv c = some text → 0 ∉ text →
        conv.derive text c.val.content .convfmt = some (.text text) ∧
          ∀ id, id ≠ .convfmt → conv.derive text (s.slot id).content id =
            conv.derive s.gbl.convfmt (s.slot id).content id
    | .fs => ∀ fs, s.sepText conv c = .ok (some fs) → s.gbl.fs = none ∨ fsIsRex fs = true
    | .rs => ∀ rs, s.sepText conv c = .ok (some rs) → rsIsRex rs = true →
        s.gbl.rs = none ∨ c.rex = true
    | .ignorecase => ∀ num, conv.valtonum c.val.content = some num → 0 ≤ conv.sign num
    | _ => True

/-! ## One assignment -/

/-- The outcome of a call: the copies are those that are derived, and a call that fails has
changed nothing. -/
def Settled (conv : Conv F) (s : Globals F) (r : Globals F × Bool) : Prop :=
  Derived conv r.1 ∧ (r.2 = false → r.1 = s)

theorem Derived.settled_fail (h : Derived conv s) : Settled conv s (s, false) := ⟨h, fun _ => rfl⟩

@[simp] theorem store_slot_self (s : Globals F) (c : SetGlobal F) (gbl : Copies) :
    (s.store c gbl).slot c.id = c.val := Function.update_self ..

theorem store_slot_of_ne (s : Globals F) (c : SetGlobal F) (gbl : Copies) {id : Gbl}
    (hid : id ≠ c.id) : (s.store c gbl).slot id = s.slot id := Function.update_of_ne hid ..

@[simp] theorem store_gbl (s : Globals F) (c : SetGlobal F) (gbl : Copies) :
    (s.store c gbl).gbl = gbl := rfl

theorem Globals.valtostr_of_dupText {text : List UInt32} (h : s.dupText conv c = some text) :
    conv.valtostr s.gbl.convfmt c.val.content = some text := by
  rw [Globals.dupText] at h
  split at h
  · exact h
  · cases h

theorem Globals.valtostr_of_sepText {text : List UInt32} (h : s.sepText conv c = .ok (some text)) :
    conv.valtostr s.gbl.convfmt c.val.content = some text := by
  rw [Globals.sepText] at h
  split at h
  · rename_i hcontent
    cases h
    rw [hcontent]
    rfl
  · cases h
  · exact Globals.valtostr_of_dupText (Except.ok.inj h)

theorem Derived.store_iff (h : Derived conv s) (gbl : Copies) (hconv : c.id ≠ .convfmt)
    (hstrip : c.id ≠ .striprecspc) (hcopy : ∀ id, id ≠ c.id → gbl.copy id = s.gbl.copy id) :
    Derived conv (s.store c gbl) ↔
      conv.derive s.gbl.convfmt c.val.content c.id = some (gbl.copy c.id) ∧
        (gbl.ignorecase = 0 ∨ gbl.ignorecase = 1) := by
  have hconvfmt : gbl.convfmt = s.gbl.convfmt := Copy.text.inj (hcopy .convfmt hconv.symm)
  have hsign : gbl.striprecspc = s.gbl.striprecspc := Copy.sign.inj (hcopy .striprecspc hstrip.symm)
  constructor
  · intro h'
    have hown := h'.copies c.id hstrip
    rw [store_slot_self, store_gbl, hconvfmt] at hown
    exact ⟨hown, h'.index⟩
  · rintro ⟨hown, hindex⟩
    refine ⟨fun id hid => ?_, ?_, hindex⟩
    · by_cases hc : id = c.id
      · subst hc
        rw [store_slot_self, store_gbl, hconvfmt, hown]
      · rw [store_slot_of_ne s c gbl hc, store_gbl, hconvfmt, hcopy id hc]
        exact h.copies id hid
    · rw [store_slot_of_ne s c gbl hstrip.symm, store_gbl, hconvfmt, hsign]
      exact h.strip

theorem Derived.setText (h : Derived conv s) {noNul : Bool} {copy : List UInt32 → Copies}
    {id : Gbl} (hid : c.id = id) (hconv : id ≠ .convfmt) (hstrip : id ≠ .striprecspc)
    (hindex : id ≠ .ignorecase) (hderive : ∀ convfmt content, conv.derive convfmt content id =
      (conv.valtostr convfmt content).map .text)
    (hown : ∀ text, (copy text).copy id = .text text)
    (hcopy : ∀ text id', id' ≠ id → (copy text).copy id' = s.gbl.copy id') :
    Settled conv s (s.setText conv c noNul copy) := by
  subst hid
  rw [Globals.setText]
  cases htext : s.dupText conv c with
  | none => exact h.settled_fail
  | some text =>
    dsimp only
    split
    · exact h.settled_fail
    refine ⟨(h.store_iff _ hconv hstrip (hcopy text)).2 ⟨?_, ?_⟩, by simp⟩
    · rw [hderive, Globals.valtostr_of_dupText htext, hown]
      rfl
    · have hsame : (copy text).ignorecase = s.gbl.ignorecase :=
        Copy.sign.inj (hcopy text .ignorecase hindex.symm)
      rw [hsame]
      exact h.index

theorem sign_cases (conv : Conv F) (num : Num F) :
    conv.sign num = 1 ∨ conv.sign num = -1 ∨ conv.sign num = 0 := by
  cases num with
  | int l | flt r =>
    simp only [Conv.sign]
    split_ifs <;> simp

section

variable (h : Derived conv s)
include h

theorem Derived.setConvfmt_iff (hid : c.id = .convfmt) :
    Settled conv s (s.setText conv c true fun text => { s.gbl with convfmt := text }) ↔
      ∀ text, s.dupText conv c = some text → 0 ∉ text →
        conv.derive text c.val.content .convfmt = some (.text text) ∧
          ∀ id, id ≠ .convfmt → conv.derive text (s.slot id).content id =
            conv.derive s.gbl.convfmt (s.slot id).content id := by
  rw [Globals.setText]
  cases htext : s.dupText conv c with
  | none => exact iff_of_true h.settled_fail (by rintro _ ⟨⟩)
  | some text =>
    dsimp only
    by_cases hnul : 0 ∈ text
    · rw [if_pos ⟨rfl, hnul⟩]
      refine iff_of_true h.settled_fail ?_
      rintro _ ⟨⟩ hfree
      exact absurd hnul hfree
    rw [if_neg fun hand => hnul hand.2]
    have hslot {id : Gbl} (hne : id ≠ .convfmt) (gbl : Copies) :
        (s.store c gbl).slot id = s.slot id := store_slot_of_ne s c gbl (by rwa [hid])
    have hcopy {id : Gbl} (hne : id ≠ .convfmt) :
        ({ s.gbl with convfmt := text } : Copies).copy id = s.gbl.copy id := by
      cases id <;> first | rfl | exact absurd rfl hne
    constructor
    · rintro ⟨hderived, -⟩ _ ⟨⟩ -
      refine ⟨?_, fun id hne => ?_⟩
      · have hown := hderived.copies .convfmt (by decide)
        rw [← hid, store_slot_self, hid] at hown
        exact hown
      · by_cases hstrip : id = .striprecspc
        · -- a number does not depend on `CONVFMT`
          subst hstrip
          rfl
        · have hnew := hderived.copies id hstrip
          rw [hslot hne, store_gbl, hcopy hne] at hnew
          rw [h.copies id hstrip]
          exact hnew
    · intro hmeets
      obtain ⟨hown, hothers⟩ := hmeets text rfl hnul
      refine ⟨⟨fun id hstrip => ?_, ?_, h.index⟩, by simp⟩
      · by_cases hne : id = .convfmt
        · rw [hne, ← hid, store_slot_self, hid]
          exact hown
        · rw [hslot hne, store_gbl, hcopy hne]
          exact (hothers id hne).trans (h.copies id hstrip)
      · rw [hslot (by decide)]
        exact h.strip

theorem Derived.setFs_iff (hid : c.id = .fs) {fs : List UInt32}
    (hfs : conv.valtostr s.gbl.convfmt c.val.content = some fs) :
    Settled conv s
        (if fsIsRex fs then
          if c.rex then (s.store c { s.gbl with fs := some fs }, true) else (s, false)
        else (s.store c s.gbl, true)) ↔
      s.gbl.fs = none ∨ fsIsRex fs = true := by
  have hconv : c.id ≠ .convfmt := by simp [hid]
  have hstrip : c.id ≠ .striprecspc := by simp [hid]
  by_cases hrex : fsIsRex fs = true
  · refine iff_of_true ?_ (.inr hrex)
    rw [if_pos hrex]
    split
    · refine ⟨(h.store_iff _ hconv hstrip ?_).2 ⟨?_, h.index⟩, by simp⟩
      · intro id hne
        rw [hid] at hne
        cases id <;> first | rfl | exact absurd rfl hne
      · rw [hid]
        simp [Conv.derive, hfs, hrex, Copies.copy]
    · exact h.settled_fail
  · rw [if_neg hrex]
    have hiff := h.store_iff s.gbl hconv hstrip fun _ _ => rfl
    have hcopy : conv.derive s.gbl.convfmt c.val.content c.id = some (s.gbl.copy c.id) ↔
        s.gbl.fs = none := by
      rw [hid]
      simp only [Conv.derive, hfs, Option.map_some, if_neg hrex, Copies.copy, Option.some.injEq,
        Copy.rex.injEq]
      exact eq_comm
    constructor
    · rintro ⟨hderived, -⟩
      exact .inl (hcopy.1 (hiff.1 hderived).1)
    · intro hnone
      exact ⟨hiff.2 ⟨hcopy.2 (hnone.resolve_right hrex), h.index⟩, by simp⟩

theorem Derived.setRs_iff (hid : c.id = .rs) {rs : List UInt32}
    (hrs : conv.valtostr s.gbl.convfmt c.val.content = some rs) :
    Settled conv s
        (if rsIsRex rs then
          if c.rex then (s.store c { s.gbl with rs := some rs }, true)
          else ({ s with gbl := { s.gbl with rs := none } }, false)
        else (s.store c { s.gbl with rs := none }, true)) ↔
      (rsIsRex rs = true → s.gbl.rs = none ∨ c.rex = true) := by
  have hconv : c.id ≠ .convfmt := by simp [hid]
  have hstrip : c.id ≠ .striprecspc := by simp [hid]
  have hothers (r : Option (List UInt32)) : ∀ id, id ≠ c.id →
      ({ s.gbl with rs := r } : Copies).copy id = s.gbl.copy id := by
    intro id hne
    rw [hid] at hne
    cases id <;> first | rfl | exact absurd rfl hne
  have hstore {r : Option (List UInt32)} (hr : r = if rsIsRex rs then some rs else none) :
      Settled conv s (s.store c { s.gbl with rs := r }, true) := by
    refine ⟨(h.store_iff _ hconv hstrip (hothers r)).2 ⟨?_, h.index⟩, by simp⟩
    rw [hid]
    simp [Conv.derive, hrs, hr, Copies.copy]
  by_cases hrex : rsIsRex rs = true
  · rw [if_pos hrex]
    by_cases hc : c.rex = true
    · rw [if_pos hc]
      exact iff_of_true (hstore (by rw [if_pos hrex])) fun _ => .inr hc
    rw [if_neg hc]
    constructor
    · rintro ⟨-, hsame⟩ -
      have hgbl := congrArg (fun s => s.gbl.rs) (hsame rfl)
      exact .inl hgbl.symm
    · intro hmeets
      have hnone := (hmeets hrex).resolve_right hc
      have hsame : ({ s with gbl := { s.gbl with rs := none } } : Globals F) = s := by
        rw [← hnone]
      rw [hsame]
      exact h.settled_fail
  · rw [if_neg hrex]
    exact iff_of_true (hstore (by rw [if_neg hrex])) fun hr => absurd hr hrex

theorem Derived.setIgnorecase_iff (hid : c.id = .ignorecase) :
    Settled conv s (s.setSign conv c fun sign => { s.gbl with ignorecase := sign }) ↔
      ∀ num, conv.valtonum c.val.content = some num → 0 ≤ conv.sign num := by
  have hconv : c.id ≠ .convfmt := by simp [hid]
  have hstrip : c.id ≠ .striprecspc := by simp [hid]
  rw [Globals.setSign]
  cases hnum : conv.valtonum c.val.content with
  | none => exact iff_of_true h.settled_fail (by rintro _ ⟨⟩)
  | some num =>
    have hiff := h.store_iff { s.gbl with ignorecase := conv.sign num } hconv hstrip
      (by
        intro id hne
        rw [hid] at hne
        cases id <;> first | rfl | exact absurd rfl hne)
    have hsign : conv.sign num = 0 ∨ conv.sign num = 1 ↔ 0 ≤ conv.sign num := by
      have hcases := sign_cases conv num
      omega
    constructor
    · rintro ⟨hderived, -⟩ _ ⟨⟩
      exact hsign.1 (hiff.1 hderived).2
    · intro hmeets
      refine ⟨hiff.2 ⟨?_, hsign.2 (hmeets num rfl)⟩, by simp⟩
      rw [hid]
      simp [Conv.derive, hnum, Copies.copy]

theorem Derived.setStriprecspc (hid : c.id = .striprecspc) :
    Settled conv s (s.setSign conv c fun sign => { s.gbl with striprecspc := sign }) := by
  rw [Globals.setSign]
  cases hnum : conv.valtonum c.val.content with
  | none => exact h.settled_fail
  | some num =>
    refine ⟨⟨fun id hne => ?_, .inl ?_, h.index⟩, by simp⟩
    · rw [store_slot_of_ne s c _ (by rwa [hid]), store_gbl]
      refine (h.copies id hne).trans ?_
      cases id <;> first | rfl | exact absurd rfl hne
    · rw [← hid, store_slot_self, hid]
      simp [Conv.derive, hnum]

theorem Derived.setGlobal_iff {r : Globals F × Bool}
    (hset : s.setGlobal conv c = .ok r) : Settled conv s r ↔ c.Meets conv s := by
  rw [Globals.setGlobal] at hset
  by_cases hrefused : s.refused conv c = true
  · rw [if_pos hrefused] at hset
    cases hset
    exact iff_of_true h.settled_fail (.inl hrefused)
  rw [if_neg hrefused] at hset
  by_cases hsame : (s.slot c.id).ptr = c.val.ptr
  · rw [if_pos hsame] at hset
    cases hset
    exact iff_of_true ⟨h, by simp⟩ (.inr (.inl hsame))
  rw [if_neg hsame] at hset
  rw [SetGlobal.Meets, or_iff_right hrefused, or_iff_right hsame]
  cases hid : c.id with
  | convfmt =>
    simp only [hid] at hset
    cases hset
    exact h.setConvfmt_iff hid
  | fs =>
    simp only [hid] at hset
    cases hsep : s.sepText conv c with
    | error e =>
      rw [hsep] at hset
      cases hset
    | ok text =>
      simp only [hsep, ok_bind] at hset
      cases text with
      | none =>
        cases hset
        exact iff_of_true h.settled_fail (by rintro _ ⟨⟩)
      | some fs =>
        dsimp only at hset
        have hr : r = if fsIsRex fs then
            if c.rex then (s.store c { s.gbl with fs := some fs }, true) else (s, false)
          else (s.store c s.gbl, true) := by
          split_ifs at hset ⊢ <;> exact (Except.ok.inj hset).symm
        rw [hr, h.setFs_iff hid (Globals.valtostr_of_sepText hsep)]
        constructor
        · rintro hmeets _ ⟨⟩
          exact hmeets
        · exact fun hmeets => hmeets fs rfl
  | ignorecase =>
    simp only [hid] at hset
    cases hset
    exact h.setIgnorecase_iff hid
  | ofmt | ofs | ors | subsep =>
    simp only [hid] at hset
    cases hset
    refine iff_of_true (h.setText hid (by simp) (by simp) (by simp) (fun _ _ => rfl)
      (fun _ => rfl) fun text id hne => ?_) trivial
    cases id <;> first | rfl | exact absurd rfl hne
  | rs =>
    simp only [hid] at hset
    cases hsep : s.sepText conv c with
    | error e =>
      rw [hsep] at hset
      cases hset
    | ok text =>
      simp only [hsep, ok_bind] at hset
      cases text with
      | none =>
        cases hset
        exact iff_of_true h.settled_fail (by rintro _ ⟨⟩)
      | some rs =>
        dsimp only at hset
        have hr : r = if rsIsRex rs then
            if c.rex then (s.store c { s.gbl with rs := some rs }, true)
            else ({ s with gbl := { s.gbl with rs := none } }, false)
          else (s.store c { s.gbl with rs := none }, true) := by
          split_ifs at hset ⊢ <;> exact (Except.ok.inj hset).symm
        rw [hr, h.setRs_iff hid (Globals.valtostr_of_sepText hsep)]
        constructor
        · rintro hmeets _ ⟨⟩
          exact hmeets
        · exact fun hmeets => hmeets rs rfl
  | striprecspc =>
    simp only [hid] at hset
    cases hset
    exact iff_of_true (h.setStriprecspc hid) trivial

end

inductive Globals.Reach (conv : Conv F) : Globals F → Prop
  | init : Reach conv Globals.open
  | step {s s' : Globals F} {c : SetGlobal F} {done : Bool} : Reach conv s → c.Meets conv s →
      s.setGlobal conv c = .ok (s', done) → Reach conv s'

/-- In every state that is reached the copies are those that are derived, and the next call keeps
that and is not done by halves if and only if it is none of the four kinds. -/
theorem Globals.Reach.copies_derived (h : Reach conv s) :
    Derived conv s ∧ ∀ c r, s.setGlobal conv c = .ok r → (Settled conv s r ↔ c.Meets conv s) := by
  have hderived : Derived conv s := by
    induction h with
    | init => exact derived_open conv
    | step _ hmeets hset ih => exact ((ih.setGlobal_iff hset).2 hmeets).1
  exact ⟨hderived, fun c r hset => hderived.setGlobal_iff hset⟩

def Conv.ints : Conv Int64 where
  flexmap := false
  strip := false
  ctype := Ctype.ascii
  mctype := Ctype.ascii
  flt := Flt.ints
  wcs := ofBytes
  name _ := []

def SetGlobal.str (id : Gbl) (text : List UInt32) (rex : Bool) : SetGlobal Int64 :=
  ⟨id, ⟨.pointer 3, .str text, rfl⟩, true, true, rex⟩

def SetGlobal.int (id : Gbl) (v : Int64) : SetGlobal Int64 :=
  ⟨id, ⟨.quickint (quickintToVtr v), .int v, rfl⟩, true, true, true⟩

/-- `FS` is given a regular expression and then `IGNORECASE` 1. -/
theorem Globals.Reach.copies_derived_regex : ∃ s : Globals Int64, Derived Conv.ints s ∧
    s.gbl.fs = some [','.val, '+'.val] ∧ s.gbl.ignorecase = 1 := by
  have hfs := (@Reach.init _ Conv.ints).step (c := .str .fs [','.val, '+'.val] true)
    (.inr (.inr (by rintro fs -; exact .inl rfl))) rfl
  have hboth := hfs.step (c := .int .ignorecase 1)
    (.inr (.inr (by rintro num ⟨⟩; decide))) rfl
  exact ⟨_, hboth.copies_derived.1, rfl, rfl⟩

/-- `IGNORECASE` is negative; `FS` is a regular expression and then 1; `RS` is a regular
expression and then one that cannot be compiled. -/
theorem Globals.not_copies_derived :
    (∃ s, Globals.open.setGlobal Conv.ints (.int .ignorecase (-1)) = .ok (s, true) ∧
      s.gbl.ignorecase = -1 ∧ ¬Derived Conv.ints s) ∧
    (∃ s s', Globals.open.setGlobal Conv.ints (.str .fs [','.val, '+'.val] true) = .ok (s, true) ∧
      s.setGlobal Conv.ints (.int .fs 1) = .ok (s', true) ∧
      s'.gbl.fs = some [','.val, '+'.val] ∧ ¬Derived Conv.ints s') ∧
    ∃ s s', Globals.open.setGlobal Conv.ints (.str .rs [','.val, '+'.val] true) = .ok (s, true) ∧
      s.setGlobal Conv.ints ⟨.rs, ⟨.pointer 4, .str ['('.val, '+'.val], rfl⟩, true, true, false⟩ =
        .ok (s', false) ∧ s'.gbl.rs = none ∧ s' ≠ s ∧ ¬Derived Conv.ints s' := by
  refine ⟨⟨_, rfl, rfl, ?_⟩, ⟨_, _, rfl, rfl, rfl, ?_⟩, ⟨_, _, rfl, rfl, rfl, ?_, ?_⟩⟩
  · intro h
    exact absurd h.index (by decide)
  · intro h
    have hfs := h.copies .fs (by decide)
    revert hfs
    decide
  · intro h
    have hrs := congrArg (fun s => s.gbl.rs) h
    revert hrs
    decide
  · intro h
    have hrs := h.copies .rs (by decide)
    revert hrs
    decide

end Qse.Awk
