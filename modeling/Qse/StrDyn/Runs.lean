import Qse.StrDyn.Edits

/-!
# Runs of two strings

Calls on two strings, which may swap what they hold. In runs in which the requests for memory
are in order each string is a list of characters.
-/

open Option

namespace Qse.StrDyn

variable {e : Env} {s s' : StrDyn} {cs cs₁ : List ℕ} {n capa : ℕ}

inductive Op where
  | setcapa (capa : ℕ)
  | setlen (len : ℕ)
  | ncpy (chars : List ℕ)
  | ncat (chars : List ℕ)
  | nrcat (chars : List ℕ)
  | nccat (c len : ℕ)
  | del (index size : ℕ)
  | amend (pos len : ℕ) (repl : List ℕ)
  | clear

inductive Call where
  | first (op : Op)
  | second (op : Op)
  | swap

def listStep (cs : List ℕ) : Op → List ℕ
  | .setcapa capa => cs.take capa
  | .setlen len => cs.take len ++ List.replicate (len - cs.length) 32
  | .ncpy chars => chars
  | .ncat chars => cs ++ chars
  | .nrcat chars => cs ++ chars.reverse
  | .nccat c len => cs ++ List.replicate len c
  | .del index size => cs.take index ++ cs.drop (index + size)
  | .amend pos len repl => cs.take pos ++ (StrDyn.chars repl ++ cs.drop (pos + len))
  | .clear => []

def listCall (p : List ℕ × List ℕ) (c : Call) (r : ℕ) : List ℕ × List ℕ :=
  if r = nil then p
  else
    match c with
    | .first op => (listStep p.1 op, p.2)
    | .second op => (p.1, listStep p.2 op)
    | .swap => (p.2, p.1)

def listRun : List ℕ × List ℕ → List Call → List ℕ → List ℕ × List ℕ
  | p, c :: calls, r :: rs => listRun (listCall p c r) calls rs
  | p, _, _ => p

/-- What a call returns, the number of the next request and the string. -/
def step (e : Env) (n : ℕ) (s : StrDyn) : Op → Option (ℕ × ℕ × StrDyn)
  | .setcapa capa => setcapa e n s capa
  | .setlen len => setlen e n s len
  | .ncpy chars => ncpy e n s chars
  | .ncat chars => ncat e n s chars
  | .nrcat chars => nrcat e n s chars
  | .nccat c len => nccat e c len n s
  | .del index size => do
    let (r, s) ← del s index size
    some (r, n, s)
  | .amend pos len repl => amend e n s pos len repl
  | .clear => do
    let s ← clear e s
    some (0, n, s)

structure Pair where
  next : ℕ
  first : StrDyn
  second : StrDyn

def call (e : Env) (p : Pair) : Call → Option (ℕ × Pair)
  | .first op => do
    let (r, n, s) ← step e p.next p.first op
    some (r, ⟨n, s, p.second⟩)
  | .second op => do
    let (r, n, s) ← step e p.next p.second op
    some (r, ⟨n, p.first, s⟩)
  | .swap => some (0, ⟨p.next, (swap p.first p.second).1, (swap p.first p.second).2⟩)

def run (e : Env) : Pair → List Call → Option (List ℕ × Pair)
  | p, [] => some ([], p)
  | p, c :: calls => do
    let (r, p) ← call e p c
    let (rs, p) ← run e p calls
    some (r :: rs, p)

def contents (s : StrDyn) : List ℕ := (s.ptr.getD []).take s.len

structure Sound (s : StrDyn) : Prop where
  le : s.len ≤ s.capa
  length : (contents s).length = s.len
  terminated : Terminated s

/-- The sizes of the requests and the sums of positions and counts are words, a first buffer begins
with a null character if `setcapa` gets it, `nccat` is refused its first character or none, and
the assertions hold. -/
def Meets (e : Env) (n : ℕ) (s : StrDyn) : Op → Prop
  | .setcapa capa => Asks e n s capa ∧ (capa ≠ s.capa → Blank e n s)
  | .setlen len => s.capa < len → Asks e n s len
  | .ncpy chars => s.capa < chars.length → Asks e n s chars.length
  | .ncat chars | .nrcat chars => Extends e s chars.length
  | .nccat c len => len ≠ 0 ∧ Extends e s 1 ∧ Refused e n s 1 ∨ Smooth e c len n s
  | .del index size => s.ptr = none ∨ s.len ≤ index ∨ index + size < 2 ^ 64
  | .amend pos len repl => Amends e n s pos len repl
  | .clear => e.asserts = true → s.ptr ≠ none → 1 ≤ s.capa

def MeetsCall (e : Env) (p : Pair) : Call → Prop
  | .first op => Meets e p.next p.first op
  | .second op => Meets e p.next p.second op
  | .swap => True

def MeetsAll (e : Env) : Pair → List Call → Prop
  | _, [] => True
  | p, c :: calls => MeetsCall e p c ∧ ∀ r p', call e p c = some (r, p') → MeetsAll e p' calls

theorem Holds.sound (hs : Holds s cs) : Sound s ∧ contents s = cs := by
  have hcontents : contents s = cs := by
    rw [contents, hs.len]
    cases hptr : s.ptr with
    | none =>
      have hcapa := hs.unbuffered hptr
      have hle := hs.le
      rw [List.eq_nil_of_length_eq_zero (l := cs) (by omega)]
      rfl
    | some buf => exact (hs.buffered buf hptr).2
  have hle := hs.le
  refine ⟨⟨?_, ?_, hs.terminated⟩, hcontents⟩
  · rw [hs.len]
    exact hle
  · rw [hcontents, hs.len]

theorem holds_init {realloc : Bool} {n' : ℕ} (hsized : Sized e capa)
    (hinit : init e n realloc capa = some (n', some s)) : Holds s [] := by
  rw [init] at hinit
  split at hinit
  · simp only [some.injEq, Prod.mk.injEq] at hinit
    obtain ⟨-, rfl⟩ := hinit
    refine ⟨⟨rfl, Nat.zero_le _, hsized.lt, fun _ => ‹capa = 0›, fun buf hbuf => ?_⟩,
      fun buf hbuf => ?_⟩
    · cases hbuf
    · cases hbuf
  cases halloc : alloc e n capa with
  | none => simp [halloc] at hinit
  | some buf =>
    rw [halloc] at hinit
    obtain ⟨buf', hput, heq⟩ := bind_eq_some_iff.mp hinit
    simp only [some.injEq, Prod.mk.injEq] at heq
    obtain ⟨-, rfl⟩ := heq
    obtain ⟨junk, -, rfl⟩ := map_eq_some_iff.mp halloc
    rw [hsized.cells, List.range_succ_eq_map, List.map_cons] at hput
    have hput' := hput.symm.trans (@Cells.put_append ℕ [] _ _ 0)
    rw [some.injEq] at hput'
    refine @holds_of_eq _ [] _ (congrArg some hput') rfl ?_ hsized.lt
    simp

theorem Holds.step (hs : Holds s cs) {op : Op} (hmeets : Meets e n s op) :
    ∃ r n' s', step e n s op = some (r, n', s') ∧
      (r = nil ∧ s' = s ∨ r ≠ nil ∧ Holds s' (listStep cs op)) := by
  have hsettles {x : Option (ℕ × ℕ × StrDyn)} {r : ℕ} {cs' : List ℕ} (hx : Settles s x r cs') :
      ∃ r n' s', x = some (r, n', s') ∧ (r = nil ∧ s' = s ∨ r ≠ nil ∧ Holds s' cs') := by
    obtain ⟨n', s', ⟨hrun, hsame⟩ | ⟨hrun, hne, hs'⟩⟩ := hx
    · exact ⟨nil, n', s', hrun, .inl ⟨rfl, hsame⟩⟩
    · exact ⟨r, n', s', hrun, .inr ⟨hne, hs'⟩⟩
  cases op with
  | setcapa capa => exact hsettles (hs.setcapa hmeets.1 hmeets.2)
  | setlen len => exact hsettles (hs.setlen hmeets)
  | ncpy chars => exact hsettles (hs.ncpy hmeets)
  | ncat chars => exact hsettles (hs.ncat hmeets)
  | nrcat chars => exact hsettles (hs.nrcat hmeets)
  | nccat c len => exact hsettles (hs.nccat hmeets)
  | amend pos len repl => exact hsettles (hs.amend hmeets)
  | del index size =>
    obtain ⟨s', hrun, hs'⟩ := hs.del _ _ hmeets
    refine ⟨s'.len, n, s', by simp [StrDyn.step, hrun], .inr ⟨?_, hs'⟩⟩
    have hle := hs'.le
    have hbound := hs'.bound
    rw [hs'.len]
    omega
  | clear =>
    obtain ⟨s', hrun, hs'⟩ := hs.clear hmeets
    exact ⟨0, n, s', by simp [StrDyn.step, hrun], .inr ⟨by decide, hs'⟩⟩

theorem call_refines {p : Pair} (hs : Holds p.first cs) (hs₁ : Holds p.second cs₁) {c : Call}
    (hmeets : MeetsCall e p c) : ∃ r p', call e p c = some (r, p') ∧
      Holds p'.first (listCall (cs, cs₁) c r).1 ∧ Holds p'.second (listCall (cs, cs₁) c r).2 := by
  cases c with
  | first op =>
    obtain ⟨r, n', s', hrun, ⟨rfl, rfl⟩ | ⟨hne, hs'⟩⟩ := hs.step hmeets
    · exact ⟨nil, ⟨n', p.first, p.second⟩, by simp [call, hrun], hs, hs₁⟩
    · refine ⟨r, ⟨n', s', p.second⟩, by simp [call, hrun], ?_⟩
      rw [listCall, if_neg hne]
      exact ⟨hs', hs₁⟩
  | second op =>
    obtain ⟨r, n', s', hrun, ⟨rfl, rfl⟩ | ⟨hne, hs'⟩⟩ := hs₁.step hmeets
    · exact ⟨nil, ⟨n', p.first, p.second⟩, by simp [call, hrun], hs, hs₁⟩
    · refine ⟨r, ⟨n', p.first, s'⟩, by simp [call, hrun], ?_⟩
      rw [listCall, if_neg hne]
      exact ⟨hs, hs'⟩
  | swap => exact ⟨0, _, rfl, hs₁, hs⟩

theorem run_holds {p : Pair} (hs : Holds p.first cs) (hs₁ : Holds p.second cs₁) {calls : List Call}
    (hmeets : MeetsAll e p calls) : ∃ rs p', run e p calls = some (rs, p') ∧
      Holds p'.first (listRun (cs, cs₁) calls rs).1 ∧
      Holds p'.second (listRun (cs, cs₁) calls rs).2 := by
  induction calls generalizing p cs cs₁ with
  | nil => exact ⟨[], p, rfl, hs, hs₁⟩
  | cons c calls ih =>
    obtain ⟨hcall, hrest⟩ := hmeets
    obtain ⟨r, p', hrun, hs', hs₁'⟩ := call_refines hs hs₁ hcall
    obtain ⟨rs, p'', hruns, hs'', hs₁''⟩ := ih hs' hs₁' (hrest r p' hrun)
    exact ⟨r :: rs, p'', by simp [run, hrun, hruns], hs'', hs₁''⟩

/-- In a run whose calls all meet the condition the strings are lists of characters, with a
terminator behind the last one, and a call that returns -1 changes nothing. -/
theorem text_run_refines (e : Env) {realloc realloc₁ : Bool} {capa capa₁ n n₁ n₂ : ℕ} {s s₁ :
    StrDyn}
    (hsized : Sized e capa) (hsized₁ : Sized e capa₁)
    (hinit : init e n realloc capa = some (n₁, some s))
    (hinit₁ : init e n₁ realloc₁ capa₁ = some (n₂, some s₁)) {calls : List Call}
    (hmeets : MeetsAll e ⟨n₂, s, s₁⟩ calls) :
    ∃ rs p, run e ⟨n₂, s, s₁⟩ calls = some (rs, p) ∧
      (contents p.first, contents p.second) = listRun ([], []) calls rs ∧
      Sound p.first ∧ Sound p.second := by
  obtain ⟨rs, p, hrun, hs, hs₁⟩ :=
    run_holds (holds_init hsized hinit) (holds_init hsized₁ hinit₁) hmeets
  obtain ⟨hsound, hcontents⟩ := hs.sound
  obtain ⟨hsound₁, hcontents₁⟩ := hs₁.sound
  refine ⟨rs, p, hrun, ?_, hsound, hsound₁⟩
  rw [hcontents, hcontents₁]

def bytes (c : ℕ) : Env := ⟨1, Nat.one_pos, by decide, true, fun _ => some fun _ => c⟩

/-- A null character is copied, the first character is deleted, and the strings are swapped. -/
theorem text_run_refines_bytes :
    ∃ rs p, run (bytes 120) ⟨0, ⟨none, 0, 0, true⟩, ⟨none, 0, 0, false⟩⟩
        [.first (.ncpy [97, 0, 98]), .first (.del 0 1), .swap] = some (rs, p) ∧
      (contents p.first, contents p.second) =
        listRun ([], []) [.first (.ncpy [97, 0, 98]), .first (.del 0 1), .swap] rs := by
  have hmeets : MeetsAll (bytes 120) ⟨0, ⟨none, 0, 0, true⟩, ⟨none, 0, 0, false⟩⟩
      [.first (.ncpy [97, 0, 98]), .first (.del 0 1), .swap] := by
    refine ⟨fun _ => .inr (.inr (by decide)), ?_⟩
    rintro _ _ ⟨⟩
    refine ⟨.inr (.inr (by decide)), ?_⟩
    rintro _ _ ⟨⟩
    refine ⟨trivial, ?_⟩
    rintro _ _ ⟨⟩
    trivial
  obtain ⟨rs, p, hrun, hcontents, -⟩ :=
    @text_run_refines (bytes 120) true false 0 0 0 _ _ _ _ (by decide) (by decide) rfl rfl _ hmeets
  exact ⟨rs, p, hrun, hcontents⟩

/-- `setcapa` on a string without a buffer: the buffer begins with whatever the memory holds. -/
theorem not_sound :
    ¬∀ (e : Env) (n n' : ℕ) (realloc : Bool) (s : StrDyn), init e n realloc 0 = some (n', some s) →
      ∀ (capa r n'' : ℕ) (s' : StrDyn), setcapa e n' s capa = some (r, n'', s') → Sound s' := by
  intro hall
  have hsound := hall (bytes 120) 0 0 true ⟨none, 0, 0, true⟩ rfl 1 1 1
    ⟨some [120, 120], 0, 1, true⟩ rfl
  have hzero := hsound.terminated [120, 120] rfl
  revert hzero
  decide

end Qse.StrDyn
