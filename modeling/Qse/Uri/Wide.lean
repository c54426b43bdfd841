import Qse.Uri.Cut

/-!
# Wide characters

On a widened string the code finds the same slices.
-/

open List Option Option

namespace Qse.Uri

variable {α β : Type} [DecidableEq α] [DecidableEq β] {m : Marks α} {n : Marks β} {f : α → β}

/-- A conversion of characters keeps the characters that the code looks for, and makes none. -/
structure Widens (m : Marks α) (n : Marks β) (f : α → β) : Prop where
  nul : ∀ c, f c = n.nul ↔ c = m.nul
  colon : ∀ c, f c = n.colon ↔ c = m.colon
  slash : ∀ c, f c = n.slash ↔ c = m.slash
  at_ : ∀ c, f c = n.at_ ↔ c = m.at_
  question : ∀ c, f c = n.question ↔ c = m.question
  hash : ∀ c, f c = n.hash ↔ c = m.hash

def wideRest (f : α → β) (p : List α × ℕ) : List β × ℕ := (p.1.map f, p.2)

def wideFound (f : α → β) (p : Uri × List α × ℕ) : Uri × List β × ℕ := (p.1, p.2.1.map f, p.2.2)

section

variable (hf : Widens m n f)
include hf

theorem schemeLoop_map (mem : List α) (str : ℕ) :
    schemeLoop n (mem.map f) str = (schemeLoop m mem str).map (Option.map (wideRest f)) := by
  induction mem generalizing str with
  | nil => rfl
  | cons c mem ih =>
    rw [map_cons, schemeLoop, schemeLoop]
    simp only [hf.colon, hf.nul, ih]
    split
    · rfl
    · split <;> rfl

theorem hostLoop_map (noauth : Bool) (mem : List α) (str : ℕ)
    (colon : Option ℕ) (ptr : ℕ) (xuri : Uri) :
    hostLoop n noauth (mem.map f) str colon ptr xuri =
      (hostLoop m noauth mem str colon ptr xuri).map (wideFound f) := by
  induction mem generalizing str colon ptr xuri with
  | nil => rfl
  | cons c mem ih =>
    rw [map_cons, hostLoop, hostLoop]
    simp only [hf.colon, hf.slash, hf.nul, hf.at_, ih]
    split
    · split
      · rfl
      · split <;> rfl
    · split
      · rfl
      · split
        · rfl
        · split <;> rfl

theorem untilLoop_map (stops : α → Bool) {stops' : β → Bool}
    (hstops : ∀ c, stops' (f c) = stops c) (mem : List α) (str : ℕ) :
    untilLoop n stops' (mem.map f) str = (untilLoop m stops mem str).map (wideRest f) := by
  induction mem generalizing str with
  | nil => rfl
  | cons c mem ih =>
    rw [map_cons, untilLoop, untilLoop]
    simp only [hf.nul, hstops, ih]
    split
    · rfl
    · split <;> rfl

theorem setPath_map (flags : Flags) (xuri : Uri) (mem : List α) (str : ℕ) :
    setPath n flags xuri (mem.map f) str = (setPath m flags xuri mem str).map (wideFound f) := by
  have hstops (c : α) : ((!flags.noquery && decide (f c = n.question)) ||
      (!flags.nofrag && decide (f c = n.hash))) =
      ((!flags.noquery && decide (c = m.question)) ||
        (!flags.nofrag && decide (c = m.hash))) := by
    simp only [hf.question, hf.hash]
  rw [setPath, setPath, untilLoop_map hf _ hstops]
  cases untilLoop m _ mem str with
  | none => rfl
  | some p => rfl

theorem setQuery_map (flags : Flags) (xuri : Uri) (mem : List α) (str : ℕ) :
    setQuery n flags xuri (mem.map f) str = (setQuery m flags xuri mem str).map (wideFound f) := by
  cases mem with
  | nil => rfl
  | cons c mem =>
    rw [map_cons, setQuery, setQuery,
      untilLoop_map hf (fun c => !flags.nofrag && decide (c = m.hash))
        (fun c => by simp only [hf.hash])]
    simp only [hf.question]
    split
    · cases untilLoop m _ mem (str + 1) with
      | none | some p => rfl
    · rfl

theorem setFrag_map (flags : Flags) (xuri : Uri) (mem : List α) (str : ℕ) :
    setFrag n flags xuri (mem.map f) str = setFrag m flags xuri mem str := by
  cases mem with
  | nil => rfl
  | cons c mem =>
    rw [map_cons, setFrag, setFrag, untilLoop_map hf (fun _ => false) (fun _ => rfl)]
    simp only [hf.hash]
    split
    · cases untilLoop m _ mem (str + 1) with
      | none | some p => rfl
    · rfl

theorem setTail_map (flags : Flags) (xuri : Uri) (mem : List α) (str : ℕ) :
    setTail n flags xuri (mem.map f) str = setTail m flags xuri mem str := by
  cases mem with
  | nil => rfl
  | cons c mem =>
    rw [map_cons, setTail, setTail, ← map_cons, setPath_map hf]
    simp only [hf.slash]
    split
    · cases setPath m flags xuri (c :: mem) str with
      | none => rfl
      | some p =>
        simp only [map_some, bind_eq_bind, bind_some, wideFound, setQuery_map hf]
        cases setQuery m flags p.1 p.2.1 p.2.2 with
        | none => rfl
        | some q => exact setFrag_map hf flags q.1 q.2.1 q.2.2
    · rfl

end

theorem skip_map {d : α} {e : β} (hd : ∀ c, f c = e ↔ c = d) (mem : List α) :
    skip e (mem.map f) = (skip d mem).map (Option.map (List.map f)) := by
  cases mem with
  | nil => rfl
  | cons c mem =>
    rw [map_cons, skip, skip]
    simp only [hd]
    split <;> rfl

theorem touri_map (hf : Widens m n f) (mem : List α) (uri : Uri) (flags : Flags) :
    touri n (mem.map f) uri flags = touri m mem uri flags := by
  rw [touri, touri, schemeLoop_map hf]
  cases schemeLoop m mem 0 with
  | none => rfl
  | some scheme =>
    cases scheme with
    | none => rfl
    | some p =>
      simp only [map_some, bind_eq_bind, bind_some, wideRest, ← map_tail, skip_map hf.slash]
      rcases skip m.slash p.1.tail with _ | _ | mem
      · rfl
      · rfl
      · simp only [map_some, bind_some, skip_map hf.slash]
        rcases skip m.slash mem with _ | _ | mem
        · rfl
        · rfl
        · simp only [map_some, bind_some, hostLoop_map hf]
          cases hostLoop m flags.noauth mem _ _ _ _ with
          | none => rfl
          | some q =>
            simp only [map_some, bind_some, wideFound, setTail_map hf]

theorem widens_toUInt32 : Widens mmarks wmarks UInt8.toUInt32 where
  nul _ := UInt8.toUInt32_inj (b := 0)
  colon _ := UInt8.toUInt32_inj (b := 58)
  slash _ := UInt8.toUInt32_inj (b := 47)
  at_ _ := UInt8.toUInt32_inj (b := 64)
  question _ := UInt8.toUInt32_inj (b := 63)
  hash _ := UInt8.toUInt32_inj (b := 35)

/-- A string is cut if and only if its first colon is followed by two slashes; the slices are then
its components, and those of the widened string. Otherwise nothing is stored. -/
theorem mbstouri_splits {text : List UInt8} (hnul : 0 ∉ text) (uri : Uri) (flags : ℕ) :
    (FirstColon mmarks text → ∃ u, mbstouri (text ++ [0]) uri flags = some (0, u) ∧
      Splits mmarks (.ofBits flags) text u) ∧
    (¬FirstColon mmarks text → mbstouri (text ++ [0]) uri flags = some (-1, uri)) ∧
    ∀ f, Widens mmarks wmarks f →
      wcstouri ((text ++ [0]).map f) uri flags = mbstouri (text ++ [0]) uri flags := by
  obtain ⟨hfails, hcuts⟩ := @touri_eq UInt8 _ mmarks text hnul uri (.ofBits flags)
  refine ⟨fun hfirst => ?_, hfails, fun f hf => touri_map hf _ uri _⟩
  obtain ⟨p, rfl, hdelimited, hrun⟩ := hcuts hfirst
  exact ⟨p.located mmarks, hrun, Parts.splits hdelimited⟩

/-- The string `a://b@c`, widened. -/
theorem mbstouri_splits_user :
    wcstouri [97, 58, 47, 47, 98, 64, 99, 0] null 0 =
      mbstouri [97, 58, 47, 47, 98, 64, 99, 0] null 0 :=
  (@mbstouri_splits [97, 58, 47, 47, 98, 64, 99] (by decide) null 0).2.2
    UInt8.toUInt32 widens_toUInt32

end Qse.Uri
