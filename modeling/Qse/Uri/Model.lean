import Mathlib.Data.Int.Notation
import Mathlib.Data.List.Basic

/-!
# Cutting a URI

A translation of `qse_mbstouri` and `qse_wcstouri` of `lib/cmn/uri.c`, which are the same code for
two types of characters. A pointer into the string is an offset, and a read behind the last cell
yields `none`.

For a string without the terminator in it every loop stops within the string or at the
terminator.
-/

open List Option

namespace Qse

namespace Uri

structure Marks (α : Type) where
  nul : α
  colon : α
  slash : α
  at_ : α
  question : α
  hash : α
  distinct : nul ≠ colon ∧ nul ≠ slash ∧ nul ≠ at_ ∧ nul ≠ question ∧ nul ≠ hash
  slash_ne : slash ≠ question ∧ slash ≠ hash

/-- `qse_mcstr_t` and `qse_wcstr_t`: a null pointer is `none`. -/
structure Slice where
  ptr : Option ℕ
  len : ℕ
deriving DecidableEq

/-- `QSE_MEMSET` -/
def Slice.null : Slice := ⟨none, 0⟩

end Uri

/-- `qse_muri_t` and `qse_wuri_t` -/
structure Uri where
  scheme : Uri.Slice
  user : Uri.Slice
  pass : Uri.Slice
  host : Uri.Slice
  port : Uri.Slice
  path : Uri.Slice
  query : Uri.Slice
  frag : Uri.Slice
deriving DecidableEq

namespace Uri

/-- `QSE_MEMSET` -/
def null : Uri :=
  ⟨.null, .null, .null, .null, .null, .null, .null, .null⟩

/-- `QSE_MBSTOURI_NOAUTH`, `QSE_MBSTOURI_NOQUERY` and `QSE_MBSTOURI_NOFRAG`, and the same flags for
wide characters. -/
structure Flags where
  noauth : Bool
  noquery : Bool
  nofrag : Bool

def Flags.ofBits (flags : ℕ) : Flags := ⟨flags.testBit 0, flags.testBit 1, flags.testBit 2⟩

variable {α : Type} [DecidableEq α]

/-- The loop over the scheme, which leaves the string from the colon on. An inner `none` is a
return with -1. -/
def schemeLoop (m : Marks α) : List α → ℕ → Option (Option (List α × ℕ))
  | [], _ => none
  | c :: rest, str =>
    if c = m.colon then some (some (c :: rest, str))
    else if c = m.nul then some none
    else schemeLoop m rest (str + 1)

def setHost (xuri : Uri) (colon : Option ℕ) (ptr str : ℕ) : Uri :=
  match colon with
  | some colon =>
    { xuri with host := ⟨some ptr, colon - ptr⟩, port := ⟨some (colon + 1), str - colon - 1⟩ }
  | none => { xuri with host := ⟨some ptr, str - ptr⟩ }

def setAuth (xuri : Uri) (colon : Option ℕ) (ptr str : ℕ) : Uri :=
  match colon with
  | some colon =>
    { xuri with user := ⟨some ptr, colon - ptr⟩, pass := ⟨some (colon + 1), str - colon - 1⟩ }
  | none => { xuri with user := ⟨some ptr, str - ptr⟩ }

def hostLoop (m : Marks α) (noauth : Bool) :
    List α → ℕ → Option ℕ → ℕ → Uri → Option (Uri × List α × ℕ)
  | [], _, _, _, _ => none
  | c :: rest, str, colon, ptr, xuri =>
    if noauth then
      if colon = none ∧ c = m.colon then hostLoop m noauth rest (str + 1) (some str) ptr xuri
      else if c = m.slash ∨ c = m.nul then some (setHost xuri colon ptr str, c :: rest, str)
      else hostLoop m noauth rest (str + 1) colon ptr xuri
    else
      if colon = none ∧ c = m.colon then hostLoop m noauth rest (str + 1) (some str) ptr xuri
      else if xuri.user.ptr = none ∧ c = m.at_ then
        hostLoop m noauth rest (str + 1) none (str + 1) (setAuth xuri colon ptr str)
      else if c = m.slash ∨ c = m.nul then some (setHost xuri colon ptr str, c :: rest, str)
      else hostLoop m noauth rest (str + 1) colon ptr xuri

def untilLoop (m : Marks α) (stops : α → Bool) : List α → ℕ → Option (List α × ℕ)
  | [], _ => none
  | c :: rest, str =>
    if c = m.nul then some (c :: rest, str)
    else if stops c then some (c :: rest, str)
    else untilLoop m stops rest (str + 1)

def setPath (m : Marks α) (flags : Flags) (xuri : Uri) (mem : List α) (str : ℕ) :
    Option (Uri × List α × ℕ) := do
  let (rest, last) ← untilLoop m
    (fun c => (!flags.noquery && c = m.question) || (!flags.nofrag && c = m.hash)) mem str
  some ({ xuri with path := ⟨some str, last - str⟩ }, rest, last)

def setQuery (m : Marks α) (flags : Flags) (xuri : Uri) (mem : List α) (str : ℕ) :
    Option (Uri × List α × ℕ) :=
  match mem with
  | [] => none
  | c :: rest =>
    if !flags.noquery && c = m.question then do
      let (rest, last) ← untilLoop m (fun c => !flags.nofrag && c = m.hash) rest (str + 1)
      some ({ xuri with query := ⟨some (str + 1), last - (str + 1)⟩ }, rest, last)
    else some (xuri, c :: rest, str)

def setFrag (m : Marks α) (flags : Flags) (xuri : Uri) (mem : List α) (str : ℕ) : Option Uri :=
  match mem with
  | [] => none
  | c :: rest =>
    if !flags.nofrag && c = m.hash then do
      let (_, last) ← untilLoop m (fun _ => false) rest (str + 1)
      some { xuri with frag := ⟨some (str + 1), last - (str + 1)⟩ }
    else some xuri

def setTail (m : Marks α) (flags : Flags) (xuri : Uri) (mem : List α) (str : ℕ) : Option Uri :=
  match mem with
  | [] => none
  | c :: rest =>
    if c = m.slash then do
      let (xuri, mem, str) ← setPath m flags xuri (c :: rest) str
      let (xuri, mem, str) ← setQuery m flags xuri mem str
      setFrag m flags xuri mem str
    else some xuri

/-- A character at `*str` that has to be there, and what is behind it. -/
def skip (d : α) : List α → Option (Option (List α))
  | [] => none
  | c :: rest => if c = d then some (some rest) else some none

def touri (m : Marks α) (mem : List α) (uri : Uri) (flags : Flags) : Option (ℤ × Uri) := do
  let scheme ← schemeLoop m mem 0
  match scheme with
  | none => some (-1, uri)
  | some (mem, str) =>
    let xuri := { Uri.null with scheme := ⟨some 0, str⟩ }
    let slash ← skip m.slash mem.tail
    match slash with
    | none => some (-1, uri)
    | some mem =>
      let slash ← skip m.slash mem
      match slash with
      | none => some (-1, uri)
      | some mem =>
        let (xuri, mem, str) ← hostLoop m flags.noauth mem (str + 3) none (str + 3) xuri
        let xuri ← setTail m flags xuri mem str
        some (0, xuri)

/-- The characters of the type `qse_mchar_t`. -/
def mmarks : Marks UInt8 := ⟨0, 58, 47, 64, 63, 35, by decide, by decide⟩

/-- The characters of the type `qse_wchar_t`. -/
def wmarks : Marks UInt32 := ⟨0, 58, 47, 64, 63, 35, by decide, by decide⟩

def mbstouri (mem : List UInt8) (uri : Uri) (flags : ℕ) : Option (ℤ × Uri) :=
  touri mmarks mem uri (.ofBits flags)

def wcstouri (mem : List UInt32) (uri : Uri) (flags : ℕ) : Option (ℤ × Uri) :=
  touri wmarks mem uri (.ofBits flags)

/-! ## What the loops find -/

variable {α : Type} {m : Marks α} {body h : List α} {o : Option (List α)} {xuri : Uri}
  {ptr str : ℕ}

def optText (d : α) : Option (List α) → List α
  | none => []
  | some as => d :: as

def optSlice (at_ : ℕ) : Option (List α) → Slice
  | none => .null
  | some as => ⟨some at_, as.length⟩

def authText (m : Marks α) : Option (List α × Option (List α)) → List α
  | none => []
  | some (u, w) => u ++ optText m.colon w ++ [m.at_]

def userSlice (at_ : ℕ) (auth : Option (List α × Option (List α))) : Slice :=
  optSlice at_ (auth.map Prod.fst)

def passSlice (at_ : ℕ) : Option (List α × Option (List α)) → Slice
  | none => .null
  | some (u, w) => optSlice (at_ + u.length + 1) w

def colonAt (ptr : ℕ) (h : List α) (o : Option (List α)) : Option ℕ :=
  o.map fun _ => ptr + h.length

theorem cut_length (ptr : ℕ) (h p : List α) (d : α) :
    ptr + (h ++ d :: p).length - (ptr + h.length) - 1 = p.length := by
  rw [length_append, length_cons]
  omega

theorem setHost_colonAt (hport : xuri.port = .null) (d : α) :
    setHost xuri (colonAt ptr h o) ptr (ptr + (h ++ optText d o).length) =
      { xuri with host := ⟨some ptr, h.length⟩, port := optSlice (ptr + h.length + 1) o } := by
  cases o with
  | none => simp [setHost, colonAt, optText, optSlice, hport]
  | some p =>
    simp only [setHost, colonAt, optText, optSlice, map_some, cut_length,
      Nat.add_sub_cancel_left]

theorem setAuth_colonAt (hpass : xuri.pass = .null) (d : α) :
    setAuth xuri (colonAt ptr h o) ptr (ptr + (h ++ optText d o).length) =
      { xuri with user := ⟨some ptr, h.length⟩, pass := optSlice (ptr + h.length + 1) o } := by
  cases o with
  | none => simp [setAuth, colonAt, optText, optSlice, hpass]
  | some p =>
    simp only [setAuth, colonAt, optText, optSlice, map_some, cut_length,
      Nat.add_sub_cancel_left]

variable [DecidableEq α]

theorem hostLoop_cons {noauth : Bool} (hdone : noauth = true ∨ xuri.user.ptr ≠ none) (c : α)
    (rest : List α) (colon : Option ℕ) :
    hostLoop m noauth (c :: rest) str colon ptr xuri =
      if colon = none ∧ c = m.colon then hostLoop m noauth rest (str + 1) (some str) ptr xuri
      else if c = m.slash ∨ c = m.nul then some (setHost xuri colon ptr str, c :: rest, str)
      else hostLoop m noauth rest (str + 1) colon ptr xuri := by
  cases noauth with
  | true => rfl
  | false =>
    have hno : ¬(xuri.user.ptr = none ∧ c = m.at_) := by
      rintro ⟨hnone, -⟩
      rcases hdone with hfalse | hsome
      · cases hfalse
      · exact hsome hnone
    rw [hostLoop, if_neg hno]
    rfl

def Ended (m : Marks α) (tail : List α) : Prop := tail = [] ∨ ∃ t, tail = m.slash :: t

/-- The first colon is the one between the two, and no character of `ds` is in either. -/
def Free (m : Marks α) (ds h : List α) (o : Option (List α)) : Prop :=
  m.colon ∉ h ∧ ∀ c ∈ h ++ o.getD [], c ∉ ds

section Free

variable {ds : List α} {c : α}

omit [DecidableEq α]

theorem free_nil : Free m ds [] none := by
  simp [Free]

theorem Free.colon (h' : Free m ds h none) : Free m ds h (some []) := h'

theorem Free.snoc (hfree : Free m ds h none) (hne : c ≠ m.colon) (hc : c ∉ ds) :
    Free m ds (h ++ [c]) none := by
  obtain ⟨hcolon, hmem⟩ := hfree
  refine ⟨by simp [hcolon, Ne.symm hne], fun d hd => ?_⟩
  simp only [getD_none, append_nil, mem_append, mem_singleton] at hmem hd
  rcases hd with hd | rfl
  · exact hmem d hd
  · exact hc

theorem Free.snoc_some {p : List α} (hfree : Free m ds h (some p)) (hc : c ∉ ds) :
    Free m ds h (some (p ++ [c])) := by
  obtain ⟨hcolon, hmem⟩ := hfree
  refine ⟨hcolon, fun d hd => ?_⟩
  rw [getD_some, ← append_assoc, mem_append, mem_singleton] at hd
  rcases hd with hd | rfl
  · exact hmem d hd
  · exact hc

end Free

theorem hostLoop_done (xuri : Uri) (ptr : ℕ) (h : List α) (o : Option (List α)) (noauth : Bool)
    (hdone : noauth = true ∨ xuri.user.ptr ≠ none) (hfree : Free m [m.slash] h o)
    (hnul : m.nul ∉ body) :
    ∃ h' o' tail, h ++ optText m.colon o ++ body = h' ++ optText m.colon o' ++ tail ∧
      Ended m tail ∧ Free m [m.slash] h' o' ∧
      hostLoop m noauth (body ++ [m.nul]) (ptr + (h ++ optText m.colon o).length)
          (colonAt ptr h o) ptr xuri =
        some (setHost xuri (colonAt ptr h' o') ptr (ptr + (h' ++ optText m.colon o').length),
          tail ++ [m.nul], ptr + (h' ++ optText m.colon o').length) := by
  obtain ⟨hcolon, hslash, -⟩ := m.distinct
  induction body generalizing h o with
  | nil =>
    refine ⟨h, o, [], rfl, .inl rfl, hfree, ?_⟩
    rw [nil_append, hostLoop_cons hdone, if_neg (fun hc => hcolon hc.2), if_pos (.inr rfl)]
  | cons c body ih =>
    obtain ⟨hc, hbody⟩ := not_or.mp (mem_cons.not.mp hnul)
    rw [cons_append, hostLoop_cons hdone]
    by_cases hfirst : colonAt ptr h o = none ∧ c = m.colon
    · obtain ⟨hnone, rfl⟩ := hfirst
      obtain rfl : o = none := map_eq_none_iff.mp hnone
      obtain ⟨h', o', tail, htext, hended, hfree', hrun⟩ := ih h (some []) hfree.colon hbody
      refine ⟨h', o', tail, ?_, hended, hfree', ?_⟩
      · rw [← htext]
        simp [optText]
      · rw [if_pos ⟨rfl, rfl⟩, ← hrun]
        simp [optText, colonAt, Nat.add_assoc]
    rw [if_neg hfirst]
    by_cases hend : c = m.slash ∨ c = m.nul
    · obtain rfl : c = m.slash := hend.resolve_right (Ne.symm hc)
      exact ⟨h, o, m.slash :: body, rfl, .inr ⟨body, rfl⟩, hfree, by rw [if_pos hend]; rfl⟩
    rw [if_neg hend]
    have hslash' : c ∉ [m.slash] := fun hmem => hend (.inl (mem_singleton.mp hmem))
    cases o with
    | none =>
      have hne : c ≠ m.colon := fun heq => hfirst ⟨rfl, heq⟩
      obtain ⟨h', o', tail, htext, hended, hfree', hrun⟩ :=
        ih (h ++ [c]) none (hfree.snoc hne hslash') hbody
      refine ⟨h', o', tail, ?_, hended, hfree', ?_⟩
      · rw [← htext]
        simp [optText]
      · rw [← hrun]
        simp [optText, colonAt, Nat.add_assoc]
    | some p =>
      obtain ⟨h', o', tail, htext, hended, hfree', hrun⟩ :=
        ih h (some (p ++ [c])) (hfree.snoc_some hslash') hbody
      refine ⟨h', o', tail, ?_, hended, hfree', ?_⟩
      · rw [← htext]
        simp [optText]
      · rw [← hrun]
        simp [optText, colonAt, Nat.add_assoc]

/-- The host ends at the first slash, and the user before it at the first `@`, where one is
looked for. -/
structure Authority (m : Marks α) (noauth : Bool) (auth : Option (List α × Option (List α)))
    (host : List α) (port : Option (List α)) : Prop where
  ends : Free m [m.slash] host port
  user : ∀ u w, auth = some (u, w) → noauth = false ∧ Free m [m.slash, m.at_] u w
  without : auth = none → noauth = false → Free m [m.slash, m.at_] host port

def Found (m : Marks α) (noauth : Bool) (text : List α) (ptr : ℕ) (xuri : Uri)
    (run : Option (Uri × List α × ℕ)) : Prop :=
  ∃ auth host port tail, text = authText m auth ++ (host ++ optText m.colon port ++ tail) ∧
    Ended m tail ∧ Authority m noauth auth host port ∧
    run = some ({ xuri with
        user := userSlice ptr auth
        pass := passSlice ptr auth
        host := ⟨some (ptr + (authText m auth).length), host.length⟩
        port := optSlice (ptr + (authText m auth).length + host.length + 1) port },
      tail ++ [m.nul], ptr + (authText m auth ++ (host ++ optText m.colon port)).length)

omit [DecidableEq α] in
theorem found_host {noauth : Bool} (ptr : ℕ) (huser : xuri.user = .null)
    (hpass : xuri.pass = .null) (hport : xuri.port = .null) {tail : List α}
    (hended : Ended m tail) (hfree : Free m [m.slash] h o)
    (hat : noauth = false → Free m [m.slash, m.at_] h o) :
    Found m noauth (h ++ optText m.colon o ++ tail) ptr xuri
      (some (setHost xuri (colonAt ptr h o) ptr (ptr + (h ++ optText m.colon o).length),
        tail ++ [m.nul], ptr + (h ++ optText m.colon o).length)) := by
  refine ⟨none, h, o, tail, rfl, hended, ⟨hfree, fun _ _ hsome => (by cases hsome),
    fun _ => hat⟩, ?_⟩
  rw [setHost_colonAt hport]
  cases xuri with
  | mk scheme user pass host port path query frag =>
    obtain rfl : user = .null := huser
    obtain rfl : pass = .null := hpass
    simp [authText, userSlice, passSlice, optSlice]

theorem hostLoop_noauth (huser : xuri.user = .null) (hpass : xuri.pass = .null)
    (hport : xuri.port = .null) (hnul : m.nul ∉ body) :
    Found m true body ptr xuri (hostLoop m true (body ++ [m.nul]) ptr none ptr xuri) := by
  obtain ⟨host, port, tail, htext, hended, hfree, hrun⟩ :=
    hostLoop_done xuri ptr [] none true (.inl rfl) free_nil hnul
  have hfound : Found m true _ _ _ _ := found_host ptr huser hpass hport hended hfree nofun
  rw [← htext, ← hrun] at hfound
  exact hfound

theorem hostLoop_auth (ptr : ℕ) (huser : xuri.user = .null) (hpass : xuri.pass = .null)
    (hport : xuri.port = .null) (hfree : Free m [m.slash, m.at_] h o) (hnul : m.nul ∉ body) :
    Found m false (h ++ optText m.colon o ++ body) ptr xuri
      (hostLoop m false (body ++ [m.nul]) (ptr + (h ++ optText m.colon o).length)
        (colonAt ptr h o) ptr xuri) := by
  obtain ⟨hcolon, hslash, hat, -⟩ := m.distinct
  have hnone : xuri.user.ptr = none := by rw [huser]; rfl
  have hhost : ∀ {h : List α} {o : Option (List α)}, Free m [m.slash, m.at_] h o →
      Free m [m.slash] h o := by
    intro h o hfree
    exact ⟨hfree.1, fun c hc hmem => hfree.2 c hc (mem_cons.mpr (.inl (mem_singleton.mp hmem)))⟩
  induction body generalizing h o with
  | nil =>
    rw [nil_append, hostLoop, if_neg Bool.false_ne_true, if_neg (fun hc => hcolon hc.2),
      if_neg (fun hc => hat hc.2), if_pos (.inr rfl)]
    exact found_host ptr huser hpass hport (.inl rfl) (hhost hfree) fun _ => hfree
  | cons c body ih =>
    obtain ⟨hc, hbody⟩ := not_or.mp (mem_cons.not.mp hnul)
    rw [cons_append, hostLoop, if_neg Bool.false_ne_true]
    by_cases hfirst : colonAt ptr h o = none ∧ c = m.colon
    · obtain ⟨hnil, rfl⟩ := hfirst
      obtain rfl : o = none := map_eq_none_iff.mp hnil
      have hrest := ih (h := h) (o := some []) hfree.colon hbody
      rw [if_pos ⟨rfl, rfl⟩]
      simpa [optText, colonAt, Nat.add_assoc] using hrest
    rw [if_neg hfirst]
    by_cases huser' : xuri.user.ptr = none ∧ c = m.at_
    · obtain ⟨-, rfl⟩ := huser'
      rw [if_pos ⟨hnone, rfl⟩, setAuth_colonAt hpass]
      obtain ⟨host, port, tail, htext, hended, hfree', hrun⟩ :=
        hostLoop_done { xuri with
            user := ⟨some ptr, h.length⟩, pass := optSlice (ptr + h.length + 1) o }
          (ptr + (h ++ optText m.colon o).length + 1) [] none false
          (.inr (some_ne_none _)) free_nil hbody
      refine ⟨some (h, o), host, port, tail, ?_, hended, ⟨hfree', ?_, nofun⟩, ?_⟩
      · rw [← htext]
        simp [authText, optText]
      · rintro u w ⟨⟩
        exact ⟨rfl, hfree⟩
      · refine hrun.trans ?_
        have hbehind : ptr + (h ++ optText m.colon o).length + 1 =
            ptr + (authText m (some (h, o))).length := by
          rw [authText, @length_append α _ [m.at_], length_singleton, Nat.add_assoc]
        have hend := Nat.add_assoc ptr (authText m (some (h, o))).length
          (host ++ optText m.colon port).length
        rw [← length_append] at hend
        rw [setHost_colonAt (by exact hport), hbehind, hend]
        rfl
    · rw [if_neg huser']
      by_cases hend : c = m.slash ∨ c = m.nul
      · obtain rfl : c = m.slash := hend.resolve_right (Ne.symm hc)
        rw [if_pos hend]
        exact found_host ptr huser hpass hport (.inr ⟨body, rfl⟩) (hhost hfree) fun _ => hfree
      rw [if_neg hend]
      have hc' : c ∉ [m.slash, m.at_] := by
        rw [mem_cons, mem_singleton]
        rintro (heq | heq)
        · exact hend (.inl heq)
        · exact huser' ⟨hnone, heq⟩
      cases o with
      | none =>
        have hne : c ≠ m.colon := fun heq => hfirst ⟨rfl, heq⟩
        have hrest := ih (h := h ++ [c]) (o := none) (hfree.snoc hne hc') hbody
        simpa [optText, colonAt, Nat.add_assoc] using hrest
      | some p =>
        have hrest := ih (h := h) (o := some (p ++ [c])) (hfree.snoc_some hc') hbody
        simpa [optText, colonAt, Nat.add_assoc] using hrest

/-! ## The path, the query and the fragment -/

theorem untilLoop_eq (stops : α → Bool) (hnul : m.nul ∉ body) (str : ℕ) :
    ∃ as tail, body = as ++ tail ∧ (∀ c ∈ as, stops c = false) ∧
      (tail = [] ∨ ∃ c t, tail = c :: t ∧ stops c = true) ∧
      untilLoop m stops (body ++ [m.nul]) str = some (tail ++ [m.nul], str + as.length) := by
  induction body generalizing str with
  | nil => exact ⟨[], [], rfl, nofun, .inl rfl, by simp [untilLoop]⟩
  | cons c body ih =>
    obtain ⟨hc, hbody⟩ := not_or.mp (mem_cons.not.mp hnul)
    rw [cons_append, untilLoop, if_neg (Ne.symm hc)]
    by_cases hstop : stops c = true
    · exact ⟨[], c :: body, rfl, nofun, .inr ⟨c, body, rfl, hstop⟩, by simp [hstop]⟩
    obtain ⟨as, tail, rfl, has, htail, hrun⟩ := ih hbody (str + 1)
    refine ⟨c :: as, tail, rfl, ?_, htail, ?_⟩
    · exact forall_mem_cons.mpr ⟨Bool.eq_false_iff.mpr hstop, has⟩
    rw [if_neg hstop, hrun, length_cons]
    congr 2
    omega

def Fragment (m : Marks α) (flags : Flags) (tail : List α) : Prop :=
  tail = [] ∨ ∃ t, tail = m.hash :: t ∧ flags.nofrag = false

def Query (m : Marks α) (flags : Flags) (tail : List α) : Prop :=
  Fragment m flags tail ∨ ∃ t, tail = m.question :: t ∧ flags.noquery = false

theorem setPath_eq (flags : Flags) (xuri : Uri) (str : ℕ) (hnul : m.nul ∉ body) :
    ∃ path tail, body = path ++ tail ∧
      ((flags.noquery = false → m.question ∉ path) ∧ (flags.nofrag = false → m.hash ∉ path)) ∧
      Query m flags tail ∧
      setPath m flags xuri (body ++ [m.nul]) str =
        some ({ xuri with path := ⟨some str, path.length⟩ }, tail ++ [m.nul],
          str + path.length) := by
  obtain ⟨path, tail, rfl, hpath, htail, hrun⟩ := untilLoop_eq
    (fun c => (!flags.noquery && c = m.question) || (!flags.nofrag && c = m.hash)) hnul str
  refine ⟨path, tail, rfl, ⟨?_, ?_⟩, ?_, ?_⟩
  · intro hallowed hmem
    have hgoes := hpath _ hmem
    simp [hallowed] at hgoes
  · intro hallowed hmem
    have hgoes := hpath _ hmem
    simp [hallowed] at hgoes
  · rcases htail with hnil | ⟨c, t, rfl, hstop⟩
    · exact .inl (.inl hnil)
    · simp only [Bool.or_eq_true, Bool.and_eq_true, Bool.not_eq_true', decide_eq_true_eq] at hstop
      rcases hstop with ⟨hquery, rfl⟩ | ⟨hfrag, rfl⟩
      · exact .inr ⟨t, rfl, hquery⟩
      · exact .inl (.inr ⟨t, rfl, hfrag⟩)
  · rw [setPath, hrun]
    simp

theorem setQuery_eq (flags : Flags) (xuri : Uri) (str : ℕ) (hquery : xuri.query = .null)
    (hbody : Query m flags body) (hnul : m.nul ∉ body) :
    ∃ query tail, body = optText m.question query ++ tail ∧
      (∀ q, query = some q →
        flags.noquery = false ∧ (flags.nofrag = false → m.hash ∉ q)) ∧ Fragment m flags tail ∧
      setQuery m flags xuri (body ++ [m.nul]) str =
        some ({ xuri with query := optSlice (str + 1) query }, tail ++ [m.nul],
          str + (optText m.question query).length) := by
  obtain ⟨-, -, -, hquestion, -⟩ := m.distinct
  by_cases hfirst : ∃ t, body = m.question :: t ∧ flags.noquery = false
  · obtain ⟨t, rfl, hallowed⟩ := hfirst
    obtain ⟨-, ht⟩ := not_or.mp (mem_cons.not.mp hnul)
    obtain ⟨as, tail, rfl, hquery', htail, hrun⟩ :=
      untilLoop_eq (fun c => !flags.nofrag && c = m.hash) ht (str + 1)
    refine ⟨some as, tail, rfl, ?_, ?_, ?_⟩
    · rintro q ⟨⟩
      refine ⟨hallowed, fun hfrag hmem => ?_⟩
      have hgoes := hquery' _ hmem
      simp [hfrag] at hgoes
    · rcases htail with hnil | ⟨c, t, rfl, hstop⟩
      · exact .inl hnil
      · simp only [Bool.and_eq_true, Bool.not_eq_true', decide_eq_true_eq] at hstop
        obtain ⟨hfrag, rfl⟩ := hstop
        exact .inr ⟨t, rfl, hfrag⟩
    · rw [cons_append, setQuery, if_pos (by simp [hallowed]), hrun]
      simp [optSlice, optText]
      omega
  · refine ⟨none, body, rfl, nofun, hbody.resolve_right hfirst, ?_⟩
    have hsame : setQuery m flags xuri (body ++ [m.nul]) str =
        some (xuri, body ++ [m.nul], str) := by
      cases body with
      | nil => simp [setQuery, hquestion]
      | cons c t =>
        rw [cons_append, setQuery, if_neg]
        intro hc
        simp only [Bool.and_eq_true, Bool.not_eq_true', decide_eq_true_eq] at hc
        obtain ⟨hallowed, rfl⟩ := hc
        exact hfirst ⟨t, rfl, hallowed⟩
    rw [hsame, optSlice, ← hquery]
    rfl

theorem setFrag_eq (flags : Flags) (xuri : Uri) (str : ℕ) (hfrag : xuri.frag = .null)
    (hbody : Fragment m flags body) (hnul : m.nul ∉ body) :
    ∃ frag, body = optText m.hash frag ∧ (frag ≠ none → flags.nofrag = false) ∧
      setFrag m flags xuri (body ++ [m.nul]) str =
        some { xuri with frag := optSlice (str + 1) frag } := by
  obtain ⟨-, -, -, -, hhash⟩ := m.distinct
  rcases hbody with rfl | ⟨t, rfl, hallowed⟩
  · refine ⟨none, rfl, fun hne => absurd rfl hne, ?_⟩
    simp [setFrag, hhash, optSlice, ← hfrag]
  obtain ⟨-, ht⟩ := not_or.mp (mem_cons.not.mp hnul)
  obtain ⟨as, tail, rfl, -, htail, hrun⟩ := untilLoop_eq (fun _ => false) ht (str + 1)
  obtain rfl : tail = [] := by
    rcases htail with hnil | ⟨_, _, -, hstop⟩
    · exact hnil
    · cases hstop
  rw [append_nil] at hrun ⊢
  refine ⟨some as, rfl, fun _ => hallowed, ?_⟩
  simp [setFrag, hallowed, hrun, optSlice]

end Uri

end Qse
