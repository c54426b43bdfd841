import Qse.Support.Cells
import Qse.Support.MachineWord

/-!
# The dynamic strings

A translation of `lib/cmn/str-dyn.h` for strings without a sizer. A buffer is the block of cells
that the memory manager handed out, and a function that reads or writes outside it, or whose
assertion fails, yields `none`. Requests for memory are numbered in the order in which they
are made.
-/

namespace Qse

open Cells MachineWord

namespace StrDyn

/-- `(qse_size_t)-1` -/
def nil : ℕ := 2 ^ 64 - 1

/-- The character type, whether assertions are compiled in, and for each request what the cells
of the block hold, or that it is refused. -/
structure Env where
  width : ℕ
  width_pos : 0 < width
  width_le : width ≤ 8
  asserts : Bool
  memory : ℕ → Option (ℕ → ℕ)

end StrDyn

/-- `str_t`, with whether its memory manager has a function to reallocate. -/
structure StrDyn where
  ptr : Option (List ℕ)
  len : ℕ
  capa : ℕ
  realloc : Bool

namespace StrDyn

variable (e : Env)

/-- The number of characters in a block of `QSE_SIZEOF(char_t)*(capa+1)` bytes. -/
def cells (capa : ℕ) : ℕ := e.width * (capa + 1) % 2 ^ 64 / e.width

def alloc (n capa : ℕ) : Option (List ℕ) :=
  (e.memory n).map fun junk => (List.range (cells e capa)).map junk

/-- `QSE_MMGR_REALLOC` -/
def reallocate (n capa : ℕ) (buf : List ℕ) : Option (List ℕ) :=
  (e.memory n).map fun junk => (List.range (cells e capa)).map fun i => buf.getD i (junk i)

def assert (p : Prop) [Decidable p] : Option Unit := if e.asserts = true ∧ ¬p then none else some ()

def init (n : ℕ) (realloc : Bool) (capa : ℕ) : Option (ℕ × Option StrDyn) :=
  if capa = 0 then some (n, some ⟨none, 0, capa, realloc⟩)
  else
    match alloc e n capa with
    | none => some (n + 1, none)
    | some buf => do
      let buf ← put buf 0 0
      some (n + 1, some ⟨some buf, 0, capa, realloc⟩)

def resized (n : ℕ) (s : StrDyn) (capa : ℕ) : Option (Option (List ℕ)) :=
  match s.ptr with
  | none => some (alloc e n capa)
  | some buf =>
    if s.realloc then some (reallocate e n capa buf)
    else
      match alloc e n capa with
      | none => some none
      | some tmp => do
        let ncopy := if s.len ≤ capa then s.len else capa
        let chars ← slice buf 0 (ncopy + 1)
        let tmp ← blit tmp 0 chars
        some (some tmp)

def setcapa (n : ℕ) (s : StrDyn) (capa : ℕ) : Option (ℕ × ℕ × StrDyn) :=
  if capa = s.capa then some (capa, n, s)
  else do
    match ← resized e n s capa with
    | none => some (nil, n + 1, s)
    | some tmp =>
      if capa < s.len then do
        let tmp ← put tmp capa 0
        some (capa, n + 1, { s with ptr := some tmp, len := capa, capa := capa })
      else some (capa, n + 1, { s with ptr := some tmp, capa := capa })

def extend (s : StrDyn) (chars : List ℕ) : Option StrDyn := do
  let buf ← s.ptr
  let buf ← blit buf s.len chars
  let buf ← put buf (s.len + chars.length) 0
  some { s with ptr := some buf, len := s.len + chars.length }

def setlen (n : ℕ) (s : StrDyn) (len : ℕ) : Option (ℕ × ℕ × StrDyn) :=
  if len = s.len then some (len, n, s)
  else if len < s.len then do
    let buf ← s.ptr
    let buf ← put buf len 0
    some (len, n, { s with ptr := some buf, len := len })
  else do
    let (r, n, s) ← if s.capa < len then setcapa e n s len else some (0, n, s)
    if r = nil then some (nil, n, s)
    else do
      let s ← extend s (List.replicate (len - s.len) 32)
      some (s.len, n, s)

def clear (s : StrDyn) : Option StrDyn :=
  match s.ptr with
  | none => some { s with len := 0 }
  | some buf => do
    assert e (1 ≤ s.capa)
    let buf ← put buf 0 0
    some { s with ptr := some buf, len := 0 }

def swap (s s₁ : StrDyn) : StrDyn × StrDyn := (s₁, s)

def ncpy (n : ℕ) (s : StrDyn) (chars : List ℕ) : Option (ℕ × ℕ × StrDyn) := do
  let len := chars.length
  let (r, n, s) ← if s.capa < len ∨ s.capa ≤ 0 then
      setcapa e n s (if s.capa ≤ 0 ∧ len ≤ 0 then 1 else len)
    else some (0, n, s)
  if r = nil then some (nil, n, s)
  else do
    let buf ← s.ptr
    let buf ← blit buf 0 chars
    let buf ← put buf len 0
    some (len, n, { s with ptr := some buf, len := len })

/-- The loop of `resize_for_ncat`, which asks for less and less: whether it is granted. -/
def retry (mincapa : ℕ) : ℕ → ℕ → StrDyn → Option (Bool × ℕ × StrDyn)
  | 0, n, s => do
    let (r, n, s) ← setcapa e n s 0
    some (r ≠ nil, n, s)
  | ncapa + 1, n, s => do
    let (r, n, s) ← setcapa e n s (ncapa + 1)
    if r ≠ nil then some (true, n, s)
    else if ncapa + 1 ≤ mincapa then some (false, n, s)
    else retry mincapa ncapa n s

def ncapa (s : StrDyn) (mincapa : ℕ) : ℕ :=
  if mincapa < s.capa * 2 % 2 ^ 64 then s.capa * 2 % 2 ^ 64 else mincapa

/-- `resize_for_ncat`: whether it returns 1. -/
def resizeForNcat (n : ℕ) (s : StrDyn) (len : ℕ) : Option (Bool × ℕ × StrDyn) :=
  if wordSub s.capa s.len < len then
    let mincapa := wordAdd s.len len
    retry e mincapa (ncapa s mincapa) n s
  else if s.capa ≤ 0 ∧ len ≤ 0 then do
    assert e (s.ptr = none)
    assert e (s.len ≤ 0)
    let (r, n, s) ← setcapa e n s 1
    some (r ≠ nil, n, s)
  else some (true, n, s)

def ncat (n : ℕ) (s : StrDyn) (chars : List ℕ) : Option (ℕ × ℕ × StrDyn) := do
  let (ok, n, s) ← resizeForNcat e n s chars.length
  if ok then do
    let room := wordSub s.capa s.len
    let s ← extend s (chars.take (if room < chars.length then room else chars.length))
    some (s.len, n, s)
  else some (nil, n, s)

def nrcat (n : ℕ) (s : StrDyn) (chars : List ℕ) : Option (ℕ × ℕ × StrDyn) := do
  let (ok, n, s) ← resizeForNcat e n s chars.length
  if ok then do
    let room := wordSub s.capa s.len
    let s ← extend s (chars.take (if room < chars.length then room else chars.length)).reverse
    some (s.len, n, s)
  else some (nil, n, s)

def nccat (c : ℕ) : ℕ → ℕ → StrDyn → Option (ℕ × ℕ × StrDyn)
  | 0, n, s => some (s.len, n, s)
  | len + 1, n, s => do
    let (r, n, s) ← ncat e n s [c]
    if r = nil then some (nil, n, s) else nccat c len n s

def del (s : StrDyn) (index size : ℕ) : Option (ℕ × StrDyn) :=
  match s.ptr with
  | none => some (s.len, s)
  | some buf =>
    if index < s.len ∧ 0 < size then do
      let nidx := wordAdd index size
      if s.len ≤ nidx then do
        let buf ← put buf index 0
        some (index, { s with ptr := some buf, len := index })
      else do
        -- `strncpy` is `qse_mbsncpy` here, which does not stop at a null character
        let buf ← copy buf index nidx (s.len - nidx)
        let buf ← put buf (index + (s.len - nidx)) 0
        some (wordSub s.len size, { s with ptr := some buf, len := wordSub s.len size })
    else some (s.len, s)

/-- The characters before the first null character, which are the ones `strlen` counts. -/
def chars (repl : List ℕ) : List ℕ := repl.takeWhile fun c => decide (c ≠ 0)

def amend (n : ℕ) (s : StrDyn) (pos len : ℕ) (repl : List ℕ) : Option (ℕ × ℕ × StrDyn) := do
  let repl := chars repl
  let pos := if s.len ≤ pos then s.len else pos
  let maxLen := s.len - pos
  let len := if maxLen < len then maxLen else len
  let (r, n, s) ← if repl.length < len then do
      let (_, s) ← del s pos (len - repl.length)
      some (0, n, s)
    else if len < repl.length then do
      let oldLen := s.len
      let (r, n, s) ← setlen e n s (wordSub (wordAdd s.len repl.length) len)
      if r = nil then some (nil, n, s)
      else do
        let buf ← s.ptr
        let moved ← slice buf (pos + len) (oldLen - (pos + len))
        let buf ← blit buf (pos + repl.length) moved
        some (0, n, { s with ptr := some buf })
    else some (0, n, s)
  if r = nil then some (nil, n, s)
  else if 0 < repl.length then do
    let buf ← s.ptr
    let buf ← blit buf pos repl
    some (s.len, n, { s with ptr := some buf })
  else some (s.len, n, s)

end StrDyn

end Qse
