import Qse.Text.Mchar
import Mathlib.Data.List.TakeWhile

/-!
# Canonical path names

A translation of `qse_canonmbspath` and `qse_canonwcspath` in
`lib/cmn/path-canon.c` for a Unix build. The two functions differ in the type of
a character only. A path is the list of its characters before the terminating
null, and `canon` is the part of the output buffer before `dst`.
-/

namespace Qse.Path

/-- `qse_canonpath_flag_t` -/
structure Flags where
  emptySingleDot : Bool
  keepDoubleDots : Bool
  dropTrailingSep : Bool
deriving DecidableEq

section Canon

variable {α : Type} [DecidableEq α] (sep dot : α)

/-- `while (tmp > non_root_start) { tmp--; if (QSE_ISPATHMBSEP(*tmp)) { tmp++; break; } }` -/
def scanBack (canon : List α) (start : ℕ) : ℕ → ℕ
  | 0 => 0
  | tmp + 1 =>
    if start < tmp + 1 then
      if canon[tmp]? = some sep then tmp + 1 else scanBack canon start tmp
    else tmp + 1

/-- The beginning `tmp` of the previous segment. -/
def prevSegment (canon : List α) (start : ℕ) : ℕ :=
  if start < canon.length then scanBack sep canon start (canon.length - 1) else canon.length

/-- The code at `normal`: the segment is copied, and a separator behind it. -/
def copySegment (canon seg ptr : List α) : List α × List α :=
  match ptr with
  | [] => (canon ++ seg, [])
  | c :: rest => if c = sep then (canon ++ seg ++ [c], rest) else (canon ++ seg, c :: rest)

/-- "handle the segment": the output so far, and the rest of the path. -/
def handleSegment (flags : Flags) (hasRoot : Bool) (start : ℕ) (canon seg ptr : List α) :
    List α × List α :=
  if seg = [dot] then (canon, ptr)
  else if ¬flags.keepDoubleDots ∧ seg = [dot, dot] then
    let tmp := prevSegment sep canon start
    if hasRoot then (canon.take tmp, ptr)
    else
      let prevlen := canon.length - tmp
      if prevlen = 0 then copySegment sep canon seg ptr
      else if prevlen = 3 ∧ canon[tmp]? = some dot ∧ canon[tmp + 1]? = some dot then
        copySegment sep canon seg ptr
      else (canon.take tmp, ptr)
  else copySegment sep canon seg ptr

theorem copySegment_length_le (canon seg ptr : List α) :
    (copySegment sep canon seg ptr).2.length ≤ ptr.length := by
  unfold copySegment
  split
  · exact le_rfl
  · split
    · exact Nat.le_succ _
    · exact le_rfl

theorem handleSegment_length_le (flags : Flags) (hasRoot : Bool) (start : ℕ)
    (canon seg ptr : List α) :
    (handleSegment sep dot flags hasRoot start canon seg ptr).2.length ≤ ptr.length := by
  have hcopy := copySegment_length_le sep canon seg ptr
  simp only [handleSegment]
  repeat' split
  all_goals first | exact hcopy | exact le_rfl

/-- The loop over the segments; `ptr` is the rest of the path. -/
def canonLoop (flags : Flags) (hasRoot : Bool) (start : ℕ) (ptr canon : List α) : List α :=
  match _h : ptr.dropWhile (· = sep) with
  | [] => canon
  | c :: rest =>
    let seg := (c :: rest).takeWhile (· ≠ sep)
    let next := handleSegment sep dot flags hasRoot start canon seg
      ((c :: rest).dropWhile (· ≠ sep))
    canonLoop flags hasRoot start next.2 next.1
termination_by ptr.length
decreasing_by
  have hsep : c ≠ sep := by
    have hhead := List.head?_dropWhile_not (fun c => decide (c = sep)) ptr
    rw [_h] at hhead
    simpa using hhead
  have hdrop : ((c :: rest).dropWhile (· ≠ sep)).length ≤ rest.length := by
    rw [List.dropWhile_cons, if_pos (by simpa using hsep)]
    exact (List.dropWhile_suffix _).length_le
  have hle := handleSegment_length_le sep dot flags hasRoot start canon
    ((c :: rest).takeWhile (· ≠ sep)) ((c :: rest).dropWhile (· ≠ sep))
  have hskip := (List.dropWhile_suffix (l := ptr) fun c => decide (c = sep)).length_le
  rw [_h, List.length_cons] at hskip
  omega

/-- "if the canoncal path composed so far ends with a separator and the original
path didn't end with the separator, delete the ending separator" -/
def dropTrailing (flags : Flags) (start : ℕ) (path canon : List α) : List α :=
  if start < canon.length ∧ canon.getLast? = some sep ∧
      (flags.dropTrailingSep ∨ path.getLast? ≠ some sep) then canon.dropLast
  else canon

/-- The end of the function, from `if (canon_len <= 0)` on. -/
def finalize (flags : Flags) (canon : List α) : List α :=
  let n := canon.length
  if n = 0 then if ¬flags.emptySingleDot then [dot] else canon
  else if n = 3 then
    if canon[n - 3]? = some dot ∧ canon[n - 2]? = some dot ∧ canon[n - 1]? = some sep then
      canon.dropLast
    else canon
  else if 3 < n then
    if canon[n - 4]? = some sep ∧ canon[n - 3]? = some dot ∧ canon[n - 2]? = some dot ∧
        canon[n - 1]? = some sep then canon.dropLast
    else canon
  else canon

/-- `qse_canonmbspath` and `qse_canonwcspath`; the return value is the length. -/
def canonpath (flags : Flags) (path : List α) : List α :=
  match path with
  | [] => []
  | c :: rest =>
    if c = sep then
      finalize sep dot flags
        (dropTrailing sep flags 1 path (canonLoop sep dot flags true 1 rest [c]))
    else
      finalize sep dot flags
        (dropTrailing sep flags 0 path (canonLoop sep dot flags false 0 path []))

end Canon

def canonmbspath (path : List UInt8) (flags : Flags) : List UInt8 :=
  canonpath (mt '/') (mt '.') flags path

/-- `wchar_t` strings, with `/` and `.` as wide characters. -/
def canonwcspath (path : List UInt32) (flags : Flags) : List UInt32 :=
  canonpath 0x2F 0x2E flags path

end Qse.Path
