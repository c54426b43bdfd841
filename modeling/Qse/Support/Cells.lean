import Mathlib.Data.Nat.Notation

/-!
# A block of cells

Reading and writing of cells in a block that has so many of them. An access outside the block
yields `none`.
-/

open List Option

namespace Cells

variable {α : Type*} {as bs cs ds : List α}

def put (buf : List α) (i : ℕ) (a : α) : Option (List α) :=
  if i < buf.length then some (buf.set i a) else none

def slice (buf : List α) (i n : ℕ) : Option (List α) :=
  if i + n ≤ buf.length then some ((buf.drop i).take n) else none

def blit (buf : List α) (i : ℕ) (as : List α) : Option (List α) :=
  if i + as.length ≤ buf.length then some (buf.take i ++ as ++ buf.drop (i + as.length)) else none

def copy : List α → ℕ → ℕ → ℕ → Option (List α)
  | buf, _, _, 0 => some buf
  | buf, i, j, n + 1 => do
    let a ← buf[j]?
    let buf ← put buf i a
    copy buf (i + 1) (j + 1) n

theorem exists_cut {buf : List α} {k : ℕ} (htake : buf.take as.length = as)
    (hlt : as.length + k < buf.length) :
    ∃ old b rest, buf = as ++ (old ++ b :: rest) ∧ old.length = k := by
  have hk : k < (buf.drop as.length).length := by
    rw [length_drop]
    omega
  refine ⟨(buf.drop as.length).take k, (buf.drop as.length)[k],
    (buf.drop as.length).drop (k + 1), ?_, ?_⟩
  · rw [← drop_eq_getElem_cons hk, take_append_drop]
    calc
      buf = buf.take as.length ++ buf.drop as.length := (take_append_drop ..).symm
      _ = as ++ buf.drop as.length := by rw [htake]
  · rw [length_take]
    omega

theorem put_append (b a : α) : put (as ++ b :: bs) as.length a = some (as ++ a :: bs) := by
  rw [put, if_pos (by simp)]
  simp

theorem slice_append : slice (as ++ (bs ++ cs)) as.length bs.length = some bs := by
  rw [slice, if_pos (by simp)]
  simp

theorem blit_append (hlength : bs.length = ds.length) :
    blit (as ++ (bs ++ cs)) as.length ds = some (as ++ (ds ++ cs)) := by
  rw [blit, if_pos (by simp [hlength]), ← hlength]
  simp [drop_append]

theorem copy_append : copy (as ++ (bs ++ (cs ++ ds))) as.length (as.length + bs.length) cs.length =
    some (as ++ (cs ++ ((bs ++ cs).drop cs.length ++ ds))) := by
  induction cs generalizing as bs with
  | nil => simp [copy]
  | cons c cs ih =>
    have hread : (as ++ (bs ++ (c :: cs ++ ds)))[as.length + bs.length]? = some c := by
      rw [← append_assoc, ← length_append, getElem?_append_right (Nat.le_refl _)]
      simp
    rw [length_cons, copy, hread]
    cases bs with
    | nil =>
      have hrest := @ih (as ++ [c]) []
      simp only [length_append, length_singleton, append_assoc,
        singleton_append, length_nil, Nat.add_zero, nil_append] at hrest
      simp only [bind_eq_bind, bind_some, nil_append, cons_append,
        put_append, length_nil, Nat.add_zero, hrest, drop_succ_cons]
    | cons b bs =>
      have hrest := @ih (as ++ [c]) (bs ++ [c])
      simp only [length_append, length_singleton, append_assoc, singleton_append] at hrest
      have hplace : as.length + (bs.length + 1) + 1 = as.length + 1 + (bs.length + 1) := by
        omega
      simp only [bind_eq_bind, bind_some, cons_append, put_append,
        length_cons, hplace, hrest, drop_succ_cons]

end Cells
