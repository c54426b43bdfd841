import Qse.Path.Model
import Mathlib.Data.List.Basic

/-!
# The segments of a path

What canonicalizing means for the list of segments: `.` and empty segments do
not count, and `..` cancels the segment before it unless it is kept.
-/

open List

namespace Qse.Path

section Segments

variable {α : Type} [DecidableEq α] (sep dot : α)

/-- The segments between separators that are neither empty nor `.`. -/
def segments (path : List α) : List (List α) :=
  (path.splitOn sep).filter fun s => s ≠ [] ∧ s ≠ [dot]

def resolveStep (keep hasRoot : Bool) (acc : List (List α)) (seg : List α) : List (List α) :=
  if keep = false ∧ seg = [dot, dot] then
    if hasRoot then acc.dropLast
    else if acc = [] ∨ acc.getLast? = some [dot, dot] then acc ++ [seg]
    else acc.dropLast
  else acc ++ [seg]

/-- `..` cancels the segment before it; it is dropped at the root and kept at the
beginning of a relative path. -/
def resolve (keep hasRoot : Bool) (segs : List (List α)) : List (List α) :=
  segs.foldl (resolveStep dot keep hasRoot) []

structure Segment (s : List α) : Prop where
  ne_nil : s ≠ []
  ne_dot : s ≠ [dot]
  no_sep : sep ∉ s

def Resolved (keep hasRoot : Bool) (acc : List (List α)) : Prop :=
  keep = true ∨ ∃ k rest, acc = List.replicate k [dot, dot] ++ rest ∧ [dot, dot] ∉ rest ∧
    (hasRoot = true → k = 0)

variable {sep dot}

theorem segments_nil : segments sep dot [] = [] := by
  simp [segments]

theorem segments_sep (p : List α) : segments sep dot (sep :: p) = segments sep dot p := by
  have hsplit := splitOn_append_cons_self (a := sep) [] p
  rw [nil_append] at hsplit
  rw [segments, hsplit, filter_append]
  simp [segments]

theorem segments_dropWhile (p : List α) :
    segments sep dot (p.dropWhile (· = sep)) = segments sep dot p := by
  induction p with
  | nil => rfl
  | cons c p ih =>
    rw [List.dropWhile_cons]
    split
    · rename_i hc
      have heq : c = sep := by simpa using hc
      rw [ih, heq, segments_sep]
    · rfl

variable {s : List α} {keep hasRoot : Bool} {acc : List (List α)}

theorem segments_append {t : List α} (hs : sep ∉ s) (ht : t.head? = some sep ∨ t = []) :
    segments sep dot (s ++ t) = [s].filter (fun s => s ≠ [] ∧ s ≠ [dot]) ++ segments sep dot t := by
  rcases ht with ht | rfl
  · cases t with
    | nil => simp at ht
    | cons c t =>
      have heq : c = sep := by simpa using ht
      rw [heq, segments_sep, segments, segments, splitOn_append_cons_self_of_not_mem hs,
        ← filter_append, singleton_append]
  · rw [append_nil, segments_nil, append_nil, segments, splitOn_eq_singleton hs]

theorem Segment.filter (h : Segment sep dot s) :
    [s].filter (fun s => s ≠ [] ∧ s ≠ [dot]) = [s] := by
  simp [h.ne_nil, h.ne_dot]

theorem not_mem_of_mem_splitOn {p : List α} (h : s ∈ p.splitOn sep) : sep ∉ s := by
  induction p generalizing s with
  | nil =>
    obtain rfl : s = [] := by simpa using h
    exact not_mem_nil
  | cons c p ih =>
    rw [splitOn_cons_eq_if_modifyHead] at h
    split at h
    · rcases mem_cons.mp h with rfl | h
      · exact not_mem_nil
      · exact ih h
    rename_i hc
    cases hsplit : p.splitOn sep with
    | nil => exact absurd hsplit (splitOn_ne_nil sep p)
    | cons l ls =>
      rw [hsplit, modifyHead_cons] at h
      rw [hsplit] at ih
      rcases mem_cons.mp h with rfl | h
      · rw [mem_cons, not_or]
        exact ⟨fun heq => hc (by simp [heq]), ih (.head _)⟩
      · exact ih (mem_cons_of_mem l h)

theorem segments_segment (p : List α) : ∀ s ∈ segments sep dot p, Segment sep dot s := by
  intro s hs
  obtain ⟨hmem, hkept⟩ := mem_filter.mp hs
  obtain ⟨hne, hdot⟩ : s ≠ [] ∧ s ≠ [dot] := by simpa using hkept
  exact ⟨hne, hdot, not_mem_of_mem_splitOn hmem⟩

/-! ## Resolved segments -/

theorem resolveStep_keep (hasRoot : Bool) (acc : List (List α)) (seg : List α) :
    resolveStep dot true hasRoot acc seg = acc ++ [seg] := by
  rw [resolveStep, if_neg (by simp)]

theorem resolveStep_ne {seg : List α}
    (h : seg ≠ [dot, dot]) : resolveStep dot keep hasRoot acc seg = acc ++ [seg] := by
  rw [resolveStep, if_neg fun h' => h h'.2]

omit [DecidableEq α] in
theorem getLast?_replicate_append (k : ℕ) {x : List α} {rest : List (List α)} (hx : x ∉ rest) :
    (List.replicate k x ++ rest = [] ∨ (List.replicate k x ++ rest).getLast? = some x) ↔
      rest = [] := by
  rcases eq_nil_or_concat rest with rfl | ⟨rest, y, rfl⟩
  · cases k with
    | zero => simp
    | succ k => simp [getLast?_replicate]
  · have hy : y ≠ x := by
      rintro rfl
      exact hx (by simp)
    simp [hy]

theorem Resolved.step {keep hasRoot : Bool} {acc : List (List α)}
    (h : Resolved dot keep hasRoot acc) (seg : List α) :
    Resolved dot keep hasRoot (resolveStep dot keep hasRoot acc seg) := by
  rcases h with hkeep | ⟨k, rest, rfl, hrest, hroot⟩
  · exact .inl hkeep
  by_cases hseg : keep = false ∧ seg = [dot, dot]
  · obtain ⟨hkeep, rfl⟩ := hseg
    rw [resolveStep, if_pos ⟨hkeep, rfl⟩]
    cases hasRoot with
    | true =>
      obtain rfl := hroot rfl
      rw [if_pos rfl]
      refine .inr ⟨0, rest.dropLast, by simp, ?_, fun _ => rfl⟩
      exact fun hmem => hrest ((dropLast_sublist rest).subset hmem)
    | false =>
      have hlast := getLast?_replicate_append k hrest
      rw [if_neg (by simp)]
      split
      · rename_i htop
        obtain rfl := hlast.mp htop
        refine .inr ⟨k + 1, [], ?_, by simp, by simp⟩
        rw [append_nil, append_nil, replicate_succ']
      · rename_i htop
        have hne : rest ≠ [] := fun h0 => htop (hlast.mpr h0)
        refine .inr ⟨k, rest.dropLast, dropLast_append_of_ne_nil hne, ?_, by simp⟩
        exact fun hmem => hrest ((dropLast_sublist rest).subset hmem)
  · rw [resolveStep, if_neg hseg]
    cases hk : keep with
    | true => exact .inl rfl
    | false =>
      have hne : seg ≠ [dot, dot] := fun heq => hseg ⟨hk, heq⟩
      refine .inr ⟨k, rest ++ [seg], by rw [append_assoc], ?_, hroot⟩
      rw [mem_append, mem_singleton]
      exact fun hmem => hmem.elim hrest fun heq => hne heq.symm

theorem resolveStep_segment (hs : Segment sep dot s) (hacc : ∀ s ∈ acc, Segment sep dot s) :
    ∀ x ∈ resolveStep dot keep hasRoot acc s, Segment sep dot x := by
  have hpush : ∀ x ∈ acc ++ [s], Segment sep dot x := by
    intro x hx
    rcases mem_append.mp hx with hx | hx
    · exact hacc x hx
    · exact mem_singleton.mp hx ▸ hs
  have hpop : ∀ x ∈ acc.dropLast, Segment sep dot x := fun x hx =>
    hacc x ((dropLast_sublist acc).subset hx)
  rw [resolveStep]
  repeat' split
  all_goals first | exact hpush | exact hpop

theorem foldl_segment {segs : List (List α)} (hacc : ∀ s ∈ acc, Segment sep dot s)
    (hsegs : ∀ s ∈ segs, Segment sep dot s) :
    ∀ x ∈ segs.foldl (resolveStep dot keep hasRoot) acc, Segment sep dot x := by
  induction segs generalizing acc with
  | nil => exact hacc
  | cons s segs ih =>
    exact ih (resolveStep_segment (hsegs s (.head _)) hacc)
      fun x hx => hsegs x (mem_cons_of_mem s hx)

omit [DecidableEq α] in
theorem resolved_nil (keep hasRoot : Bool) : Resolved dot keep hasRoot [] :=
  .inr ⟨0, [], rfl, by simp, fun _ => rfl⟩

theorem resolved_foldl (h : Resolved dot keep hasRoot acc) (segs : List (List α)) :
    Resolved dot keep hasRoot (segs.foldl (resolveStep dot keep hasRoot) acc) := by
  induction segs generalizing acc with
  | nil => exact h
  | cons s segs ih => exact ih (h.step s)

theorem foldl_keep (hasRoot : Bool) (acc segs : List (List α)) :
    segs.foldl (resolveStep dot true hasRoot) acc = acc ++ segs := by
  induction segs generalizing acc with
  | nil => rw [append_nil]; rfl
  | cons s segs ih =>
    rw [foldl_cons, resolveStep_keep, ih, append_assoc, singleton_append]

theorem foldl_ordinary {segs : List (List α)} (h : [dot, dot] ∉ segs) (acc : List (List α)) :
    segs.foldl (resolveStep dot keep hasRoot) acc = acc ++ segs := by
  induction segs generalizing acc with
  | nil => rw [append_nil]; rfl
  | cons s segs ih =>
    have hs : s ≠ [dot, dot] := fun heq => h (heq ▸ mem_cons_self)
    rw [foldl_cons, resolveStep_ne hs, ih fun hmem => h (mem_cons_of_mem s hmem),
      append_assoc, singleton_append]

theorem foldl_leading (dot : α) (i k : ℕ) :
    (List.replicate k [dot, dot]).foldl (resolveStep dot false false)
      (List.replicate i [dot, dot]) = List.replicate (i + k) [dot, dot] := by
  induction k generalizing i with
  | zero => rfl
  | succ k ih =>
    have hnil : [dot, dot] ∉ ([] : List (List α)) := not_mem_nil
    have htop := (getLast?_replicate_append i hnil).mpr rfl
    rw [append_nil] at htop
    rw [replicate_succ, foldl_cons, resolveStep, if_pos ⟨rfl, rfl⟩,
      if_neg (by simp), if_pos htop, ← replicate_succ', ih, Nat.add_right_comm,
      Nat.add_assoc]

theorem Resolved.resolve_eq
    (h : Resolved dot keep hasRoot acc) : resolve dot keep hasRoot acc = acc := by
  rw [resolve]
  cases keep with
  | true => rw [foldl_keep, nil_append]
  | false =>
    obtain ⟨k, rest, rfl, hrest, hroot⟩ := h.resolve_left (by simp)
    rw [foldl_append, foldl_ordinary hrest]
    cases hasRoot with
    | true =>
      obtain rfl := hroot rfl
      rfl
    | false =>
      have hlead := foldl_leading dot 0 k
      rw [Nat.zero_add] at hlead
      exact congrArg (· ++ rest) hlead

end Segments

end Qse.Path
