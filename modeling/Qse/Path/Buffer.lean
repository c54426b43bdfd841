import Qse.Path.Segments

/-!
# The output buffer of the canonicalization

The output buffer holds the root and the resolved segments, each followed by a
separator; `..` is looked for backwards from the end of the buffer.
-/

open List

namespace Qse.Path

section Buffer

variable {α : Type} [DecidableEq α] {sep dot : α}

def stored (sep : α) (root : List α) (acc : List (List α)) : List α :=
  root ++ acc.flatMap fun s => s ++ [sep]

omit [DecidableEq α] in
theorem stored_append (root : List α) (acc : List (List α)) (s : List α) :
    stored sep root (acc ++ [s]) = stored sep root acc ++ s ++ [sep] := by
  simp [stored]

variable {s t : List α} {acc : List (List α)}

theorem scanBack_segment {A : List α} (hs : sep ∉ s) (start : ℕ)
    (hA : A.length = start ∨ (start < A.length ∧ A.getLast? = some sep)) {k : ℕ}
    (hk : k ≤ s.length) :
    scanBack sep (A ++ s ++ t) start (A.length + k) = A.length := by
  induction k with
  | zero =>
    rw [Nat.add_zero]
    rcases hA with hA | ⟨hlt, hlast⟩
    · rw [← hA]
      cases hn : A.length with
      | zero => rfl
      | succ n => rw [scanBack, if_neg (by omega)]
    · cases hn : A.length with
      | zero => omega
      | succ n =>
        rw [getLast?_eq_getElem?, hn, Nat.add_sub_cancel] at hlast
        have hget : (A ++ s ++ t)[n]? = some sep := by
          rw [append_assoc, getElem?_append_left (by omega), hlast]
        rw [scanBack, if_pos (by omega), if_pos hget]
  | succ k ih =>
    have hin : k < s.length := by omega
    have hget : (A ++ s ++ t)[A.length + k]? = some s[k] := by
      rw [append_assoc, getElem?_append_right (by omega), Nat.add_sub_cancel_left,
        getElem?_append_left hin, getElem?_eq_getElem hin]
    have hne : (A ++ s ++ t)[A.length + k]? ≠ some sep := by
      rw [hget]
      intro heq
      exact hs (Option.some.inj heq ▸ getElem_mem hin)
    rw [← Nat.add_assoc, scanBack, if_pos (by omega), if_neg hne]
    exact ih (by omega)

omit [DecidableEq α] in
theorem stored_end (sep : α) (root : List α) (acc : List (List α)) :
    (stored sep root acc).length = root.length ∨
      (root.length < (stored sep root acc).length ∧ (stored sep root acc).getLast? = some sep) := by
  rcases eq_nil_or_concat acc with rfl | ⟨acc, s, rfl⟩
  · exact .inl (by simp [stored])
  · refine .inr ?_
    rw [concat_eq_append, stored_append]
    refine ⟨?_, by simp⟩
    simp only [stored, length_append, length_singleton]
    omega

theorem prevSegment_nil (root : List α) :
    prevSegment sep (stored sep root []) root.length = root.length := by
  rw [prevSegment, if_neg (by simp [stored])]
  simp [stored]

theorem prevSegment_concat {root : List α} (hs : sep ∉ s) :
    prevSegment sep (stored sep root (acc ++ [s])) root.length = (stored sep root acc).length := by
  have hend := stored_end sep root acc
  have hlen : (stored sep root (acc ++ [s])).length =
      (stored sep root acc).length + s.length + 1 := by
    rw [stored_append]
    simp [Nat.add_assoc]
  rw [prevSegment, if_pos (by omega), hlen, Nat.add_sub_cancel, stored_append]
  exact scanBack_segment hs root.length hend le_rfl

theorem take_prevSegment (root : List α) (hacc : ∀ s ∈ acc, Segment sep dot s) :
    (stored sep root acc).take (prevSegment sep (stored sep root acc) root.length) =
      stored sep root acc.dropLast := by
  rcases eq_nil_or_concat acc with rfl | ⟨acc, s, rfl⟩
  · rw [prevSegment_nil]
    exact take_of_length_le (by simp [stored])
  · rw [concat_eq_append] at hacc ⊢
    have hs : Segment sep dot s := hacc s (by simp)
    rw [prevSegment_concat hs.no_sep, dropLast_concat, stored_append, append_assoc]
    exact take_left

theorem copySegment_eq (root : List α) (acc : List (List α)) (s : List α)
    (ht : t.head? = some sep ∨ t = []) :
    (∃ t', t = sep :: t' ∧
      copySegment sep (stored sep root acc) s t = (stored sep root (acc ++ [s]), t')) ∨
    (t = [] ∧ copySegment sep (stored sep root acc) s t = (stored sep root acc ++ s, [])) := by
  cases t with
  | nil => exact .inr ⟨rfl, rfl⟩
  | cons c t =>
    have hc : c = sep := by simpa using ht
    refine .inl ⟨t, by rw [hc], ?_⟩
    rw [copySegment, if_pos hc, hc, stored_append]

omit [DecidableEq α] in
theorem lastDots_iff (sep dot : α) (root : List α) (acc : List (List α)) (s : List α) :
    ((stored sep root (acc ++ [s])).length - (stored sep root acc).length = 3 ∧
        (stored sep root (acc ++ [s]))[(stored sep root acc).length]? = some dot ∧
        (stored sep root (acc ++ [s]))[(stored sep root acc).length + 1]? = some dot) ↔
      s = [dot, dot] := by
  have hlen : (stored sep root (acc ++ [s])).length - (stored sep root acc).length =
      s.length + 1 := by
    rw [stored_append, append_assoc, length_append, Nat.add_sub_cancel_left]
    simp
  have hget (i : ℕ) : (stored sep root (acc ++ [s]))[(stored sep root acc).length + i]? =
      (s ++ [sep])[i]? := by
    rw [stored_append, append_assoc, getElem?_append_right (Nat.le_add_right _ _),
      Nat.add_sub_cancel_left]
  have hzero := hget 0
  rw [Nat.add_zero] at hzero
  rw [hlen, hzero, hget 1]
  constructor
  · rintro ⟨hthree, hfirst, hsecond⟩
    match s, hthree with
    | [a, b], _ =>
      have ha : a = dot := by simpa using hfirst
      have hb : b = dot := by simpa using hsecond
      rw [ha, hb]
  · rintro rfl
    simp

theorem handleSegment_cases (flags : Flags) (hasRoot : Bool) (root : List α) (t : List α)
    (hs : Segment sep dot s) (hacc : ∀ s ∈ acc, Segment sep dot s) :
    (resolveStep dot flags.keepDoubleDots hasRoot acc s = acc ++ [s] ∧
      handleSegment sep dot flags hasRoot root.length (stored sep root acc) s t =
        copySegment sep (stored sep root acc) s t) ∨
    (resolveStep dot flags.keepDoubleDots hasRoot acc s = acc.dropLast ∧
      handleSegment sep dot flags hasRoot root.length (stored sep root acc) s t =
        (stored sep root acc.dropLast, t)) := by
  have htake := take_prevSegment root hacc
  by_cases hdots : flags.keepDoubleDots = false ∧ s = [dot, dot]
  · have hdots' : ¬flags.keepDoubleDots = true ∧ s = [dot, dot] := by simpa using hdots
    rw [handleSegment, if_neg hs.ne_dot, if_pos hdots', resolveStep, if_pos hdots]
    dsimp only
    rw [htake]
    cases hasRoot with
    | true => exact .inr ⟨rfl, rfl⟩
    | false =>
      simp only [Bool.false_eq_true, if_false]
      rcases eq_nil_or_concat acc with rfl | ⟨acc, l, rfl⟩
      · refine .inl ⟨by simp, ?_⟩
        rw [prevSegment_nil, if_pos (by simp [stored])]
      rw [concat_eq_append] at hacc ⊢
      have hl : Segment sep dot l := hacc l (by simp)
      have hne : (stored sep root (acc ++ [l])).length - (stored sep root acc).length ≠ 0 := by
        rw [stored_append, append_assoc, length_append]
        simp
      have hlast : acc ++ [l] = [] ∨ (acc ++ [l]).getLast? = some [dot, dot] ↔
          l = [dot, dot] := by simp
      have hcmp := lastDots_iff sep dot root acc l
      rw [prevSegment_concat hl.no_sep, if_neg hne]
      by_cases hld : l = [dot, dot]
      · rw [if_pos (hlast.mpr hld), if_pos (hcmp.mpr hld)]
        exact .inl ⟨rfl, rfl⟩
      · rw [if_neg (fun h => hld (hlast.mp h)), if_neg (fun h => hld (hcmp.mp h))]
        exact .inr ⟨rfl, rfl⟩
  · have hdots' : ¬(¬flags.keepDoubleDots = true ∧ s = [dot, dot]) := by simpa using hdots
    refine .inl ⟨?_, ?_⟩
    · rw [resolveStep, if_neg hdots]
    · rw [handleSegment, if_neg hs.ne_dot, if_neg hdots']

theorem handleSegment_eq (flags : Flags) (hasRoot : Bool) (root : List α) (hs : Segment sep dot s)
    (hacc : ∀ s ∈ acc, Segment sep dot s) (ht : t.head? = some sep ∨ t = []) :
    (∃ t', (t' = t ∨ t = sep :: t') ∧
      handleSegment sep dot flags hasRoot root.length (stored sep root acc) s t =
        (stored sep root (resolveStep dot flags.keepDoubleDots hasRoot acc s), t')) ∨
    (t = [] ∧ resolveStep dot flags.keepDoubleDots hasRoot acc s = acc ++ [s] ∧
      handleSegment sep dot flags hasRoot root.length (stored sep root acc) s t =
        (stored sep root acc ++ s, [])) := by
  rcases handleSegment_cases flags hasRoot root t hs hacc with
    ⟨hstep, heq⟩ | ⟨hstep, heq⟩
  · rw [hstep, heq]
    rcases copySegment_eq root acc s ht with
      ⟨t', htail, hcopy⟩ | ⟨htail, hcopy⟩
    · exact .inl ⟨t', .inr htail, hcopy⟩
    · exact .inr ⟨htail, rfl, hcopy⟩
  · exact .inl ⟨t, .inl rfl, by rw [heq, hstep]⟩

omit [DecidableEq α] in
theorem getLast?_suffix {p : List α} (h : t <:+ p) (hne : t ≠ []) : p.getLast? = t.getLast? := by
  obtain ⟨q, rfl⟩ := h
  exact getLast?_append_of_ne_nil q hne

theorem canonLoop_eq (flags : Flags) (hasRoot : Bool) (root : List α) (ptr : List α)
    (hacc : ∀ s ∈ acc, Segment sep dot s) :
    let acc' := (segments sep dot ptr).foldl
      (resolveStep dot flags.keepDoubleDots hasRoot) acc
    canonLoop sep dot flags hasRoot root.length ptr (stored sep root acc) = stored sep root acc' ∨
      ∃ pre s, Segment sep dot s ∧ acc' = pre ++ [s] ∧ ptr ≠ [] ∧ ptr.getLast? ≠ some sep ∧
        canonLoop sep dot flags hasRoot root.length ptr (stored sep root acc) =
          stored sep root pre ++ s := by
  induction hn : ptr.length using Nat.strong_induction_on generalizing ptr acc with
  | _ n ih =>
  intro acc'
  have hskip : segments sep dot ptr = segments sep dot (ptr.dropWhile (· = sep)) :=
    (segments_dropWhile ptr).symm
  have hsuf : ptr.dropWhile (· = sep) <:+ ptr := dropWhile_suffix _
  rw [canonLoop]
  split
  · rename_i hnil
    refine .inl ?_
    simp only [acc', hskip, hnil, segments_nil, foldl_nil]
  rename_i c rest hcons
  have hsep : c ≠ sep := by
    have hhead := head?_dropWhile_not (fun c => decide (c = sep)) ptr
    rw [hcons] at hhead
    simpa using hhead
  rw [hcons] at hskip hsuf
  have hsplit := takeWhile_append_dropWhile (p := fun x => decide (x ≠ sep))
    (l := c :: rest)
  have hfree : sep ∉ (c :: rest).takeWhile (· ≠ sep) := fun hmem => by
    simpa using mem_takeWhile_imp hmem
  have hseg : (c :: rest).takeWhile (· ≠ sep) ≠ [] := by
    rw [takeWhile_cons, if_pos (by simpa using hsep)]
    exact cons_ne_nil _ _
  have htail : ((c :: rest).dropWhile (· ≠ sep)).head? = some sep ∨
      (c :: rest).dropWhile (· ≠ sep) = [] := by
    have hhead := head?_dropWhile_not (fun x => decide (x ≠ sep)) (c :: rest)
    cases ht : (c :: rest).dropWhile (· ≠ sep) with
    | nil => exact .inr rfl
    | cons d t =>
      rw [ht] at hhead
      exact .inl (by simpa using hhead)
  generalize (c :: rest).takeWhile (· ≠ sep) = s at hsplit hfree hseg ⊢
  generalize (c :: rest).dropWhile (· ≠ sep) = t at hsplit htail ⊢
  rw [← hsplit] at hskip hsuf
  rw [segments_append hfree htail] at hskip
  have hshort : t.length < n := by
    have hle := hsuf.length_le
    have hpos := length_pos_iff.mpr hseg
    rw [length_append] at hle
    omega
  -- the rest of the path is a suffix of it, and ends as it does
  have hrec (t' : List α) (acc₁ : List (List α)) (hlt : t'.length < n) (hend : t' <:+ ptr)
      (hacc₁ : ∀ s ∈ acc₁, Segment sep dot s)
      (hfold : acc' = (segments sep dot t').foldl
        (resolveStep dot flags.keepDoubleDots hasRoot) acc₁) :
      canonLoop sep dot flags hasRoot root.length t' (stored sep root acc₁) =
          stored sep root acc' ∨
        ∃ pre s, Segment sep dot s ∧ acc' = pre ++ [s] ∧ ptr ≠ [] ∧ ptr.getLast? ≠ some sep ∧
          canonLoop sep dot flags hasRoot root.length t' (stored sep root acc₁) =
            stored sep root pre ++ s := by
    rcases ih t'.length hlt t' hacc₁ rfl with h | ⟨pre, l, hl, hpre, hne, hlast, h⟩
    · exact .inl (by rw [h, hfold])
    · refine .inr ⟨pre, l, hl, by rw [hfold, hpre], ?_, ?_, h⟩
      · rintro rfl
        exact hne (suffix_nil.mp hend)
      · rw [getLast?_suffix hend hne]
        exact hlast
  have hend : t <:+ ptr := (suffix_append s t).trans hsuf
  dsimp only
  by_cases hdot : s = [dot]
  · -- a `.` leaves the buffer alone
    rw [handleSegment, if_pos hdot]
    refine hrec t acc hshort hend hacc ?_
    simp only [acc', hskip, hdot]
    simp
  have hs : Segment sep dot s := ⟨hseg, hdot, hfree⟩
  rw [hs.filter] at hskip
  have hfold : acc' = (segments sep dot t).foldl
      (resolveStep dot flags.keepDoubleDots hasRoot)
      (resolveStep dot flags.keepDoubleDots hasRoot acc s) := by
    simp only [acc', hskip, singleton_append, foldl_cons]
  rcases handleSegment_eq flags hasRoot root hs hacc htail
    with ⟨t', ht', heq⟩ | ⟨ht, hstep, heq⟩
  · rw [heq]
    have hsuf' : t' <:+ t := by
      rcases ht' with rfl | rfl
      · exact suffix_refl _
      · exact suffix_cons sep t'
    have hsegs : segments sep dot t = segments sep dot t' := by
      rcases ht' with rfl | rfl
      · rfl
      · exact segments_sep t'
    rw [hsegs] at hfold
    exact hrec t' _ (lt_of_le_of_lt hsuf'.length_le hshort) (hsuf'.trans hend)
      (resolveStep_segment hs hacc) hfold
  · subst ht
    rw [segments_nil, foldl_nil, hstep] at hfold
    rw [append_nil] at hsuf
    have hlast : ptr.getLast? ≠ some sep := by
      rw [getLast?_suffix hsuf hseg]
      exact fun h => hfree (mem_of_getLast? h)
    have hne : ptr ≠ [] := by
      rintro rfl
      exact hseg (suffix_nil.mp hsuf)
    rw [heq]
    dsimp only
    rw [canonLoop]
    exact .inr ⟨acc, s, hs, hfold, hne, hlast, rfl⟩

theorem copySegment_length (sep : α) (canon seg ptr : List α) :
    (copySegment sep canon seg ptr).1.length + (copySegment sep canon seg ptr).2.length =
      canon.length + seg.length + ptr.length := by
  unfold copySegment
  split
  · simp
  · split
    · simp only [length_append, length_cons, length_nil]
      omega
    · simp

theorem handleSegment_length (sep dot : α) (flags : Flags) (hasRoot : Bool) (start : ℕ)
    (canon seg ptr : List α) :
    let next := handleSegment sep dot flags hasRoot start canon seg ptr
    next.1.length + next.2.length ≤ canon.length + seg.length + ptr.length := by
  have hcopy := copySegment_length sep canon seg ptr
  have htake (tmp : ℕ) : (canon.take tmp).length ≤ canon.length := length_take_le' _ _
  simp only [handleSegment]
  repeat' split
  all_goals first
    | exact Nat.le_of_eq hcopy
    | exact Nat.add_le_add_right (Nat.le_trans (htake _) (Nat.le_add_right _ _)) _
    | exact Nat.add_le_add_right (Nat.le_add_right _ _) _

theorem canonLoop_length (sep dot : α) (flags : Flags) (hasRoot : Bool) (start : ℕ)
    (ptr canon : List α) :
    (canonLoop sep dot flags hasRoot start ptr canon).length ≤ canon.length + ptr.length := by
  induction ptr, canon using canonLoop.induct sep dot flags hasRoot start with
  | case1 ptr canon hnil =>
    rw [canonLoop, hnil]
    exact Nat.le_add_right _ _
  | case2 ptr canon c rest hcons seg next ih =>
    have hnext : next.1.length + next.2.length ≤ canon.length + (c :: rest).length := by
      have hle := handleSegment_length sep dot flags hasRoot start canon seg
        ((c :: rest).dropWhile (· ≠ sep))
      have hsplit := congrArg List.length
        (takeWhile_append_dropWhile (p := fun x => decide (x ≠ sep)) (l := c :: rest))
      rw [length_append] at hsplit
      exact Nat.le_trans hle (by rw [Nat.add_assoc]; exact Nat.le_of_eq (by rw [hsplit]))
    have hskip := (dropWhile_suffix (l := ptr) fun c => decide (c = sep)).length_le
    rw [hcons] at hskip
    rw [canonLoop]
    split
    · exact Nat.le_add_right _ _
    · rename_i c' rest' hcons'
      obtain ⟨rfl, rfl⟩ := List.cons.inj (hcons'.symm.trans hcons)
      exact Nat.le_trans ih (Nat.le_trans hnext (Nat.add_le_add_left hskip _))

end Buffer

end Qse.Path
