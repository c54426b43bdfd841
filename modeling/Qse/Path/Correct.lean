import Qse.Path.Buffer

/-!
# Canonicalization is correct

The canonical path is the root, the resolved segments with one separator between two of them, and at
most one separator at the end.
-/

open List

namespace Qse.Path

section Correct

variable {α : Type} [DecidableEq α] {sep dot : α}

variable {X s : List α} {flags : Flags} {segs : List (List α)}

omit [DecidableEq α] in
theorem getLast?_append_segment (hs : Segment sep dot s) : (X ++ s).getLast? ≠ some sep := by
  rw [getLast?_append_of_ne_nil X hs.ne_nil]
  exact fun h => hs.no_sep (mem_of_getLast? h)

theorem finalize_open (hs : Segment sep dot s) : finalize sep dot flags (X ++ s) = X ++ s := by
  have hpos : 0 < (X ++ s).length := by
    rw [length_append]
    exact Nat.lt_of_lt_of_le (length_pos_iff.mpr hs.ne_nil) (Nat.le_add_left _ _)
  have hlast : (X ++ s)[(X ++ s).length - 1]? ≠ some sep := by
    rw [← getLast?_eq_getElem?]
    exact getLast?_append_segment hs
  simp only [finalize]
  rw [if_neg (by omega)]
  split
  · rw [if_neg fun h => hlast h.2.2]
  · split
    · rw [if_neg fun h => hlast h.2.2.2]
    · rfl

theorem finalize_closed (hdot : dot ≠ sep) (hX : X = [] ∨ X.getLast? = some sep)
    (hs : Segment sep dot s) :
    finalize sep dot flags (X ++ s ++ [sep]) =
      if s = [dot, dot] then X ++ s else X ++ s ++ [sep] := by
  have hlen : (X ++ s ++ [sep]).length = X.length + s.length + 1 := by
    simp [Nat.add_assoc]
  have hget (i : ℕ) : (X ++ s ++ [sep])[X.length + i]? = (s ++ [sep])[i]? := by
    rw [append_assoc, getElem?_append_right (Nat.le_add_right _ _), Nat.add_sub_cancel_left]
  have hend (hne : X.length ≠ 0) : (X ++ s ++ [sep])[X.length - 1]? = some sep := by
    rcases hX with rfl | hX
    · exact absurd rfl hne
    · rw [append_assoc, getElem?_append_left (by omega), ← getLast?_eq_getElem?, hX]
  have hsep : some sep ≠ some dot := fun h => hdot (Option.some.inj h).symm
  have hdrop : (X ++ s ++ [sep]).dropLast = X ++ s := dropLast_concat
  simp only [finalize]
  rw [if_neg (by omega), hdrop, hlen]
  match s, hs with
  | [], hs => exact absurd rfl hs.ne_nil
  | [a], _ =>
    -- two places before the last separator stands a separator, if there is anything
    have hone : ([a] : List α) ≠ [dot, dot] := by simp
    have hthird (hne : X.length ≠ 0) :
        (X ++ [a] ++ [sep])[X.length + [a].length + 1 - 3]? ≠ some dot := by
      have hidx : X.length + [a].length + 1 - 3 = X.length - 1 := by
        simp only [length_singleton]
        omega
      rw [hidx, hend hne]
      exact hsep
    rw [if_neg hone]
    simp only [length_singleton] at hthird ⊢
    split
    · rw [if_neg fun h => hthird (by omega) h.1]
    · split
      · rw [if_neg fun h => hthird (by omega) h.2.1]
      · rfl
  | [a, b], _ =>
    have htwo : ([a, b] : List α) = [dot, dot] ↔ a = dot ∧ b = dot := by simp
    have hthird : X.length + [a, b].length + 1 - 3 = X.length + 0 := by
      simp only [length_cons, length_nil]
      omega
    have hsecond : X.length + [a, b].length + 1 - 2 = X.length + 1 := by
      simp only [length_cons, length_nil]
      omega
    have hfirst : X.length + [a, b].length + 1 - 1 = X.length + 2 := by
      simp only [length_cons, length_nil]
      omega
    have hfourth : X.length + [a, b].length + 1 - 4 = X.length - 1 := by
      simp only [length_cons, length_nil]
      omega
    rw [hthird, hsecond, hfirst, hfourth, hget 0, hget 1, hget 2]
    simp only [htwo]
    split
    · simp
    · rename_i hne
      simp only [length_cons, length_nil] at hne ⊢
      rw [if_pos (by omega), hend (by omega)]
      simp
  | a :: b :: c :: s, hs =>
    have hlong : a :: b :: c :: s ≠ [dot, dot] := by simp
    have hmany : 3 < X.length + (a :: b :: c :: s).length + 1 := by
      simp only [length_cons]
      omega
    rw [if_neg hlong, if_neg (by omega), if_pos hmany, if_neg]
    rintro ⟨h, -⟩
    have hidx : X.length + (a :: b :: c :: s).length + 1 - 4 = X.length + s.length := by
      simp only [length_cons]
      omega
    have hin : s.length < (a :: b :: c :: s).length := by
      simp only [length_cons]
      omega
    rw [hidx, hget, getElem?_append_left hin] at h
    exact hs.no_sep (mem_of_getElem? h)

omit [DecidableEq α] in
theorem stored_eq_intercalate (root : List α) (pre : List (List α)) (s : List α) :
    stored sep root pre ++ s = root ++ [sep].intercalate (pre ++ [s]) := by
  rw [stored, append_assoc]
  congr 1
  induction pre with
  | nil => simp
  | cons x pre ih =>
    rw [flatMap_cons, append_assoc, ih, cons_append,
      intercalate_cons_of_ne_nil (by simp), append_assoc]

omit [DecidableEq α] in
theorem stored_closed {root : List α} (hroot : root = [] ∨ root = [sep]) (acc : List (List α)) :
    stored sep root acc = [] ∨ (stored sep root acc).getLast? = some sep := by
  rcases stored_end sep root acc with h | h
  · have hnil : acc.flatMap (fun s => s ++ [sep]) = [] := by
      rw [stored, length_append] at h
      exact length_eq_zero_iff.mp (by omega)
    rw [stored, hnil, append_nil]
    rcases hroot with rfl | rfl
    · exact .inl rfl
    · exact .inr rfl
  · exact .inr h.2

theorem dropTrailing_closed (flags : Flags) (root path : List α) (pre : List (List α))
    (s : List α) :
    dropTrailing sep flags root.length path (stored sep root (pre ++ [s])) =
      if flags.dropTrailingSep ∨ path.getLast? ≠ some sep then stored sep root pre ++ s
      else stored sep root (pre ++ [s]) := by
  have hlt : root.length < (stored sep root (pre ++ [s])).length := by
    rw [stored_append, stored, length_append, length_append, length_append, length_singleton]
    omega
  have hlast : (stored sep root (pre ++ [s])).getLast? = some sep := by
    rw [stored_append]
    simp
  rw [dropTrailing]
  simp only [hlt, hlast, true_and]
  rw [stored_append, dropLast_concat]

def render (sep dot : α) (flags : Flags) (hasRoot trailing : Bool) (segs : List (List α)) :
    List α :=
  if segs = [] then
    if hasRoot then [sep] else if flags.emptySingleDot then [] else [dot]
  else
    (if hasRoot then [sep] else []) ++ [sep].intercalate segs ++ if trailing then [sep] else []

/-- A separator at the end of the path stays there, but not behind `..`. -/
def retained (sep dot : α) (flags : Flags) (path : List α) (segs : List (List α)) : Bool :=
  ¬flags.dropTrailingSep ∧ path.getLast? = some sep ∧ segs.getLast? ≠ some [dot, dot]

theorem finalize_dropTrailing (root : List α) {hasRoot : Bool} {path loop : List α}
    {acc : List (List α)} (hdot : dot ≠ sep) (hroot : root = if hasRoot then [sep] else [])
    (hacc : ∀ s ∈ acc, Segment sep dot s)
    (hloop : loop = stored sep root acc ∨ ∃ pre s, Segment sep dot s ∧ acc = pre ++ [s] ∧
      path.getLast? ≠ some sep ∧ loop = stored sep root pre ++ s) :
    finalize sep dot flags (dropTrailing sep flags root.length path loop) =
      render sep dot flags hasRoot (retained sep dot flags path acc) acc := by
  have hroot' : root = [] ∨ root = [sep] := by
    rw [hroot]
    cases hasRoot with
    | true => exact .inr rfl
    | false => exact .inl rfl
  rcases hloop with rfl | ⟨pre, s, hs, rfl, hlast, rfl⟩
  · rcases eq_nil_or_concat acc with rfl | ⟨pre, s, rfl⟩
    · have hnil : stored sep root [] = root := by simp [stored]
      rw [hnil, dropTrailing, if_neg (by simp), render, if_pos rfl, hroot]
      cases hasRoot with
      | true => rfl
      | false =>
        simp only [finalize]
        cases flags.emptySingleDot <;> rfl
    · rw [concat_eq_append] at hacc ⊢
      have hs : Segment sep dot s := hacc s (by simp)
      have hne : pre ++ [s] ≠ [] := by simp
      rw [dropTrailing_closed, render, if_neg hne, ← hroot, ← stored_eq_intercalate]
      by_cases hdrop : flags.dropTrailingSep ∨ path.getLast? ≠ some sep
      · have hret : retained sep dot flags path (pre ++ [s]) = false := by
          rw [retained]
          grind
        rw [if_pos hdrop, finalize_open hs, hret]
        simp
      rw [if_neg hdrop, stored_append, finalize_closed hdot (stored_closed hroot' pre) hs]
      by_cases hdots : s = [dot, dot]
      · have hret : retained sep dot flags path (pre ++ [s]) = false := by
          simp [retained, hdots]
        rw [if_pos hdots, hret]
        simp
      · have hret : retained sep dot flags path (pre ++ [s]) = true := by
          rw [retained]
          grind
        rw [if_neg hdots, hret]
        rfl
  · have hret : retained sep dot flags path (pre ++ [s]) = false := by
      simp [retained, hlast]
    have hopen : dropTrailing sep flags root.length path (stored sep root pre ++ s) =
        stored sep root pre ++ s := by
      rw [dropTrailing, if_neg fun h => getLast?_append_segment hs h.2.1]
    rw [hopen, finalize_open hs, render, if_neg (by simp), ← hroot, ← stored_eq_intercalate, hret]
    simp

theorem canonpath_eq_render (flags : Flags) {path : List α} (hdot : dot ≠ sep) (hne : path ≠ []) :
    let hasRoot : Bool := path.head? = some sep
    let segs := resolve dot flags.keepDoubleDots hasRoot (segments sep dot path)
    canonpath sep dot flags path =
      render sep dot flags hasRoot (retained sep dot flags path segs) segs := by
  intro hasRoot segs
  have hsegs : ∀ s ∈ segs, Segment sep dot s :=
    foldl_segment (fun _ h => absurd h not_mem_nil) (segments_segment path)
  obtain ⟨c, rest, rfl⟩ := exists_cons_of_ne_nil hne
  have hnil : ∀ s ∈ ([] : List (List α)), Segment sep dot s :=
    fun _ h => absurd h not_mem_nil
  by_cases hc : c = sep
  · subst hc
    have hroot : hasRoot = true := by simp [hasRoot]
    have hfold : segs = (segments c dot rest).foldl
        (resolveStep dot flags.keepDoubleDots true) [] := by
      simp only [segs, hroot, resolve, segments_sep]
    have hloop := canonLoop_eq flags true [c] rest hnil
    rw [hroot, canonpath, if_pos rfl]
    refine finalize_dropTrailing [c] hdot rfl hsegs ?_
    rcases hloop with h | ⟨pre, s, hs, hpre, hrest, hlast, h⟩
    · exact .inl (by rw [hfold]; exact h)
    · refine .inr ⟨pre, s, hs, hfold.trans hpre, ?_, h⟩
      rw [getLast?_suffix (suffix_cons c rest) hrest]
      exact hlast
  · have hroot : hasRoot = false := by simp [hasRoot, hc]
    have hfold : segs = (segments sep dot (c :: rest)).foldl
        (resolveStep dot flags.keepDoubleDots false) [] := by
      simp only [segs, hroot, resolve]
    have hloop := canonLoop_eq flags false [] (c :: rest) hnil
    rw [hroot, canonpath, if_neg hc]
    refine finalize_dropTrailing [] hdot rfl hsegs ?_
    rcases hloop with h | ⟨pre, s, hs, hpre, -, hlast, h⟩
    · exact .inl (by rw [hfold]; exact h)
    · exact .inr ⟨pre, s, hs, hfold.trans hpre, hlast, h⟩

omit [DecidableEq α] in
theorem head?_intercalate (hs : Segment sep dot s) (segs : List (List α))
    (t : List α) : ([sep].intercalate (s :: segs) ++ t).head? = s.head? := by
  cases segs with
  | nil => rw [intercalate_singleton, head?_append_of_ne_nil _ hs.ne_nil]
  | cons s' segs =>
    rw [intercalate_cons_cons, append_assoc, append_assoc, head?_append_of_ne_nil _ hs.ne_nil]

omit [DecidableEq α] in
theorem head?_render (flags : Flags) (hasRoot trailing : Bool) (hdot : dot ≠ sep)
    (hsegs : ∀ s ∈ segs, Segment sep dot s) :
    (render sep dot flags hasRoot trailing segs).head? = some sep ↔ hasRoot = true := by
  rw [render]
  cases hasRoot with
  | true =>
    split <;> simp
  | false =>
    simp only [Bool.false_eq_true, if_false, iff_false]
    split
    · split
      · simp
      · simpa using hdot
    · rename_i hne
      obtain ⟨s, rest, rfl⟩ := exists_cons_of_ne_nil hne
      have hs : Segment sep dot s := hsegs s (.head _)
      rw [nil_append, head?_intercalate hs]
      exact fun h => hs.no_sep (mem_of_head? h)

theorem segments_intercalate (hsegs : ∀ s ∈ segs, Segment sep dot s) :
    segments sep dot ([sep].intercalate segs) = segs := by
  rcases eq_nil_or_concat segs with rfl | ⟨pre, s, rfl⟩
  · exact segments_nil
  · rw [segments, splitOn_intercalate sep (fun s hs => (hsegs s hs).no_sep) (by simp),
      filter_eq_self]
    intro s hs
    simp [(hsegs s hs).ne_nil, (hsegs s hs).ne_dot]

theorem segments_closed (p : List α) : segments sep dot (p ++ [sep]) = segments sep dot p := by
  rw [segments, splitOn_append_cons_self, filter_append, segments]
  simp

theorem segments_render (flags : Flags) (hasRoot trailing : Bool) (hdot : dot ≠ sep)
    (hsegs : ∀ s ∈ segs, Segment sep dot s) :
    segments sep dot (render sep dot flags hasRoot trailing segs) = segs := by
  have hbody : segments sep dot
      ((if hasRoot then [sep] else []) ++ [sep].intercalate segs) = segs := by
    split
    · exact (segments_sep _).trans (segments_intercalate hsegs)
    · exact segments_intercalate hsegs
  rw [render]
  split
  · rename_i hnil
    have hsingle : segments sep dot [dot] = [] := by
      rw [segments, splitOn_eq_singleton (by simpa using fun h => hdot h.symm)]
      simp
    rw [hnil]
    split
    · exact segments_sep []
    · split
      · exact segments_nil
      · exact hsingle
  · cases trailing with
    | true => exact (segments_closed _).trans hbody
    | false => simpa using hbody

omit [DecidableEq α] in
theorem getLast?_render (flags : Flags) (hasRoot trailing : Bool)
    (hsegs : ∀ s ∈ segs, Segment sep dot s) (hne : segs ≠ []) :
    (render sep dot flags hasRoot trailing segs).getLast? = some sep ↔ trailing = true := by
  rw [render, if_neg hne]
  rcases eq_nil_or_concat segs with rfl | ⟨pre, s, rfl⟩
  · exact absurd rfl hne
  rw [concat_eq_append, ← stored_eq_intercalate]
  rw [concat_eq_append] at hsegs
  cases trailing with
  | true => simp
  | false =>
    have hs : Segment sep dot s := hsegs s (by simp)
    simpa using getLast?_append_segment (X := stored sep _ pre) hs

theorem canonpath_render {hasRoot trailing : Bool} (hdot : dot ≠ sep)
    (hsegs : ∀ s ∈ segs, Segment sep dot s) (hres : Resolved dot flags.keepDoubleDots hasRoot segs)
    (htrail : trailing = true → flags.dropTrailingSep = false ∧ segs.getLast? ≠ some [dot, dot]) :
    canonpath sep dot flags (render sep dot flags hasRoot trailing segs) =
      render sep dot flags hasRoot trailing segs := by
  by_cases hempty : render sep dot flags hasRoot trailing segs = []
  · rw [hempty]
    rfl
  have heq := canonpath_eq_render flags hdot hempty
  have hhead := head?_render flags hasRoot trailing hdot hsegs
  have habs : decide ((render sep dot flags hasRoot trailing segs).head? = some sep) =
      hasRoot := by
    rw [Bool.eq_iff_iff, decide_eq_true_iff]
    exact hhead
  dsimp only at heq
  rw [habs, segments_render _ _ _ hdot hsegs, hres.resolve_eq] at heq
  rw [heq]
  by_cases hnil : segs = []
  · rw [render, if_pos hnil, render, if_pos hnil]
  have hlast := getLast?_render flags hasRoot trailing hsegs hnil
  have hret : retained sep dot flags (render sep dot flags hasRoot trailing segs) segs =
      trailing := by
    rw [Bool.eq_iff_iff, retained, decide_eq_true_iff, hlast]
    constructor
    · exact fun h => h.2.1
    · intro htr
      obtain ⟨hdrop, hdots⟩ := htrail htr
      exact ⟨by simp [hdrop], htr, hdots⟩
  rw [hret]

theorem dropTrailing_length (sep : α) (flags : Flags) (start : ℕ) (path canon : List α) :
    (dropTrailing sep flags start path canon).length ≤ canon.length := by
  rw [dropTrailing]
  split
  · rw [length_dropLast]
    exact Nat.sub_le _ _
  · exact le_rfl

theorem finalize_length (sep dot : α) (flags : Flags) (canon : List α) :
    (finalize sep dot flags canon).length ≤ max canon.length 1 := by
  have hdrop : canon.dropLast.length ≤ max canon.length 1 := by
    rw [length_dropLast]
    omega
  have hsame : canon.length ≤ max canon.length 1 := Nat.le_max_left _ _
  have hdot : [dot].length ≤ max canon.length 1 := Nat.le_max_right _ _
  simp only [finalize]
  repeat' split
  all_goals first | exact hdot | exact hsame | exact hdrop

theorem canonpath_length (sep dot : α) (flags : Flags) (path : List α) :
    (canonpath sep dot flags path).length ≤ path.length := by
  cases path with
  | nil => exact le_rfl
  | cons c rest =>
    have hpasses (start : ℕ) (path canon : List α)
        (hle : canon.length ≤ rest.length + 1) :
        (finalize sep dot flags (dropTrailing sep flags start path canon)).length ≤
          (c :: rest).length := by
      have hfinal := finalize_length sep dot flags
        (dropTrailing sep flags start path canon)
      have hdrop := dropTrailing_length sep flags start path canon
      rw [length_cons]
      omega
    rw [canonpath]
    split
    · have hloop := canonLoop_length sep dot flags true 1 rest [c]
      rw [length_singleton, Nat.add_comm] at hloop
      exact hpasses _ _ _ hloop
    · have hloop := canonLoop_length sep dot flags false 0 (c :: rest) []
      rw [length_nil, Nat.zero_add] at hloop
      exact hpasses _ _ _ hloop

structure Canonical (sep dot : α) (flags : Flags) (path out : List α) : Prop where
  segments_eq : segments sep dot out =
    resolve dot flags.keepDoubleDots (path.head? = some sep) (segments sep dot path)
  /-- There are no other characters than the root, one separator between two segments,
  and the separator that is retained; without any segment it is the root or a dot. -/
  layout : path ≠ [] → out = render sep dot flags (path.head? = some sep)
    (retained sep dot flags path (segments sep dot out)) (segments sep dot out)
  nil_eq : path = [] → out = []
  root_stays : path.head? = some sep → flags.keepDoubleDots = false →
    out.head? = some sep ∧ [dot, dot] ∉ segments sep dot out
  length_le : out.length ≤ path.length

theorem resolve_segments (sep dot : α) (flags : Flags) (path : List α) (hasRoot : Bool) :
    let segs := resolve dot flags.keepDoubleDots hasRoot (segments sep dot path)
    (∀ s ∈ segs, Segment sep dot s) ∧ Resolved dot flags.keepDoubleDots hasRoot segs :=
  ⟨foldl_segment (fun _ h => absurd h not_mem_nil) (segments_segment path),
    resolved_foldl (resolved_nil _ _) _⟩

theorem canonpath_canonical (flags : Flags) (path : List α) (hdot : dot ≠ sep) :
    Canonical sep dot flags path (canonpath sep dot flags path) := by
  have hlen := canonpath_length sep dot flags path
  by_cases hne : path = []
  · subst hne
    exact ⟨by rw [canonpath, segments_nil]; rfl, fun h => absurd rfl h, fun _ => rfl,
      fun h => absurd h (by simp), hlen⟩
  have heq := canonpath_eq_render flags hdot hne
  obtain ⟨hsegs, hres⟩ := resolve_segments sep dot flags path
    (path.head? = some sep)
  have hout := segments_render flags (path.head? = some sep)
    (retained sep dot flags path
      (resolve dot flags.keepDoubleDots (path.head? = some sep) (segments sep dot path)))
    hdot hsegs
  dsimp only at heq
  rw [← heq] at hout
  refine ⟨hout, fun _ => by rw [hout]; exact heq, fun h => absurd h hne, ?_, hlen⟩
  intro hroot hkeep
  constructor
  · rw [heq]
    exact (head?_render _ _ _ hdot hsegs).mpr (decide_eq_true hroot)
  · rw [hout]
    obtain ⟨k, rest, hsplit, hrest, hzero⟩ := hres.resolve_left (by simp [hkeep])
    have hk : k = 0 := hzero (decide_eq_true hroot)
    rw [hsplit, hk]
    exact hrest

theorem canonpath_idempotent (flags : Flags) (path : List α) (hdot : dot ≠ sep) :
    canonpath sep dot flags (canonpath sep dot flags path) = canonpath sep dot flags path := by
  by_cases hne : path = []
  · rw [hne]
    rfl
  obtain ⟨hsegs, hres⟩ := resolve_segments sep dot flags path
    (path.head? = some sep)
  rw [canonpath_eq_render flags hdot hne]
  refine canonpath_render hdot hsegs hres fun htrail => ?_
  rw [retained, decide_eq_true_iff] at htrail
  exact ⟨by simpa using htrail.1, htrail.2.2⟩

end Correct

/-- The canonical path has the resolved segments of the path in the canonical layout, it
is not longer than the path, and it is its own canonical path. -/
theorem canonmbspath_canonical (path : List UInt8) (flags : Flags) :
    Canonical (mt '/') (mt '.') flags path (canonmbspath path flags) ∧
      canonmbspath (canonmbspath path flags) flags = canonmbspath path flags := by
  have hdot : mt '.' ≠ mt '/' := by decide
  exact ⟨canonpath_canonical flags path hdot, canonpath_idempotent flags path hdot⟩

theorem canonwcspath_canonical (path : List UInt32) (flags : Flags) :
    Canonical 0x2F 0x2E flags path (canonwcspath path flags) ∧
      canonwcspath (canonwcspath path flags) flags = canonwcspath path flags := by
  have hdot : (0x2E : UInt32) ≠ 0x2F := by decide
  exact ⟨canonpath_canonical flags path hdot, canonpath_idempotent flags path hdot⟩

end Qse.Path
