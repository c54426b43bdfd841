import Qse.Sed.Model
import Mathlib.Data.List.Basic

/-!
# What is replaced

A line is cut into the matches of an expression and the characters between them, and the matches
that are asked for are replaced.
-/

open List Option

namespace Qse.Sed

/-- What a matcher sees in front of a text: the beginning of what it searches, and whether the
line begins before it, or a character -/
inductive Front where
  | start (notbol : Bool)
  | behind (c : Char)

abbrev MatchAt := Front → List Char → Option (ℕ × (Fin 9 → Option Regmatch))

def Match.shift (m : Match) : Match :=
  (⟨m.1.so + 1, m.1.eo + 1⟩, fun i => (m.2 i).map fun r => ⟨r.so + 1, r.eo + 1⟩)

def leftmost (matchAt : MatchAt) : Front → List Char → Option Match
  | front, [] => (matchAt front []).map fun m => (⟨0, m.1⟩, m.2)
  | front, c :: s =>
    match matchAt front (c :: s) with
    | some m => some (⟨0, m.1⟩, m.2)
    | none => (leftmost matchAt (.behind c) s).map Match.shift

structure IsLeftmost {Rex : Type*} (execx : Execx Rex) (rex : Rex) (matchAt : MatchAt) : Prop where
  execx : ∀ notbol s, execx rex notbol s = .ok (leftmost matchAt (.start notbol) s)
  fits : ∀ front s m, matchAt front s = some m → m.1 ≤ s.length

inductive Piece where
  | found (text : List Char) (groups : Fin 9 → List Char)
  | kept (c : Char) (emptied : Bool)

def pieces (matchAt : MatchAt) : Bool → Front → List Char → List Piece
  | touched, front, [] =>
    match matchAt front [] with
    | some m => if touched then [] else [.found [] fun i => groupText [] (m.2 i)]
    | none => []
  | touched, front, c :: s =>
    match matchAt front (c :: s) with
    | none => .kept c false :: pieces matchAt false (.behind c) s
    | some (0, groups) =>
      if touched then .kept c true :: pieces matchAt false (.start true) s
      else
        .found [] (fun i => groupText (c :: s) (groups i)) :: .kept c true ::
          pieces matchAt false (.start true) s
    | some (len + 1, groups) =>
      .found ((c :: s).take (len + 1)) (fun i => groupText (c :: s) (groups i)) ::
        pieces matchAt true (.start true) (s.drop len)
termination_by _ _ s => s.length
decreasing_by
  all_goals simp only [length_cons, length_drop]
  all_goals omega

def Piece.text : Piece → List Char
  | .found text _ => text
  | .kept c _ => [c]

section

variable {Rex : Type*}

def Subst.selects (subst : Subst Rex) (number : ℕ) : Bool :=
  subst.maxCount = 0 ∨ number = subst.maxCount

def Subst.replaced (subst : Subst Rex) : ℕ → List Piece → List Char
  | _, [] => []
  | n, .kept c _ :: more => (if subst.k then [] else [c]) ++ subst.replaced n more
  | n, .found text groups :: more =>
    (if subst.selects (n + 1) then expand text groups subst.rpl
      else if subst.k then [] else text) ++ subst.replaced (n + 1) more

def Subst.replaces (subst : Subst Rex) : ℕ → List Piece → Bool
  | _, [] => false
  | n, .kept _ _ :: more => subst.replaces n more
  | n, .found _ _ :: more => subst.selects (n + 1) || subst.replaces (n + 1) more

def Subst.searches (subst : Subst Rex) (n : ℕ) : Bool := subst.maxCount = 0 ∨ n < subst.maxCount

/-- An empty match is found in front of a character, while matches are looked for; `after`
tells whether the last one looked for has just been found and is empty. -/
def Subst.meetsEmpty (subst : Subst Rex) : ℕ → Bool → List Piece → Bool
  | _, _, [] => false
  | n, after, .kept _ emptied :: more =>
    (emptied && (subst.searches n || after)) || subst.meetsEmpty n false more
  | n, _, .found text _ :: more =>
    subst.meetsEmpty (n + 1) (subst.searches n && text.isEmpty) more

/-! ## What the loop does -/

def Subst.copied (subst : Subst Rex) : ℕ → Bool → List Piece → List Char
  | _, _, [] => []
  | n, after, .kept c emptied :: more =>
    (if subst.k && !(emptied && (subst.searches n || after)) then [] else [c]) ++
      subst.copied n false more
  | n, _, .found text groups :: more =>
    (if subst.selects (n + 1) then expand text groups subst.rpl
      else if subst.k then [] else text) ++
        subst.copied (n + 1) (subst.searches n && text.isEmpty) more

theorem length_replaced_le (subst : Subst Rex) (n : ℕ) (after : Bool) (ps : List Piece) :
    (subst.replaced n ps).length ≤ (subst.copied n after ps).length := by
  induction ps generalizing n after with
  | nil => exact Nat.le_refl _
  | cons p ps ih =>
    cases p with
    | found text groups =>
      simp only [Subst.replaced, Subst.copied, length_append]
      exact Nat.add_le_add_left (ih _ _) _
    | kept c emptied =>
      simp only [Subst.replaced, Subst.copied, length_append]
      refine Nat.add_le_add ?_ (ih _ _)
      cases subst.k <;> simp

theorem copied_eq_replaced_iff (subst : Subst Rex) (n : ℕ) (after : Bool) (ps : List Piece) :
    subst.copied n after ps = subst.replaced n ps ↔
      (subst.k = true → subst.meetsEmpty n after ps = false) := by
  induction ps generalizing n after with
  | nil => simp [Subst.replaced, Subst.copied, Subst.meetsEmpty]
  | cons p ps ih =>
    cases p with
    | found text groups =>
      rw [Subst.replaced, Subst.copied, Subst.meetsEmpty, append_cancel_left_eq]
      exact ih _ _
    | kept c emptied =>
      rw [Subst.replaced, Subst.copied, Subst.meetsEmpty, Bool.or_eq_false_iff]
      cases hk : subst.k with
      | false => simpa [hk] using ih n false
      | true =>
        cases hmeets : emptied && (subst.searches n || after) with
        | false => simpa [hk] using ih n false
        | true =>
          have hle := length_replaced_le subst n false ps
          refine iff_of_false (fun heq => ?_) fun h => absurd (h rfl).1 (by decide)
          have hlen := congrArg List.length heq
          simp only [Bool.not_true, Bool.and_false, Bool.false_eq_true, if_false, if_true,
            nil_append, length_append, length_singleton] at hlen
          omega

theorem flatMap_text_pieces (matchAt : MatchAt) (touched : Bool) (front : Front) (s : List Char) :
    (pieces matchAt touched front s).flatMap Piece.text = s := by
  induction touched, front, s using pieces.induct matchAt with
  | case1 front m hmatch => rw [pieces, hmatch]; rfl
  | case2 touched front m hmatch htouched => simp [pieces, hmatch, htouched, Piece.text]
  | case3 touched front hmatch => simp [pieces, hmatch]
  | case4 touched front c s hmatch ih => simp [pieces, hmatch, ih, Piece.text]
  | case5 front c s groups hmatch ih => simp [pieces, hmatch, ih, Piece.text]
  | case6 touched front c s groups hmatch htouched ih =>
    simp [pieces, hmatch, htouched, ih, Piece.text]
  | case7 touched front c s len groups hmatch ih =>
    simp [pieces, hmatch, ih, Piece.text]

variable {subst : Subst Rex} {s : List Char}

theorem copied_of_not_searches {n : ℕ} (h : subst.searches n = false) (ps : List Piece) :
    subst.copied n false ps = (if subst.k then [] else ps.flatMap Piece.text) ∧
      subst.replaces n ps = false := by
  have hn : subst.maxCount ≠ 0 ∧ subst.maxCount ≤ n := by
    simpa [Subst.searches] using h
  induction ps generalizing n with
  | nil => simp [Subst.copied, Subst.replaces]
  | cons p ps ih =>
    cases p with
    | kept c emptied =>
      obtain ⟨hcopied, hreplaces⟩ := ih h hn
      rw [Subst.copied, Subst.replaces, hcopied, hreplaces, h]
      cases subst.k <;> simp [Piece.text]
    | found text groups =>
      have hnext : subst.searches (n + 1) = false := by
        simp [Subst.searches, hn.1]
        omega
      have hselects : subst.selects (n + 1) = false := by
        simp [Subst.selects, hn.1]
        omega
      obtain ⟨hcopied, hreplaces⟩ := ih hnext ⟨hn.1, by omega⟩
      rw [Subst.copied, Subst.replaces, h, hselects, Bool.false_and, hcopied, hreplaces]
      cases subst.k <;> simp [Piece.text]

theorem copied_kept (subst : Subst Rex) (n : ℕ) (gap : List Char) (ps : List Piece) :
    subst.copied n false (gap.map (Piece.kept · false) ++ ps) =
      (if subst.k then [] else gap) ++ subst.copied n false ps ∧
    subst.replaces n (gap.map (Piece.kept · false) ++ ps) = subst.replaces n ps := by
  induction gap with
  | nil => simp
  | cons c gap ih =>
    rw [map_cons, cons_append, Subst.copied, Subst.replaces, ih.1, ih.2]
    cases subst.k <;> simp

/-! ## The pieces up to a match -/

def piecesBehind (matchAt : MatchAt) (len : ℕ) (s : List Char) : List Piece :=
  if len = 0 then
    match s with
    | [] => []
    | c :: s => .kept c true :: pieces matchAt false (.start true) s
  else pieces matchAt true (.start true) s

theorem groupText_shift (c : Char) (s : List Char) (group : Option Regmatch) :
    groupText (c :: s) (group.map fun r => ⟨r.so + 1, r.eo + 1⟩) = groupText s group := by
  cases group with
  | none => rfl
  | some r => simp [groupText, Regmatch.text]

variable {matchAt : MatchAt} {front : Front}

theorem pieces_of_leftmost_none {touched : Bool} {s : List Char}
    (h : leftmost matchAt front s = none) :
    pieces matchAt touched front s = s.map (Piece.kept · false) := by
  induction s generalizing touched front with
  | nil =>
    have hmatch : matchAt front [] = none := by simpa [leftmost] using h
    rw [pieces, hmatch]
    rfl
  | cons c s ih =>
    rw [leftmost] at h
    split at h
    · cases h
    · rename_i hmatch
      have hmore : leftmost matchAt (.behind c) s = none := by simpa using h
      rw [pieces, hmatch, map_cons, ← @ih (.behind c) false hmore]

theorem pieces_of_leftmost
    (hfits : ∀ front s m, matchAt front s = some m → m.1 ≤ s.length)
    {touched : Bool} {s : List Char} {m : Match} (h : leftmost matchAt front s = some m)
    (hcounts : touched = false ∨ 0 < m.1.so ∨ 0 < m.1.eo - m.1.so) :
    pieces matchAt touched front s =
      (s.take m.1.so).map (Piece.kept · false) ++
        .found (m.1.text s) (fun i => groupText s (m.2 i)) ::
          piecesBehind matchAt (m.1.eo - m.1.so) (s.drop (m.1.so + (m.1.eo - m.1.so))) := by
  induction s generalizing touched front m with
  | nil =>
    rw [leftmost] at h
    cases hmatch : matchAt front [] with
    | none =>
      rw [hmatch] at h
      cases h
    | some found =>
      rw [hmatch] at h
      cases h
      obtain ⟨len, groups⟩ := found
      have hlen : len = 0 := Nat.le_zero.mp (hfits _ _ _ hmatch)
      subst hlen
      have htouched : touched = false := by simpa using hcounts
      rw [pieces, hmatch, htouched]
      rfl
  | cons c s ih =>
    rw [leftmost] at h
    split at h
    · rename_i found hmatch
      obtain ⟨len, groups⟩ := found
      cases h
      cases len with
      | zero =>
        have htouched : touched = false := by simpa using hcounts
        rw [pieces, hmatch, htouched]
        rfl
      | succ len =>
        rw [pieces, hmatch]
        simp [piecesBehind, Regmatch.text]
    · rename_i hmatch
      obtain ⟨m', hm', rfl⟩ := map_eq_some_iff.mp h
      have hgroups : (fun i => groupText (c :: s) (m'.shift.2 i)) =
          fun i => groupText s (m'.2 i) := by
        funext i
        exact groupText_shift c s (m'.2 i)
      have hlen : m'.shift.1.eo - m'.shift.1.so = m'.1.eo - m'.1.so := Nat.add_sub_add_right _ 1 _
      have htext : m'.shift.1.text (c :: s) = m'.1.text s := by
        rw [Regmatch.text, Regmatch.text, hlen]
        rfl
      have hso : m'.shift.1.so = m'.1.so + 1 := rfl
      rw [pieces, hmatch, hgroups, hlen, htext, hso, Nat.add_right_comm]
      simp only [@ih (.behind c) false m' hm' (.inl rfl), take_succ_cons, map_cons,
        drop_succ_cons, cons_append]

theorem pieces_of_touching {m : Match}
    (h : leftmost matchAt front s = some m) (hso : m.1.so = 0) (hlen : m.1.eo - m.1.so = 0) :
    pieces matchAt true front s = piecesBehind matchAt 0 s := by
  cases s with
  | nil =>
    rw [pieces]
    split <;> rfl
  | cons c s =>
    rw [leftmost] at h
    split at h
    · rename_i found hmatch
      obtain ⟨len, groups⟩ := found
      cases h
      have hzero : len = 0 := by simpa using hlen
      subst hzero
      rw [pieces, hmatch]
      rfl
    · obtain ⟨m', -, rfl⟩ := map_eq_some_iff.mp h
      cases hso

/-! ## The loop -/

def SubstLoop.left (matchAt : MatchAt) (str : List Char) (l : SubstLoop) : List Piece :=
  if l.cur ≤ str.length then
    pieces matchAt (l.pmat.any fun pmat => pmat.1 + pmat.2 = l.cur) (.start (l.cur != 0))
      (str.drop l.cur)
  else []

def SubstLoop.Ordered (l : SubstLoop) : Prop := ∀ pmat ∈ l.pmat, pmat.1 + pmat.2 ≤ l.cur

theorem resolveRex_eq {sed : Exec Rex} {rex : Option Rex} {found : Rex}
    (h : rex.or sed.lastRex = some found) :
    resolveRex sed rex = .ok (found, { sed with lastRex := some found }) := by
  cases rex with
  | some rex =>
    cases h
    rfl
  | none =>
    have hlast : sed.lastRex = some found := by simpa using h
    have hsame : ({ sed with lastRex := some found } : Exec Rex) = sed := by rw [← hlast]
    rw [hsame, resolveRex, hlast]

theorem drop_eq_cons_of_lt {str : List Char} {n : ℕ} (h : n < str.length) :
    ∃ c, str.drop n = c :: str.drop (n + 1) :=
  ⟨str[n], drop_eq_getElem_cons h⟩

theorem left_skipOneChar {str : List Char} {l : SubstLoop}
    (hordered : l.Ordered) (hcur : l.cur ≤ str.length) (subst : Subst Rex) (n : ℕ)
    (after : Bool) (hskip : (subst.searches n || after) = true) :
    (skipOneChar str l).scratch ++ subst.copied n false ((skipOneChar str l).left matchAt str) =
      l.scratch ++ subst.copied n after (piecesBehind matchAt 0 (str.drop l.cur)) ∧
    subst.replaces n ((skipOneChar str l).left matchAt str) =
      subst.replaces n (piecesBehind matchAt 0 (str.drop l.cur)) := by
  rcases Nat.lt_or_eq_of_le hcur with hlt | heq
  · obtain ⟨c, hc⟩ := drop_eq_cons_of_lt hlt
    have hpmat : (l.pmat.any fun pmat => decide (pmat.1 + pmat.2 = l.cur + 1)) = false := by
      cases hp : l.pmat with
      | none => rfl
      | some pmat =>
        have hle := hordered pmat hp
        simp
        omega
    have hleft : (skipOneChar str l).left matchAt str =
        pieces matchAt false (.start true) (str.drop (l.cur + 1)) := by
      have hle : l.cur + 1 ≤ str.length := hlt
      have hne : (l.cur + 1 != 0) = true := by simp
      change (if l.cur + 1 ≤ str.length then pieces matchAt
        (l.pmat.any fun pmat => decide (pmat.1 + pmat.2 = l.cur + 1)) (.start (l.cur + 1 != 0))
          (str.drop (l.cur + 1)) else []) = _
      rw [if_pos hle, hpmat, hne]
    rw [hleft, hc]
    simp only [piecesBehind, if_true, Subst.copied, Subst.replaces, hskip, skipOneChar, hc]
    simp
  · have hnil : str.drop l.cur = [] := drop_of_length_le (by omega)
    have hleft : (skipOneChar str l).left matchAt str = [] := by
      rw [SubstLoop.left, if_neg]
      change ¬l.cur + 1 ≤ str.length
      omega
    rw [hleft, hnil]
    simp [piecesBehind, Subst.copied, Subst.replaces, skipOneChar, hnil]

theorem leftmost_le
    (hfits : ∀ front s m, matchAt front s = some m → m.1 ≤ s.length) {m : Match}
    (h : leftmost matchAt front s = some m) :
    m.1.so ≤ m.1.eo ∧ m.1.eo ≤ s.length := by
  induction s generalizing front m with
  | nil =>
    obtain ⟨found, hmatch, rfl⟩ := map_eq_some_iff.mp h
    exact ⟨Nat.zero_le _, hfits _ _ _ hmatch⟩
  | cons c s ih =>
    rw [leftmost] at h
    split at h
    · rename_i found hmatch
      cases h
      exact ⟨Nat.zero_le _, hfits _ _ _ hmatch⟩
    · obtain ⟨m', hm', rfl⟩ := map_eq_some_iff.mp h
      obtain ⟨hle, hlen⟩ := ih hm'
      exact ⟨Nat.succ_le_succ hle, Nat.succ_le_succ hlen⟩

theorem isEmpty_text {m : Regmatch} (hle : m.so ≤ m.eo) (hlen : m.eo ≤ s.length) :
    (m.text s).isEmpty = decide (m.eo - m.so = 0) := by
  have htext : (m.text s).length = m.eo - m.so := by
    rw [Regmatch.text, length_take, length_drop]
    omega
  rw [← htext]
  cases m.text s <;> rfl

section Passing

variable {matchAt : MatchAt} (hfits : ∀ front s m, matchAt front s = some m → m.1 ≤ s.length)
  {subst : Subst Rex} {str : List Char} {l : SubstLoop} (hcur : l.cur ≤ str.length)
  (hsearches : subst.searches l.subCount = true) {m : Match}
  (hfound : leftmost matchAt (.start (l.cur != 0)) (str.drop l.cur) = some m)
  (hcounts : (l.pmat.any fun pmat => decide (pmat.1 + pmat.2 = l.cur)) = false ∨
    0 < m.1.so ∨ 0 < m.1.eo - m.1.so)

include hfits hcur hsearches hfound hcounts

theorem passMatch_left :
    l.scratch ++ subst.copied l.subCount false (l.left matchAt str) =
        (passMatch subst str l m).scratch ++
          subst.copied (l.subCount + 1) (decide (m.1.eo - m.1.so = 0))
            (piecesBehind matchAt (m.1.eo - m.1.so)
              (str.drop (passMatch subst str l m).cur)) ∧
      (l.repl || subst.replaces l.subCount (l.left matchAt str)) =
        ((passMatch subst str l m).repl ||
          subst.replaces (l.subCount + 1)
            (piecesBehind matchAt (m.1.eo - m.1.so)
              (str.drop (passMatch subst str l m).cur))) := by
  obtain ⟨hle, hlen⟩ := leftmost_le hfits hfound
  have hempty := isEmpty_text hle hlen
  have hleft : l.left matchAt str = _ := (if_pos hcur).trans
    (pieces_of_leftmost hfits hfound hcounts)
  have hkept := copied_kept subst l.subCount ((str.drop l.cur).take m.1.so)
    (.found (m.1.text (str.drop l.cur)) (fun i => groupText (str.drop l.cur) (m.2 i)) ::
      piecesBehind matchAt (m.1.eo - m.1.so)
        ((str.drop l.cur).drop (m.1.so + (m.1.eo - m.1.so))))
  have hbehind : (str.drop l.cur).drop (m.1.so + (m.1.eo - m.1.so)) =
      str.drop (passMatch subst str l m).cur := by
    rw [drop_drop, ← Nat.add_assoc]
    rfl
  rw [hleft, hkept.1, hkept.2, Subst.copied, Subst.replaces, hsearches, hempty, Bool.true_and,
    hbehind]
  refine ⟨?_, ?_⟩
  · rw [← append_assoc, ← append_assoc, append_assoc l.scratch]
    rfl
  · rw [← Bool.or_assoc]
    rfl

theorem takeMatch_left :
    (takeMatch subst str l m).Ordered ∧ l.cur < (takeMatch subst str l m).cur ∧
      (takeMatch subst str l m).scratch ++
          subst.copied (takeMatch subst str l m).subCount false
            ((takeMatch subst str l m).left matchAt str) =
        l.scratch ++ subst.copied l.subCount false (l.left matchAt str) ∧
      ((takeMatch subst str l m).repl ||
          subst.replaces (takeMatch subst str l m).subCount
            ((takeMatch subst str l m).left matchAt str)) =
        (l.repl || subst.replaces l.subCount (l.left matchAt str)) := by
  obtain ⟨hscratch, hrepl⟩ := passMatch_left hfits hcur hsearches hfound hcounts
  obtain ⟨hle, hlen⟩ := leftmost_le hfits hfound
  rw [length_drop] at hlen
  have hordered : (passMatch subst str l m).Ordered := by
    rintro pmat hmem
    cases hmem
    exact Nat.le_refl _
  have hnext : (passMatch subst str l m).cur = l.cur + m.1.so + (m.1.eo - m.1.so) := rfl
  have hend : (passMatch subst str l m).cur ≤ str.length := by omega
  rw [hscratch, hrepl]
  by_cases hzero : m.1.eo - m.1.so = 0
  · -- the character behind an empty match is passed over too
    have hskip := @left_skipOneChar _ matchAt str _ hordered hend subst (l.subCount + 1) true
      (by simp)
    rw [takeMatch, if_pos hzero, hzero, decide_eq_true rfl]
    refine ⟨fun pmat hmem => Nat.le_succ_of_le (hordered pmat hmem), ?_, hskip.1, ?_⟩
    · change l.cur < (passMatch subst str l m).cur + 1
      omega
    · exact congrArg _ hskip.2
  have hne : ((passMatch subst str l m).cur != 0) = true := by
    simp
    omega
  have htouched : (passMatch subst str l m).pmat.any
      (fun pmat => decide (pmat.1 + pmat.2 = (passMatch subst str l m).cur)) = true := by
    change decide (_ = _) = true
    exact decide_eq_true rfl
  have hleft : (passMatch subst str l m).left matchAt str =
      piecesBehind matchAt (m.1.eo - m.1.so) (str.drop (passMatch subst str l m).cur) := by
    unfold piecesBehind
    rw [SubstLoop.left, if_pos hend, htouched, hne, if_neg hzero]
  rw [takeMatch, if_neg hzero, hleft, decide_eq_false hzero]
  refine ⟨hordered, ?_, rfl, rfl⟩
  omega

end Passing

variable {execx : Execx Rex} {rex : Rex} {matchAt : MatchAt}

/-- The loop copies and replaces the pieces that it has still to go through. -/
theorem substLoop_eq (hleft : IsLeftmost execx rex matchAt) (str : List Char) {fuel : ℕ}
    {sed : Exec Rex} (hrex : subst.rex.or sed.lastRex = some rex) {l : SubstLoop}
    (hordered : l.Ordered) (hfuel : str.length + 2 ≤ fuel + l.cur) :
    ∃ l' lastRex, substLoop execx subst str fuel sed l = .ok (l', { sed with lastRex := lastRex }) ∧
      l'.scratch = l.scratch ++ subst.copied l.subCount false (l.left matchAt str) ∧
      l'.repl = (l.repl || subst.replaces l.subCount (l.left matchAt str)) := by
  induction fuel generalizing sed l with
  | zero =>
    refine ⟨l, sed.lastRex, rfl, ?_⟩
    rw [SubstLoop.left, if_neg (by omega)]
    simp [Subst.copied, Subst.replaces]
  | succ fuel ih =>
    rw [substLoop]
    by_cases hcur : str.length < l.cur
    · refine ⟨l, sed.lastRex, if_pos hcur, ?_⟩
      rw [SubstLoop.left, if_neg (by omega)]
      simp [Subst.copied, Subst.replaces]
    have hcur' : l.cur ≤ str.length := Nat.le_of_not_lt hcur
    have hpieces : l.left matchAt str = pieces matchAt
        (l.pmat.any fun pmat => pmat.1 + pmat.2 = l.cur) (.start (l.cur != 0)) (str.drop l.cur) :=
      if_pos hcur'
    rw [if_neg hcur, nextMatch]
    cases hsearches : subst.searches l.subCount with
    | false =>
      have hnot : ¬(subst.maxCount = 0 ∨ l.subCount < subst.maxCount) := by
        simpa [Subst.searches] using hsearches
      obtain ⟨hcopied, hreplaces⟩ := copied_of_not_searches hsearches (l.left matchAt str)
      rw [if_neg hnot]
      refine ⟨_, sed.lastRex, rfl, ?_, ?_⟩
      · rw [hcopied, hpieces, flatMap_text_pieces]
      · rw [hreplaces, Bool.or_false]
    | true =>
      have hyes : subst.maxCount = 0 ∨ l.subCount < subst.maxCount := by
        simpa [Subst.searches] using hsearches
      rw [if_pos hyes, resolveRex_eq hrex]
      simp only [hleft.execx]
      have hrex' : subst.rex.or ({ sed with lastRex := some rex } : Exec Rex).lastRex =
          some rex := by
        cases hsubst : subst.rex with
        | none => rfl
        | some rex' =>
          rw [hsubst] at hrex
          exact hrex
      cases hfound : leftmost matchAt (.start (l.cur != 0)) (str.drop l.cur) with
      | none =>
        refine ⟨_, some rex, rfl, ?_⟩
        have hkept := copied_kept subst l.subCount (str.drop l.cur) []
        rw [append_nil] at hkept
        rw [hpieces, pieces_of_leftmost_none hfound, hkept.1, hkept.2]
        simp [Subst.copied, Subst.replaces]
      | some m =>
        simp only
        cases htouches : touches l m with
        | true =>
          obtain ⟨hlen, hany⟩ : m.1.eo - m.1.so = 0 ∧ (l.pmat.any fun pmat =>
              decide (l.cur + m.1.so = pmat.1 + pmat.2)) = true := by
            simpa [touches] using htouches
          obtain ⟨pmat, hpmat, hend⟩ := (Option.any_eq_true ..).mp hany
          have hend' : l.cur + m.1.so = pmat.1 + pmat.2 := by simpa using hend
          have hle := hordered pmat hpmat
          have htouched : (l.pmat.any fun pmat =>
              decide (pmat.1 + pmat.2 = l.cur)) = true := by
            rw [hpmat]
            exact decide_eq_true (by omega)
          obtain ⟨hscratch, hrepl⟩ := @left_skipOneChar _ matchAt str l hordered hcur'
            subst l.subCount false (by rw [hsearches]; rfl)
          rw [if_pos rfl, hpieces, htouched,
            pieces_of_touching hfound (by omega) hlen, ← hscratch, ← hrepl]
          exact ih hrex' (fun pmat hmem => Nat.le_succ_of_le (hordered pmat hmem))
            (by change str.length + 2 ≤ fuel + (l.cur + 1); omega)
        | false =>
          have hcounts : (l.pmat.any fun pmat => decide (pmat.1 + pmat.2 = l.cur)) =
              false ∨ 0 < m.1.so ∨ 0 < m.1.eo - m.1.so := by
            by_cases hso : 0 < m.1.so ∨ 0 < m.1.eo - m.1.so
            · exact .inr hso
            refine .inl ?_
            have hzero : m.1.so = 0 ∧ m.1.eo - m.1.so = 0 := by omega
            cases hpmat : l.pmat with
            | none => rfl
            | some pmat =>
              refine decide_eq_false fun hend => ?_
              have htrue : touches l m = true := by
                simp [touches, hpmat, hzero.1, hend]
                omega
              rw [htrue] at htouches
              cases htouches
          obtain ⟨hordered', hlt, hscratch, hrepl⟩ :=
            takeMatch_left hleft.fits hcur' hsearches hfound hcounts
          rw [if_neg (by decide), ← hscratch, ← hrepl]
          exact ih hrex' hordered' (by omega)

/-! ## The line -/

theorem trimLine_append (line : List Char) : (trimLine line).1 ++ (trimLine line).2 = line := by
  have hreverse : ∀ {s : List Char}, line.reverse = s → line = s.reverse := by
    rintro s rfl
    exact line.reverse_reverse.symm
  rw [trimLine]
  split
  · rename_i str h
    simp [hreverse h]
  · rename_i str h
    simp [hreverse h]
  · exact append_nil line

def Subst.asked (subst : Subst Rex) (matchAt : MatchAt) (line : List Char) : List Char :=
  subst.replaced 0 (pieces matchAt false (.start false) (trimLine line).1) ++ (trimLine line).2

theorem expand_ampersand (mat : List Char) (submat : Fin 9 → List Char) :
    expand mat submat ['&'] = mat := by
  simp [expand]

theorem asked_ampersand (hrpl : subst.rpl = ['&']) (hk : subst.k = false) (matchAt : MatchAt)
    (line : List Char) : subst.asked matchAt line = line := by
  have hreplaced : ∀ n ps, subst.replaced n ps = ps.flatMap Piece.text := by
    intro n ps
    induction ps generalizing n with
    | nil => rfl
    | cons p ps ih =>
      cases p with
      | kept c emptied =>
        rw [Subst.replaced, hk, ih]
        rfl
      | found text groups =>
        rw [Subst.replaced, hk, hrpl, expand_ampersand, ih]
        simp [Piece.text]
  rw [Subst.asked, hreplaced, flatMap_text_pieces, trimLine_append]

/-- The substitution replaces what is asked for, and `subst_done` is set just if it replaces
anything, if and only if it is not to remove the characters between the matches or meets no
empty match in front of one of them. -/
theorem substituted_iff (hleft : IsLeftmost execx rex matchAt) {subst : Subst Rex}
    {sed : Exec Rex} (hrex : subst.rex.or sed.lastRex = some rex) :
    ∃ sed', doSubst execx subst sed = .ok sed' ∧
      (sed'.line = subst.asked matchAt sed.line ∧
          sed'.substDone = (sed.substDone ||
            subst.replaces 0 (pieces matchAt false (.start false) (trimLine sed.line).1)) ↔
        (subst.k = true →
          subst.meetsEmpty 0 false
            (pieces matchAt false (.start false) (trimLine sed.line).1) = false)) ∧
      (subst.rpl = ['&'] → subst.k = false → sed'.line = sed.line) := by
  obtain ⟨l, lastRex, hloop, hscratch, hrepl⟩ := substLoop_eq hleft (trimLine sed.line).1 hrex
    (l := ⟨0, none, 0, [], false⟩) (fun _ h => (by cases h)) (Nat.le_refl _)
  have hpieces : SubstLoop.left matchAt (trimLine sed.line).1 ⟨0, none, 0, [], false⟩ =
      pieces matchAt false (.start false) (trimLine sed.line).1 := if_pos (Nat.zero_le _)
  rw [hpieces, nil_append] at hscratch
  rw [hpieces, Bool.false_or] at hrepl
  obtain ⟨sed', hsubst, hline, hdone⟩ : ∃ sed', doSubst execx subst sed = .ok sed' ∧
      sed'.line = l.scratch ++ (trimLine sed.line).2 ∧
      sed'.substDone = (sed.substDone || l.repl) := by
    rw [doSubst]
    simp only [hloop]
    cases l.repl with
    | true => exact ⟨_, rfl, rfl, (Bool.or_true _).symm⟩
    | false => exact ⟨_, rfl, rfl, (Bool.or_false _).symm⟩
  have hiff := copied_eq_replaced_iff subst 0 false
    (pieces matchAt false (.start false) (trimLine sed.line).1)
  refine ⟨sed', hsubst, ?_, fun hrpl hk => ?_⟩
  · rw [hdone, hrepl, hline, hscratch, Subst.asked, append_cancel_right_eq, hiff]
    exact and_iff_left rfl
  · rw [hline, hscratch, hiff.mpr fun h => by rw [hk] at h; cases h]
    exact asked_ampersand hrpl hk matchAt sed.line

end

/-- The expression `c*` for a character `c`. -/
def manyAt (c : Char) : MatchAt := fun _ s => some ((s.takeWhile (· == c)).length, fun _ => none)

theorem isLeftmost_many (c : Char) :
    IsLeftmost (fun (_ : Unit) notbol s => .ok (leftmost (manyAt c) (.start notbol) s)) ()
      (manyAt c) where
  execx _ _ := rfl
  fits _ s m hmatch := by
    cases hmatch
    exact (takeWhile_sublist _).length_le

def Exec.ofLine (line : List Char) : Exec Unit := ⟨line, 1, .empty, [], none, false, [], []⟩

/-- `s/x*/<&>/2` on a line of three characters. -/
theorem substituted_iff_second :
    ∃ sed', doSubst (fun _ notbol s => .ok (leftmost (manyAt 'x') (.start notbol) s))
        ⟨some (), ['<', '&', '>'], none, 2, false, false, false⟩
        (.ofLine ['a', 'x', 'b', '\n']) = .ok sed' ∧
      sed'.line = ['a', '<', 'x', '>', 'b', '\n'] := by
  obtain ⟨sed', hsubst, hiff, -⟩ := @substituted_iff Unit _ () _ (isLeftmost_many 'x')
    ⟨some (), ['<', '&', '>'], none, 2, false, false, false⟩
    (.ofLine ['a', 'x', 'b', '\n']) rfl
  refine ⟨sed', hsubst, (hiff.mpr fun h => nomatch h).1.trans ?_⟩
  simp [Subst.asked, Exec.ofLine, trimLine, pieces, manyAt, Subst.replaced, Subst.selects,
    Subst.maxCount, expand]

/-- `s/x*/&/gk` does not remove a character with an empty match in front of it. -/
theorem not_substituted_kill : ¬∀ (subst : Subst Unit) (sed sed' : Exec Unit),
    doSubst (fun _ notbol s => .ok (leftmost (manyAt 'x') (.start notbol) s)) subst sed = .ok sed' →
      sed'.line = subst.asked (manyAt 'x') sed.line := by
  intro hclaim
  have hline := hclaim ⟨some (), ['&'], none, 0, true, false, true⟩ (.ofLine ['a', '\n']) _ rfl
  simp [Subst.asked, Exec.ofLine, trimLine, pieces, manyAt, Subst.replaced, Subst.selects,
    Subst.maxCount, expand, takeMatch, passMatch, skipOneChar, Regmatch.text] at hline

end Qse.Sed
