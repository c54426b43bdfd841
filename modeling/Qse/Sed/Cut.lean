import Mathlib.Data.List.Destutter
import Qse.Sed.Model

/-!
# Cutting a line

The command `C` of `lib/sed/sed.c`: `split_into_fields_for_cut` and `do_cut`, for the selectors that
`get_cut` has compiled. A field is the text from its pointer on, as long as its length.
-/

open List

namespace Qse.Sed.Cut

/-- `QSE_SED_CUT_SEL_CHAR` and `QSE_SED_CUT_SEL_FIELD` -/
inductive Sel where
  | char
  | field
deriving DecidableEq

/-- A member of `range`. Its last index is `end` in the source. -/
structure Range where
  id : Sel
  start : ℕ
  stop : ℕ
deriving DecidableEq

/-- The member `cut` of `qse_sed_cmd_t`: the blocks of ranges from `fb` on, the delimiters of the
input and of the output, and the options. -/
structure Cmd where
  fb : List (List Range)
  delimIn : Char
  delimOut : Char
  f : Bool
  w : Bool
  d : Bool

/-- `fcount`, which `get_cut` counts. -/
def Cmd.fcount (cut : Cmd) : ℕ := cut.fb.flatten.countP fun r => r.id = .field

section Code

variable (isspace : Char → Bool) (cut : Cmd)

/-- The loop of `split_into_fields_for_cut`, with the fields so far, the field that has begun, and
`delimited`. -/
def splitLoop (flds : List (List Char)) (fld : List Char) (delimited : Bool) :
    List Char → List (List Char) × Bool
  | [] => (flds ++ [fld], delimited)
  | c :: str =>
    if cut.w then
      if isspace c then splitLoop (flds ++ [fld]) [] true (str.dropWhile isspace)
      else splitLoop flds (fld ++ [c]) delimited str
    else if c = cut.delimIn then
      splitLoop (flds ++ [fld]) [] true
        (if cut.f then str.dropWhile (fun c => c = cut.delimIn) else str)
    else splitLoop flds (fld ++ [c]) delimited str
termination_by str => str.length
decreasing_by
  · exact Nat.lt_succ_of_le (dropWhile_suffix _).length_le
  · exact Nat.lt_succ_self _
  · split
    · exact Nat.lt_succ_of_le (dropWhile_suffix _).length_le
    · exact Nat.lt_succ_self _
  · exact Nat.lt_succ_self _

/-- `split_into_fields_for_cut`: the fields, and whether the text is delimited. -/
def splitIntoFields (str : List Char) : List (List Char) × Bool :=
  splitLoop isspace cut [] [] false str

/-- The text that is put together in `scratch`, and `out_state`. -/
structure Scratch where
  txt : List Char
  outState : ℕ

def delimIf (b : Bool) : List Char := if b then [cut.delimOut] else []

def cutChars (str : List Char) (r : Range) (scratch : Scratch) : Scratch :=
  if r.start ≤ r.stop then
    if r.start < str.length then
      let e := if str.length ≤ r.stop then str.length - 1 else r.stop
      ⟨scratch.txt ++ delimIf cut (scratch.outState = 2) ++
        (str.drop r.start).take (e - r.start + 1), 1⟩
    else scratch
  else if r.stop < str.length then
    let s := if str.length ≤ r.start then str.length - 1 else r.start
    ⟨scratch.txt ++ delimIf cut (scratch.outState = 2) ++
      ((str.drop r.stop).take (s - r.stop + 1)).reverse, 1⟩
  else scratch

def fieldLoop (flds : List (List Char)) : ℕ → ℕ → Scratch → Scratch
  | 0, _, scratch => scratch
  | n + 1, s, scratch =>
    fieldLoop flds n (s + 1)
      ⟨scratch.txt ++ delimIf cut (0 < scratch.outState) ++ flds.getD s [], 2⟩

/-- The branches for fields. Both loops go from the lower index to the higher one. -/
def cutFields (str : List Char) (flds : List (List Char)) (r : Range) (scratch : Scratch) :
    Scratch :=
  if r.start ≤ r.stop then
    if r.start < str.length then
      let e := if flds.length ≤ r.stop then flds.length - 1 else r.stop
      fieldLoop cut flds (e + 1 - r.start) r.start scratch
    else scratch
  else if r.stop < str.length then
    let s := if flds.length ≤ r.start then flds.length - 1 else r.start
    fieldLoop cut flds (s + 1 - r.stop) r.stop scratch
  else scratch

def cutRange (str : List Char) (flds : List (List Char)) (scratch : Scratch) (r : Range) :
    Scratch :=
  match r.id with
  | .char => cutChars cut str r scratch
  | .field => cutFields cut str flds r scratch

/-- `do_cut`: what it returns, and the state with the new line. -/
def doCut {Rex : Type*} (sed : Exec Rex) : ℤ × Exec Rex :=
  let (str, lineterm) := trimLine sed.line
  if str.length ≤ 0 then (1, { sed with line := lineterm })
  else
    let (flds, delimited) :=
      if 0 < cut.fcount then splitIntoFields isspace cut str else ([], false)
    if 0 < cut.fcount ∧ cut.d = true ∧ delimited = false then (0, { sed with line := [] })
    else
      let scratch := cut.fb.foldl (fun scratch b => b.foldl (cutRange cut str flds) scratch) ⟨[], 0⟩
      (1, { sed with line := scratch.txt ++ lineterm })

end Code

def between {α : Type*} (lo hi : ℕ) (items : List α) : List α := (items.drop lo).take (hi + 1 - lo)

def Range.picked {α : Type*} (r : Range) (items : List α) : List α :=
  if r.start ≤ r.stop then between r.start r.stop items
  else (between r.stop r.start items).reverse

inductive Piece where
  | chars (s : List Char)
  | field (s : List Char)
deriving DecidableEq

def Piece.text : Piece → List Char
  | .chars s => s
  | .field s => s

def Piece.isField : Piece → Bool
  | .chars _ => false
  | .field _ => true

def Cmd.isDelim (isspace : Char → Bool) (cut : Cmd) (c : Char) : Bool :=
  if cut.w then isspace c else c = cut.delimIn

/-- The text with one delimiter kept of those in a row, if they are folded. -/
def Cmd.folded (isspace : Char → Bool) (cut : Cmd) (str : List Char) : List Char :=
  if cut.w || cut.f then
    str.destutter fun c c' => ¬(cut.isDelim isspace c = true ∧ cut.isDelim isspace c' = true)
  else str

def Cmd.fields (isspace : Char → Bool) (cut : Cmd) (str : List Char) : List (List Char) :=
  (cut.folded isspace str).splitOnP (cut.isDelim isspace)

def Range.pieces (r : Range) (str : List Char) (flds : List (List Char)) : List Piece :=
  match r.id with
  | .char => if r.picked str = [] then [] else [.chars (r.picked str)]
  | .field => (r.picked flds).map .field

def assembled (wanted : Piece → Piece → Bool) (delim : Char) : List Piece → List Char
  | [] => []
  | [p] => p.text
  | p :: q :: ps =>
    p.text ++ (if wanted p q then [delim] else []) ++ assembled wanted delim (q :: ps)

def besideField (p q : Piece) : Bool := p.isField || q.isField

/-! ## Fields -/

section Folding

variable {p : Char → Bool} {c : Char}

theorem destutter_delim (hc : p c = true) (str : List Char) :
    (c :: str).destutter (fun c c' => ¬(p c = true ∧ p c' = true)) =
      c :: (str.dropWhile p).destutter fun c c' => ¬(p c = true ∧ p c' = true) := by
  rw [destutter_cons']
  induction str with
  | nil => rfl
  | cons c' str ih =>
    by_cases hc' : p c' = true
    · rw [destutter'_cons_neg _ (fun h => h ⟨hc, hc'⟩), ih, dropWhile_cons_of_pos hc']
    · rw [destutter'_cons_pos _ (fun h => hc' h.2), dropWhile_cons_of_neg hc', destutter_cons']

theorem destutter_other (hc : ¬p c = true) (str : List Char) :
    (c :: str).destutter (fun c c' => ¬(p c = true ∧ p c' = true)) =
      c :: str.destutter fun c c' => ¬(p c = true ∧ p c' = true) := by
  rw [destutter_cons']
  cases str with
  | nil => rfl
  | cons c' str => rw [destutter'_cons_pos _ (fun h => hc h.1), destutter_cons']

end Folding

variable {isspace : Char → Bool} {cut : Cmd}

theorem isDelim_of_w (hw : cut.w = true) : cut.isDelim isspace = isspace :=
  funext fun _ => if_pos hw

theorem isDelim_of_not_w (hw : ¬cut.w = true) :
    cut.isDelim isspace = fun c => decide (c = cut.delimIn) :=
  funext fun _ => if_neg hw

theorem folded_delim {c : Char} (hc : cut.isDelim isspace c = true) (str : List Char) :
    cut.folded isspace (c :: str) = c :: cut.folded isspace
      (if cut.w || cut.f then str.dropWhile (cut.isDelim isspace) else str) := by
  rw [Cmd.folded, Cmd.folded]
  split
  · exact destutter_delim hc str
  · rfl

theorem folded_other {c : Char} (hc : ¬cut.isDelim isspace c = true) (str : List Char) :
    cut.folded isspace (c :: str) = c :: cut.folded isspace str := by
  rw [Cmd.folded, Cmd.folded]
  split
  · exact destutter_other hc str
  · rfl

theorem folded_nil : cut.folded isspace [] = [] := by
  rw [Cmd.folded]
  split <;> rfl

theorem splitLoop_eq (flds : List (List Char)) (fld : List Char) (delimited : Bool)
    (str : List Char) :
    splitLoop isspace cut flds fld delimited str =
      (flds ++ List.splitOnPPrepend (cut.isDelim isspace) (cut.folded isspace str) fld.reverse,
        delimited || str.any (cut.isDelim isspace)) := by
  -- What both branches leave for a delimiter, and for another character.
  have hdelim (flds fld delimited) (c : Char) (str rest : List Char)
      (hc : cut.isDelim isspace c = true)
      (hrest : rest = if cut.w || cut.f then str.dropWhile (cut.isDelim isspace) else str)
      (hloop : splitLoop isspace cut (flds ++ [fld]) [] true rest =
        (flds ++ [fld] ++ List.splitOnPPrepend (cut.isDelim isspace) (cut.folded isspace rest)
          [].reverse, true || rest.any (cut.isDelim isspace))) :
      splitLoop isspace cut (flds ++ [fld]) [] true rest =
        (flds ++ List.splitOnPPrepend (cut.isDelim isspace) (cut.folded isspace (c :: str))
          fld.reverse, delimited || (c :: str).any (cut.isDelim isspace)) := by
    rw [hloop, folded_delim hc, ← hrest, splitOnPPrepend_cons_pos hc, any_cons, hc]
    simp
  have hother (flds fld delimited) (c : Char) (str : List Char)
      (hc : ¬cut.isDelim isspace c = true)
      (hloop : splitLoop isspace cut flds (fld ++ [c]) delimited str =
        (flds ++ List.splitOnPPrepend (cut.isDelim isspace) (cut.folded isspace str)
          (fld ++ [c]).reverse, delimited || str.any (cut.isDelim isspace))) :
      splitLoop isspace cut flds (fld ++ [c]) delimited str =
        (flds ++ List.splitOnPPrepend (cut.isDelim isspace) (cut.folded isspace (c :: str))
          fld.reverse, delimited || (c :: str).any (cut.isDelim isspace)) := by
    have hc' : cut.isDelim isspace c = false := Bool.eq_false_iff.mpr hc
    rw [hloop, folded_other hc, splitOnPPrepend_cons_neg hc', any_cons, hc']
    simp
  induction flds, fld, delimited, str using splitLoop.induct isspace cut with
  | case1 flds fld delimited =>
    rw [splitLoop, folded_nil, splitOnPPrepend_nil, reverse_reverse, any_nil, Bool.or_false]
  | case2 flds fld delimited c str hw hc ih =>
    rw [splitLoop, if_pos hw, if_pos hc]
    exact hdelim flds fld delimited c str _ (by rwa [isDelim_of_w hw])
      (by rw [isDelim_of_w hw, hw]; rfl) ih
  | case3 flds fld delimited c str hw hc ih =>
    rw [splitLoop, if_pos hw, if_neg hc]
    exact hother flds fld delimited c str (by rwa [isDelim_of_w hw]) ih
  | case4 flds fld delimited str hw ih =>
    simp only [dite_eq_ite] at ih
    rw [splitLoop, if_neg hw, if_pos rfl]
    exact hdelim flds fld delimited _ str _
      (by rw [isDelim_of_not_w hw]; exact decide_eq_true rfl)
      (by rw [isDelim_of_not_w hw, Bool.eq_false_iff.mpr hw, Bool.false_or]) ih
  | case5 flds fld delimited c str hw hc ih =>
    rw [splitLoop, if_neg hw, if_neg hc]
    exact hother flds fld delimited c str
      (by rw [isDelim_of_not_w hw]; exact fun h => hc (of_decide_eq_true h)) ih

theorem splitIntoFields_eq (str : List Char) :
    splitIntoFields isspace cut str = (cut.fields isspace str, str.any (cut.isDelim isspace)) := by
  rw [splitIntoFields, splitLoop_eq]
  rfl

theorem length_splitOnP_le (p : Char → Bool) (str : List Char) :
    (str.splitOnP p).length ≤ str.length + 1 := by
  induction str with
  | nil => exact le_rfl
  | cons c str ih =>
    rw [splitOnP_cons_eq_if_splitOnPPrepend, length_cons]
    split
    · rw [length_cons]
      exact Nat.succ_le_succ ih
    · rw [splitOnPPrepend_eq_modifyHead, length_modifyHead]
      exact Nat.le_succ_of_le ih

theorem length_fields_le (str : List Char) : (cut.fields isspace str).length ≤ str.length + 1 := by
  have hfolded : (cut.folded isspace str).length ≤ str.length := by
    rw [Cmd.folded]
    split
    · exact (destutter_sublist _ str).length_le
    · exact le_rfl
  exact le_trans (length_splitOnP_le _ _) (Nat.succ_le_succ hfolded)

section Assembling

variable {wanted : Piece → Piece → Bool} {delim : Char}

theorem assembled_concat (ps : List Piece) (q : Piece) :
    assembled wanted delim (ps ++ [q]) = assembled wanted delim ps ++
      (ps.getLast?.elim [] fun p => if wanted p q then [delim] else []) ++ q.text := by
  induction ps with
  | nil => rfl
  | cons p ps ih =>
    cases ps with
    | nil =>
      rw [singleton_append, assembled, assembled, assembled]
      rfl
    | cons p' ps =>
      rw [cons_append, cons_append, assembled, ← cons_append, ih, assembled, getLast?_cons_cons]
      simp only [append_assoc]

end Assembling

/-- `out_state` after some pieces. -/
def stateAfter (ps : List Piece) : ℕ :=
  ps.getLast?.elim 0 fun p => if p.isField then 2 else 1

structure Scratch.Holds (cut : Cmd) (scratch : Scratch) (ps : List Piece) : Prop where
  txt : scratch.txt = assembled besideField cut.delimOut ps
  outState : scratch.outState = stateAfter ps

variable {scratch : Scratch} {ps : List Piece}

theorem Scratch.Holds.push_chars (h : scratch.Holds cut ps) (s : List Char) :
    (Scratch.mk (scratch.txt ++ delimIf cut (scratch.outState = 2) ++ s) 1).Holds cut
      (ps ++ [.chars s]) := by
  constructor
  · rw [assembled_concat, ← h.txt, h.outState, stateAfter]
    cases ps.getLast? with
    | none => rfl
    | some p => cases p with
      | chars t | field t => rfl
  · rw [stateAfter, getLast?_concat]
    rfl

theorem Scratch.Holds.push_field (h : scratch.Holds cut ps) (s : List Char) :
    (Scratch.mk (scratch.txt ++ delimIf cut (0 < scratch.outState) ++ s) 2).Holds cut
      (ps ++ [.field s]) := by
  constructor
  · rw [assembled_concat, ← h.txt, h.outState, stateAfter]
    cases ps.getLast? with
    | none => rfl
    | some p => cases p with
      | chars t | field t => rfl
  · rw [stateAfter, getLast?_concat]
    rfl

variable {flds : List (List Char)} {str : List Char}

theorem Scratch.Holds.push_fields {n s : ℕ} (hn : s + n ≤ flds.length) (h : scratch.Holds cut ps) :
    (fieldLoop cut flds n s scratch).Holds cut
      (ps ++ ((flds.drop s).take n).map .field) := by
  induction n generalizing s scratch ps with
  | zero => simpa [fieldLoop] using h
  | succ n ih =>
    have hs : s < flds.length := by omega
    have hget : flds.getD s [] = flds[s] := by
      rw [getD_eq_getElem?_getD, getElem?_eq_getElem hs]
      rfl
    have hpush := ih (s := s + 1) (by omega) (h.push_field (flds.getD s []))
    rw [hget, append_assoc ps] at hpush
    rw [fieldLoop, hget, drop_eq_getElem_cons hs, take_succ_cons, map_cons]
    exact hpush

/-! ## Ranges -/

section Ranges

variable {α : Type*} {items : List α} {lo hi : ℕ}

theorem between_of_length_le (h : items.length ≤ lo) (hi : ℕ) : between lo hi items = [] := by
  rw [between, drop_eq_nil_of_le h, take_nil]

theorem between_eq_take (hlo : lo < items.length) (hle : lo ≤ hi) :
    between lo hi items =
      (items.drop lo).take ((if items.length ≤ hi then items.length - 1 else hi) + 1 - lo) := by
  rw [between]
  split
  · rw [take_of_length_le (by rw [length_drop]; omega),
      take_of_length_le (by rw [length_drop]; omega)]
  · rfl

theorem between_ne_nil (hlo : lo < items.length) (hle : lo ≤ hi) : between lo hi items ≠ [] := by
  rw [← length_pos_iff, between, length_take, length_drop]
  omega

end Ranges

theorem Scratch.Holds.cutChars {r : Range} (hid : r.id = .char) (flds : List (List Char))
    (h : scratch.Holds cut ps) :
    (Cut.cutChars cut str r scratch).Holds cut (ps ++ r.pieces str flds) := by
  have hpieces : r.pieces str flds =
      if r.picked str = [] then [] else [.chars (r.picked str)] := by rw [Range.pieces, hid]
  rw [hpieces, Cut.cutChars, Range.picked]
  by_cases hle : r.start ≤ r.stop
  · rw [if_pos hle, if_pos hle]
    by_cases hlo : r.start < str.length
    · have htake := between_eq_take hlo hle
      have hsub : (if str.length ≤ r.stop then str.length - 1 else r.stop) + 1 - r.start =
          (if str.length ≤ r.stop then str.length - 1 else r.stop) - r.start + 1 := by
        split <;> omega
      rw [if_pos hlo, if_neg (between_ne_nil hlo hle), htake, hsub]
      exact h.push_chars _
    · rw [if_neg hlo, if_pos (between_of_length_le (Nat.le_of_not_lt hlo) _), append_nil]
      exact h
  · have hge : r.stop ≤ r.start := Nat.le_of_not_le hle
    rw [if_neg hle, if_neg hle]
    by_cases hlo : r.stop < str.length
    · have htake := between_eq_take hlo hge
      have hsub : (if str.length ≤ r.start then str.length - 1 else r.start) + 1 - r.stop =
          (if str.length ≤ r.start then str.length - 1 else r.start) - r.stop + 1 := by
        split <;> omega
      have hne : (between r.stop r.start str).reverse ≠ [] :=
        fun hnil => between_ne_nil hlo hge (reverse_eq_nil_iff.mp hnil)
      rw [if_pos hlo, if_neg hne, htake, hsub]
      exact h.push_chars _
    · rw [if_neg hlo, if_pos (by rw [between_of_length_le (Nat.le_of_not_lt hlo)]; rfl), append_nil]
      exact h

def Range.put (r : Range) (str : List Char) (flds : List (List Char)) : List (List Char) :=
  if min r.start r.stop < str.length then
    between (min r.start r.stop) (max r.start r.stop) flds
  else []

theorem Scratch.Holds.cutFields (hflds : flds ≠ []) (r : Range) (h : scratch.Holds cut ps) :
    (Cut.cutFields cut str flds r scratch).Holds cut (ps ++ (r.put str flds).map .field) := by
  have hpos := length_pos_iff.mpr hflds
  -- Either loop, with its lower and its higher index.
  have hloop (lo hi : ℕ) (hle : lo ≤ hi) :
      (fieldLoop cut flds ((if flds.length ≤ hi then flds.length - 1 else hi) + 1 - lo) lo
        scratch).Holds cut (ps ++ (between lo hi flds).map .field) := by
    by_cases hlo : lo < flds.length
    · rw [between_eq_take hlo hle]
      apply h.push_fields
      split <;> omega
    · have hzero : (if flds.length ≤ hi then flds.length - 1 else hi) + 1 - lo = 0 := by
        split <;> omega
      rw [hzero, between_of_length_le (Nat.le_of_not_lt hlo), map_nil, append_nil]
      exact h
  rw [Cut.cutFields, Range.put]
  by_cases hle : r.start ≤ r.stop
  · rw [if_pos hle, min_eq_left hle, max_eq_right hle]
    by_cases hlo : r.start < str.length
    · rw [if_pos hlo, if_pos hlo]
      exact hloop r.start r.stop hle
    · rw [if_neg hlo, if_neg hlo, map_nil, append_nil]
      exact h
  · have hge : r.stop ≤ r.start := Nat.le_of_not_le hle
    rw [if_neg hle, min_eq_right hge, max_eq_left hge]
    by_cases hlo : r.stop < str.length
    · rw [if_pos hlo, if_pos hlo]
      exact hloop r.stop r.start hge
    · rw [if_neg hlo, if_neg hlo, map_nil, append_nil]
      exact h

def Range.putPieces (r : Range) (str : List Char) (flds : List (List Char)) : List Piece :=
  match r.id with
  | .char => r.pieces str flds
  | .field => (r.put str flds).map .field

theorem Scratch.Holds.cutRange (r : Range) (hflds : r.id = .field → flds ≠ [])
    (h : scratch.Holds cut ps) :
    (Cut.cutRange cut str flds scratch r).Holds cut (ps ++ r.putPieces str flds) := by
  rw [Cut.cutRange, Range.putPieces]
  cases hid : r.id with
  | char => exact h.cutChars hid flds
  | field => exact h.cutFields (hflds hid) r

theorem Scratch.Holds.foldl (h : scratch.Holds cut ps) (str : List Char) {rs : List Range}
    (hflds : ∀ r ∈ rs, r.id = .field → flds ≠ []) :
    (rs.foldl (Cut.cutRange cut str flds) scratch).Holds cut
      (ps ++ rs.flatMap fun r => r.putPieces str flds) := by
  induction rs generalizing scratch ps with
  | nil => simpa using h
  | cons r rs ih =>
    rw [foldl_cons, flatMap_cons, ← append_assoc]
    exact ih (h.cutRange r (hflds r (.head _)))
      (fun q hq => hflds q (mem_cons_of_mem r hq))

/-! ## The whole command -/

/-- The range is not one of several fields given high-to-low, and does not begin with the field
whose index is the length of the text. -/
def Range.Settled (r : Range) (str : List Char) (flds : List (List Char)) : Prop :=
  r.id = .field →
    (r.stop < r.start → (between r.stop r.start flds).length ≤ 1) ∧
      (min r.start r.stop = str.length → flds.length ≤ str.length)

theorem reverse_of_length_le {α : Type*} {l : List α} (h : l.length ≤ 1) : l.reverse = l := by
  rcases l with _ | ⟨x, _ | ⟨y, l⟩⟩
  · rfl
  · rfl
  · rw [length_cons, length_cons] at h
    omega

theorem Range.Settled.putPieces_eq {r : Range} (h : r.Settled str flds)
    (hmost : flds.length ≤ str.length + 1) :
    r.putPieces str flds = r.pieces str flds := by
  cases hid : r.id with
  | char => rw [Range.putPieces, hid]
  | field =>
    obtain ⟨hone, hlast⟩ := h hid
    have hput : r.put str flds = r.picked flds := by
      have hout (hmin : ¬min r.start r.stop < str.length) (hi : ℕ) :
          between (min r.start r.stop) hi flds = [] := by
        apply between_of_length_le
        by_cases heq : min r.start r.stop = str.length
        · rw [heq]
          exact hlast heq
        · omega
      rw [Range.put, Range.picked]
      by_cases hle : r.start ≤ r.stop
      · rw [if_pos hle]
        split
        · rw [min_eq_left hle, max_eq_right hle]
        · rename_i hmin
          have hnil := hout hmin r.stop
          rw [min_eq_left hle] at hnil
          exact hnil.symm
      · have hge : r.stop ≤ r.start := Nat.le_of_not_le hle
        rw [if_neg hle, reverse_of_length_le (hone (Nat.lt_of_not_le hle))]
        split
        · rw [min_eq_right hge, max_eq_left hge]
        · rename_i hmin
          have hnil := hout hmin r.start
          rw [min_eq_right hge] at hnil
          exact hnil.symm
    rw [Range.putPieces, Range.pieces, hid, hput]

def Cmd.Deletes (isspace : Char → Bool) (cut : Cmd) (str : List Char) : Prop :=
  cut.d = true ∧ (∃ r ∈ cut.fb.flatten, r.id = .field) ∧ ∀ c ∈ str, cut.isDelim isspace c = false

/-- What is left by the command: of an empty text, the terminator; of a line that is to be deleted,
nothing; and otherwise the pieces that the ranges put out, which are those they select where the
range is settled, with a delimiter beside each field. -/
def Cmd.Cuts {Rex : Type*} (isspace : Char → Bool) (cut : Cmd) (sed : Exec Rex)
    (str lineterm : List Char) (left : ℤ × Exec Rex) : Prop :=
  (str = [] → left = (1, { sed with line := lineterm })) ∧
  (str ≠ [] → cut.Deletes isspace str → left = (0, { sed with line := [] })) ∧
  (str ≠ [] → ¬cut.Deletes isspace str →
    ∃ chosen : Range → List Piece,
      (∀ r, r.Settled str (cut.fields isspace str) →
        chosen r = r.pieces str (cut.fields isspace str)) ∧
      left = (1, { sed with
        line := assembled besideField cut.delimOut (cut.fb.flatten.flatMap chosen) ++ lineterm }))

theorem fcount_pos_iff : 0 < cut.fcount ↔ ∃ r ∈ cut.fb.flatten, r.id = .field := by
  rw [Cmd.fcount, countP_pos_iff]
  simp only [decide_eq_true_eq]

theorem foldl_blocks (str : List Char) (flds : List (List Char)) (scratch : Scratch) :
    cut.fb.foldl (fun scratch b => b.foldl (cutRange cut str flds) scratch) scratch =
      cut.fb.flatten.foldl (cutRange cut str flds) scratch := by
  rw [foldl_flatten]

/-- Whatever the selectors, the delimiters, the options and the pattern space. -/
theorem cuts_doCut {Rex : Type*} (isspace : Char → Bool) (cut : Cmd) (sed : Exec Rex) :
    cut.Cuts isspace sed (trimLine sed.line).1 (trimLine sed.line).2 (doCut isspace cut sed) := by
  generalize hstr : (trimLine sed.line).1 = str
  generalize hterm : (trimLine sed.line).2 = lineterm
  have htrim : trimLine sed.line = (str, lineterm) := Prod.ext hstr hterm
  have hdelimited : str.any (cut.isDelim isspace) = false ↔
      ∀ c ∈ str, cut.isDelim isspace c = false := by
    rw [any_eq_false]
    simp only [Bool.not_eq_true]
  rw [doCut, htrim]
  dsimp only
  refine ⟨?_, ?_, ?_⟩
  · rintro rfl
    exact if_pos le_rfl
  · rintro hne ⟨hd, hfield, hnone⟩
    have hpos := length_pos_iff.mpr hne
    have hcount := fcount_pos_iff.mpr hfield
    rw [if_neg (by omega), if_pos hcount, splitIntoFields_eq]
    exact if_pos ⟨hcount, hd, hdelimited.mpr hnone⟩
  · intro hne hkeep
    have hpos := length_pos_iff.mpr hne
    have hempty : (Scratch.mk [] 0).Holds cut [] := ⟨rfl, rfl⟩
    refine ⟨fun r => r.putPieces str (cut.fields isspace str), ?_, ?_⟩
    · intro r hr
      exact hr.putPieces_eq (length_fields_le str)
    · rw [if_neg (by omega)]
      by_cases hcount : 0 < cut.fcount
      · have hflds : ∀ r ∈ cut.fb.flatten, r.id = .field → cut.fields isspace str ≠ [] :=
          fun r _ _ => splitOnP_ne_nil _ _
        have hheld := hempty.foldl str hflds
        rw [if_pos hcount, splitIntoFields_eq]
        dsimp only
        rw [if_neg (fun h => hkeep ⟨h.2.1, fcount_pos_iff.mp hcount, hdelimited.mp h.2.2⟩),
          foldl_blocks, hheld.txt, nil_append]
      have hchar : ∀ r ∈ cut.fb.flatten, r.id ≠ .field :=
        fun r hr hid => hcount (fcount_pos_iff.mpr ⟨r, hr, hid⟩)
      have hflds : ∀ r ∈ cut.fb.flatten, r.id = .field → ([] : List (List Char)) ≠ [] :=
        fun r hr hid => absurd hid (hchar r hr)
      have hheld := hempty.foldl str hflds
      have hsame : (cut.fb.flatten.flatMap fun r => r.putPieces str []) =
          cut.fb.flatten.flatMap fun r => r.putPieces str (cut.fields isspace str) := by
        apply flatMap_congr
        intro r hr
        cases hid : r.id with
        | char => rw [Range.putPieces, Range.putPieces, Range.pieces, Range.pieces, hid]
        | field => exact absurd hid (hchar r hr)
      rw [if_neg hcount]
      dsimp only
      rw [if_neg (fun h => hcount h.1), foldl_blocks, hheld.txt, nil_append, hsame]

def charThenField : Cmd where
  fb := [[⟨.char, 0, 0⟩, ⟨.field, 0, 0⟩]]
  delimIn := ':'
  delimOut := ';'
  f := false
  w := false
  d := false

/-- From the line `a:b`, these selectors take `a;a`, with a delimiter that stands behind a
character. -/
theorem not_delimited_behind_fields_only :
    ¬∀ (cut : Cmd) (sed : Exec Unit), cut.d = false →
      (doCut (· == ' ') cut sed).2.line =
        assembled (fun p _ => p.isField) cut.delimOut
            (cut.fb.flatten.flatMap fun r => r.pieces (trimLine sed.line).1
              (cut.fields (· == ' ') (trimLine sed.line).1)) ++
          (trimLine sed.line).2 := by
  intro hall
  have hline := hall charThenField ⟨['a', ':', 'b'], 1, .empty, [], none, false, [], []⟩ rfl
  have htrim : trimLine ['a', ':', 'b'] = (['a', ':', 'b'], []) := rfl
  have hleft : (doCut (· == ' ') charThenField
      (⟨['a', ':', 'b'], 1, .empty, [], none, false, [], []⟩ : Exec Unit)).2.line =
      ['a', ';', 'a'] := by
    simp [doCut, htrim, charThenField, Cmd.fcount, splitIntoFields, splitLoop, cutRange, cutChars,
      cutFields, fieldLoop, delimIf]
  rw [hleft, htrim] at hline
  exact absurd hline (by decide)

end Qse.Sed.Cut
