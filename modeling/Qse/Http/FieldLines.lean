import Qse.Http.HeaderTable
import Qse.Http.Lines
import Qse.Http.Percent

/-!
# The fields of a header block

A header block is what follows the initial line: fields with their continuation lines and lines
without a colon. The header table is to hold, for each name, the values of its fields in order.
-/

open List

namespace Qse.Http.FieldLines

open ByteMemory InPlace

/-- The lines are without their line feed, but with CR if they end with CR LF. -/
inductive Item where
  | field (name first : List UInt8) (more : List (List UInt8))
  | bare (line : List UInt8)
  | blank (spaces : List UInt8)

def linesText (lines : List (List UInt8)) : List UInt8 := lines.flatMap (· ++ [mt '\n'])

def Item.text : Item → List UInt8
  | field name first more => name ++ mt ':' :: linesText (first :: more)
  | bare line => line ++ [mt '\n']
  | blank spaces => spaces

def text (block : List Item) : List UInt8 := block.flatMap Item.text

structure Name (name : List UInt8) : Prop where
  plain : Plain name
  colon : mt ':' ∉ name
  start : startsWith isWhspaceOctet name = false

instance (s : List UInt8) : Decidable (Plain s) :=
  inferInstanceAs (Decidable (∀ c ∈ s, c ≠ 0 ∧ c ≠ mt '\n'))

instance (name : List UInt8) : Decidable (Name name) :=
  decidable_of_iff
    (Plain name ∧ mt ':' ∉ name ∧ startsWith isWhspaceOctet name = false)
    ⟨fun h => ⟨h.1, h.2.1, h.2.2⟩, fun h => ⟨h.plain, h.colon, h.start⟩⟩

/-- Continuation lines begin with a space, and lines without a colon are for the reader that is not
strict. -/
def Item.WellFormed (strict : Bool) : Item → Prop
  | field name first more =>
    Name name ∧ Plain first ∧ ∀ line ∈ more, Plain line ∧ startsWith isPurespaceOctet line = true
  | bare line => Name line ∧ line ≠ [] ∧ strict = false
  | blank spaces => ∀ c ∈ spaces, isWhspaceOctet c = true

instance (strict : Bool) : DecidablePred (Item.WellFormed strict)
  | .field _ _ _ => inferInstanceAs (Decidable (_ ∧ _ ∧ _))
  | .bare _ => inferInstanceAs (Decidable (_ ∧ _ ∧ _))
  | .blank spaces => inferInstanceAs (Decidable (∀ c ∈ spaces, isWhspaceOctet c = true))

def Item.isField : Item → Bool
  | field _ _ _ => true
  | _ => false

def WellFormed (strict : Bool) : List Item → Prop
  | [] => True
  | item :: block =>
    item.WellFormed strict ∧
      (item.isField = true → startsWith isPurespaceOctet (text block) = false) ∧
      WellFormed strict block

instance WellFormed.decidable (strict : Bool) : DecidablePred (WellFormed strict)
  | [] => .isTrue trivial
  | _ :: block =>
    have := WellFormed.decidable strict block
    inferInstanceAs (Decidable (_ ∧ _ ∧ _))

def joined (lines : List (List UInt8)) : List UInt8 := lines.flatMap chopCR

def value (first : List UInt8) (more : List (List UInt8)) : List UInt8 :=
  trimEnd ((joined (first :: more)).dropWhile isSpaceOctet)

def Item.fields : Item → List Field
  | field name first more => [(trimEnd name, value first more)]
  | _ => []

def fields (block : List Item) : List Field := block.flatMap Item.fields

/-! ## What is read of a block -/

def valueSource (first : List UInt8) (more : List (List UInt8)) : List UInt8 :=
  let line := first.dropWhile isSpaceOctet
  if line = [] ∧ (first.takeWhile isSpaceOctet).getLast? = some (mt '\r') then (joined more).drop 1
  else chopCR line ++ joined more

def Item.readFields : Item → List Field
  | field name first more => [(trimEnd name, trimEnd (valueSource first more))]
  | _ => []

/-- The first line has something behind the colon, or the lines that continue it are blank, or it
ends with CR LF and there is one space before the first character of its continuation. -/
def Joins (first : List UInt8) (more : List (List UInt8)) : Prop :=
  (∃ c ∈ first, isSpaceOctet c = false) ∨ (∀ c ∈ joined more, isSpaceOctet c = true) ∨
    first.getLast? = some (mt '\r') ∧ startsWith (fun c => !isSpaceOctet c) ((joined more).drop 1)

instance (first : List UInt8) (more : List (List UInt8)) : Decidable (Joins first more) :=
  inferInstanceAs (Decidable (_ ∨ _ ∨ _))

def Item.Joins : Item → Prop
  | field _ first more => FieldLines.Joins first more
  | _ => True

instance : DecidablePred Item.Joins
  | .field _ first more => inferInstanceAs (Decidable (Joins first more))
  | .bare _ => .isTrue trivial
  | .blank _ => .isTrue trivial

variable {first name spaces s t rest : List UInt8} {more : List (List UInt8)} {strict : Bool}

variable {c : UInt8}

theorem takeWhile_of_stop {p : UInt8 → Bool} (hc : p c = false) (s rest : List UInt8) :
    (s ++ c :: rest).takeWhile p = s.takeWhile p := by
  induction s with
  | nil => exact takeWhile_cons_of_neg (by simp [hc])
  | cons d s ih =>
    rw [cons_append, takeWhile_cons, takeWhile_cons, ih]

theorem dropWhile_of_stop {p : UInt8 → Bool} (hc : p c = false) (s rest : List UInt8) :
    (s ++ c :: rest).dropWhile p = s.dropWhile p ++ c :: rest := by
  induction s with
  | nil => exact dropWhile_cons_of_neg (by simp [hc])
  | cons d s ih =>
    rw [cons_append, List.dropWhile_cons, List.dropWhile_cons, ih]
    split <;> rfl

theorem takeWhile_plain (hs : Plain s) (rest : List UInt8) :
    (s ++ mt '\n' :: rest).takeWhile (· ≠ mt '\n') = s := by
  rw [takeWhile_of_stop (by decide), takeWhile_eq_self_iff]
  exact fun c hc => decide_eq_true (hs c hc).2

theorem dropWhile_plain (hs : Plain s) (rest : List UInt8) :
    (s ++ mt '\n' :: rest).dropWhile (· ≠ mt '\n') = mt '\n' :: rest := by
  rw [dropWhile_of_stop (by decide), dropWhile_eq_nil_iff.mpr]
  · rfl
  · exact fun c hc => decide_eq_true (hs c hc).2

theorem linesText_cons (line : List UInt8) (lines : List (List UInt8)) (rest : List UInt8) :
    linesText (line :: lines) ++ rest = line ++ mt '\n' :: (linesText lines ++ rest) := by
  simp [linesText]

theorem length_le_linesText (lines : List (List UInt8)) :
    lines.length ≤ (linesText lines).length := by
  induction lines with
  | nil => exact le_refl 0
  | cons line lines ih =>
    have hcons := linesText_cons line lines []
    rw [append_nil, append_nil] at hcons
    rw [hcons, length_append, length_cons, length_cons]
    omega

theorem startsWith_lines (hmore : ∀ line ∈ more, startsWith isPurespaceOctet line = true)
    (hrest : startsWith isPurespaceOctet rest = false) :
    startsWith isPurespaceOctet (linesText more ++ rest) = true ↔ more ≠ [] := by
  cases more with
  | nil => simp [linesText, hrest]
  | cons line more =>
    have hline := hmore line (.head _)
    rw [linesText_cons]
    cases line with
    | nil => cases hline
    | cons c line =>
      constructor
      · exact fun _ => cons_ne_nil _ _
      · exact fun _ => hline

theorem readContinued_lines {fuel : ℕ} (hne : more ≠ []) (hfuel : more.length ≤ fuel)
    (hmore : ∀ line ∈ more, Plain line ∧ startsWith isPurespaceOctet line = true)
    (hrest : startsWith isPurespaceOctet rest = false) :
    readContinued fuel (linesText more ++ rest) = .ok (joined more, rest) := by
  induction more generalizing fuel with
  | nil => exact absurd rfl hne
  | cons line more ih =>
    obtain _ | fuel := fuel
    · exact absurd hfuel (Nat.not_succ_le_zero _)
    obtain ⟨⟨hplain, -⟩, hlines⟩ := forall_mem_cons.mp hmore
    have hstart := startsWith_lines (fun line hline => (hlines line hline).2) hrest
    rw [linesText_cons, readContinued, takeWhile_plain hplain, dropWhile_plain hplain]
    simp only
    by_cases hnil : more = []
    · subst hnil
      rw [if_neg (fun h => hstart.mp h rfl)]
      simp [joined, linesText]
    · rw [if_pos (hstart.mpr hnil), ih hnil (Nat.le_of_succ_le_succ hfuel) hlines]
      rfl

theorem trimEnd_valueSource_nil (first : List UInt8) :
    trimEnd (valueSource first []) = trimEnd (first.dropWhile isSpaceOctet) := by
  rw [valueSource]
  split
  case isTrue h => rw [h.1]; rfl
  case isFalse =>
    have hnil : joined [] = [] := rfl
    rw [hnil, append_nil, trimEnd_chopCR]

theorem valueText_lines (hfirst : Plain first)
    (hmore : ∀ line ∈ more, Plain line ∧ startsWith isPurespaceOctet line = true)
    (hrest : startsWith isPurespaceOctet rest = false) :
    valueText (linesText (first :: more) ++ rest) =
      .ok (trimEnd (valueSource first more), rest) := by
  have hline : Plain (first.dropWhile isSpaceOctet) := fun c hc =>
    hfirst c ((dropWhile_suffix _).subset hc)
  have hstart := startsWith_lines (fun line hline => (hmore line hline).2) hrest
  rw [linesText_cons, valueText, takeWhile_of_stop (by decide), dropWhile_of_stop (by decide)]
  simp only
  rw [takeWhile_plain hline, dropWhile_plain hline]
  simp only
  by_cases hnil : more = []
  · subst hnil
    rw [if_neg (fun h => hstart.mp h rfl), trimEnd_valueSource_nil]
    simp [linesText]
  · have hfuel : more.length ≤ (linesText more ++ rest).length + 1 := by
      have hlength := length_le_linesText more
      rw [length_append]
      omega
    rw [if_pos (hstart.mpr hnil), readContinued_lines hnil hfuel hmore hrest]
    rfl

theorem Name.takeWhile (hname : Name name) (rest : List UInt8) :
    (name ++ mt ':' :: rest).takeWhile (fun c => c ≠ mt '\n' ∧ c ≠ mt ':') = name := by
  rw [takeWhile_of_stop (by decide), takeWhile_eq_self_iff]
  intro c hc
  refine decide_eq_true ⟨(hname.plain c hc).2, ?_⟩
  rintro rfl
  exact hname.colon hc

theorem Name.dropWhile (hname : Name name) (hc : c = mt '\n' ∨ c = mt ':') (rest : List UInt8) :
    (name ++ c :: rest).dropWhile (fun c => c ≠ mt '\n' ∧ c ≠ mt ':') = c :: rest := by
  have hstop : decide (c ≠ mt '\n' ∧ c ≠ mt ':') = false := by
    rcases hc with rfl | rfl <;> rfl
  rw [dropWhile_of_stop hstop, dropWhile_eq_nil_iff.mpr]
  · rfl
  · intro c hc
    refine decide_eq_true ⟨(hname.plain c hc).2, ?_⟩
    rintro rfl
    exact hname.colon hc

theorem readField_field (strict : Bool) (hname : Name name) (hfirst : Plain first)
    (hmore : ∀ line ∈ more, Plain line ∧ startsWith isPurespaceOctet line = true)
    (hrest : startsWith isPurespaceOctet rest = false) :
    Http.readField strict (name ++ mt ':' :: (linesText (first :: more) ++ rest)) =
      .ok (some (trimEnd name, trimEnd (valueSource first more)), rest) := by
  rw [readField_colon (hname.dropWhile (.inr rfl) _), valueText_lines hfirst hmore hrest,
    hname.takeWhile]
  rfl

theorem readField_line_bare (hname : Name name) (rest : List UInt8) :
    Http.readField false (name ++ mt '\n' :: rest) = .ok (none, rest) := by
  rw [Http.readField, hname.dropWhile (.inl rfl)]
  rfl

theorem readFields_text {block : List Item} {fuel : ℕ} (h : WellFormed strict block)
    (hfuel : (text block).length < fuel) :
    readFields strict fuel (text block) = .ok (block.flatMap Item.readFields) := by
  induction block generalizing fuel with
  | nil =>
    obtain _ | fuel := fuel
    · exact absurd hfuel (Nat.not_lt_zero _)
    · rfl
  | cons item block ih =>
    obtain ⟨hitem, hnext, hblock⟩ := h
    obtain _ | fuel := fuel
    · exact absurd hfuel (Nat.not_lt_zero _)
    have htext : text (item :: block) = item.text ++ text block := flatMap_cons
    rw [htext] at hfuel ⊢
    rw [flatMap_cons]
    cases item with
    | blank spaces =>
      have hskip : readFields strict (fuel + 1) (spaces ++ text block) =
          readFields strict (fuel + 1) (text block) := by
        rw [readFields, readFields, dropWhile_append_of_pos hitem]
      rw [length_append] at hfuel
      exact hskip.trans (ih hblock (by omega))
    | bare line =>
      obtain ⟨hname, hne, rfl⟩ := hitem
      obtain ⟨c, line, rfl⟩ := exists_cons_of_ne_nil hne
      have hc : ¬isWhspaceOctet c = true := by
        rw [Bool.not_eq_true]
        exact hname.start
      have hline := readField_line_bare hname (text block)
      rw [cons_append] at hline
      rw [length_append] at hfuel
      have hlength : 0 < (Item.bare (c :: line)).text.length := by simp [Item.text]
      have happend : (Item.bare (c :: line)).text ++ text block =
          c :: (line ++ mt '\n' :: text block) := by
        simp [Item.text]
      rw [happend, readFields, dropWhile_cons_of_neg hc]
      simp only
      rw [hline]
      simp only
      rw [ih hblock (by omega)]
      rfl
    | field name first more =>
      obtain ⟨hname, hfirst, hmore⟩ := hitem
      have hline := readField_field strict hname hfirst hmore (hnext rfl)
      have hread : (name ++ mt ':' :: (linesText (first :: more) ++ text block)).dropWhile
          isWhspaceOctet = name ++ mt ':' :: (linesText (first :: more) ++ text block) := by
        cases name with
        | nil => exact dropWhile_cons_of_neg (by decide)
        | cons c name =>
          apply dropWhile_cons_of_neg
          rw [Bool.not_eq_true]
          exact hname.start
      rw [length_append] at hfuel
      have hlength : 0 < (Item.field name first more).text.length := by simp [Item.text]
      have happend : (Item.field name first more).text ++ text block =
          name ++ mt ':' :: (linesText (first :: more) ++ text block) := by
        simp [Item.text]
      rw [happend, readFields, hread]
      obtain ⟨c, u, hcons⟩ : ∃ c u,
          name ++ mt ':' :: (linesText (first :: more) ++ text block) = c :: u :=
        exists_cons_of_ne_nil (by simp)
      rw [hcons] at hline ⊢
      simp only
      rw [hline]
      simp only
      rw [ih hblock (by omega)]
      rfl

/-! ## Values -/

theorem value_eq (first : List UInt8) (more : List (List UInt8)) :
    value first more = trimEnd ((chopCR first ++ joined more).dropWhile isSpaceOctet) := rfl

theorem length_trimEnd_dropWhile_le (s : List UInt8) :
    (trimEnd (s.dropWhile isSpaceOctet)).length ≤ (trimEnd s).length := by
  by_cases hnil : trimEnd (s.dropWhile isSpaceOctet) = []
  · rw [hnil]
    exact Nat.zero_le _
  · have hsplit := trimEnd_append_of_ne (s.takeWhile isSpaceOctet) hnil
    rw [takeWhile_append_dropWhile] at hsplit
    rw [hsplit, length_append]
    exact Nat.le_add_left _ _

theorem trimEnd_dropWhile_iff (s : List UInt8) :
    trimEnd s = trimEnd (s.dropWhile isSpaceOctet) ↔
      (∀ c ∈ s, isSpaceOctet c = true) ∨ startsWith (fun c => !isSpaceOctet c) s = true := by
  cases s with
  | nil => simp
  | cons c s =>
    by_cases hc : isSpaceOctet c = true
    · rw [dropWhile_cons_of_pos hc]
      have hstart : startsWith (fun c => !isSpaceOctet c) (c :: s) = false := by
        simp [startsWith, hc]
      rw [hstart, forall_mem_cons]
      constructor
      · intro heq
        by_cases hs : trimEnd s = []
        · exact .inl ⟨hc, trimEnd_eq_nil_iff.mp hs⟩
        have hlength := congrArg List.length heq
        have hcons := trimEnd_append_of_ne [c] hs
        rw [singleton_append] at hcons
        rw [hcons, length_append, length_singleton] at hlength
        have hle := length_trimEnd_dropWhile_le s
        omega
      · rintro (⟨-, hs⟩ | hfalse)
        · rw [trimEnd_eq_nil_iff.mpr (forall_mem_cons.mpr ⟨hc, hs⟩), dropWhile_eq_nil_iff.mpr hs]
          rfl
        · cases hfalse
    · rw [dropWhile_cons_of_neg hc]
      simp [startsWith, hc]

theorem joined_cases (hmore : ∀ line ∈ more, startsWith isPurespaceOctet line = true) :
    joined more = [] ∨ ∃ c t, joined more = c :: t ∧ isSpaceOctet c = true := by
  cases more with
  | nil => exact .inl rfl
  | cons line more =>
    have hline := hmore line (.head _)
    obtain _ | ⟨c, line⟩ := line
    · cases hline
    obtain ⟨hspace, hcr, -⟩ := of_isPurespaceOctet (c := c) hline
    obtain ⟨t, ht⟩ := chopCR_cons hcr line
    refine .inr ⟨c, t ++ joined more, ?_, hspace⟩
    rw [joined, flatMap_cons, ht]
    rfl

theorem chopCR_append (s : List UInt8) (ht : t ≠ []) : chopCR (s ++ t) = s ++ chopCR t := by
  rw [chopCR, chopCR, getLast?_append_of_ne_nil s ht]
  split
  · exact dropLast_append_of_ne_nil ht
  · rfl

theorem valueSource_iff (first : List UInt8)
    (hmore : ∀ line ∈ more, startsWith isPurespaceOctet line = true) :
    trimEnd (valueSource first more) = value first more ↔ Joins first more := by
  have hsplit := takeWhile_append_dropWhile (p := isSpaceOctet) (l := first)
  rw [value_eq, valueSource, Joins]
  cases hline : first.dropWhile isSpaceOctet with
  | cons c line =>
    have hc : isSpaceOctet c = false := by
      have hhead := head?_dropWhile_not isSpaceOctet first
      rw [hline] at hhead
      simpa using hhead
    rw [hline] at hsplit
    have hcr : c ≠ mt '\r' := by
      rintro rfl
      cases hc
    obtain ⟨t, ht⟩ := chopCR_cons hcr line
    have hchop : chopCR first = first.takeWhile isSpaceOctet ++ c :: t := by
      rw [← ht, ← chopCR_append _ (cons_ne_nil c line), hsplit]
    have hdrop : (chopCR first ++ joined more).dropWhile isSpaceOctet = c :: t ++ joined more := by
      rw [hchop, append_assoc, dropWhile_append_of_pos, cons_append,
        dropWhile_cons_of_neg (by simp [hc])]
      exact fun d hd => (mem_takeWhile_imp hd)
    rw [if_neg (fun h => cons_ne_nil c line h.1), hdrop, ht]
    have hmem : c ∈ first := by
      rw [← hsplit]
      simp
    exact iff_of_true rfl (.inl ⟨c, hmem, hc⟩)
  | nil =>
    have hspaces : ∀ c ∈ first, isSpaceOctet c = true := dropWhile_eq_nil_iff.mp hline
    have htake : first.takeWhile isSpaceOctet = first := takeWhile_eq_self_iff.mpr hspaces
    have hfirst : ¬∃ c ∈ first, isSpaceOctet c = false := by
      rintro ⟨c, hc, hfalse⟩
      rw [hspaces c hc] at hfalse
      cases hfalse
    have hdrop : (chopCR first ++ joined more).dropWhile isSpaceOctet =
        (joined more).dropWhile isSpaceOctet :=
      dropWhile_append_of_pos fun c hc => hspaces c ((chopCR_isPrefix first).subset hc)
    rw [htake, hdrop]
    rcases joined_cases hmore with hnil | ⟨c, t, hcons, hc⟩
    · rw [hnil]
      refine iff_of_true ?_ (.inr (.inl (by simp)))
      split <;> rfl
    have hhead : (c :: t).dropWhile isSpaceOctet = t.dropWhile isSpaceOctet :=
      dropWhile_cons_of_pos hc
    rw [hcons, hhead, drop_one, tail_cons]
    by_cases hcr : first.getLast? = some (mt '\r')
    · rw [if_pos ⟨rfl, hcr⟩, trimEnd_dropWhile_iff]
      simp [hfirst, hcr, hc]
    rw [if_neg (fun h => hcr h.2)]
    have hiff := trimEnd_dropWhile_iff (c :: t)
    rw [hhead] at hiff
    have hnil : chopCR [] = [] := rfl
    rw [hnil, nil_append, hiff]
    simp [startsWith, hfirst, hcr, hc]

/-! ## The table -/

theorem values_insert (tab : Table) (name value n : List UInt8) :
    (tab.insert name value).values n = tab.values n ++ if name = n then [value] else [] := by
  by_cases hany : (tab.any fun pair => pair.1 = name) = true
  · rw [Table.insert, if_pos hany, Table.values, Table.values, find?_map]
    have hkey : ((fun pair => decide (pair.1 = n)) ∘ fun pair : List UInt8 × List (List UInt8) =>
        if pair.1 = name then (pair.1, pair.2 ++ [value]) else pair) =
          fun pair => decide (pair.1 = n) := by
      funext pair
      simp only [Function.comp_apply]
      split <;> rfl
    rw [hkey]
    cases hfind : tab.find? fun pair => pair.1 = n with
    | none =>
      have hne : name ≠ n := by
        rintro rfl
        obtain ⟨pair, hmem, hpair⟩ := any_eq_true.mp hany
        exact find?_eq_none.mp hfind pair hmem hpair
      rw [if_neg hne]
      rfl
    | some pair =>
      have hpair : pair.1 = n := by simpa using find?_some hfind
      by_cases hname : name = n
      · simp [hpair, hname]
      · have hne : ¬pair.1 = name := fun h => hname (h.symm.trans hpair)
        simp [hne, hname]
  · rw [Table.insert, if_neg hany, Table.values, Table.values, find?_append]
    by_cases hname : name = n
    · have hnone : (tab.find? fun pair => pair.1 = n) = none := by
        rw [find?_eq_none]
        intro pair hmem hpair
        rw [← hname] at hpair
        exact hany (any_eq_true.mpr ⟨pair, hmem, hpair⟩)
      simp [hnone, hname]
    · simp [hname]

theorem captureKeyHeader_same {re re' : Re} {values : List (List UInt8)}
    (h : captureKeyHeader re name values = .ok re') : re'.hdrtab = re.hdrtab := by
  have hsame := captureKeyHeader_hdrtab re re.hdrtab name values
  rw [h] at hsame
  have heq : (.ok re' : Except Errnum Re) = .ok { re' with hdrtab := re.hdrtab } := hsame
  rw [Except.ok.inj heq]

theorem values_insertFields {re re' : Re} {fields : List Field}
    (h : insertFields false re fields = .ok re') (n : List UInt8) :
    re'.hdrtab.values n = re.hdrtab.values n ++ (fields.filter fun f => f.1 = n).map Prod.snd := by
  induction fields generalizing re with
  | nil =>
    cases h
    exact (append_nil _).symm
  | cons field fields ih =>
    rw [insertFields] at h
    split at h
    · cases h
    rename_i re1 hfield
    have htab : re1.hdrtab = re.hdrtab.insert field.1 field.2 := captureKeyHeader_same hfield
    rw [ih h, htab, values_insert, filter_cons, append_assoc]
    by_cases hname : field.1 = n
    · simp [hname]
    · simp [hname]

theorem fields_ext {fs gs : List Field} (hnames : fs.map Prod.fst = gs.map Prod.fst)
    (h : ∀ n, (fs.filter fun f => f.1 = n).map Prod.snd =
      (gs.filter fun f => f.1 = n).map Prod.snd) : fs = gs := by
  induction fs generalizing gs with
  | nil => exact (map_eq_nil_iff.mp hnames.symm).symm
  | cons f fs ih =>
    obtain _ | ⟨g, gs⟩ := gs
    · cases hnames
    obtain ⟨hname, hnames'⟩ := List.cons.inj hnames
    have hvalue : f.2 = g.2 := by
      have hhead := h f.1
      rw [filter_cons_of_pos (by simp), filter_cons_of_pos (by simp [hname])] at hhead
      exact (List.cons.inj hhead).1
    have hfg : f = g := Prod.ext hname hvalue
    subst hfg
    rw [ih hnames']
    intro n
    have htail := h n
    by_cases hn : f.1 = n
    · rw [filter_cons_of_pos (by simpa using hn), filter_cons_of_pos (by simpa using hn)] at htail
      exact (List.cons.inj htail).2
    · rwa [filter_cons_of_neg (by simpa using hn), filter_cons_of_neg (by simpa using hn)] at htail

theorem readFields_iff {block : List Item} (h : WellFormed strict block) :
    block.flatMap Item.readFields = fields block ↔ ∀ item ∈ block, item.Joins := by
  induction block with
  | nil => simp [fields]
  | cons item block ih =>
    obtain ⟨hitem, -, hblock⟩ := h
    have hfields : fields (item :: block) = item.fields ++ fields block := flatMap_cons
    rw [hfields, flatMap_cons, forall_mem_cons, ← ih hblock]
    cases item with
    | field name first more =>
      have hiff := valueSource_iff first fun line hline => (hitem.2.2 line hline).2
      change (trimEnd name, _) :: _ = (trimEnd name, _) :: _ ↔ Joins first more ∧ _
      rw [← hiff, List.cons.injEq, Prod.mk.injEq]
      simp
    | bare line | blank spaces => exact ⟨fun hrest => ⟨trivial, hrest⟩, fun hrest => hrest.2⟩

theorem readFields_names (block : List Item) :
    (block.flatMap Item.readFields).map Prod.fst = (fields block).map Prod.fst := by
  induction block with
  | nil => rfl
  | cons item block ih =>
    have hfields : fields (item :: block) = item.fields ++ fields block := flatMap_cons
    rw [hfields, flatMap_cons, map_append, map_append, ih]
    cases item <;> rfl

/-! ## The whole header -/

def Leaves (opts : Options) (fuel : ℕ) (m : Mem) (re : Re) (raw : ℕ) (fields : List Field) : Prop :=
  ∃ r, InPlace.parseInitialLineAndHeaders opts fuel ⟨m, [], re⟩ raw = some (.ok r) ∧
    ∀ name, (r.hdrtab.values r.mem name).map (Slice.text r.mem) =
      (fields.filter fun f => f.1 = name).map Prod.snd

def Accepted (re : Re) (fields : List Field) : Prop := ∃ re', insertFields false re fields = .ok re'

variable {opts : Options} {re re₁ : Re} {m : Mem} {raw fuel : ℕ} {block : List Item}

theorem parse_block (hs : CStr m raw s) (hfuel : s.length < fuel)
    (hline : parseBeforeFields opts re.clear.1 s = .ok (re₁, text block))
    (hblock : WellFormed opts.strict block) :
    (∀ e, insertFields false re₁ (block.flatMap Item.readFields) = .error e →
      InPlace.parseInitialLineAndHeaders opts fuel ⟨m, [], re.clear.1⟩ raw = some (.error e)) ∧
    ∀ re', insertFields false re₁ (block.flatMap Item.readFields) = .ok re' →
      ∃ r, InPlace.parseInitialLineAndHeaders opts fuel ⟨m, [], re.clear.1⟩ raw = some (.ok r) ∧
        ∀ name, (r.hdrtab.values r.mem name).map (Slice.text r.mem) =
          ((block.flatMap Item.readFields).filter fun f => f.1 = name).map Prod.snd := by
  have hempty : re.clear.1.hdrtab = [] := by
    rw [Re.clear]
    split <;> rfl
  have hfun : Http.parseInitialLineAndHeaders opts re.clear.1 s =
      insertFields false re₁ (block.flatMap Item.readFields) := by
    rw [parseInitialLineAndHeaders_bind, hline]
    exact parseHeaders_of_readFields false re₁ (readFields_text hblock (lt_add_one _))
  obtain ⟨herror, hok⟩ := parseInitialLineAndHeaders_eq opts
    (r := ⟨m, [], re.clear.1⟩) hs hfuel (by rintro pair ⟨⟩) hempty
  rw [hfun] at herror hok
  refine ⟨herror, ?_⟩
  intro re' hre'
  obtain ⟨r, hrun, hwhole⟩ := hok re' hre'
  refine ⟨r, hrun, ?_⟩
  intro name
  have hvalues := values_insertFields hre' name
  rw [parseBeforeFields_hdrtab hline, hempty, ← hwhole] at hvalues
  rw [SliceTable.values_contents]
  exact hvalues

/-- The header is always read without a write to text that has not been read, and the table is as it
should be if and only if no field is refused and the lines of each value join. -/
theorem leaves_iff (hs : CStr m raw s) (hfuel : s.length < fuel)
    (hline : parseBeforeFields opts re.clear.1 s = .ok (re₁, text block))
    (hblock : WellFormed opts.strict block) :
    (∃ outcome,
      InPlace.parseInitialLineAndHeaders opts fuel ⟨m, [], re.clear.1⟩ raw = some outcome) ∧
    (Leaves opts fuel m re.clear.1 raw (fields block) ↔
      Accepted re₁ (fields block) ∧ ∀ item ∈ block, item.Joins) := by
  obtain ⟨herror, hok⟩ := parse_block hs hfuel hline hblock
  rw [← readFields_iff hblock, Leaves]
  cases hinsert : insertFields false re₁ (block.flatMap Item.readFields) with
  | error e =>
    have hrun := herror e hinsert
    refine ⟨⟨_, hrun⟩, ?_⟩
    constructor
    · rintro ⟨r, hr, -⟩
      rw [hrun] at hr
      cases hr
    · rintro ⟨⟨re', hre'⟩, heq⟩
      rw [heq, hre'] at hinsert
      cases hinsert
  | ok re' =>
    obtain ⟨r, hrun, hvalues⟩ := hok re' hinsert
    refine ⟨⟨_, hrun⟩, ?_⟩
    constructor
    · rintro ⟨r', hr', hfields⟩
      rw [hrun] at hr'
      cases hr'
      have heq : block.flatMap Item.readFields = fields block := by
        apply fields_ext (readFields_names block)
        intro name
        exact (hvalues name).symm.trans (hfields name)
      rw [heq] at hinsert
      exact ⟨⟨re', hinsert⟩, heq⟩
    · rintro ⟨-, heq⟩
      rw [heq] at hvalues
      exact ⟨r, hrun, hvalues⟩

def requested : Re where
  major := 1
  minor := 1
  verstr := octets "HTTP/1.1"
  line := some (.request (octets "GET") (octets "/") none)
  flags := ⟨false, false, true, false, false⟩
  contentLength := 0
  status := none
  hdrtab := []
  trailers := []
  content := []
  concb := none
  completed := false
  discarded := false

def request (block : List Item) : List UInt8 := octets "GET / HTTP/1.1\n" ++ text block

def foldedBlock : List Item :=
  [.field (octets "A") (octets " 1\r") [octets "\t2\r"], .bare (octets "b"),
    .field (octets "A") (octets "3") [], .blank [mt '\n']]

set_option maxRecDepth 2000 in
theorem leaves_iff_folded :
    Leaves defaultOptions 40 (Percent.cstrAt (request foldedBlock)) Re.init.clear.1 0
      [(octets "A", octets "1\t2"), (octets "A", octets "3")] := by
  have hline : parseBeforeFields defaultOptions Re.init.clear.1 (request foldedBlock) =
      .ok (requested, text foldedBlock) := rfl
  have hblock : WellFormed false foldedBlock := by decide +kernel
  have hs : CStr (Percent.cstrAt (request foldedBlock)) 0 (request foldedBlock) :=
    Percent.cstr_cstrAt (by decide +kernel)
  have hfuel : (request foldedBlock).length < 40 := by decide +kernel
  exact (leaves_iff hs hfuel hline hblock).2.mpr ⟨⟨_, rfl⟩, by decide +kernel⟩

set_option maxRecDepth 2000 in
/-- The field `X` has an empty first line, and the space of its second one is left. -/
theorem not_leaves : ¬∀ (opts : Options) (re re₁ : Re) (m : Mem) (raw fuel : ℕ)
    (s : List UInt8) (block : List Item), CStr m raw s → s.length < fuel →
    parseBeforeFields opts re.clear.1 s = .ok (re₁, text block) → WellFormed opts.strict block →
      Leaves opts fuel m re.clear.1 raw (fields block) := by
  intro hclaim
  let block : List Item := [.field (octets "X") [] [octets " Y"], .blank [mt '\n']]
  have hs : CStr (Percent.cstrAt (request block)) 0 (request block) :=
    Percent.cstr_cstrAt (by decide +kernel)
  have hfuel : (request block).length < 40 := by decide +kernel
  have hline : parseBeforeFields defaultOptions Re.init.clear.1 (request block) =
      .ok (requested, text block) := rfl
  have hblock : WellFormed false block := by decide +kernel
  obtain ⟨r, hr, hvalues⟩ := hclaim defaultOptions Re.init requested _ 0 40 _ block hs hfuel
    hline hblock
  obtain ⟨r', hr', hvalues'⟩ := (parse_block hs hfuel hline hblock).2 _ rfl
  rw [hr] at hr'
  cases hr'
  have hsame := (hvalues (octets "X")).symm.trans (hvalues' (octets "X"))
  revert hsame
  decide +kernel

end Qse.Http.FieldLines
