import Qse.Sed.Model
import Qse.Support.Ranges

/-!
# The lines of a command

The lines that a line selector selects are the ranges that its addresses describe, and the
`c` command leaves its text at the last line of each.
-/

open List

namespace Qse.Sed

open Qse.Support

section

variable {Rex : Type*}

/-- A selector that `qse_sed_comp` lets through. -/
structure Selector.WellFormed (extended : Bool) (sel : Selector Rex) : Prop where
  first : sel.a1 = .none ∨ sel.a1 = .dol ∨ (∃ lno, sel.a1 = .line lno) ∨ ∃ rex, sel.a1 = .rex rex
  none : sel.a1 = .none → sel.a2 = .none
  step : ∀ lno, sel.a2 = .step lno → 0 < lno ∧ ∃ first, sel.a1 = .line first
  relative : ∀ lno, sel.a2 = .relline lno ∨ sel.a2 = .rellinem lno → 0 < lno
  zero : sel.a1 = .line 0 → zeroAllowed extended sel.a2 = true

def Selector.twoAddresses (sel : Selector Rex) : Bool :=
  match sel.a1, sel.a2 with
  | .none, _ => false
  | _, .none => false
  | _, .step _ => false
  | _, _ => true

variable (execx : Execx Rex)

/-- The line matches the address, for a range that has begun at the line `start`. -/
def matched (start : ℕ) (adr : Adr Rex) (sed : Exec Rex) : Bool :=
  match matchA execx sed ⟨true, start, false⟩ adr with
  | .ok (n, _) => n
  | .error _ => false

/-- The last line of a range that has begun at the line `start`, for `+n` and `~n`. -/
def lastLine (start : ℕ) : Adr Rex → Option ℕ
  | .relline n => some (start + n)
  | .rellinem n => some ((start / n + 1) * n)
  | _ => none

def Selector.rule (sel : Selector Rex) : RangeRule (Exec Rex) where
  begins sed :=
    match sel.a1, sel.a2 with
    | .none, _ => true
    | .line lno, .step step => lno ≤ sed.num && (sed.num - lno) % step = 0
    | a1, _ => matched execx 0 a1 sed
  alone sed :=
    !sel.twoAddresses ||
      match sel.a2 with
      | .line lno => lno ≤ sed.num
      | _ => false
  ends first sed :=
    match lastLine first.num sel.a2 with
    | some lno => lno ≤ sed.num
    | none => matched execx first.num sel.a2 sed
  past sed :=
    match sel.a2 with
    | .line lno => lno < sed.num
    | _ => false

def Selector.spans (extended : Bool) (sel : Selector Rex) (seds : List (Exec Rex)) :
    List (Span (Exec Rex)) :=
  if sel.fromZero extended then
    (sel.rule execx).openSpans (fun sed => matched execx 0 sel.a2 sed) seds
  else (sel.rule execx).spans seds

/-- Where a range begins, the number of its last line fits in a `qse_size_t`. -/
def Selector.EndsFit (extended : Bool) (sel : Selector Rex) (seds : List (Exec Rex)) : Prop :=
  ∀ first later ended, .range (first :: later) ended ∈ sel.spans execx extended seds →
    ∀ lno ∈ lastLine first.num sel.a2, lno < 2 ^ 64

/-! ## The lines that are matched -/

def Selector.wrapping (sel : Selector Rex) : RangeRule (Exec Rex) :=
  { sel.rule execx with ends := fun first sed => matched execx first.num sel.a2 sed }

def openEnd (sel : Selector Rex) (state : AdrState) : Option (Exec Rex → Bool) :=
  if state.a1Matched then some fun sed => matched execx state.a1MatchLine sel.a2 sed else none

variable {adr : Adr Rex} {lno : ℕ} {state state' : AdrState} {sed sed' : Exec Rex}
  {n extended : Bool} {sel : Selector Rex} {seds : List (Exec Rex)}

theorem matched_rel (start : ℕ) (hpos : ∀ lno, adr = .rellinem lno → 0 < lno) (sed : Exec Rex)
    (hlast : lastLine start adr = some lno) :
    matched execx start adr sed = decide (lno % 2 ^ 64 ≤ sed.num) := by
  cases adr with
  | relline n =>
    cases hlast
    rfl
  | rellinem n =>
    cases hlast
    have hpos' := hpos n rfl
    have hnext : start + n - start % n = (start / n + 1) * n := by
      have hdiv := Nat.div_add_mod start n
      rw [Nat.add_mul, Nat.one_mul, Nat.mul_comm]
      omega
    rw [matched, matchA, hnext]
  | _ => cases hlast

theorem matchA_congr (sed : Exec Rex) (h : state.a1MatchLine = state'.a1MatchLine) (adr : Adr Rex) :
    matchA execx sed state adr = matchA execx sed state' adr := by
  cases adr <;> simp only [matchA, h]

theorem matched_of_matchA (h : matchA execx sed state adr = .ok (n, sed')) :
    matched execx state.a1MatchLine adr sed = n := by
  have hsame : matchA execx sed ⟨true, state.a1MatchLine, false⟩ adr = .ok (n, sed') := by
    rw [← h]
    exact matchA_congr execx sed rfl adr
  rw [matched, hsame]

/-- Only `+n` and `~n` depend on where the range has begun. -/
theorem matched_first (start : ℕ) (sed : Exec Rex)
    (hfirst : adr = .none ∨ adr = .dol ∨ (∃ lno, adr = .line lno) ∨ ∃ rex, adr = .rex rex) :
    matched execx start adr sed = matched execx 0 adr sed := by
  rcases hfirst with rfl | rfl | ⟨lno, rfl⟩ | ⟨rex, rfl⟩ <;> rfl

theorem num_matchA (h : matchA execx sed state adr = .ok (n, sed')) : sed'.num = sed.num := by
  cases adr with
  | rex rex =>
    simp only [matchA] at h
    split at h
    · cases h
    rename_i rex' sed1 hresolve
    have hnum : sed1.num = sed.num := by
      unfold resolveRex at hresolve
      split at hresolve
      · cases hresolve
        rfl
      · split at hresolve <;> cases hresolve
        rfl
    split at h
    · cases h
    · cases h
      exact hnum
  | dol =>
    have hread : (readChar sed).2.num = sed.num := by
      unfold readChar
      split
      · split <;> rfl
      · rfl
      · rfl
    simp only [matchA] at h
    split at h
    · cases h
      rfl
    split at h
    all_goals
      rename_i sed1 hread'
      rw [hread'] at hread
      cases h
      exact hread
  | _ =>
    cases h
    rfl

theorem past_line (h : sel.a2 = .line lno) (sed : Exec Rex) :
    (sel.wrapping execx).past sed = decide (lno < sed.num) := by
  simp only [Selector.wrapping, Selector.rule, h]

theorem past_other {sel : Selector Rex} (h : ∀ lno, sel.a2 ≠ .line lno) (sed : Exec Rex) :
    (sel.wrapping execx).past sed = false := by
  unfold Selector.wrapping Selector.rule
  cases ha2 : sel.a2 with
  | line lno => exact absurd ha2 (h lno)
  | _ => rfl

theorem matchSecond_track (hmatched : state.a1Matched = true) (hready : state.cReady = false)
    (h : matchSecond execx sel sed state = .ok (n, state', sed')) (seds : List (Exec Rex)) :
    (sel.wrapping execx).track (openEnd execx sel state) (sed :: seds) =
      (n, state'.cReady) :: (sel.wrapping execx).track (openEnd execx sel state') seds := by
  have hopen : openEnd execx sel state =
      some fun sed => matched execx state.a1MatchLine sel.a2 sed := if_pos hmatched
  rw [hopen]
  unfold matchSecond at h
  split at h
  · cases h
  · rename_i sed1 ha2
    cases h
    have hends := matched_of_matchA execx ha2
    have hpast : ¬(sel.wrapping execx).past sed = true := by
      cases ha2' : sel.a2 with
      | line lno =>
        rw [ha2'] at ha2
        simp only [matchA, Except.ok.injEq, Prod.mk.injEq, decide_eq_true_eq] at ha2
        have hnum : sed.num = lno := ha2.1
        simp [past_line execx ha2', hnum]
      | _ => simp [@past_other _ execx sel (by simp [ha2'])]
    rw [RangeRule.track, if_neg hpast, if_pos hends]
    rfl
  · rename_i sed1 ha2
    have hends := matched_of_matchA execx ha2
    have hnum := num_matchA execx ha2
    have hnot : ¬matched execx state.a1MatchLine sel.a2 sed = true := by simp [hends]
    split at h
    · rename_i lno ha2'
      have hpast := past_line execx ha2' sed
      rw [hnum] at h
      split at h
      · rename_i hlt
        cases h
        rw [RangeRule.track, if_pos (by rw [hpast]; exact decide_eq_true hlt), hready]
        rfl
      · rename_i hlt
        cases h
        rw [RangeRule.track, if_neg (by rw [hpast]; simpa using hlt), if_neg hnot, hready, hopen]
    · rename_i hline
      cases h
      have hpast : ¬(sel.wrapping execx).past sed = true := by
        simp [past_other execx fun lno h => hline lno h]
      rw [RangeRule.track, if_neg hpast, if_neg hnot, hready, hopen]

theorem begins_of_twoAddresses (htwo : sel.twoAddresses = true)
    (sed : Exec Rex) : (sel.wrapping execx).begins sed = matched execx 0 sel.a1 sed := by
  unfold Selector.twoAddresses at htwo
  unfold Selector.wrapping Selector.rule
  simp only
  split at htwo <;> simp_all

theorem alone_line (htwo : sel.twoAddresses = true) (h : sel.a2 = .line lno) (sed : Exec Rex) :
    (sel.wrapping execx).alone sed = decide (lno ≤ sed.num) := by
  simp only [Selector.wrapping, Selector.rule, h, htwo, Bool.not_true, Bool.false_or]

theorem alone_other (htwo : sel.twoAddresses = true) (h : ∀ lno, sel.a2 ≠ .line lno)
    (sed : Exec Rex) : (sel.wrapping execx).alone sed = false := by
  unfold Selector.wrapping Selector.rule
  cases ha2 : sel.a2 with
  | line lno => exact absurd ha2 (h lno)
  | _ => simp [htwo]

theorem matchFirst_track (hwf : sel.WellFormed extended) (htwo : sel.twoAddresses = true)
    (hmatched : state.a1Matched = false) (hready : state.cReady = false)
    (h : matchFirst execx sel sed state = .ok (n, state', sed')) (seds : List (Exec Rex)) :
    (sel.wrapping execx).track (openEnd execx sel state) (sed :: seds) =
      (n, state'.cReady) :: (sel.wrapping execx).track (openEnd execx sel state') seds := by
  have hopen : openEnd execx sel state = none := by simp [openEnd, hmatched]
  have hbegins : ∀ {n sed'}, matchA execx sed state sel.a1 = .ok (n, sed') →
      (sel.wrapping execx).begins sed = n := by
    intro n sed' ha1
    rw [begins_of_twoAddresses execx htwo, ← matched_first execx state.a1MatchLine sed hwf.first]
    exact matched_of_matchA execx ha1
  rw [hopen]
  unfold matchFirst at h
  split at h
  · cases h
  · rename_i sed1 ha1
    cases h
    rw [RangeRule.track, if_neg (by simp [hbegins ha1]), hready, hopen]
  · rename_i sed1 ha1
    have hnum := num_matchA execx ha1
    simp only at h
    rw [RangeRule.track, if_pos (hbegins ha1)]
    split at h
    · rename_i lno ha2
      rw [alone_line execx htwo ha2]
      rw [hnum] at h
      split at h
      · rename_i hle
        cases h
        rw [if_pos (decide_eq_true hle), openEnd, hmatched]
        rfl
      · rename_i hle
        cases h
        rw [if_neg (by simpa using hle), hready]
        rfl
    · rename_i hline
      cases h
      rw [if_neg (by simp [alone_other execx htwo fun lno h => hline lno h]), hready, hnum]
      rfl

theorem matchAddress_twoAddresses (htwo : sel.twoAddresses = true) (sed : Exec Rex)
    (state : AdrState) :
    matchAddress execx sel sed state =
      if state.a1Matched then matchSecond execx sel sed { state with cReady := false }
      else matchFirst execx sel sed { state with cReady := false } := by
  unfold Selector.twoAddresses at htwo
  unfold matchAddress
  simp only
  split at htwo <;> simp_all

theorem reach_track (hwf : sel.WellFormed extended) (htwo : sel.twoAddresses = true)
    {results : List (Bool × AdrState)} (h : reach execx sel state seds = .ok results) :
    results.map (fun result => (result.1 != sel.negated, result.2.cReady)) =
      (sel.wrapping execx).track (openEnd execx sel state) seds := by
  induction seds generalizing state results with
  | nil =>
    cases h
    rfl
  | cons sed seds ih =>
    rw [reach] at h
    cases hmatch : matchAddress execx sel sed state with
    | error e =>
      rw [hmatch] at h
      cases h
    | ok found =>
      obtain ⟨n, state', sed'⟩ := found
      rw [hmatch] at h
      simp only at h
      cases hmore : reach execx sel state' seds with
      | error e =>
        rw [hmore] at h
        cases h
      | ok more =>
        rw [hmore] at h
        cases h
        have hopen : openEnd execx sel { state with cReady := false } =
          openEnd execx sel state := rfl
        have hn : ((n != sel.negated) != sel.negated) = n := by
          cases n <;> cases sel.negated <;> rfl
        rw [map_cons, ih hmore, ← hopen, hn]
        rw [matchAddress_twoAddresses execx htwo] at hmatch
        split at hmatch
        · rename_i hmatched
          have hmatched' : ({ state with cReady := false } : AdrState).a1Matched = true :=
            hmatched
          exact (matchSecond_track execx hmatched' rfl hmatch seds).symm
        · rename_i hmatched
          have hmatched' : ({ state with cReady := false } : AdrState).a1Matched = false := by
            simpa using hmatched
          exact (matchFirst_track execx hwf htwo hmatched' rfl hmatch seds).symm

/-! ## What is selected and what is printed -/

theorem ends_wrapping (hwf : sel.WellFormed extended) {first : Exec Rex}
    (hfits : ∀ lno ∈ lastLine first.num sel.a2, lno < 2 ^ 64) :
    (sel.wrapping execx).ends first = (sel.rule execx).ends first := by
  funext sed
  simp only [Selector.wrapping, Selector.rule]
  cases hlast : lastLine first.num sel.a2 with
  | none => rfl
  | some lno =>
    rw [matched_rel execx first.num (fun lno h => hwf.relative lno (.inr h)) sed hlast,
      Nat.mod_eq_of_lt (hfits lno hlast)]

theorem lastLine_of_fromZero (h : sel.fromZero extended = true)
    (start : ℕ) : lastLine start sel.a2 = none := by
  unfold Selector.fromZero at h
  split at h
  · rename_i ha2
    rw [ha2]
    rfl
  · cases h

theorem twoAddresses_of_fromZero (h : sel.fromZero extended = true) : sel.twoAddresses = true := by
  unfold Selector.fromZero at h
  split at h
  · rename_i ha1 ha2
    rw [Selector.twoAddresses, ha1, ha2]
  · cases h

theorem track_spans (hwf : sel.WellFormed extended) (hfit : sel.EndsFit execx extended seds) :
    (Resumes (sel.spans execx extended seds) →
      (sel.wrapping execx).track (openEnd execx sel (.init extended sel)) seds =
        (sel.spans execx extended seds).flatMap Span.tracked) ∧
    (((sel.wrapping execx).track (openEnd execx sel (.init extended sel)) seds).map Prod.fst =
        ((sel.spans execx extended seds).flatMap Span.tracked).map Prod.fst →
      Resumes (sel.spans execx extended seds)) := by
  cases hzero : sel.fromZero extended with
  | true =>
    have hopen : openEnd execx sel (.init extended sel) =
        some fun sed => matched execx 0 sel.a2 sed := if_pos hzero
    have hsame : sel.wrapping execx = sel.rule execx := by
      have hends : (sel.wrapping execx).ends = (sel.rule execx).ends := by
        funext first
        refine ends_wrapping execx hwf fun lno h => ?_
        rw [lastLine_of_fromZero hzero] at h
        cases h
      rw [Selector.wrapping] at hends ⊢
      simp only at hends
      rw [hends]
    rw [Selector.spans, if_pos hzero, hopen, hsame]
    exact (sel.rule execx).track_open _ seds
  | false =>
    have hnot : ¬sel.fromZero extended = true := by simp [hzero]
    have hopen : openEnd execx sel (.init extended sel) = none := if_neg hnot
    have hsame : (sel.wrapping execx).spans seds = (sel.rule execx).spans seds := by
      refine @RangeRule.spans_congr _ (sel.rule execx) (sel.wrapping execx) rfl rfl rfl seds
        fun first later ended hmem => ?_
      refine ends_wrapping execx hwf (hfit first later ended ?_)
      rw [Selector.spans, if_neg hnot]
      exact hmem
    rw [Selector.spans, if_neg hnot, hopen, ← hsame]
    exact (sel.wrapping execx).track_none seds

def Selector.marks (extended : Bool) (sel : Selector Rex) (seds : List (Exec Rex)) : List Mark :=
  (sel.spans execx extended seds).flatMap Span.marks

def Selector.applies (sel : Selector Rex) (mark : Mark) : Bool := (mark != .outside) != sel.negated

/-- The pattern space that `c` leaves at a line that it is applied to: its text at the last
line of a range, and at each line if the selector is negated. -/
def Selector.wanted (sel : Selector Rex) (text : List Char) (mark : Mark) : Option (List Char) :=
  if sel.applies mark then some (if sel.negated || mark == .last then text else []) else none

def changed (text : List Char) (result : Bool × AdrState) : Option (List Char) :=
  if result.1 then some (change text result.2) else none

/-- What `c` leaves, by what is kept track of. -/
def Selector.left (sel : Selector Rex) (text : List Char) (state : Bool × Bool) :
    Option (List Char) :=
  if state.1 != sel.negated then some (if state.2 then text else []) else none

theorem matchA_alone {ready : AdrState} {sed sed' : Exec Rex} {a1 : Adr Rex} {state' : AdrState}
    {n : Bool} (hfirst : a1 = .none ∨ a1 = .dol ∨ (∃ lno, a1 = .line lno) ∨ ∃ rex, a1 = .rex rex)
    (hread : (match matchA execx sed ready a1 with
      | .error e => .error e
      | .ok (n, sed) => .ok (n, ready, sed)) = Except.ok (n, state', sed')) :
    n = matched execx 0 a1 sed ∧ state' = ready := by
  cases ha1 : matchA execx sed ready a1 with
  | error e =>
    rw [ha1] at hread
    cases hread
  | ok found =>
    rw [ha1] at hread
    cases hread
    rw [← matched_first execx ready.a1MatchLine sed hfirst]
    exact ⟨(matched_of_matchA execx ha1).symm, rfl⟩

theorem matchAddress_one (hwf : sel.WellFormed extended) (hone : sel.twoAddresses = false)
    (h : matchAddress execx sel sed state = .ok (n, state', sed')) :
    n = (sel.rule execx).begins sed ∧ state'.cReady = true := by
  obtain ⟨a1, a2, negated⟩ := sel
  cases a1 with
  | none =>
    cases h
    exact ⟨rfl, rfl⟩
  | line lno =>
    cases a2 with
    | none =>
      obtain ⟨hn, hstate⟩ := matchA_alone execx hwf.first h
      exact ⟨hn, by rw [hstate]⟩
    | step step =>
      simp only [matchAddress] at h
      simp only [Selector.rule]
      split at h
      · rename_i hlt
        cases h
        simp [Nat.not_le.mpr hlt]
      · rename_i hle
        cases h
        simp [Nat.not_lt.mp hle]
    | _ => cases hone
  | step lno | relline lno | rellinem lno =>
    rcases hwf.first with h | h | ⟨_, h⟩ | ⟨_, h⟩ <;> cases h
  | _ =>
    cases a2 with
    | none =>
      obtain ⟨hn, hstate⟩ := matchA_alone execx hwf.first h
      exact ⟨hn, by rw [hstate]⟩
    | step step =>
      obtain ⟨-, first, hfirst⟩ := hwf.step step rfl
      cases hfirst
    | _ => cases hone

theorem reach_one (hwf : sel.WellFormed extended) (hone : sel.twoAddresses = false)
    {results : List (Bool × AdrState)} (h : reach execx sel state seds = .ok results)
    (text : List Char) :
    results.map Prod.fst = seds.map (fun sed => (sel.rule execx).begins sed != sel.negated) ∧
      results.map (changed text) = seds.map fun sed =>
        if (sel.rule execx).begins sed != sel.negated then some text else none := by
  induction seds generalizing state results with
  | nil =>
    cases h
    exact ⟨rfl, rfl⟩
  | cons sed seds ih =>
    rw [reach] at h
    cases hmatch : matchAddress execx sel sed state with
    | error e =>
      rw [hmatch] at h
      cases h
    | ok found =>
      obtain ⟨n, state', sed'⟩ := found
      rw [hmatch] at h
      simp only at h
      cases hmore : reach execx sel state' seds with
      | error e =>
        rw [hmore] at h
        cases h
      | ok more =>
        rw [hmore] at h
        cases h
        obtain ⟨hn, hready⟩ := matchAddress_one execx hwf hone hmatch
        obtain ⟨hfst, hchanged⟩ := ih hmore
        simp only [map_cons, hfst, hchanged, changed, change, hready, hn, if_true]
        exact ⟨trivial, trivial⟩

theorem map_wanted_range (sel : Selector Rex) {as : List (Exec Rex)} (hne : as ≠ [])
    (ended : Bool) :
    (∀ text, ((rangeMarks as).map (tracked ended)).map (sel.left text) =
        (rangeMarks as).map (sel.wanted text)) ↔ (sel.negated = false → ended = true) := by
  constructor
  · intro h hneg
    have hlast : .last ∈ rangeMarks as := by
      induction as with
      | nil => exact absurd rfl hne
      | cons a as ih =>
        cases as with
        | nil => exact mem_singleton.mpr rfl
        | cons b bs => exact .tail _ (ih (cons_ne_nil _ _) fun text => by
          have htail := congrArg List.tail (h text)
          exact htail)
    have htext := h ['c']
    rw [map_map] at htext
    have hsame := map_inj_left.mp htext _ hlast
    cases ended with
    | true => rfl
    | false => simp [Selector.left, Selector.wanted, Selector.applies, tracked, hneg] at hsame
  · intro h text
    rw [map_map]
    refine map_congr_left fun mark hmem => ?_
    have hmark := mem_rangeMarks hmem
    cases hneg : sel.negated with
    | true =>
      cases mark <;> simp_all [Selector.left, Selector.wanted, Selector.applies, tracked]
    | false =>
      have hended := h hneg
      cases mark <;> simp_all [Selector.left, Selector.wanted, Selector.applies, tracked]

theorem ne_nil_of_mem_spans {later : List (Exec Rex)} {ended : Bool}
    (h : .range later ended ∈ sel.spans execx extended seds) : later ≠ [] := by
  rw [Selector.spans] at h
  split at h
  · rename_i hzero
    refine (sel.rule execx).ne_nil_of_range_mem_open (fun sed => ?_) h
    unfold Selector.fromZero at hzero
    split at hzero
    · rename_i ha2
      simp only [Selector.rule, ha2]
    · cases hzero
  · exact (sel.rule execx).ne_nil_of_range_mem h

theorem flatMap_eq_flatMap_iff {α β : Type*} {f g : α → List β} {l : List α}
    (hlen : ∀ x ∈ l, (f x).length = (g x).length) :
    l.flatMap f = l.flatMap g ↔ ∀ x ∈ l, f x = g x := by
  induction l with
  | nil => simp
  | cons x l ih =>
    obtain ⟨hx, hl⟩ := forall_mem_cons.mp hlen
    rw [flatMap_cons, flatMap_cons, forall_mem_cons, ← ih hl]
    exact ⟨fun h => append_inj h hx, fun h => by rw [h.1, h.2]⟩

/-- What `c` leaves at the lines of a span is right if and only if the span is a range with
an end, or a range that `c` is not applied to. -/
theorem map_wanted_span (sel : Selector Rex) {span : Span (Exec Rex)}
    (hne : ∀ later ended, span = .range later ended → later ≠ []) :
    (∀ text, span.tracked.map (sel.left text) = span.marks.map (sel.wanted text)) ↔
      if sel.negated then span.isRange = true else span.broken = false := by
  cases span with
  | outside sed =>
    cases hneg : sel.negated with
    | true =>
      simp only [Span.tracked, Span.marks, Span.isRange, if_true]
      refine iff_of_false (fun h => ?_) (by decide)
      have hsame := h ['c']
      simp [Selector.left, Selector.wanted, Selector.applies, hneg] at hsame
    | false =>
      simp [Span.tracked, Span.marks, Span.broken, Selector.left, Selector.wanted,
        Selector.applies, hneg]
  | range later ended =>
    rw [Span.tracked, Span.marks, map_wanted_range sel (hne later ended rfl)]
    cases hneg : sel.negated <;> simp [Span.isRange, Span.broken]

/-- The lines that a command is applied to, and what `c` leaves at each, are those that the
ranges of its addresses say, if and only if no range begins right behind a range without an
end, and for `c` with two addresses every range has an end or, if the selector is negated,
every line is in a range. -/
theorem selected_and_changed_iff {extended : Bool} {sel : Selector Rex}
    (hwf : sel.WellFormed extended) {seds : List (Exec Rex)} {results : List (Bool × AdrState)}
    (hrun : reach execx sel (.init extended sel) seds = .ok results)
    (hfit : sel.EndsFit execx extended seds) :
    (results.map Prod.fst = (sel.marks execx extended seds).map sel.applies ↔
      Resumes (sel.spans execx extended seds)) ∧
    (results.map Prod.fst = (sel.marks execx extended seds).map sel.applies ∧
        (∀ text, results.map (changed text) =
          (sel.marks execx extended seds).map (sel.wanted text)) ↔
      Resumes (sel.spans execx extended seds) ∧
        (sel.twoAddresses = true → ∀ span ∈ sel.spans execx extended seds,
          if sel.negated then span.isRange = true else span.broken = false)) := by
  cases htwo : sel.twoAddresses with
  | false =>
    have hzero : ¬sel.fromZero extended = true := fun h => by
      rw [twoAddresses_of_fromZero h] at htwo
      cases htwo
    have halone : ∀ sed, (sel.rule execx).alone sed = true := fun sed => by
      simp [Selector.rule, htwo]
    have hresumes : Resumes (sel.spans execx extended seds) := by
      rw [Selector.spans, if_neg hzero]
      exact resumes_of_not_broken fun span => (sel.rule execx).not_broken_of_alone halone
    have hmarks : sel.marks execx extended seds =
        seds.map fun sed => if (sel.rule execx).begins sed then .last else .outside := by
      rw [Selector.marks, Selector.spans, if_neg hzero]
      exact (sel.rule execx).marks_of_alone halone seds
    have hselected : results.map Prod.fst = (sel.marks execx extended seds).map sel.applies := by
      rw [(reach_one execx hwf htwo hrun []).1, hmarks, map_map]
      refine map_congr_left fun sed _ => ?_
      rw [Function.comp_apply, Selector.applies]
      cases (sel.rule execx).begins sed <;> rfl
    have hchanged : ∀ text, results.map (changed text) =
        (sel.marks execx extended seds).map (sel.wanted text) := by
      intro text
      rw [(reach_one execx hwf htwo hrun text).2, hmarks, map_map]
      refine map_congr_left fun sed _ => ?_
      cases hbegins : (sel.rule execx).begins sed <;> cases hneg : sel.negated <;>
        simp [Selector.wanted, Selector.applies, hbegins, hneg]
    exact ⟨iff_of_true hselected hresumes,
      iff_of_true ⟨hselected, hchanged⟩ ⟨hresumes, fun h => nomatch h⟩⟩
  | true =>
    obtain ⟨htracks, honly⟩ := track_spans execx hwf hfit
    have htrack := reach_track execx hwf htwo hrun
    have hneg : ∀ x : Bool, ((x != sel.negated) != sel.negated) = x := by
      intro x
      cases x <;> cases sel.negated <;> rfl
    have hfst : ((sel.spans execx extended seds).flatMap Span.tracked).map Prod.fst =
        (sel.marks execx extended seds).map (· != .outside) := by
      rw [Selector.marks, map_flatMap, map_flatMap]
      exact flatMap_congr fun span _ => map_fst_tracked span
    have hresults : results.map (fun result => result.1 != sel.negated) =
        ((sel.wrapping execx).track (openEnd execx sel (.init extended sel)) seds).map
          Prod.fst := by
      rw [← htrack, map_map]
      rfl
    have hselected : results.map Prod.fst = (sel.marks execx extended seds).map sel.applies ↔
        Resumes (sel.spans execx extended seds) := by
      constructor
      · intro h
        refine honly ?_
        rw [hfst, ← hresults]
        have happlied := congrArg (List.map (· != sel.negated)) h
        rw [map_map, map_map] at happlied
        refine happlied.trans (map_congr_left fun mark _ => ?_)
        exact hneg _
      · intro h
        rw [htracks h, hfst] at hresults
        have happlied := congrArg (List.map (· != sel.negated)) hresults
        rw [map_map, map_map] at happlied
        refine (map_congr_left fun result _ => ?_).trans happlied
        exact (hneg _).symm
    refine ⟨hselected, ?_⟩
    rw [hselected]
    refine and_congr_right fun hresumes => ?_
    have hleft : ∀ text, results.map (changed text) =
        (sel.spans execx extended seds).flatMap fun span =>
          span.tracked.map (sel.left text) := by
      intro text
      rw [← map_flatMap, ← htracks hresumes, ← htrack, map_map]
      refine map_congr_left fun result _ => ?_
      simp only [changed, change, Selector.left, Function.comp_apply, hneg]
    have hwanted : ∀ text, (sel.marks execx extended seds).map (sel.wanted text) =
        (sel.spans execx extended seds).flatMap fun span =>
          span.marks.map (sel.wanted text) := fun text => map_flatMap
    have hlen : ∀ text, ∀ span ∈ sel.spans execx extended seds,
        (span.tracked.map (sel.left text)).length = (span.marks.map (sel.wanted text)).length := by
      intro text span _
      cases span <;> simp [Span.tracked, Span.marks]
    simp only [hleft, hwanted, forall_const]
    have hpieces := fun text => flatMap_eq_flatMap_iff (hlen text)
    simp only [hpieces]
    have hspan := fun span (hmem : span ∈ sel.spans execx extended seds) =>
      @map_wanted_span _ sel span fun later ended hrange =>
        ne_nil_of_mem_spans execx (hrange ▸ hmem)
    exact ⟨fun h span hmem => (hspan span hmem).mp fun text => h text span hmem,
      fun h text span hmem => (hspan span hmem).mpr (h span hmem) text⟩

end

def emptyLine (num : ℕ) : Exec Empty where
  line := []
  num := num
  xbuf := .empty
  rest := []
  lastRex := none
  substDone := false
  out := []
  files := []

def noExecx : Execx Empty := fun rex _ _ => nomatch rex

theorem wellFormed_lines (negated : Bool) :
    (Selector.mk (.line 2) (.line 4) negated : Selector Empty).WellFormed false where
  first := .inr (.inr (.inl ⟨2, rfl⟩))
  none := by simp
  step := by simp
  relative := by simp
  zero := by simp

/-- `2,4c` on lines of which the command is not reached with the third one. -/
theorem selected_and_changed_iff_skipped :
    ((reach noExecx (.mk (.line 2) (.line 4) false) ⟨false, 0, false⟩
      [emptyLine 1, emptyLine 2, emptyLine 4, emptyLine 5]).toOption.map
        (List.map (changed ['x']))) = some [none, some [], some ['x'], none] := by
  have hspans : (Selector.mk (.line 2) (.line 4) false : Selector Empty).spans noExecx false
      [emptyLine 1, emptyLine 2, emptyLine 4, emptyLine 5] =
        [.outside (emptyLine 1), .range [emptyLine 2, emptyLine 4] true,
          .outside (emptyLine 5)] := by
    simp [Selector.spans, Selector.fromZero, RangeRule.spans, Selector.rule, takeRange, matched,
      matchA, emptyLine, lastLine, Selector.twoAddresses]
  obtain ⟨results, hrun⟩ : ∃ results, reach noExecx (.mk (.line 2) (.line 4) false)
      ⟨false, 0, false⟩ [emptyLine 1, emptyLine 2, emptyLine 4, emptyLine 5] = .ok results :=
    ⟨_, rfl⟩
  have hiff := selected_and_changed_iff noExecx (wellFormed_lines false) hrun fun _ _ _ _ _ h => by
    cases h
  rw [hrun]
  have hchanged := (hiff.2.mpr ⟨by rw [hspans]; simp [Resumes, Span.broken], fun _ => by
    rw [hspans]
    simp [Span.broken]⟩).2 ['x']
  rw [Selector.marks, hspans] at hchanged
  exact congrArg some hchanged

/-- `2,4!c` deletes the first line and leaves no text for it. -/
theorem not_changed_negated : ¬∀ (sel : Selector Empty) (seds : List (Exec Empty))
    (results : List (Bool × AdrState)), sel.WellFormed false →
      reach noExecx sel (.init false sel) seds = .ok results → ∀ text,
        results.map (changed text) = (sel.marks noExecx false seds).map (sel.wanted text) := by
  intro hclaim
  have h := hclaim (.mk (.line 2) (.line 4) true) [emptyLine 1] _ (wellFormed_lines true) rfl ['x']
  simp [Selector.marks, Selector.spans, Selector.fromZero, RangeRule.spans, Selector.rule, matched,
    matchA, emptyLine, Span.marks, Selector.wanted, Selector.applies, changed, change] at h

end Qse.Sed
