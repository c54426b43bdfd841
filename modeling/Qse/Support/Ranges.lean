import Mathlib.Data.List.Basic

/-!
# Ranges of a sequence

A range begins at an element that begins one. It goes on to the first later element that ends it, or
up to an element that lies past it.
-/

open List

namespace Qse.Support

structure RangeRule (α : Type*) where
  begins : α → Bool
  alone : α → Bool
  ends : α → α → Bool
  past : α → Bool

inductive Span (α : Type*) where
  | outside (a : α)
  | range (as : List α) (ended : Bool)

inductive Mark where
  | outside
  | inside
  | last
deriving DecidableEq

section

variable {α : Type*}

def takeRange (ends past : α → Bool) : List α → List α × Bool × List α
  | [] => ([], false, [])
  | a :: as =>
    if past a then ([], false, a :: as)
    else if ends a then ([a], true, as)
    else
      let more := takeRange ends past as
      (a :: more.1, more.2)

theorem length_takeRange_le (ends past : α → Bool) (as : List α) :
    (takeRange ends past as).2.2.length ≤ as.length := by
  induction as with
  | nil => exact Nat.le_refl _
  | cons a as ih =>
    rw [takeRange]
    split
    · exact Nat.le_refl _
    · split
      · exact Nat.le_succ _
      · exact Nat.le_succ_of_le ih

namespace RangeRule

variable (rule : RangeRule α)

def spans : List α → List (Span α)
  | [] => []
  | a :: as =>
    if rule.begins a then
      if rule.alone a then .range [a] true :: spans as
      else
        .range (a :: (takeRange (rule.ends a) rule.past as).1)
            (takeRange (rule.ends a) rule.past as).2.1 ::
          spans (takeRange (rule.ends a) rule.past as).2.2
    else .outside a :: spans as
termination_by as => as.length
decreasing_by
  all_goals simp only [length_cons]
  all_goals first
    | omega
    | exact Nat.lt_succ_of_le (length_takeRange_le _ _ _)

end RangeRule

def rangeMarks : List α → List Mark
  | [] => []
  | [_] => [.last]
  | _ :: as => .inside :: rangeMarks as

namespace Span

def marks : Span α → List Mark
  | .outside _ => [.outside]
  | .range as _ => rangeMarks as

def broken : Span α → Bool
  | .outside _ => false
  | .range _ ended => !ended

def isRange : Span α → Bool
  | .outside _ => false
  | .range _ _ => true

end Span

/-- No range begins right behind one that has no end. -/
def Resumes : List (Span α) → Prop :=
  List.IsChain fun span next => span.broken = true → next.isRange = false

/-! ## Keeping track of ranges -/

def tracked (ended : Bool) (mark : Mark) : Bool × Bool :=
  (mark != .outside, mark == .last && ended)

def Span.tracked : Span α → List (Bool × Bool)
  | .outside _ => [(false, false)]
  | .range as ended => (rangeMarks as).map (Support.tracked ended)

variable {as later : List α} {ends : α → Bool} {ended : Bool}

theorem mem_rangeMarks {mark : Mark} (h : mark ∈ rangeMarks as) : mark ≠ .outside := by
  induction as with
  | nil => cases h
  | cons a as ih =>
    cases as with
    | nil =>
      rw [mem_singleton.mp h]
      decide
    | cons b bs =>
      rcases mem_cons.mp h with rfl | h
      · decide
      · exact ih h

theorem map_fst_tracked (span : Span α) :
    span.tracked.map Prod.fst = span.marks.map (· != .outside) := by
  cases span with
  | outside a => rfl
  | range as ended => rw [Span.tracked, Span.marks, map_map]; rfl

theorem takeRange_ended {past : α → Bool}
    (h : (takeRange ends past as).2.1 = true) : (takeRange ends past as).1 ≠ [] := by
  cases as with
  | nil => cases h
  | cons a as =>
    rw [takeRange] at h ⊢
    split at h
    · cases h
    · split at h <;> simp_all

theorem takeRange_broken {past : α → Bool} (h : (takeRange ends past as).2.1 = false) :
    ∀ a ∈ (takeRange ends past as).2.2.head?, past a = true := by
  induction as with
  | nil => exact fun _ h => nomatch h
  | cons a as ih =>
    rw [takeRange] at h ⊢
    split
    · rename_i hpast
      rintro b hb
      cases hb
      exact hpast
    · rename_i hpast
      rw [if_neg hpast] at h
      split
      · rename_i hends
        rw [if_pos hends] at h
        cases h
      · rename_i hends
        rw [if_neg hends] at h
        exact ih h

theorem map_rangeMarks_cons (a : α) (h : ended = true → later ≠ []) :
    (rangeMarks (a :: later)).map (tracked ended) =
      (true, false) :: (rangeMarks later).map (tracked ended) := by
  cases later with
  | nil =>
    have hended : ended = false := by simpa using h
    rw [hended]
    rfl
  | cons b bs => rfl

namespace RangeRule

variable (rule : RangeRule α)

/-- Element by element: whether it lies in a range, and whether it ends it. -/
@[grind =] def track : Option (α → Bool) → List α → List (Bool × Bool)
  | _, [] => []
  | none, a :: as =>
    if rule.begins a then
      if rule.alone a then (true, true) :: track none as
      else (true, false) :: track (some (rule.ends a)) as
    else (false, false) :: track none as
  | some ends, a :: as =>
    if rule.past a then (false, false) :: track none as
    else if ends a then (true, true) :: track none as
    else (true, false) :: track (some ends) as

theorem track_some (ends : α → Bool) (as : List α) :
    rule.track (some ends) as =
      (rangeMarks (takeRange ends rule.past as).1).map
          (tracked (takeRange ends rule.past as).2.1) ++
        rule.track (if (takeRange ends rule.past as).2.1 then none else some ends)
          (takeRange ends rule.past as).2.2 := by
  induction as with
  | nil => rfl
  | cons a as ih =>
    rw [takeRange]
    by_cases hpast : rule.past a = true
    · rw [if_pos hpast]
      rfl
    rw [if_neg hpast]
    by_cases hends : ends a = true
    · rw [if_pos hends, track, if_neg hpast, if_pos hends]
      rfl
    · rw [if_neg hends, track, if_neg hpast, if_neg hends, ih]
      change _ = (rangeMarks (a :: (takeRange ends rule.past as).1)).map
        (tracked (takeRange ends rule.past as).2.1) ++ _
      rw [map_rangeMarks_cons a takeRange_ended]
      rfl

theorem track_some_past (ends : α → Bool) {as : List α} (hpast : ∀ a ∈ as.head?, rule.past a = true)
    (hbegins : ∀ a ∈ as.head?, rule.begins a = false) :
    rule.track (some ends) as = rule.track none as := by
  cases as with
  | nil => rfl
  | cons a as =>
    have hbegins' : ¬rule.begins a = true := by simp [hbegins a rfl]
    rw [track, track, if_pos (hpast a rfl), if_neg hbegins']

theorem isRange_head_spans {a : α} {as : List α} :
    ∀ span ∈ (rule.spans (a :: as)).head?, span.isRange = rule.begins a := by
  intro span hspan
  rw [spans] at hspan
  split at hspan
  · rename_i hbegins
    split at hspan <;> cases hspan <;> exact hbegins.symm
  · rename_i hbegins
    cases hspan
    simpa [Span.isRange] using hbegins

theorem resumes_cons_of_not_broken {span : Span α} (h : span.broken = false)
    (spans : List (Span α)) : Resumes (span :: spans) ↔ Resumes spans := by
  cases spans with
  | nil => simp [Resumes]
  | cons next spans => simp [Resumes, isChain_cons_cons, h]

theorem spans_ne_nil (a : α) (as : List α) : rule.spans (a :: as) ≠ [] := by
  rw [spans]
  split
  · split <;> exact cons_ne_nil _ _
  · exact cons_ne_nil _ _

theorem tracked_spans_cons {a : α} (hbegins : rule.begins a = true) (as : List α) :
    ∃ x tail, (rule.spans (a :: as)).flatMap Span.tracked = x :: tail ∧ x.1 = true := by
  rw [spans, if_pos hbegins]
  split
  · exact ⟨_, _, rfl, rfl⟩
  · rw [flatMap_cons, Span.tracked, map_rangeMarks_cons a takeRange_ended]
    exact ⟨_, _, rfl, rfl⟩

theorem track_behind {span : Span α} {ends : α → Bool} {ended : Bool}
    (hspan : span.broken = !ended) {rest : List α}
    (hpast : ended = false → ∀ a ∈ rest.head?, rule.past a = true)
    (ih : (Resumes (rule.spans rest) →
        rule.track none rest = (rule.spans rest).flatMap Span.tracked) ∧
      ((rule.track none rest).map Prod.fst =
        ((rule.spans rest).flatMap Span.tracked).map Prod.fst → Resumes (rule.spans rest))) :
    (Resumes (span :: rule.spans rest) →
      rule.track (if ended then none else some ends) rest =
        (rule.spans rest).flatMap Span.tracked) ∧
    ((rule.track (if ended then none else some ends) rest).map Prod.fst =
        ((rule.spans rest).flatMap Span.tracked).map Prod.fst →
      Resumes (span :: rule.spans rest)) := by
  cases ended with
  | true =>
    rw [resumes_cons_of_not_broken hspan]
    exact ih
  | false =>
    cases rest with
    | nil => simp [track, spans, Resumes]
    | cons a as =>
      have hpast' := hpast rfl a rfl
      obtain ⟨next, more, hnext⟩ := exists_cons_of_ne_nil (rule.spans_ne_nil a as)
      have hrange : next.isRange = rule.begins a :=
        rule.isRange_head_spans next (by rw [hnext]; rfl)
      have hchain : Resumes (span :: rule.spans (a :: as)) ↔
          rule.begins a = false ∧ Resumes (rule.spans (a :: as)) := by
        rw [hnext, Resumes, isChain_cons_cons, hrange, hspan]
        simp
      rw [hchain]
      by_cases hbegins : rule.begins a = true
      · -- the element past the range begins another one, but is not tested
        refine ⟨fun h => absurd (hbegins.symm.trans h.1) (by decide), fun h => ?_⟩
        exfalso
        rw [if_neg (by decide), track, if_pos hpast', hnext] at h
        obtain ⟨x, tail, hx, hlies⟩ := rule.tracked_spans_cons hbegins as
        rw [← hnext, hx] at h
        simp [hlies] at h
      · have hnot : rule.begins a = false := by simpa using hbegins
        have hsame := @track_some_past _ rule ends (a :: as) (hpast rfl)
          (by rintro b hb; cases hb; exact hnot)
        rw [if_neg (by decide), hsame]
        exact ⟨fun h => ih.1 h.2, fun h => ⟨hnot, ih.2 h⟩⟩

theorem track_none (as : List α) :
    (Resumes (rule.spans as) → rule.track none as = (rule.spans as).flatMap Span.tracked) ∧
    ((rule.track none as).map Prod.fst = ((rule.spans as).flatMap Span.tracked).map Prod.fst →
      Resumes (rule.spans as)) := by
  induction as using RangeRule.spans.induct rule with
  | case1 => simp [track, spans, Resumes]
  | case2 a as hbegins halone ih =>
    rw [spans, track, if_pos hbegins, if_pos halone, if_pos hbegins, if_pos halone,
      resumes_cons_of_not_broken rfl]
    refine ⟨fun h => ?_, fun h => ih.2 ?_⟩
    · rw [ih.1 h]
      rfl
    · simpa [Span.tracked, rangeMarks, tracked] using h
  | case3 a as hbegins halone ih =>
    have hbehind := @track_behind _ rule (.range (a :: (takeRange (rule.ends a) rule.past as).1)
      (takeRange (rule.ends a) rule.past as).2.1) (rule.ends a) _ rfl _ takeRange_broken ih
    rw [spans, track, if_pos hbegins, if_neg halone, if_pos hbegins, if_neg halone, track_some,
      flatMap_cons, Span.tracked, map_rangeMarks_cons a takeRange_ended]
    refine ⟨fun h => ?_, fun h => hbehind.2 ?_⟩
    · rw [hbehind.1 h]
      rfl
    · simpa using h
  | case4 a as hbegins ih =>
    rw [spans, track, if_neg hbegins, if_neg hbegins, resumes_cons_of_not_broken rfl]
    refine ⟨fun h => ?_, fun h => ih.2 ?_⟩
    · rw [ih.1 h]
      rfl
    · simpa [Span.tracked] using h

def openSpans (ends : α → Bool) : List α → List (Span α)
  | [] => []
  | a :: as =>
    .range (takeRange ends rule.past (a :: as)).1 (takeRange ends rule.past (a :: as)).2.1 ::
      rule.spans (takeRange ends rule.past (a :: as)).2.2

theorem track_open (ends : α → Bool) (as : List α) :
    (Resumes (rule.openSpans ends as) →
      rule.track (some ends) as = (rule.openSpans ends as).flatMap Span.tracked) ∧
    ((rule.track (some ends) as).map Prod.fst =
        ((rule.openSpans ends as).flatMap Span.tracked).map Prod.fst →
      Resumes (rule.openSpans ends as)) := by
  cases as with
  | nil => simp [track, openSpans, Resumes]
  | cons a as =>
    have hbehind := @track_behind _ rule (.range (takeRange ends rule.past (a :: as)).1
      (takeRange ends rule.past (a :: as)).2.1) ends _ rfl _ takeRange_broken (rule.track_none _)
    rw [openSpans, track_some, flatMap_cons, Span.tracked]
    refine ⟨fun h => ?_, fun h => hbehind.2 ?_⟩
    · rw [hbehind.1 h]
    · simpa using h

theorem spans_congr {rule' : RangeRule α} (hbegins : rule'.begins = rule.begins)
    (halone : rule'.alone = rule.alone) (hpast : rule'.past = rule.past) {as : List α}
    (hends : ∀ a later ended, .range (a :: later) ended ∈ rule.spans as →
      rule'.ends a = rule.ends a) : rule'.spans as = rule.spans as := by
  induction as using RangeRule.spans.induct rule with
  | case1 => rw [spans, spans]
  | case2 a as hbegins' halone' ih =>
    rw [spans, if_pos hbegins', if_pos halone'] at hends
    rw [spans, spans, hbegins, halone, if_pos hbegins', if_pos halone', if_pos hbegins',
      if_pos halone', ih fun a later ended h => hends a later ended (.tail _ h)]
  | case3 a as hbegins' halone' ih =>
    rw [spans, if_pos hbegins', if_neg halone'] at hends
    rw [spans, spans, hbegins, halone, hpast, if_pos hbegins', if_neg halone', if_pos hbegins',
      if_neg halone', hends a _ _ (.head _),
      ih fun a later ended h => hends a later ended (.tail _ h)]
  | case4 a as hbegins' ih =>
    rw [spans, if_neg hbegins'] at hends
    rw [spans, spans, hbegins, if_neg hbegins', if_neg hbegins',
      ih fun a later ended h => hends a later ended (.tail _ h)]

theorem ne_nil_of_range_mem (h : .range later ended ∈ rule.spans as) : later ≠ [] := by
  induction as using RangeRule.spans.induct rule with
  | case1 =>
    rw [spans] at h
    cases h
  | case2 a as hbegins halone ih =>
    rw [spans, if_pos hbegins, if_pos halone] at h
    rcases mem_cons.mp h with h | h
    · cases h
      exact cons_ne_nil _ _
    · exact ih h
  | case3 a as hbegins halone ih =>
    rw [spans, if_pos hbegins, if_neg halone] at h
    rcases mem_cons.mp h with h | h
    · cases h
      exact cons_ne_nil _ _
    · exact ih h
  | case4 a as hbegins ih =>
    rw [spans, if_neg hbegins] at h
    rcases mem_cons.mp h with h | h
    · cases h
    · exact ih h

theorem ne_nil_of_range_mem_open (hpast : ∀ a, rule.past a = false)
    (h : .range later ended ∈ rule.openSpans ends as) :
    later ≠ [] := by
  cases as with
  | nil => cases h
  | cons a as =>
    rw [openSpans] at h
    rcases mem_cons.mp h with h | h
    · cases h
      rw [takeRange, if_neg (by simp [hpast a])]
      split <;> exact cons_ne_nil _ _
    · exact rule.ne_nil_of_range_mem h

theorem not_broken_of_alone (halone : ∀ a, rule.alone a = true) {span : Span α}
    (h : span ∈ rule.spans as) : span.broken = false := by
  induction as using RangeRule.spans.induct rule with
  | case1 =>
    rw [spans] at h
    cases h
  | case2 a as hbegins halone ih =>
    rw [spans, if_pos hbegins, if_pos halone] at h
    rcases mem_cons.mp h with rfl | h
    · rfl
    · exact ih h
  | case3 a as hbegins halone' ih => exact absurd (halone a) halone'
  | case4 a as hbegins ih =>
    rw [spans, if_neg hbegins] at h
    rcases mem_cons.mp h with rfl | h
    · rfl
    · exact ih h

theorem marks_of_alone (halone : ∀ a, rule.alone a = true) (as : List α) :
    (rule.spans as).flatMap Span.marks =
      as.map fun a => if rule.begins a then .last else .outside := by
  induction as with
  | nil => rw [spans]; rfl
  | cons a as ih =>
    rw [spans, if_pos (halone a), map_cons, ← ih]
    split <;> rfl

end RangeRule

theorem resumes_of_not_broken {spans : List (Span α)}
    (h : ∀ span ∈ spans, span.broken = false) : Resumes spans := by
  induction spans with
  | nil => exact List.IsChain.nil
  | cons span spans ih =>
    rw [RangeRule.resumes_cons_of_not_broken (h span (.head _))]
    exact ih fun span hmem => h span (.tail _ hmem)

end

end Qse.Support
