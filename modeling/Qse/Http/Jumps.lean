import Qse.Http.Seams

/-!
# Jumps of the reader

The labels that are jumped back to take an octet each, so the fuel of a call never runs
out, and the code from a label on is a function of its own.
-/

namespace Qse.Http

def Agree (k k' : Label → Htrd → List UInt8 → Outcome) (n : ℕ) : Prop :=
  ∀ label htrd ptr, label = .top ∨ label = .dechunkStart → ptr ≠ [] → ptr.length ≤ n →
    k label htrd ptr = k' label htrd ptr

section Jumps

variable {k k' : Label → Htrd → List UInt8 → Outcome} {n : ℕ} (hk : Agree k k' n)

include hk

variable {ptr : List UInt8}

theorem complete_congr (htrd : Htrd) (hn : ptr.length ≤ n) :
    complete k htrd ptr = complete k' htrd ptr := by
  simp only [complete]
  split
  · rfl
  · split
    · rfl
    · split
      · rfl
      · exact hk .top _ ptr (.inl rfl) ‹_› hn

theorem dechunkCrlf_congr (htrd : Htrd) (hn : ptr.length ≤ n + 1) :
    dechunkCrlf k htrd ptr = dechunkCrlf k' htrd ptr := by
  have hdrop := (List.dropWhile_suffix isSpaceOctet (l := ptr)).length_le
  simp only [dechunkCrlf]
  cases hrest : ptr.dropWhile isSpaceOctet with
  | nil => rfl
  | cons c rest =>
    rw [hrest, List.length_cons] at hdrop
    simp only
    split
    · split
      · exact hk .dechunkStart _ rest (.inr rfl) ‹_› (by omega)
      · rfl
    · rfl

theorem afterContent_congr (htrd : Htrd) (hn : ptr.length ≤ n) :
    afterContent k htrd ptr = afterContent k' htrd ptr := by
  rw [afterContent, afterContent, complete_congr hk htrd hn,
    dechunkCrlf_congr hk _ (Nat.le_succ_of_le hn)]

theorem contentResume_congr {htrd : Htrd} (hneed : 0 < htrd.need)
    (hn : ptr.length ≤ n + 1) : contentResume k htrd ptr = contentResume k' htrd ptr := by
  simp only [contentResume]
  split
  · rfl
  split
  · rfl
  · have hrest : (ptr.drop htrd.need).length ≤ n := by
      rw [List.length_drop]
      omega
    rw [afterContent_congr hk _ hrest, afterContent_congr hk _ hrest]

theorem readContent_congr (htrd : Htrd) (hn : ptr.length ≤ n) :
    readContent k htrd ptr = readContent k' htrd ptr := by
  rw [readContent, readContent, afterContent_congr hk htrd hn]
  split
  · exact contentResume_congr hk ‹_› (Nat.le_succ_of_le hn)
  · rfl

theorem dechunkGetTrailers_congr (htrd : Htrd) (hn : ptr.length ≤ n + 1) :
    dechunkGetTrailers k htrd ptr = dechunkGetTrailers k' htrd ptr := by
  rw [dechunkGetTrailers, dechunkGetTrailers]
  have hjoin := getTrailingHeaders_join htrd [] ptr []
  generalize getTrailingHeaders htrd [] (ptr ++ []) = out at hjoin
  cases hread : getTrailingHeaders htrd [] ptr with
  | error e => rfl
  | ok read =>
    obtain ⟨htrd', rest⟩ := read
    have hrest : rest.length ≤ n := by
      rw [hread] at hjoin
      cases hjoin with
      | ended _ _ hlt _ => omega
      | unended _ _ _ => exact Nat.zero_le _
    simp only
    rw [readContent_congr hk htrd' hrest]

theorem dechunkResume_congr (htrd : Htrd) (hn : ptr.length ≤ n + 1) :
    dechunkResume k htrd ptr = dechunkResume k' htrd ptr := by
  rw [dechunkResume, dechunkResume]
  cases hread : getchunklen htrd ptr with
  | error e => rfl
  | ok read =>
    obtain ⟨htrd', rest⟩ := read
    have hlen := getchunklen_rest hread
    have hrest : rest.length ≤ n := by omega
    simp only
    rw [readContent_congr hk htrd' hrest, dechunkGetTrailers_congr hk _ (Nat.le_succ_of_le hrest)]

theorem dechunkStart_congr (htrd : Htrd) (hn : ptr.length ≤ n + 1) :
    dechunkStart k htrd ptr = dechunkStart k' htrd ptr :=
  dechunkResume_congr hk _ hn

theorem startBody_congr (htrd : Htrd) (hn : ptr.length ≤ n) :
    startBody k htrd ptr = startBody k' htrd ptr := by
  simp only [startBody]
  rw [dechunkStart_congr hk htrd (Nat.le_succ_of_le hn), readContent_congr hk _ hn,
    readContent_congr hk _ hn, readContent_congr hk _ (Nat.zero_le _)]

theorem scan_congr (htrd : Htrd) (seen : List UInt8)
    (hn : ptr.length ≤ n + 1) : scan k htrd seen ptr = scan k' htrd seen ptr := by
  induction ptr generalizing htrd seen with
  | nil => rfl
  | cons c ptr ih =>
    have hptr : ptr.length ≤ n := Nat.le_of_succ_le_succ hn
    have hlt : ptr.length ≤ n + 1 := Nat.le_succ_of_le hptr
    rw [scan, scan, ih _ _ hlt, ih _ _ hlt, ih _ _ hlt, headerComplete, headerComplete]
    simp only [startBody_congr hk _ hptr]

theorem atLabel_congr {label : Label} {htrd : Htrd} (hneed : label = .contentResume → 0 < htrd.need)
    (hn : ptr.length ≤ n + 1) :
    atLabel k htrd ptr label = atLabel k' htrd ptr label := by
  cases label with
  | top => exact scan_congr hk htrd [] hn
  | dechunkStart => exact dechunkStart_congr hk htrd hn
  | dechunkResume => exact dechunkResume_congr hk htrd hn
  | dechunkGetTrailers => exact dechunkGetTrailers_congr hk htrd hn
  | contentResume => exact contentResume_congr hk (hneed rfl) hn
  | dechunkCrlf => exact dechunkCrlf_congr hk htrd hn

end Jumps

theorem jump_congr {fuel fuel' : ℕ} {label : Label} {htrd : Htrd}
    (hneed : label = .contentResume → 0 < htrd.need) {ptr : List UInt8}
    (hlt : ptr.length < fuel) (hlt' : ptr.length < fuel') :
    jump fuel label htrd ptr = jump fuel' label htrd ptr := by
  induction fuel generalizing fuel' label htrd ptr with
  | zero => exact absurd hlt (Nat.not_lt_zero _)
  | succ fuel ih =>
    obtain _ | fuel' := fuel'
    · exact absurd hlt' (Nat.not_lt_zero _)
    rw [jump, jump]
    have hagree : Agree (jump fuel) (jump fuel') (ptr.length - 1) := by
      intro label' htrd' ptr' hlabel hne hlen
      have hpos := List.length_pos_iff.mpr hne
      refine ih (fun heq => ?_) (by omega) (by omega)
      rcases hlabel with rfl | rfl <;> cases heq
    exact atLabel_congr hagree hneed (by omega)

def run (label : Label) (htrd : Htrd) (ptr : List UInt8) : Outcome :=
  jump (ptr.length + 1) label htrd ptr

theorem run_eq {label : Label} {htrd : Htrd} (hneed : label = .contentResume → 0 < htrd.need)
    (ptr : List UInt8) : run label htrd ptr = atLabel run htrd ptr label := by
  rw [run, jump]
  have hagree : Agree (jump ptr.length) run (ptr.length - 1) := by
    intro label' htrd' ptr' hlabel hne hlen
    have hpos := List.length_pos_iff.mpr hne
    refine jump_congr (fun heq => ?_) (by omega) (by omega)
    rcases hlabel with rfl | rfl <;> cases heq
  exact atLabel_congr hagree hneed (by omega)

/-! ## Headers that were read stay read -/

def headsOf : Outcome → List Attrs
  | .ok htrd => htrd.heads
  | .error (_, htrd) => htrd.heads

def readerOf : Except (Errnum × Htrd) (Htrd × List UInt8) → Htrd
  | .ok (htrd, _) => htrd
  | .error (_, htrd) => htrd

theorem getTrailingHeaders_heads (htrd : Htrd) (seen ptr : List UInt8) :
    (readerOf (getTrailingHeaders htrd seen ptr)).heads = htrd.heads := by
  induction ptr generalizing htrd seen with
  | nil => rfl
  | cons c ptr ih =>
    rw [getTrailingHeaders]
    split
    · rfl
    split
    · split
      · exact ih { htrd with crlf := 2 } _
      · simp only
        cases parseHeaders htrd.option htrd.option.trailers
          ((htrd.tra ++ seen ++ [c]).length + 1) htrd.re (htrd.tra ++ seen ++ [c]) <;> rfl
    · split
      · exact ih { htrd with crlf := seeCR htrd.crlf } _
      · exact ih { htrd with crlf := 0 } _

theorem getchunklen_heads (htrd : Htrd) (ptr : List UInt8) :
    (readerOf (getchunklen htrd ptr)).heads = htrd.heads := by
  rw [getchunklen_eq, endOfLength]
  cases (readDigits htrd.chunk (skipLeading htrd.chunk.count ptr)).2.dropWhile isSpaceOctet with
  | nil => rfl
  | cons c rest =>
    simp only
    split <;> rfl

section Heads

variable {k : Label → Htrd → List UInt8 → Outcome}
  (hk : ∀ {heads} label htrd ptr, htrd.heads = heads → heads ⊆ headsOf (k label htrd ptr))

include hk

section

variable (htrd : Htrd)
include htrd

theorem heads_complete (ptr : List UInt8) : htrd.heads ⊆ headsOf (complete k htrd ptr) := by
  simp only [complete]
  split
  · exact List.Subset.refl _
  · split
    · exact List.Subset.refl _
    · split
      · exact List.Subset.refl _
      · exact hk .top _ ptr rfl

theorem heads_dechunkCrlf (ptr : List UInt8) : htrd.heads ⊆ headsOf (dechunkCrlf k htrd ptr) := by
  rw [dechunkCrlf]
  split
  · exact List.Subset.refl _
  · split
    · split
      · exact hk .dechunkStart htrd _ rfl
      · exact List.Subset.refl _
    · exact List.Subset.refl _

theorem heads_afterContent (ptr : List UInt8) : htrd.heads ⊆ headsOf (afterContent k htrd ptr) := by
  rw [afterContent]
  split
  · exact heads_dechunkCrlf hk { htrd with chunk := { htrd.chunk with phase := .crlf } } ptr
  · exact heads_complete hk htrd ptr

theorem heads_contentResume (ptr : List UInt8) :
    htrd.heads ⊆ headsOf (contentResume k htrd ptr) := by
  simp only [contentResume]
  split
  · exact List.Subset.refl _
  · split
    · split <;> exact List.Subset.refl _
    · split
      · exact heads_afterContent hk (pushContent htrd _) _
      · exact heads_afterContent hk { pushContent htrd _ with need := 0 } _

theorem heads_readContent (ptr : List UInt8) : htrd.heads ⊆ headsOf (readContent k htrd ptr) := by
  rw [readContent]
  split
  · exact heads_contentResume hk htrd ptr
  · exact heads_afterContent hk htrd ptr

theorem heads_dechunkGetTrailers (ptr : List UInt8) :
    htrd.heads ⊆ headsOf (dechunkGetTrailers k htrd ptr) := by
  rw [dechunkGetTrailers, ← getTrailingHeaders_heads htrd [] ptr]
  cases getTrailingHeaders htrd [] ptr with
  | error e => exact List.Subset.refl _
  | ok read =>
    simp only [readerOf]
    split
    · exact List.Subset.refl _
    · exact heads_readContent hk read.1 read.2

theorem heads_dechunkResume (ptr : List UInt8) :
    htrd.heads ⊆ headsOf (dechunkResume k htrd ptr) := by
  rw [dechunkResume, ← getchunklen_heads htrd ptr]
  cases getchunklen htrd ptr with
  | error e => exact List.Subset.refl _
  | ok read =>
    simp only [readerOf]
    split
    · exact List.Subset.refl _
    · split
      · exact heads_dechunkGetTrailers hk { read.1 with crlf := 2 } read.2
      · exact heads_readContent hk read.1 read.2

theorem heads_startBody (ptr : List UInt8) : htrd.heads ⊆ headsOf (startBody k htrd ptr) := by
  rw [startBody]
  split
  · exact heads_dechunkResume hk { htrd with chunk := ⟨0, 0, .len⟩ } ptr
  · split
    · exact heads_readContent hk { htrd with need := 2 ^ 64 - 1, untilClose := true } ptr
    · split
      · exact heads_readContent hk { htrd with need := 0 } []
      · exact heads_readContent hk { htrd with need := htrd.re.contentLength } ptr

theorem heads_headerComplete (seen ptr : List UInt8) :
    htrd.heads ⊆ headsOf (headerComplete k htrd seen ptr) := by
  simp only [headerComplete]
  split
  · exact List.Subset.refl _
  · split
    · split <;> exact List.subset_append_left _ _
    · exact List.Subset.trans (List.subset_append_left _ _) (heads_startBody hk { htrd with
        crlf := 0, plen := 0, raw := htrd.raw ++ seen, re := _, heads := _ } ptr)

theorem heads_scan (seen ptr : List UInt8) : htrd.heads ⊆ headsOf (scan k htrd seen ptr) := by
  induction ptr generalizing htrd seen with
  | nil => exact List.Subset.refl _
  | cons c ptr ih =>
    rw [scan]
    split
    · exact List.Subset.refl _
    split
    · split
      · exact ih { htrd with crlf := 2 } _
      · exact heads_headerComplete hk htrd _ ptr
    · split
      · exact ih { htrd with crlf := seeCR htrd.crlf } _
      · exact ih { htrd with plen := htrd.plen + 1, crlf := 0 } _

end

theorem heads_atLabel (label : Label) (htrd : Htrd) (ptr : List UInt8) :
    htrd.heads ⊆ headsOf (atLabel k htrd ptr label) := by
  cases label with
  | top => exact heads_scan hk htrd [] ptr
  | dechunkStart => exact heads_dechunkResume hk { htrd with chunk := ⟨0, 0, .len⟩ } ptr
  | dechunkResume => exact heads_dechunkResume hk htrd ptr
  | dechunkGetTrailers => exact heads_dechunkGetTrailers hk htrd ptr
  | contentResume => exact heads_contentResume hk htrd ptr
  | dechunkCrlf => exact heads_dechunkCrlf hk htrd ptr

end Heads

theorem heads_jump (fuel : ℕ) (label : Label) (htrd : Htrd) (ptr : List UInt8) :
    htrd.heads ⊆ headsOf (jump fuel label htrd ptr) := by
  induction fuel generalizing label htrd ptr with
  | zero => exact List.Subset.refl _
  | succ fuel ih =>
    refine heads_atLabel (fun {heads} label htrd ptr hheads => ?_) label htrd ptr
    exact hheads ▸ ih label htrd ptr

theorem heads_feed (htrd : Htrd) (req : List UInt8) : htrd.heads ⊆ headsOf (feed htrd req) := by
  simp only [feed]
  split
  · exact List.Subset.refl _
  · split
    · exact List.Subset.refl _
    · split
      · exact heads_jump _ _ { htrd with clean := false } req
      · exact heads_jump _ _ htrd req

end Qse.Http
