import Mathlib.Algebra.GroupWithZero.Nat
import Mathlib.Data.List.Basic
import Mathlib.Order.Lattice
import Mathlib.Order.Nat

/-!
# Writing to a file

`write_str_to_file` of `lib/sed/sed.c` with the output handler as a parameter.
-/

open List

namespace Qse.Sed.WriteFile

/-- The values of `errnum` that are set here, and those that a handler sets. -/
inductive Errnum where
  | enoerr
  | enomem
  | eiofil
  | handler (code : ℕ)
deriving DecidableEq

/-- An output handler over states `σ` for characters `α`. A call returns a number and leaves
`errnum` and its state. It does not report more characters than it has been offered. -/
structure Handler (σ α : Type*) where
  openFile : σ → List α → ℤ × Errnum × σ
  write : σ → List α → ℤ × Errnum × σ
  closeFile : σ → σ
  write_le : ∀ s chars, (write s chars).1 ≤ chars.length

variable {σ α : Type*}

/-- What is left by a call: what it returns, `errnum`, whether the file is open, the state of the
handler and the characters that the handler has accepted. -/
structure Outcome (σ α : Type*) where
  ret : ℤ
  errnum : Errnum
  handle : Bool
  state : σ
  accepted : List α

def writeLoop (h : Handler σ α) (str : List α) :
    ℕ → σ → ℕ → List α → Outcome σ α
  | 0, s, _, accepted => ⟨0, .enoerr, true, s, accepted⟩
  | fuel + 1, s, len, accepted =>
    if 0 < len then
      let (n, errnum, s') := h.write s (str.take len)
      if n ≤ -1 then
        ⟨-1, if errnum = .enoerr then .eiofil else errnum, false, h.closeFile s', accepted⟩
      else if n = 0 then ⟨-1, .eiofil, false, h.closeFile s', accepted⟩
      else writeLoop h str fuel s' (len - n.toNat) (accepted ++ str.take n.toNat)
    else ⟨0, .enoerr, true, s, accepted⟩

/-- `write_str_to_file`, where `entry` is whether the file is open if the table of files has it,
and `granted` whether there is memory for a new entry. -/
def writeStrToFile (h : Handler σ α) (s : σ) (entry : Option Bool) (granted : Bool)
    (str path : List α) : Outcome σ α :=
  if entry = none ∧ granted = false then ⟨-1, .enomem, false, s, []⟩
  else if entry = some true then writeLoop h str str.length s str.length []
  else
    let (n, errnum, s') := h.openFile s path
    if n ≤ -1 then ⟨-1, if errnum = .enoerr then .eiofil else errnum, false, s', []⟩
    else writeLoop h str str.length s' str.length []

def counts (h : Handler σ α) (str : List α) : ℕ → σ → ℕ → List ℕ
  | 0, _, _ => []
  | fuel + 1, s, len =>
    if 0 < len then
      let (n, _, s') := h.write s (str.take len)
      n.toNat :: counts h str fuel s' (len - n.toNat)
    else []

/-- At every position where a call begins, the characters are the first ones of the string, as
many as the call takes. -/
def Recurs (str : List α) : ℕ → List ℕ → Prop
  | _, [] => True
  | pos, n :: ns => (str.drop pos).take n = str.take n ∧ Recurs str (pos + n) ns

structure Accepts (h : Handler σ α) : Prop where
  opens : ∀ s path, 0 ≤ (h.openFile s path).1
  takes : ∀ s chars, chars ≠ [] → 0 < (h.write s chars).1

variable {h : Handler σ α} {str : List α}

theorem Accepts.step (ha : Accepts h) {s : σ} {len : ℕ} (hpos : 0 < len) (hle : len ≤ str.length) :
    ∃ n : ℕ, (h.write s (str.take len)).1 = n ∧ 0 < n ∧ n ≤ len := by
  have hne : str.take len ≠ [] := by
    rw [← length_pos_iff, length_take]
    exact lt_min hpos (lt_of_lt_of_le hpos hle)
  have hlt := ha.takes s (str.take len) hne
  have hmost := h.write_le s (str.take len)
  rw [length_take] at hmost
  exact ⟨(h.write s (str.take len)).1.toNat, by omega, by omega, by omega⟩

theorem Accepts.writeLoop_eq (ha : Accepts h) {fuel len : ℕ} (hle : len ≤ str.length)
    (hfuel : len ≤ fuel) (s : σ) (accepted : List α) :
    (writeLoop h str fuel s len accepted).ret = 0 ∧
      (writeLoop h str fuel s len accepted).accepted =
        accepted ++ (counts h str fuel s len).flatMap (fun n => str.take n) ∧
      (counts h str fuel s len).sum = len := by
  induction fuel generalizing len s accepted with
  | zero =>
    obtain rfl : len = 0 := Nat.le_zero.mp hfuel
    exact ⟨rfl, (append_nil _).symm, rfl⟩
  | succ fuel ih =>
    by_cases hpos : 0 < len
    · obtain ⟨n, hn, hn0, hnlen⟩ := ha.step (s := s) hpos hle
      have hrest := @ih (len - n) (by omega) (by omega)
        (h.write s (str.take len)).2.2 (accepted ++ str.take n)
      obtain ⟨hret, haccepted, hsum⟩ := hrest
      have hloop : writeLoop h str (fuel + 1) s len accepted =
          writeLoop h str fuel (h.write s (str.take len)).2.2 (len - n)
            (accepted ++ str.take n) := by
        simp only [writeLoop, if_pos hpos, hn]
        rw [if_neg (by omega), if_neg (by omega), Int.toNat_natCast]
      have hcounts : counts h str (fuel + 1) s len =
          n :: counts h str fuel (h.write s (str.take len)).2.2 (len - n) := by
        simp only [counts, if_pos hpos, hn, Int.toNat_natCast]
      rw [hloop, hcounts]
      refine ⟨hret, ?_, ?_⟩
      · rw [haccepted, flatMap_cons, append_assoc]
      · rw [sum_cons, hsum]
        omega
    · obtain rfl : len = 0 := by omega
      exact ⟨rfl, by simp [writeLoop, counts], rfl⟩

theorem flatMap_take_eq_iff (pos : ℕ) {ns : List ℕ} (hsum : pos + ns.sum = str.length) :
    ns.flatMap (fun n => str.take n) = str.drop pos ↔ Recurs str pos ns := by
  induction ns generalizing pos with
  | nil =>
    rw [sum_nil, add_zero] at hsum
    rw [flatMap_nil, drop_of_length_le (le_of_eq hsum.symm)]
    exact ⟨fun _ => trivial, fun _ => rfl⟩
  | cons n ns ih =>
    rw [sum_cons] at hsum
    have hsplit : str.drop pos = (str.drop pos).take n ++ str.drop (pos + n) := by
      rw [← drop_drop, take_append_drop]
    have hlength : (str.take n).length = ((str.drop pos).take n).length := by
      rw [length_take, length_take, length_drop]
      omega
    rw [flatMap_cons, Recurs, ← ih (pos + n) (by omega), hsplit]
    constructor
    · intro heq
      obtain ⟨hhead, htail⟩ := append_inj heq hlength
      rw [← hsplit]
      exact ⟨hhead.symm, htail⟩
    · rintro ⟨hhead, htail⟩
      rw [← hsplit] at hhead
      rw [htail, hhead]

def opened (h : Handler σ α) (s : σ) (entry : Option Bool) (path : List α) : σ :=
  if entry = some true then s else (h.openFile s path).2.2

theorem Accepts.writeStrToFile_eq (ha : Accepts h) (s : σ) {entry : Option Bool} {granted : Bool}
    (hfound : entry = none → granted = true) (str path : List α) :
    writeStrToFile h s entry granted str path =
      writeLoop h str str.length (opened h s entry path) str.length [] := by
  have hno : ¬(entry = none ∧ granted = false) := by
    rintro ⟨hnone, hgranted⟩
    rw [hfound hnone] at hgranted
    cases hgranted
  have hopens := ha.opens s path
  rw [writeStrToFile, if_neg hno, opened]
  by_cases hopen : entry = some true
  · rw [if_pos hopen, if_pos hopen]
  · have hnot : ¬(h.openFile s path).1 ≤ -1 := by omega
    simp only [if_neg hopen, if_neg hnot]

/-- The handler has accepted the string just when the string recurs wherever a call begins. So it
has when the first call accepts all of it. -/
theorem accepted_eq_iff (h : Handler σ α) (ha : Accepts h) (s : σ) (entry : Option Bool)
    (granted : Bool) (str path : List α) :
    (writeStrToFile h s entry granted str path).accepted = str ↔
      str = [] ∨ (entry = none → granted = true) ∧
        Recurs str 0 (counts h str str.length (opened h s entry path) str.length) := by
  by_cases hfound : entry = none → granted = true
  · rw [ha.writeStrToFile_eq s hfound]
    obtain ⟨-, haccepted, hsum⟩ :=
      ha.writeLoop_eq (le_refl str.length) le_rfl (opened h s entry path) []
    have hiff := flatMap_take_eq_iff 0 (by rw [hsum, zero_add])
    rw [drop_zero] at hiff
    rw [haccepted, nil_append, hiff]
    constructor
    · exact fun hrecurs => .inr ⟨hfound, hrecurs⟩
    · rintro (rfl | ⟨-, hrecurs⟩)
      · trivial
      · exact hrecurs
  · have hlost : entry = none ∧ granted = false := by
      simpa using hfound
    rw [writeStrToFile, if_pos hlost]
    constructor
    · exact fun hnil => .inl hnil.symm
    · rintro (hnil | ⟨hfound', -⟩)
      · exact hnil.symm
      · exact absurd hfound' hfound

def oneByOne : Handler Unit ℕ where
  openFile s _ := (0, .enoerr, s)
  write s chars := (if chars = [] then 0 else 1, .enoerr, s)
  closeFile s := s
  write_le := by
    intro s chars
    split
    · exact Int.natCast_nonneg _
    · rename_i hne
      have hpos := length_pos_iff.mpr hne
      omega

theorem oneByOne_accepts : Accepts oneByOne where
  opens _ _ := Int.le_refl 0
  takes _ chars hne := by
    have hone : (if chars = [] then 0 else 1 : ℤ) = 1 := if_neg hne
    change 0 < (if chars = [] then 0 else 1 : ℤ)
    rw [hone]
    decide

/-- One character after the other is the first one. -/
theorem accepted_eq_iff_same :
    (writeStrToFile oneByOne ⟨⟩ none true [7, 7] [1]).accepted = [7, 7] :=
  (accepted_eq_iff oneByOne oneByOne_accepts ⟨⟩ none true [7, 7] [1]).mpr
    (.inr ⟨fun _ => rfl, rfl, rfl, trivial⟩)

/-- Of two different characters the first one is written twice. -/
theorem not_accepted_eq :
    ¬∀ (h : Handler Unit ℕ), Accepts h → ∀ (s : Unit) (str path : List ℕ),
      (writeStrToFile h s none true str path).accepted = str := by
  intro hall
  exact absurd (hall oneByOne oneByOne_accepts ⟨⟩ [7, 8] [1]) (by decide)

end Qse.Sed.WriteFile
