import Qse.Support.Chains
import Mathlib.Data.List.Pairwise
import Mathlib.Data.List.Perm.Basic

/-!
# The fixed-size block allocator

A translation of `lib/cmn/fma.c`. Memory has bytes at addresses, and the chunks that the memory
manager has granted are kept beside it; an access outside of them yields `none`. A null pointer is
0, and `qse_size_t` has 64 bits.
-/

namespace Qse

open ByteMemory

/-- `qse_fma_t` without its memory manager. The number of chunks, each of which has its place in
memory, does not wrap. -/
structure Fma where
  blksize : ℕ
  maxblks : ℕ
  maxcnks : ℕ
  numcnks : ℕ
  cnkhead : ℕ
  freeblk : ℕ

namespace Fma

structure State where
  mem : Mem
  fma : Fma
  cnks : List (ℕ × ℕ)

/-- `QSE_SIZEOF(qse_fma_cnk_t)` and `QSE_SIZEOF(qse_fma_blk_t)` -/
def word : ℕ := 8

def init (mem : Mem) (blksize maxblks maxcnks : ℕ) : State :=
  let blksize := if blksize < word then word else blksize
  let maxblks := if maxblks ≤ 0 then 1 else maxblks
  ⟨mem, ⟨blksize, maxblks, maxcnks, 0, 0, 0⟩, []⟩

def cnkSize (fma : Fma) : ℕ := (word + fma.blksize * fma.maxblks % 2 ^ 64) % 2 ^ 64

def inside (s : State) (a : ℕ) : Bool :=
  s.cnks.any fun r => decide (r.1 ≤ a) && decide (a + word ≤ r.1 + r.2)

/-- `a->next` is read. -/
def getNext (s : State) (a : ℕ) : Option ℕ := if inside s a then some (load s.mem a 8) else none

/-- `a->next` is set. -/
def putNext (s : State) (a next : ℕ) : Option State :=
  if inside s a then some { s with mem := store s.mem a 8 next } else none

def weave : ℕ → ℕ → State → Option (ℕ × State)
  | 0, blk, s => some (blk, s)
  | k + 1, blk, s => do
    let s ← putNext s blk (blk + s.fma.blksize)
    let blk ← getNext s blk
    weave k blk s

/-- `add_chunk`, where `answer` is what the memory manager returns if it is asked. -/
def addChunk (s : State) (answer : Option ℕ) : Option (ℕ × State) :=
  if s.fma.maxcnks ≠ 0 ∧ s.fma.maxcnks ≤ s.fma.numcnks then some (0, s)
  else
    match answer with
    | none => some (0, s)
    | some cnk => do
      let s := { s with cnks := (cnk, cnkSize s.fma) :: s.cnks }
      let s := { s with fma := { s.fma with freeblk := cnk + word } }
      let (blk, s) ← weave (s.fma.maxblks - 1) s.fma.freeblk s
      let s ← putNext s blk 0
      let s ← putNext s cnk s.fma.cnkhead
      some (cnk, { s with fma :=
        { s.fma with cnkhead := cnk, numcnks := s.fma.numcnks + 1 } })

def take (s : State) : Option (ℕ × State) := do
  let next ← getNext s s.fma.freeblk
  some (s.fma.freeblk, { s with fma := { s.fma with freeblk := next } })

def alloc (s : State) (size : ℕ) (answer : Option ℕ) : Option (ℕ × State) :=
  if s.fma.blksize < size then some (0, s)
  else if s.fma.freeblk = 0 then do
    let (cnk, s) ← addChunk s answer
    if cnk = 0 then some (0, s) else take s
  else take s

def realloc (s : State) (blk size : ℕ) (answer : Option ℕ) : Option (ℕ × State) :=
  if blk ≠ 0 then
    if s.fma.blksize < size then some (0, s) else some (blk, s)
  else alloc s size answer

def free (s : State) (blk : ℕ) : Option State := do
  let s ← putNext s blk s.fma.freeblk
  some { s with fma := { s.fma with freeblk := blk } }

/-- What a memory manager may answer: nothing, or a place for a chunk that is apart from the
others. -/
def Answers (s : State) (answer : Option ℕ) : Prop :=
  ∀ cnk, answer = some cnk → 0 < cnk ∧ cnk + cnkSize s.fma ≤ 2 ^ 64 ∧
    ∀ r ∈ s.cnks, cnk + cnkSize s.fma ≤ r.1 ∨ r.1 + r.2 ≤ cnk

/-- The states that are reached when only live blocks are freed or written, with the blocks handed
out and not yet freed. -/
inductive Reach (mem : Mem) (blksize maxblks maxcnks : ℕ) : State → List ℕ → Prop
  | init : Reach mem blksize maxblks maxcnks (init mem blksize maxblks maxcnks) []
  | alloc {s s' : State} {live : List ℕ} {size p : ℕ} {answer : Option ℕ} :
      Reach mem blksize maxblks maxcnks s live → Answers s answer →
      alloc s size answer = some (p, s') →
      Reach mem blksize maxblks maxcnks s' (if p = 0 then live else p :: live)
  | reallocNull {s s' : State} {live : List ℕ} {size p : ℕ} {answer : Option ℕ} :
      Reach mem blksize maxblks maxcnks s live → Answers s answer →
      realloc s 0 size answer = some (p, s') →
      Reach mem blksize maxblks maxcnks s' (if p = 0 then live else p :: live)
  | realloc {s s' : State} {live : List ℕ} {blk size p : ℕ} {answer : Option ℕ} :
      Reach mem blksize maxblks maxcnks s live → Answers s answer → blk ∈ live →
      realloc s blk size answer = some (p, s') →
      Reach mem blksize maxblks maxcnks s' live
  | free {s s' : State} {live : List ℕ} {blk : ℕ} :
      Reach mem blksize maxblks maxcnks s live → blk ∈ live → free s blk = some s' →
      Reach mem blksize maxblks maxcnks s' (live.erase blk)
  | write {s : State} {live : List ℕ} {blk : ℕ} {mem' : Mem} :
      Reach mem blksize maxblks maxcnks s live → blk ∈ live →
      (∀ i, i < blk ∨ blk + s.fma.blksize ≤ i → mem' i = s.mem i) →
      Reach mem blksize maxblks maxcnks { s with mem := mem' } live
  | elsewhere {s : State} {live : List ℕ} {mem' : Mem} :
      Reach mem blksize maxblks maxcnks s live →
      (∀ r ∈ s.cnks, ∀ i, r.1 ≤ i → i < r.1 + r.2 → mem' i = s.mem i) →
      Reach mem blksize maxblks maxcnks { s with mem := mem' } live

/-! ## The slots of the chunks -/

open WordChain

def slotsFrom (size : ℕ) : ℕ → ℕ → List ℕ
  | _, 0 => []
  | blk, n + 1 => blk :: slotsFrom size (blk + size) n

def slots (s : State) : List ℕ :=
  s.cnks.flatMap fun r => slotsFrom s.fma.blksize (r.1 + word) s.fma.maxblks

def Apart (size a b : ℕ) : Prop := a + size ≤ b ∨ b + size ≤ a

def ApartCnks (r t : ℕ × ℕ) : Prop := r.1 + r.2 ≤ t.1 ∨ t.1 + t.2 ≤ r.1

instance (size : ℕ) : Std.Symm (Apart size) := ⟨fun _ _ => Or.symm⟩

instance : Std.Symm ApartCnks := ⟨fun _ _ => Or.symm⟩

/-- What holds between two calls, with the live blocks and those of the free list. -/
structure Holds (s : State) (live free : List ℕ) : Prop where
  word_le : 8 ≤ s.fma.blksize
  blks : 0 < s.fma.maxblks
  sized : ∀ r ∈ s.cnks, 0 < r.1 ∧ r.2 = word + s.fma.blksize * s.fma.maxblks ∧ r.1 + r.2 ≤ 2 ^ 64
  apart : s.cnks.Pairwise ApartCnks
  count : s.fma.numcnks = s.cnks.length
  limit : s.fma.maxcnks ≠ 0 → s.cnks.length ≤ s.fma.maxcnks
  heads : Segment s.mem s.fma.cnkhead (s.cnks.map Prod.fst) 0
  chain : Segment s.mem s.fma.freeblk free 0
  perm : (live ++ free).Perm (slots s)

variable {s s' : State} {live free : List ℕ} {size blk a b n k : ℕ}

theorem slotsFrom_succ (size blk n : ℕ) :
    slotsFrom size blk (n + 1) = slotsFrom size blk n ++ [blk + n * size] := by
  induction n generalizing blk with
  | zero => simp [slotsFrom]
  | succ n ih =>
    rw [slotsFrom, ih, slotsFrom, List.cons_append, Nat.succ_mul]
    congr 3
    omega

theorem mem_slotsFrom (hmem : a ∈ slotsFrom size blk n) : blk ≤ a ∧ a + size ≤ blk + n * size := by
  induction n generalizing blk with
  | zero => cases hmem
  | succ n ih =>
    rw [Nat.succ_mul]
    rcases List.mem_cons.mp hmem with rfl | hmem
    · omega
    · have hrest := ih hmem
      omega

theorem pairwise_slotsFrom (size blk n : ℕ) : (slotsFrom size blk n).Pairwise (Apart size) := by
  induction n generalizing blk with
  | zero => exact List.Pairwise.nil
  | succ n ih =>
    refine List.Pairwise.cons (fun a hmem => .inl ?_) (ih _)
    exact (mem_slotsFrom hmem).1

section

variable (h : Holds s live free)
include h

theorem Holds.slot (hmem : a ∈ slots s) :
    ∃ r ∈ s.cnks, r.1 + 8 ≤ a ∧ a + s.fma.blksize ≤ r.1 + r.2 := by
  obtain ⟨r, hr, hslot⟩ := List.mem_flatMap.mp hmem
  obtain ⟨-, hsize, -⟩ := h.sized r hr
  have hbounds := mem_slotsFrom hslot
  rw [mul_comm] at hbounds
  simp only [word] at hbounds hsize
  exact ⟨r, hr, hbounds.1, by omega⟩

theorem Holds.pairwise_slots : (slots s).Pairwise (Apart s.fma.blksize) := by
  rw [slots, List.pairwise_flatMap]
  refine ⟨fun r _ => pairwise_slotsFrom _ _ _, h.apart.imp_of_mem ?_⟩
  intro r t hr ht hapart a ha b hb
  have ha := mem_slotsFrom ha
  have hb := mem_slotsFrom hb
  obtain ⟨-, hr, -⟩ := h.sized r hr
  obtain ⟨-, ht, -⟩ := h.sized t ht
  rw [mul_comm] at ha hb
  simp only [word] at *
  rcases hapart with hlt | hlt
  · left
    omega
  · right
    omega

theorem Holds.pairwise : (live ++ free).Pairwise (Apart s.fma.blksize) :=
  (h.perm.pairwise_iff fun h => Or.symm h).mpr h.pairwise_slots

theorem Holds.slot_of_live (hmem : blk ∈ live) : blk ∈ slots s :=
  h.perm.subset (List.mem_append_left _ hmem)

theorem Holds.slot_of_free (hmem : blk ∈ free) : blk ∈ slots s :=
  h.perm.subset (List.mem_append_right _ hmem)

theorem Holds.slot_header (hmem : a ∈ slots s) {r : ℕ × ℕ}
    (hr : r ∈ s.cnks) : a + s.fma.blksize ≤ r.1 ∨ r.1 + 8 ≤ a := by
  obtain ⟨t, ht, hle, hlt⟩ := h.slot hmem
  obtain ⟨-, hsize, -⟩ := h.sized r hr
  simp only [word] at hsize
  by_cases hsame : t = r
  · rw [← hsame]
    exact .inr hle
  · rcases h.apart.forall ht hr hsame with hbefore | hbehind
    · left
      omega
    · right
      omega

end

theorem inside_of_mem {r : ℕ × ℕ} (hr : r ∈ s.cnks) (hle : r.1 ≤ a) (hlt : a + 8 ≤ r.1 + r.2) :
    inside s a = true := by
  rw [inside, List.any_eq_true]
  exact ⟨r, hr, by simp [hle, word, hlt]⟩

theorem Holds.inside_slot (h : Holds s live free) (hmem : a ∈ slots s) : inside s a = true := by
  obtain ⟨r, hr, hle, hlt⟩ := h.slot hmem
  have hword := h.word_le
  exact inside_of_mem hr (by omega) (by omega)

theorem Holds.slot_lt (h : Holds s live free) (hmem : a ∈ slots s) : 0 < a ∧ a < 2 ^ 64 := by
  obtain ⟨r, hr, hle, hlt⟩ := h.slot hmem
  obtain ⟨-, -, hend⟩ := h.sized r hr
  have hword := h.word_le
  omega

theorem Holds.freeblk_lt (h : Holds s live free) : s.fma.freeblk < 2 ^ 64 := by
  have hchain := h.chain
  cases free with
  | nil =>
    have hnull : s.fma.freeblk = 0 := hchain
    omega
  | cons b free =>
    obtain ⟨rfl, -, -⟩ := hchain
    exact (h.slot_lt (h.slot_of_free (.head _))).2

theorem Holds.free_eq_nil_iff (h : Holds s live free) : s.fma.freeblk = 0 ↔ free = [] := by
  have hchain := h.chain
  constructor
  · intro hnull
    rw [hnull] at hchain
    exact hchain.eq_nil
  · rintro rfl
    exact hchain

end Fma

end Qse
