import Qse.Xma.AllocSpec
import Qse.Xma.FreeSpec
import Qse.Xma.ReallocSpec

/-!
# The heap invariant

`HeapInv x L` is the invariant of an allocator between two calls, for the blocks `L`. A call is
followed in a context that says which bytes it may touch and which it must keep.
-/

open List

namespace Qse.Xma

open ByteMemory MachineWord LinkedChain StateProgram

/-- The memory shows the headers of the blocks `L` laid out from `a`, the first
one behind a block of size `p`. -/
def ShowsBlocks (m : Mem) (a p : ℕ) : List Blk → Prop
  | [] => True
  | b :: L =>
    load m a 8 = p ∧ load m (a + 8) 8 = 2 * b.size + b.free.toNat ∧
      ShowsBlocks m (a + 16 + b.size) b.size L

def freeFrom (a : ℕ) : List Blk → List (ℕ × ℕ)
  | [] => []
  | b :: L =>
    if b.free then (a, b.size) :: freeFrom (a + 16 + b.size) L
    else freeFrom (a + 16 + b.size) L

/-- The free lists hold the free blocks of `L`, each once, doubly linked, in the
chain of its size. -/
def FilesFree (x : Xma) (L : List Blk) : Prop :=
  ∃ fl : ℕ → List ℕ, ∀ k,
    Linked 0 (nextOf x.mem) (prevOf x.mem) 0 (x.xfree k) (fl k) ∧ (fl k).Nodup ∧
      ∀ a, a ∈ fl k ↔ ∃ s, (a, s) ∈ freeFrom x.start L ∧ getxfi x.bdec s = k

/-- The invariant of the allocator `x` between two calls. -/
structure HeapInv (x : Xma) (L : List Blk) : Prop where
  zone : 16 ≤ x.start ∧ x.end_ < 2 ^ 64
  tiles : x.start + span L = x.end_
  small : span L ≤ 2 ^ 63
  shows : ShowsBlocks x.mem x.start 0 L
  minSize : ∀ b ∈ L, 16 ≤ b.size
  coalesced : NoFreePair false L
  files : FilesFree x L
  bdec : x.bdec = szlog2 (FIXED * ALIGN)
  stat : x.stat = statOf L

section

variable {c : Ctx} {L L₁ L₂ M₁ M₂ : List Blk} {x x' : Xma} {a p q s : ℕ} {m : Mem}
  {b d : Blk}

theorem showsBlocks_iff : ShowsBlocks m a p L ↔
    ∀ {q h}, headersFrom a p L q = some h → ShowsHdr m q h := by
  induction L generalizing a p with
  | nil => simp [ShowsBlocks]
  | cons b L ih =>
    rw [ShowsBlocks, add_assoc a, ih]
    constructor
    · rintro ⟨hprev, hword, hrest⟩ q h hq
      rw [headersFrom_cons] at hq
      split at hq
      · next heq =>
          cases hq
          rw [heq]
          exact ⟨hprev, hword⟩
      · exact hrest hq
    · intro hall
      have hfirst : ShowsHdr m a (b.hdr p) := hall (by rw [headersFrom_cons, if_pos rfl])
      refine ⟨hfirst.1, hfirst.2, fun {q h} hq => hall ?_⟩
      have hne : q ≠ a := by
        rintro rfl
        rw [headersFrom_lt (by omega)] at hq
        cases hq
      rw [headersFrom_cons, if_neg hne]
      exact hq

theorem mem_usedFrom : (q, s) ∈ usedFrom a L ↔
    ∃ L₁ L₂, L = L₁ ++ [⟨s, false⟩] ++ L₂ ∧ q = a + span L₁ + 16 := by
  induction L generalizing a with
  | nil => simp [usedFrom]
  | cons b L ih =>
    obtain ⟨t, f⟩ := b
    constructor
    · intro hq
      rw [usedFrom] at hq
      cases f with
      | true =>
        obtain ⟨L₁, L₂, rfl, rfl⟩ := ih.mp hq
        exact ⟨⟨t, true⟩ :: L₁, L₂, rfl, by simp only [span]; omega⟩
      | false =>
        rcases mem_cons.mp hq with heq | hq
        · cases heq
          exact ⟨[], L, rfl, rfl⟩
        · obtain ⟨L₁, L₂, rfl, rfl⟩ := ih.mp hq
          exact ⟨⟨t, false⟩ :: L₁, L₂, rfl, by simp only [span]; omega⟩
    · rintro ⟨L₁, L₂, hL, rfl⟩
      rw [hL, usedFrom_append, usedFrom_append]
      refine mem_append_left _ (mem_append_right _ ?_)
      exact mem_singleton.mpr rfl

theorem mem_freeFrom : (q, s) ∈ freeFrom a L ↔
    ∃ L₁ L₂, L = L₁ ++ [⟨s, true⟩] ++ L₂ ∧ q = a + span L₁ := by
  induction L generalizing a with
  | nil => simp [freeFrom]
  | cons b L ih =>
    obtain ⟨t, f⟩ := b
    rw [freeFrom]
    constructor
    · intro hq
      cases f with
      | false =>
        obtain ⟨L₁, L₂, rfl, rfl⟩ := ih.mp hq
        exact ⟨⟨t, false⟩ :: L₁, L₂, rfl, by simp only [span, room_mk]; omega⟩
      | true =>
        rcases mem_cons.mp hq with heq | hq
        · cases heq
          exact ⟨[], L, rfl, rfl⟩
        · obtain ⟨L₁, L₂, rfl, rfl⟩ := ih.mp hq
          exact ⟨⟨t, true⟩ :: L₁, L₂, rfl, by simp only [span, room_mk]; omega⟩
    · rintro ⟨L₁, L₂, hL, rfl⟩
      cases L₁ with
      | nil =>
        obtain ⟨hb, -⟩ := List.cons.inj hL
        cases hb
        exact .head _
      | cons d L₁ =>
        obtain ⟨hb, hL⟩ := List.cons.inj hL
        have hmem : (a + span (d :: L₁), s) ∈ freeFrom (a + 16 + t) L := by
          refine ih.mpr ⟨L₁, L₂, hL, ?_⟩
          rw [← hb, span, room_mk]
          omega
        split
        · exact .tail _ hmem
        · exact hmem

theorem chained_iff_free : (∃ h, headersFrom a p L q = some h ∧ h.chained = true ∧
    classOf h.size = s) ↔ ∃ t, (q, t) ∈ freeFrom a L ∧ classOf t = s := by
  constructor
  · rintro ⟨h, hq, hon, hs⟩
    obtain ⟨L₁, ⟨t, f⟩, L₂, hL, haddr, rfl⟩ := headersFrom_eq_some hq
    have hf : f = true := hon
    exact ⟨t, mem_freeFrom.mpr ⟨L₁, L₂, by simp [hL, hf], haddr⟩, hs⟩
  · rintro ⟨t, hq, hs⟩
    obtain ⟨L₁, L₂, rfl, rfl⟩ := mem_freeFrom.mp hq
    rw [append_assoc]
    exact ⟨_, headersFrom_at, rfl, hs⟩

theorem split_cases (h : L₁ ++ b :: L₂ = M₁ ++ d :: M₂) :
    (L₁ = M₁ ∧ b = d) ∨ span L₁ + b.room ≤ span M₁ ∨ span M₁ + d.room ≤ span L₁ := by
  induction L₁ generalizing M₁ with
  | nil =>
    cases M₁ with
    | nil => exact .inl ⟨rfl, (List.cons.inj h).1⟩
    | cons e M₁ =>
      obtain ⟨rfl, -⟩ := List.cons.inj h
      simp only [span]
      omega
  | cons e L₁ ih =>
    cases M₁ with
    | nil =>
      obtain ⟨rfl, -⟩ := List.cons.inj h
      simp only [span]
      omega
    | cons e' M₁ =>
      obtain ⟨rfl, htail⟩ := List.cons.inj h
      simp only [span]
      rcases ih htail with ⟨rfl, rfl⟩ | hle | hle
      · exact .inl ⟨rfl, rfl⟩
      · omega
      · omega

/-- All accesses made so far lie in `T`. -/
def TouchedIn (T : Set ℕ) (x : Xma) : Prop :=
  ∀ e ∈ x.touched, ∀ i, e.1 ≤ i → i < e.1 + e.2 → i ∈ T

def bytesOf (P : List (ℕ × ℕ)) : Set ℕ := {i | ∃ r ∈ P, r.1 ≤ i ∧ i < r.1 + r.2}

/-- A call on `x` that touches only `T` and keeps the regions `P`. -/
def callCtx (x : Xma) (T : Set ℕ) (P : List (ℕ × ℕ)) : Ctx :=
  ⟨x.start, x.end_, T, {i | i ∉ bytesOf P}, x.mem⟩

def WithinUsed (x : Xma) (L : List Blk) (P : List (ℕ × ℕ)) : Prop :=
  ∀ r ∈ P, ∃ u ∈ usedFrom x.start L, u.1 ≤ r.1 ∧ r.1 + r.2 ≤ u.1 + u.2

variable {T : Set ℕ} {P : List (ℕ × ℕ)}

theorem Heap.heapInv (hh : Heap c L x) : HeapInv x L := by
  have ht := hh.tracked
  obtain ⟨fl, hfl⟩ := ht.lists
  refine ⟨?_, ?_, hh.fits.small, ?_, hh.fits.minSize, hh.fits.coalesced, ?_, ht.bdec, ht.stat⟩
  · rw [ht.start_eq, ht.end_eq]
    exact ht.zone
  · rw [ht.start_eq, ht.end_eq]
    exact hh.fits.span_eq
  · rw [ht.start_eq]
    exact showsBlocks_iff.mpr ht.shows
  · refine ⟨fl, fun k => ⟨hfl.linked k, hfl.nodup k, fun a => ?_⟩⟩
    rw [hfl.mem_iff, chained_iff_free, ht.start_eq, ht.bdec]
    rfl

theorem WithinUsed.apart (hP : WithinUsed x L P) {i : ℕ}
    (hL : L = L₁ ++ [b] ++ L₂) (hlo : x.start + span L₁ ≤ i)
    (hhi : i < x.start + span L₁ + (if b.free then b.room else 16)) : i ∉ bytesOf P := by
  rintro ⟨⟨r, k⟩, hr, hri, hik⟩
  obtain ⟨⟨u, t⟩, hu, hur, hrk⟩ := hP _ hr
  obtain ⟨M₁, M₂, hM, rfl⟩ := mem_usedFrom.mp hu
  rw [append_assoc, singleton_append] at hL hM
  simp only at hri hik hur hrk
  have hroom : (if b.free then b.room else 16) ≤ b.room := by
    split
    · exact le_rfl
    · rw [Blk.room]
      omega
  rcases split_cases (hL.symm.trans hM) with ⟨rfl, rfl⟩ | hle | hle
  · simp only [Bool.false_eq_true, if_false] at hhi
    omega
  · omega
  · rw [room_mk] at hle
    omega

/-- Opening a context: the call may touch the zone, and keeps regions of the
contents of blocks in use. -/
theorem HeapInv.heap (hi : HeapInv x L) (hT : Set.Ico x.start x.end_ ⊆ T)
    (hx : TouchedIn T x) (hP : WithinUsed x L P) :
    Heap (callCtx x T P) L x ∧ FreeAllowed (callCtx x T P) L := by
  obtain ⟨fl, hfl⟩ := hi.files
  have hblock : ∀ {L₁ b L₂}, L = L₁ ++ [b] ++ L₂ →
      (callCtx x T P).Allows (x.start + span L₁) (if b.free then b.room else 16) := by
    intro L₁ b L₂ hL i hlo hhi
    refine ⟨hT ⟨by omega, ?_⟩, hP.apart hL hlo hhi⟩
    have htiles := hi.tiles
    simp only [hL, span_append, span] at htiles
    have hroom : (if b.free then b.room else 16) ≤ b.room := by
      split
      · exact le_rfl
      · rw [Blk.room]
        omega
    omega
  have hbounds : ∀ {q h}, headersFrom x.start 0 L q = some h →
      ∃ L₁ b L₂, L = L₁ ++ [b] ++ L₂ ∧ q = x.start + span L₁ ∧ h.chained = b.free ∧
        16 ≤ b.size ∧ q + b.room ≤ x.end_ := by
    intro q h hq
    obtain ⟨L₁, b, L₂, hL, haddr, rfl⟩ := headersFrom_eq_some hq
    have hmin := hi.minSize b (by rw [hL]; simp)
    have htiles := hi.tiles
    simp only [hL, span_append, span] at htiles
    exact ⟨L₁, b, L₂, by rw [hL, append_assoc]; rfl, haddr, rfl, hmin, by omega⟩
  refine ⟨⟨⟨hi.tiles, hi.small, hi.minSize, hi.coalesced⟩, ⟨?_, fl, ?_⟩⟩, ?_⟩
  · refine
      { start_eq := rfl, end_eq := rfl, zone := hi.zone, bdec := hi.bdec, stat := hi.stat,
        shows := showsBlocks_iff.mp hi.shows, inside := ?_, apart := ?_, headerAllowed := ?_,
        linksAllowed := ?_, touched := hx, frame := fun _ _ => rfl }
    · intro q h hq
      obtain ⟨L₁, b, L₂, -, rfl, -, hmin, hend⟩ := hbounds hq
      rw [Blk.room] at hend
      exact ⟨Nat.le_add_right _ _, by simp only [callCtx]; omega⟩
    · intro q q' h h' hq hq' hne
      obtain ⟨L₁, b, L₂, hL, rfl, -, hmin, -⟩ := hbounds hq
      obtain ⟨M₁, d, M₂, hM, rfl, -, hmin', -⟩ := hbounds hq'
      rw [append_assoc, singleton_append] at hL hM
      rcases split_cases (hL.symm.trans hM) with ⟨rfl, rfl⟩ | hle | hle
      · exact absurd rfl hne
      · rw [Blk.room] at hle
        omega
      · rw [Blk.room] at hle
        omega
    · intro q h hq
      obtain ⟨L₁, b, L₂, hL, rfl, -, -, -⟩ := hbounds hq
      refine (hblock hL).mono le_rfl ?_
      split
      · rw [Blk.room]
        omega
      · omega
    · intro q h hq hon
      obtain ⟨L₁, b, L₂, hL, rfl, hb, hmin, -⟩ := hbounds hq
      refine (hblock hL).mono le_rfl ?_
      rw [if_pos (hb.symm.trans hon), Blk.room]
      omega
  · refine ⟨fun k => (hfl k).1, fun k => (hfl k).2.1, fun k q => ?_⟩
    rw [(hfl k).2.2 q, chained_iff_free, hi.bdec]
    rfl
  · intro L₁ s L₂ hL
    have hall := hblock hL
    rw [if_pos rfl, room_mk] at hall
    exact hall

theorem Heap.kept (hh : Heap (callCtx x T P) L x') {r : ℕ × ℕ} (hr : r ∈ P) {i : ℕ}
    (hlo : r.1 ≤ i) (hhi : i < r.1 + r.2) : x'.mem i = x.mem i := by
  refine hh.tracked.frame i ?_
  intro hi
  exact hi ⟨r, hr, hlo, hhi⟩

end

end Qse.Xma
