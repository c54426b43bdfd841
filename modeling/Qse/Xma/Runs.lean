import Qse.Xma.Operations

/-!
# Runs of the allocator

A run starts with a zone that `qse_xma_init` accepts and makes calls in any order; between two calls
the user may write to the blocks in use. `live` holds the pointers handed out and not yet given
back.
-/

open List

namespace Qse.Xma

open ByteMemory MachineWord LinkedChain StateProgram

inductive Call
  | alloc (size : ℕ)
  | calloc (size : ℕ)
  | realloc (b size : ℕ)
  | free (b : ℕ)
deriving DecidableEq

namespace Call

def run : Call → XmaM ℕ
  | alloc size => Xma.alloc size
  | calloc size => Xma.calloc size
  | realloc b size => Xma.realloc b size
  | free b => do
    Xma.free b
    pure 0

def size : Call → ℕ
  | alloc size => size
  | calloc size => size
  | realloc _ size => size
  | free _ => 0

def block : Call → ℕ
  | alloc _ => 0
  | calloc _ => 0
  | realloc b _ => b
  | free b => b

def Valid (live : Finset ℕ) : Call → Prop
  | alloc _ => True
  | calloc _ => True
  | realloc b _ => b = 0 ∨ b ∈ live
  | free b => b ∈ live

instance (live : Finset ℕ) (c : Call) : Decidable (c.Valid live) :=
  match c with
  | alloc _ => isTrue trivial
  | calloc _ => isTrue trivial
  | realloc b _ => inferInstanceAs (Decidable (b = 0 ∨ b ∈ live))
  | free b => inferInstanceAs (Decidable (b ∈ live))

def live (r : ℕ) (live : Finset ℕ) : Call → Finset ℕ
  | free b => live.erase b
  | c => if r = 0 then live else insert r (live.erase c.block)

def Rounds (c : Call) : Prop := RoundsUp c.size

instance (c : Call) : Decidable c.Rounds := inferInstanceAs (Decidable (RoundsUp _))

end Call

def forgetTouched (x : Xma) : Xma := { x with touched := [] }

def Runs (x : Xma) (c : Call) (r : ℕ) (x' : Xma) : Prop :=
  c.run.run x.forgetTouched = some (r, x')

def check (x : Xma) (c : Call) (P : ℕ → Xma → Bool) : Bool :=
  (c.run.run x.forgetTouched).any fun p => P p.1 p.2

theorem runs_of_check {x : Xma} {c : Call} {P : ℕ → Xma → Bool} (h : x.check c P = true) :
    ∃ r x', Runs x c r x' ∧ P r x' = true := by
  rw [check, Option.any_eq_true] at h
  obtain ⟨⟨r, x'⟩, hrun, hP⟩ := h
  exact ⟨r, x', hrun, hP⟩

def contents (x : Xma) (live : Finset ℕ) : Set ℕ :=
  {i | ∃ b ∈ live, b ≤ i ∧ i < b + x.sizeAt b}

/-- The states of the runs whose calls all satisfy `ok`. -/
inductive Reachable (ok : Xma → Call → Prop) : Xma → Finset ℕ → Prop
  | init {mmgrAlloc : ℕ → ℕ} {mem : Mem} {zoneptr zonesize : ℕ} {x : Xma}
      (hinit : init mmgrAlloc mem zoneptr zonesize = some x) (hsize : zonesize < 2 ^ 63)
      (hzone : InAddressSpace x) : Reachable ok x ∅
  | write {x : Xma} {live : Finset ℕ} {mem : Mem} (hx : Reachable ok x live)
      (hmem : ∀ i, i ∉ x.contents live → mem i = x.mem i) :
      Reachable ok { x with mem := mem } live
  | call {x x' : Xma} {live : Finset ℕ} {c : Call} {r : ℕ} (hx : Reachable ok x live)
      (hvalid : c.Valid live) (hok : ok x c) (hrun : Runs x c r x') :
      Reachable ok x' (c.live r live)

/-- The allocator is laid out as `L`, and `live` holds its blocks in use. -/
structure LiveInv (x : Xma) (L : List Blk) (live : Finset ℕ) : Prop where
  inv : HeapInv x L
  mem_live : ∀ b, b ∈ live ↔ ∃ s, (b, s) ∈ used x L

section

variable {T : Set ℕ} {L L' : List Blk} {x x' : Xma} {live : Finset ℕ} {b n r s : ℕ}
  {c : Call}

theorem LiveInv.used_of_mem (hl : LiveInv x L live) (hb : b ∈ live) :
    (b, x.sizeAt b) ∈ used x L := by
  obtain ⟨s, hs⟩ := (hl.mem_live b).mp hb
  rw [hl.inv.sizeAt_eq hs]
  exact hs

theorem LiveInv.ne_zero (hl : LiveInv x L live) (hb : b ∈ live) : b ≠ 0 := by
  have hin := hl.inv.used_inside (hl.used_of_mem hb)
  omega

theorem Added.mem_iff {U U' : List (ℕ × ℕ)} (ha : Added U U' r n) :
    (∃ s, (b, s) ∈ U') ↔ b = r ∨ ∃ s, (b, s) ∈ U := by
  obtain ⟨U₁, t, U₂, hU, hU', -⟩ := ha
  rw [hU, hU']
  simp only [mem_append, mem_cons, Prod.mk.injEq]
  constructor
  · rintro ⟨s, hs | ⟨rfl, -⟩ | hs⟩
    · exact .inr ⟨s, .inl hs⟩
    · exact .inl rfl
    · exact .inr ⟨s, .inr hs⟩
  · rintro (rfl | ⟨s, hs | hs⟩)
    · exact ⟨t, .inr (.inl ⟨rfl, rfl⟩)⟩
    · exact ⟨s, .inl hs⟩
    · exact ⟨s, .inr (.inr hs)⟩

theorem Resized.mem_iff {U U' : List (ℕ × ℕ)} {b' s' : ℕ} (hr : Resized U U' b s s') :
    (∃ t, (b', t) ∈ U') ↔ ∃ t, (b', t) ∈ U := by
  obtain ⟨U₁, U₂, hU, hU'⟩ := hr
  rw [hU, hU']
  simp only [mem_append, mem_cons, Prod.mk.injEq]
  constructor
  · rintro ⟨t, ht | ⟨rfl, -⟩ | ht⟩
    · exact ⟨t, .inl ht⟩
    · exact ⟨s, .inr (.inl ⟨rfl, rfl⟩)⟩
    · exact ⟨t, .inr (.inr ht)⟩
  · rintro ⟨t, ht | ⟨rfl, -⟩ | ht⟩
    · exact ⟨t, .inl ht⟩
    · exact ⟨s', .inr (.inl ⟨rfl, rfl⟩)⟩
    · exact ⟨t, .inr (.inr ht)⟩

theorem Removed.mem_iff {y : Xma} {M : List Blk} {b' : ℕ}
    (hr : Removed (used y M) (used x' L') b s) :
    (∃ t, (b', t) ∈ used x' L') ↔ b' ≠ b ∧ ∃ t, (b', t) ∈ used y M := by
  obtain ⟨U₁, U₂, hU, hU'⟩ := hr
  have hpair := (usedFrom_pairwise (a := y.start) (L := M)).2
  change (used y M).Pairwise _ at hpair
  rw [hU, pairwise_append, pairwise_cons] at hpair
  rw [hU, hU']
  simp only [mem_append, mem_cons, Prod.mk.injEq]
  constructor
  · rintro ⟨t, ht | ht⟩
    · have hlt := hpair.2.2 _ ht (b, s) (.head _)
      exact ⟨Nat.ne_of_lt hlt, t, .inl ht⟩
    · have hlt := hpair.2.1.1 _ ht
      exact ⟨(Nat.ne_of_lt hlt).symm, t, .inr (.inr ht)⟩
  · rintro ⟨hne, t, ht | ⟨rfl, -⟩ | ht⟩
    · exact ⟨t, .inl ht⟩
    · exact absurd rfl hne
    · exact ⟨t, .inr ht⟩

theorem SameHeap.liveInv (hs : SameHeap x x') (hl : LiveInv x L live) : LiveInv x' L live := by
  refine ⟨hs.heapInv hl.inv, fun b => ?_⟩
  rw [used, hs.start]
  exact hl.mem_live b

theorem Allocated.liveInv (ha : Allocated T x L n r x') (hl : LiveInv x L live) :
    ∃ L', LiveInv x' L' (if r = 0 then live else insert r live) := by
  rcases ha with ⟨rfl, hsame, -, -⟩ | ⟨hne, -, L', hran, hadd, -⟩
  · rw [if_pos rfl]
    exact ⟨L, hsame.liveInv hl⟩
  · rw [if_neg hne]
    refine ⟨L', hran.inv, fun b => ?_⟩
    rw [Finset.mem_insert, hadd.mem_iff, hl.mem_live]

theorem Reallocated.liveInv (hr : Reallocated T x L b s n r x') (hl : LiveInv x L live)
    (hb : b ∈ live) :
    ∃ L', LiveInv x' L' (if r = 0 then live else insert r (live.erase b)) := by
  rcases hr with ⟨rfl, hsame, -⟩ | ⟨hne, L', hran, -, -, hcase⟩
  · rw [if_pos rfl]
    exact ⟨L, hsame.liveInv hl⟩
  rw [if_neg hne]
  refine ⟨L', hran.inv, fun d => ?_⟩
  rcases hcase with ⟨rfl, s', hres, -⟩ | ⟨y, M, hadd, hrem⟩
  · rw [Finset.insert_erase hb, hres.mem_iff, hl.mem_live]
  have hbr : b ≠ r := (mem_others.mp (hadd.spec.2 _ (hl.used_of_mem hb))).2
  rw [hrem.mem_iff, hadd.mem_iff, Finset.mem_insert, Finset.mem_erase, hl.mem_live]
  constructor
  · rintro (rfl | ⟨hdb, hd⟩)
    · exact ⟨hbr.symm, .inl rfl⟩
    · exact ⟨hdb, .inr hd⟩
  · rintro ⟨hdb, rfl | hd⟩
    · exact .inl rfl
    · exact .inr ⟨hdb, hd⟩

def Call.Effect (T : Set ℕ) (x : Xma) (L : List Blk) : Call → ℕ → Xma → Prop
  | alloc n, r, x' => Allocated T x L n r x'
  | calloc n, r, x' => Allocated T x L n r x'
  | realloc b n, r, x' =>
    if b = 0 then Allocated T x L n r x' else Reallocated T x L b (x.sizeAt b) n r x'
  | free b, r, x' => r = 0 ∧ ∃ L', Ran T x x' L' ∧
      Removed (used x L) (used x' L') b (x.sizeAt b) ∧ Kept (others x L b) x x'

/-- The bytes that a call may touch outside the zone are in `T`: the header
behind a last block that shrinks, and the source of the copy of `realloc`. -/
def Call.Covered (T : Set ℕ) (x : Xma) (L : List Blk) : Call → Prop
  | realloc b n => b ≠ 0 →
      (roundSize n + 32 ≤ x.sizeAt b → x.end_ ≤ b + x.sizeAt b →
        ∀ i, b + x.sizeAt b ≤ i → i < b + x.sizeAt b + 8 → i ∈ T) ∧
      (x.sizeAt b < roundSize n → ¬GrowsInPlace x b n → ¬NoFit L (roundSize n) →
        ∀ i, b ≤ i → i < b + n → i ∈ T)
  | _ => True

theorem LiveInv.effect (hl : LiveInv x L live) (hv : c.Valid live) (hr : c.Rounds)
    (hT : zoneOf x ⊆ T) (hx : TouchedIn T x) (hc : c.Covered T x L) :
    Returns c.run x (c.Effect T x L) := by
  cases c with
  | alloc n => exact hl.inv.alloc hr hT hx
  | calloc n => exact hl.inv.calloc hr hT hx
  | realloc b n =>
    rw [Call.run]
    by_cases hb : b = 0
    · rw [Xma.realloc, if_pos hb]
      refine (hl.inv.alloc hr hT hx).mono fun r x' ha => ?_
      rw [Call.Effect, if_pos hb]
      exact ha
    · have hlive : b ∈ live := hv.resolve_left hb
      obtain ⟨hbeyond, hcopy⟩ := hc hb
      refine (hl.inv.realloc hT hx (hl.used_of_mem hlive) hr hbeyond hcopy).mono
        fun r x' ha => ?_
      rw [Call.Effect, if_neg hb]
      exact ha
  | free b =>
    rw [Call.run, returns_bind]
    refine (hl.inv.free hT hx (hl.used_of_mem hv)).mono fun _ x' ha => ?_
    rw [returns_pure]
    exact ⟨rfl, ha⟩

theorem Allocated.touchedIn (ha : Allocated T x L n r x') : TouchedIn T x' := by
  rcases ha with ⟨-, -, ht, -⟩ | ⟨-, -, L', hran, -, -⟩
  · exact ht
  · exact hran.touched

theorem Call.Effect.touchedIn (he : c.Effect T x L r x') : TouchedIn T x' := by
  cases c with
  | alloc n | calloc n => exact Allocated.touchedIn he
  | realloc b n =>
    rw [Call.Effect] at he
    split at he
    · exact he.touchedIn
    · rcases he with ⟨-, -, ht⟩ | ⟨-, L', hran, -⟩
      · exact ht
      · exact hran.touched
  | free b =>
    obtain ⟨-, L', hran, -⟩ := he
    exact hran.touched

theorem Call.Effect.liveInv (he : c.Effect T x L r x') (hl : LiveInv x L live)
    (hv : c.Valid live) : ∃ L', LiveInv x' L' (c.live r live) := by
  have hzero : (0 : ℕ) ∉ live := fun h0 => hl.ne_zero h0 rfl
  cases c with
  | alloc n | calloc n =>
    simp only [Call.live, Call.block, Finset.erase_eq_of_notMem hzero]
    exact Allocated.liveInv he hl
  | realloc b n =>
    simp only [Call.live, Call.block]
    rw [Call.Effect] at he
    by_cases hb : b = 0
    · rw [if_pos hb] at he
      rw [hb, Finset.erase_eq_of_notMem hzero]
      exact Allocated.liveInv he hl
    · rw [if_neg hb] at he
      exact Reallocated.liveInv he hl (hv.resolve_left hb)
  | free b =>
    obtain ⟨-, L', hran, hrem, -⟩ := he
    refine ⟨L', hran.inv, fun d => ?_⟩
    rw [Call.live, Finset.mem_erase, hrem.mem_iff, hl.mem_live]

def Call.Starved (x : Xma) (c : Call) : Prop :=
  ¬c.Rounds ∧ c.size < 2 ^ 64 ∧ c.block = 0 ∧ x.xfree (classOf 0) = 0 ∧
    x.xfree XFIMAX = 0 ∧ ∀ k ∈ chainsAfter (FIXED - 1), x.xfree k = 0

variable {Q : ℕ → Xma → Prop}

theorem allocFromFreelist_empty {k size : ℕ} (hk : x.xfree k = 0)
    (hQ : Q 0 x) : Returns (allocFromFreelist k size) x Q := by
  rw [allocFromFreelist, returns_bind, returns_get, returns_bind, getXfree, returns_bind,
    returns_get, returns_pure, hk, searchFreelist, if_pos rfl, returns_pure]
  exact hQ

theorem allocFromChains_empty {size : ℕ} {ks : List ℕ} (hks : ∀ k ∈ ks, x.xfree k = 0)
    (hQ : Q 0 x) : Returns (allocFromChains size ks) x Q := by
  induction ks with
  | nil =>
    rw [allocFromChains, returns_pure]
    exact hQ
  | cons k ks ih =>
    rw [allocFromChains, returns_bind]
    refine allocFromFreelist_empty (hks k (.head _)) ?_
    rw [if_neg (by simp)]
    exact ih fun j hj => hks j (.tail _ hj)

theorem alloc_starved (hn : roundSize n = 0) (hbdec : x.bdec = szlog2 (FIXED * ALIGN))
    (hown : x.xfree (classOf 0) = 0) (hhuge : x.xfree XFIMAX = 0)
    (hlarge : ∀ k ∈ chainsAfter (FIXED - 1), x.xfree k = 0)
    (hQ : Q 0 x) : Returns (alloc n) x Q := by
  have hxfi : getxfi x.bdec 0 = classOf 0 := by rw [hbdec, classOf]
  have hfix : ¬FIXED ≤ classOf 0 := by decide
  rw [alloc]
  simp only [returns_bind, returns_get, hn, hxfi, getXfree, returns_pure, hown]
  rw [if_neg (by simp), if_neg (by decide), returns_bind, allocNear, if_neg hfix, returns_bind]
  refine allocFromFreelist_empty hhuge ?_
  simp only [returns_pure, if_true, ne_eq, not_true_eq_false, if_false, returns_bind]
  refine allocFromChains_empty hlarge ?_
  rw [if_pos rfl, returns_pure]
  exact hQ

theorem Call.Starved.returns (hs : c.Starved x) (hbdec : x.bdec = szlog2 (FIXED * ALIGN)) :
    Returns c.run x fun r x' => r = 0 ∧ x' = x := by
  obtain ⟨hwrap, hsize, hblock, hown, hhuge, hlarge⟩ := hs
  have hround := roundSize_of_wrap hsize hwrap
  have halloc : ∀ {Q : ℕ → Xma → Prop}, Q 0 x → Returns (Xma.alloc c.size) x Q :=
    fun hQ => alloc_starved hround hbdec hown hhuge hlarge hQ
  cases c with
  | alloc n => exact halloc ⟨rfl, rfl⟩
  | calloc n =>
    rw [Call.run, Xma.calloc, returns_bind]
    refine halloc ?_
    rw [returns_bind, if_neg (by simp), returns_pure, returns_pure]
    exact ⟨rfl, rfl⟩
  | realloc b n =>
    have hb : b = 0 := hblock
    rw [Call.run, Xma.realloc, if_pos hb]
    exact halloc ⟨rfl, rfl⟩
  | free b => exact absurd (by rw [Call.Rounds, Call.size]; decide) hwrap

/-- A call that keeps the heap in order: its size survives rounding, or it is
refused because the chains it is looked up in are empty. -/
def Call.Sound (x : Xma) (c : Call) : Prop := c.Rounds ∨ c.Starved x

theorem sameHeap_forgetTouched (x : Xma) : SameHeap x x.forgetTouched :=
  ⟨rfl, rfl, rfl, rfl, rfl, rfl⟩

theorem touchedIn_forgetTouched (x : Xma) (T : Set ℕ) : TouchedIn T x.forgetTouched := by
  intro e he
  cases he

theorem LiveInv.step (hl : LiveInv x L live) (hv : c.Valid live) (hs : c.Sound x) :
    ∃ r x', Runs x c r x' ∧ ∃ L', LiveInv x' L' (c.live r live) := by
  have hl' := (sameHeap_forgetTouched x).liveInv hl
  rcases hs with hr | hs
  · have hc : c.Covered Set.univ x.forgetTouched L := by
      cases c with
      | realloc b n => exact fun _ => ⟨fun _ _ _ _ _ => trivial, fun _ _ _ _ _ _ => trivial⟩
      | _ => trivial
    obtain ⟨r, x', hrun, he⟩ :=
      hl'.effect hv hr (Set.subset_univ _) (touchedIn_forgetTouched x _) hc
    exact ⟨r, x', hrun, he.liveInv hl' hv⟩
  · obtain ⟨r, x', hrun, rfl, rfl⟩ := Call.Starved.returns (x := x.forgetTouched) hs hl'.inv.bdec
    refine ⟨0, _, hrun, L, ?_⟩
    cases c with
    | free b => exact absurd (by rw [Call.Rounds, Call.size]; decide) hs.1
    | _ => exact hl'

theorem LiveInv.write (hl : LiveInv x L live) {mem : Mem}
    (hmem : ∀ i, i ∉ x.contents live → mem i = x.mem i) :
    LiveInv { x with mem := mem } L live := by
  refine ⟨hl.inv.write _ withinUsed_used (fun i hi => hmem i ?_) rfl rfl rfl rfl rfl, hl.mem_live⟩
  rintro ⟨b, hb, hlo, hhi⟩
  exact hi ⟨_, hl.used_of_mem hb, hlo, hhi⟩

theorem reachable_inv {ok : Xma → Call → Prop} (hok : ∀ x c, ok x c → c.Sound x)
    (hx : Reachable ok x live) : ∃ L, LiveInv x L live := by
  induction hx with
  | init hinit hsize hzone =>
    obtain ⟨s, hs⟩ := heapInv_of_init hinit hsize hzone
    exact ⟨_, hs, fun b => by simp [used, usedFrom]⟩
  | write _ hmem ih =>
    obtain ⟨L, hL⟩ := ih
    exact ⟨L, hL.write hmem⟩
  | call _ hvalid hcall hrun ih =>
    obtain ⟨L, hL⟩ := ih
    obtain ⟨r', y, hrun', hinv⟩ := hL.step hvalid (hok _ _ hcall)
    rw [Runs] at hrun hrun'
    rw [hrun] at hrun'
    cases hrun'
    exact hinv

theorem Call.Effect.zone (he : c.Effect T x L r x') : x'.start = x.start ∧ x'.end_ = x.end_ := by
  have hallocated {n : ℕ} (ha : Allocated T x L n r x') :
      x'.start = x.start ∧ x'.end_ = x.end_ := by
    rcases ha with ⟨-, hsame, -⟩ | ⟨-, -, L', hran, -⟩
    · exact ⟨hsame.start, hsame.end_⟩
    · exact ⟨hran.start_eq, hran.end_eq⟩
  cases c with
  | alloc n | calloc n => exact hallocated he
  | realloc b n =>
    rw [Call.Effect] at he
    split at he
    · exact hallocated he
    · rcases he with ⟨-, hsame, -⟩ | ⟨-, L', hran, -⟩
      · exact ⟨hsame.start, hsame.end_⟩
      · exact ⟨hran.start_eq, hran.end_eq⟩
  | free b =>
    obtain ⟨-, L', hran, -⟩ := he
    exact ⟨hran.start_eq, hran.end_eq⟩

theorem reachable_zone {ok : Xma → Call → Prop} (hok : ∀ x c, ok x c → c.Sound x)
    (hx : Reachable ok x live) : x.start < x.end_ := by
  induction hx with
  | init hinit hsize hzone =>
    obtain ⟨s, hs⟩ := heapInv_of_init hinit hsize hzone
    have htiles := hs.tiles
    simp only [span, room_mk] at htiles
    omega
  | write _ _ ih => exact ih
  | @call x x' live c r hx hvalid hcall hrun ih =>
    obtain ⟨L, hL⟩ := reachable_inv hok hx
    have hL' := (sameHeap_forgetTouched x).liveInv hL
    rcases hok x c hcall with hrounds | hstarved
    · have hc : c.Covered Set.univ x.forgetTouched L := by
        cases c with
        | realloc b n => exact fun _ => ⟨fun _ _ _ _ _ => trivial, fun _ _ _ _ _ _ => trivial⟩
        | _ => trivial
      have heffect := hL'.effect hvalid hrounds (Set.subset_univ _) (touchedIn_forgetTouched x _) hc
      obtain ⟨hstart, hend⟩ := (heffect.of_run hrun).zone
      rw [hstart, hend]
      exact ih
    · have hreturns := Call.Starved.returns (x := x.forgetTouched) hstarved hL'.inv.bdec
      obtain ⟨-, rfl⟩ := hreturns.of_run hrun
      exact ih

theorem single_of_unused {a : ℕ} (hL : L ≠ []) (hpair : NoFreePair false L)
    (hused : usedFrom a L = []) : ∃ s, L = [⟨s, true⟩] := by
  have hfree {d : Blk} {L : List Blk} {a : ℕ} (h : usedFrom a (d :: L) = []) :
      d.free = true ∧ usedFrom (a + d.room) L = [] := by
    rw [usedFrom] at h
    split at h
    · exact ⟨‹_›, h⟩
    · cases h
  cases L with
  | nil => exact absurd rfl hL
  | cons d L =>
    obtain ⟨s, f⟩ := d
    obtain ⟨hd, htail⟩ := hfree hused
    cases L with
    | nil => exact ⟨s, by rw [show f = true from hd]⟩
    | cons e L => exact absurd ⟨hd, (hfree htail).1⟩ hpair.2.1

def room (x : Xma) : ℕ := x.end_ - x.start - 16

/-- When all blocks have been given back, however they were got, resized and given back, the zone is
one free block again, and a request is granted that this block is searched for and can hold. -/
theorem whole_of_returned {ok : Xma → Call → Prop} (hok : ∀ x c, ok x c → c.Sound x)
    (hx : Reachable ok x ∅) : HeapInv x [⟨x.room, true⟩] ∧
      ∀ n, RoundsUp n → roundSize n ≤ x.room →
        FIXED ≤ classOf x.room ∨ classOf x.room ≤ classOf (roundSize n) →
          ∃ b x', Runs x (.alloc n) b x' ∧ b ≠ 0 := by
  obtain ⟨L, hL⟩ := reachable_inv hok hx
  have hzone := reachable_zone hok hx
  have htiles := hL.inv.tiles
  have hne : L ≠ [] := by
    rintro rfl
    exact Nat.ne_of_lt hzone htiles
  have hused : usedFrom x.start L = [] := by
    refine eq_nil_iff_forall_not_mem.mpr fun u hu => ?_
    have hlive := (hL.mem_live u.1).mpr ⟨u.2, hu⟩
    cases hlive
  obtain ⟨s, rfl⟩ := single_of_unused hne hL.inv.coalesced hused
  have hroom : x.room = s := by
    simp only [span, room_mk] at htiles
    rw [room]
    omega
  rw [hroom]
  refine ⟨hL.inv, fun n hn hfits hclass => ?_⟩
  have hinv := (sameHeap_forgetTouched x).heapInv hL.inv
  obtain ⟨b, x', hrun, hallocated⟩ :=
    hinv.alloc hn (Set.subset_univ _) (touchedIn_forgetTouched x _)
  refine ⟨b, x', hrun, ?_⟩
  rcases hallocated with ⟨-, -, -, hnofit⟩ | ⟨hb, -⟩
  · have hsmall := hnofit _ (.head _) rfl hfits
    dsimp only at hsmall
    omega
  · exact hb

/-- A zone of 80 bytes from which 64 bytes have been allocated and given back. -/
theorem whole_of_returned_free : ∃ x, HeapInv x [⟨x.room, true⟩] ∧
    ∃ b x', Runs x (.alloc 64) b x' ∧ b ≠ 0 := by
  obtain ⟨x₀, hinit, hzone, hP⟩ := zone_of_check 80 (P := fun x => x.check (.alloc 64) fun b x =>
    decide (b = 4112) && x.check (.free 4112) fun r x => decide (r = 0 ∧ x.room = 64))
    (by decide +kernel)
  obtain ⟨b, x₁, halloc, hP⟩ := runs_of_check hP
  rw [Bool.and_eq_true, decide_eq_true_eq] at hP
  obtain ⟨rfl, hP⟩ := hP
  obtain ⟨r, x₂, hfree, hP⟩ := runs_of_check hP
  obtain ⟨rfl, hroom⟩ := of_decide_eq_true hP
  have hx₀ : Reachable (fun _ c => c.Rounds) x₀ ∅ := .init hinit (by decide) hzone
  have hx₁ := hx₀.call (c := .alloc 64) trivial (by decide) halloc
  have hx₂ := hx₁.call (c := .free 4112) (by decide) (by decide) hfree
  have hlive : (Call.free 4112).live 0 ((Call.alloc 64).live 4112 ∅) = ∅ := by decide
  rw [hlive] at hx₂
  obtain ⟨hinv, hgranted⟩ := whole_of_returned (fun _ _ hc => .inl hc) hx₂
  rw [hroom] at hgranted
  exact ⟨x₂, hinv, hgranted 64 (by decide) (by decide) (.inr (by decide))⟩

end

end Qse.Xma
