import Qse.Xma.Invariant

/-!
# The operations between two calls

What each operation does to an allocator that satisfies the heap invariant. `T` is a set of bytes
that contains the zone; where an operation may leave the zone, its rule asks that `T` holds those
bytes too.
-/

open Function List

namespace Qse.Xma

open ByteMemory MachineWord LinkedChain StateProgram

/-- The bytes of the regions `P` are as before. -/
def Kept (P : List (ℕ × ℕ)) (x x' : Xma) : Prop :=
  ∀ r ∈ P, ∀ i, r.1 ≤ i → i < r.1 + r.2 → x'.mem i = x.mem i

/-- The zone of `x`. -/
def zoneOf (x : Xma) : Set ℕ := Set.Ico x.start x.end_

structure Ran (T : Set ℕ) (x x' : Xma) (L' : List Blk) : Prop where
  inv : HeapInv x' L'
  touched : TouchedIn T x'
  start_eq : x'.start = x.start
  end_eq : x'.end_ = x.end_

def used (x : Xma) (L : List Blk) : List (ℕ × ℕ) := usedFrom x.start L

/-- The blocks in use other than `b`. -/
def others (x : Xma) (L : List Blk) (b : ℕ) : List (ℕ × ℕ) :=
  (used x L).filter fun r => r.1 ≠ b

def sizeAt (x : Xma) (b : ℕ) : ℕ := load x.mem (b - 8) 8 / 2

def FreeAt (x : Xma) (b : ℕ) : Prop := load x.mem (b - 8) 8 % 2 = 1

/-- The block behind `b` is free and has the bytes that `b` lacks for a request
of `n` bytes. -/
def GrowsInPlace (x : Xma) (b n : ℕ) : Prop :=
  b + sizeAt x b < x.end_ ∧ FreeAt x (b + sizeAt x b + 16) ∧
    roundSize n ≤ sizeAt x b + sizeAt x (b + sizeAt x b + 16)

section

variable {T : Set ℕ} {P : List (ℕ × ℕ)} {L L' : List Blk} {x x' : Xma} {n b s : ℕ}

theorem SameHeap.heapInv (hs : SameHeap x x') (hi : HeapInv x L) : HeapInv x' L := by
  obtain ⟨mem, start, end_, xfree, bdec, stat, touched⟩ := x
  obtain ⟨mem', start', end', xfree', bdec', stat', touched'⟩ := x'
  obtain ⟨rfl, rfl, rfl, rfl, rfl, rfl⟩ := hs
  exact ⟨hi.zone, hi.tiles, hi.small, hi.shows, hi.minSize, hi.coalesced, hi.files, hi.bdec,
    hi.stat⟩

theorem Heap.ran (hh : Heap (callCtx x T P) L' x') : Ran T x x' L' :=
  ⟨hh.heapInv, hh.tracked.touched, hh.tracked.start_eq, hh.tracked.end_eq⟩

theorem Heap.keptAll (hh : Heap (callCtx x T P) L x') : Kept P x x' :=
  fun _ hr _ hlo hhi => hh.kept hr hlo hhi

theorem Kept.trans {x₁ x₂ : Xma} (h : Kept P x x₁) (h' : Kept P x₁ x₂) : Kept P x x₂ :=
  fun r hr i hlo hhi => (h' r hr i hlo hhi).trans (h r hr i hlo hhi)

theorem Kept.of_subset {P' : List (ℕ × ℕ)} (h : Kept P x x') (hsub : ∀ r ∈ P', r ∈ P) :
    Kept P' x x' :=
  fun r hr => h r (hsub r hr)

theorem withinUsed_used : WithinUsed x L (used x L) :=
  fun r hr => ⟨r, hr, le_rfl, le_rfl⟩

theorem WithinUsed.of_subset {P' : List (ℕ × ℕ)} (hP : WithinUsed x L P)
    (hsub : ∀ r ∈ P', r ∈ P) : WithinUsed x L P' :=
  fun r hr => hP r (hsub r hr)

def Added (U U' : List (ℕ × ℕ)) (r size : ℕ) : Prop :=
  ∃ U₁ s U₂, U = U₁ ++ U₂ ∧ U' = U₁ ++ (r, s) :: U₂ ∧ size ≤ s

variable {size a k : ℕ}

theorem usedFrom_carve (hle : size ≤ s) :
    ∃ t, size ≤ t ∧ usedFrom a (carve size s) = [(a + 16, t)] := by
  rw [carve]
  split
  · exact ⟨size, le_rfl, rfl⟩
  · exact ⟨s, hle, rfl⟩

theorem Served.added {c : Ctx} {cand : ℕ} (hs : Served c L size k cand x') :
    ∃ L', Heap c L' x' ∧ Added (usedFrom c.start L) (usedFrom c.start L') (cand + 16) size := by
  obtain ⟨L₁, s, L₂, rfl, rfl, hle, -, hh⟩ := hs
  obtain ⟨t, ht, hcarve⟩ := usedFrom_carve (a := c.start + span L₁) hle
  refine ⟨_, hh, usedFrom c.start L₁, t, usedFrom (c.start + span L₁ + (16 + s)) L₂, ?_, ?_, ht⟩
  · simp [usedFrom_append, usedFrom, add_assoc]
  · have hspan := span_carve hle
    simp only [span, room_mk] at hspan
    simp only [usedFrom_append, span_append, hcarve, hspan]
    simp [add_assoc]

theorem Served.fits {c : Ctx} {cand : ℕ} (hs : Served c L size k cand x')
    (hk : k = classOf size ∨ FIXED ≤ k) : ¬NoFit L size := by
  obtain ⟨L₁, s, L₂, rfl, -, hle, hks, -⟩ := hs
  intro hno
  obtain ⟨hlo, hhi⟩ := hno ⟨s, true⟩ (by simp) rfl hle
  simp only [hks] at hlo hhi
  omega

/-- What `qse_xma_alloc` and `qse_xma_calloc` do for a request of `n` bytes. -/
def Allocated (T : Set ℕ) (x : Xma) (L : List Blk) (n r : ℕ) (x' : Xma) : Prop :=
  (r = 0 ∧ SameHeap x x' ∧ TouchedIn T x' ∧ NoFit L (roundSize n)) ∨
  (r ≠ 0 ∧ ¬NoFit L (roundSize n) ∧ ∃ L', Ran T x x' L' ∧
    Added (used x L) (used x' L') r (roundSize n) ∧ Kept (used x L) x x')

theorem HeapInv.alloc (hi : HeapInv x L) (hn : RoundsUp n) (hT : zoneOf x ⊆ T)
    (hx : TouchedIn T x) :
    Returns (alloc n) x (Allocated T x L n) := by
  obtain ⟨hh, hfree⟩ := hi.heap hT hx withinUsed_used
  refine hh.alloc hfree hn ?_ ?_
  · intro x' hsame hx' hno
    exact .inl ⟨rfl, hsame, hx'.tracked.touched, hno⟩
  · intro k cand x' hk hserved
    obtain ⟨L', hx', hadd⟩ := hserved.added
    refine .inr ⟨by omega, hserved.fits hk, L', hx'.ran, ?_, hx'.keptAll⟩
    rw [used, used, hx'.ran.start_eq]
    exact hadd

/-! ## Writing user contents -/

theorem HeapInv.write (hi : HeapInv x L) (x' : Xma) (hP : WithinUsed x L P)
    (hmem : ∀ i, i ∉ bytesOf P → x'.mem i = x.mem i) (hstart : x'.start = x.start)
    (hend : x'.end_ = x.end_) (hxfree : x'.xfree = x.xfree) (hbdec : x'.bdec = x.bdec)
    (hstat : x'.stat = x.stat) : HeapInv x' L := by
  have hload : ∀ {L₁ b L₂}, L = L₁ ++ [b] ++ L₂ → ∀ {a}, x.start + span L₁ ≤ a →
      a + 8 ≤ x.start + span L₁ + (if b.free then b.room else 16) →
      load x'.mem a 8 = load x.mem a 8 := by
    intro L₁ b L₂ hL a hlo hhi
    refine load_congr fun i hai hia => hmem i (hP.apart hL (by omega) (by omega))
  have hlink : ∀ {a s}, (a, s) ∈ freeFrom x.start L →
      nextOf x'.mem a = nextOf x.mem a ∧ prevOf x'.mem a = prevOf x.mem a := by
    intro a s ha
    obtain ⟨L₁, L₂, hL, rfl⟩ := mem_freeFrom.mp ha
    have hmin : 16 ≤ s := hi.minSize ⟨s, true⟩ (by rw [hL]; simp)
    have hroom : (if (⟨s, true⟩ : Blk).free then (⟨s, true⟩ : Blk).room else 16) = 16 + s := by
      rw [if_pos rfl, room_mk]
    exact ⟨hload hL (by omega) (by rw [hroom]; omega), hload hL (by omega) (by rw [hroom]; omega)⟩
  refine ⟨?_, ?_, hi.small, ?_, hi.minSize, hi.coalesced, ?_, ?_, ?_⟩
  · rw [hstart, hend]
    exact hi.zone
  · rw [hstart, hend]
    exact hi.tiles
  · rw [hstart, showsBlocks_iff]
    intro q h hq
    obtain ⟨L₁, b, L₂, hL, rfl, -⟩ := headersFrom_eq_some hq
    have hL' : L = L₁ ++ [b] ++ L₂ := by rw [hL, append_assoc]; rfl
    have hroom : 16 ≤ (if b.free then b.room else 16) := by
      split
      · rw [Blk.room]
        omega
      · exact le_rfl
    have hold := showsBlocks_iff.mp hi.shows hq
    exact ⟨(hload hL' (by omega) (by omega)).trans hold.1,
      (hload hL' (by omega) (by omega)).trans hold.2⟩
  · obtain ⟨fl, hfl⟩ := hi.files
    refine ⟨fl, fun k => ⟨?_, (hfl k).2.1, ?_⟩⟩
    · rw [hxfree]
      refine (hfl k).1.congr (fun a ha => ?_) (fun a ha => ?_)
      · obtain ⟨s, hs, -⟩ := ((hfl k).2.2 a).mp ha
        exact (hlink hs).1
      · obtain ⟨s, hs, -⟩ := ((hfl k).2.2 a).mp ha
        exact (hlink hs).2
    · rw [hstart, hbdec]
      exact (hfl k).2.2
  · rw [hbdec]
    exact hi.bdec
  · rw [hstat]
    exact hi.stat

theorem touchedIn_touch (hx : TouchedIn T x)
    (ha : ∀ i, a ≤ i → i < a + k → i ∈ T) : TouchedIn T (x.touch a k) := by
  intro e he
  rcases mem_cons.mp he with rfl | he
  · exact ha
  · exact hx e he

theorem HeapInv.used_inside (hi : HeapInv x L) (hb : (b, s) ∈ used x L) :
    x.start + 16 ≤ b ∧ b + s ≤ x.end_ := by
  obtain ⟨L₁, L₂, rfl, rfl⟩ := mem_usedFrom.mp hb
  have htiles := hi.tiles
  simp only [span_append, span, room_mk] at htiles
  omega

theorem used_apart {b' s' : ℕ} (hb : (b, s) ∈ used x L) (hb' : (b', s') ∈ used x L) :
    (b = b' ∧ s = s') ∨ b + s + 16 ≤ b' ∨ b' + s' + 16 ≤ b := by
  obtain ⟨L₁, L₂, hL, rfl⟩ := mem_usedFrom.mp hb
  obtain ⟨M₁, M₂, hM, rfl⟩ := mem_usedFrom.mp hb'
  rw [append_assoc, singleton_append] at hL hM
  rcases split_cases (hL.symm.trans hM) with ⟨rfl, heq⟩ | hle | hle
  · cases heq
    exact .inl ⟨rfl, rfl⟩
  · rw [room_mk] at hle
    omega
  · rw [room_mk] at hle
    omega

theorem mem_others {r : ℕ × ℕ} : r ∈ others x L b ↔ r ∈ used x L ∧ r.1 ≠ b := by
  simp [others]

theorem HeapInv.header (hi : HeapInv x L) (L₁ : List Blk) (d : Blk) (L₂ : List Blk)
    (hL : L = L₁ ++ d :: L₂) :
    sizeAt x (x.start + span L₁ + 16) = d.size ∧
      (FreeAt x (x.start + span L₁ + 16) ↔ d.free = true) := by
  have hshow := showsBlocks_iff.mp hi.shows (hL ▸ headersFrom_at)
  have hword : load x.mem (x.start + span L₁ + 16 - 8) 8 = 2 * d.size + d.free.toNat :=
    hshow.2
  rw [sizeAt, FreeAt, hword]
  refine ⟨?_, ?_⟩
  · have hbit : d.free.toNat ≤ 1 := Bool.toNat_le d.free
    omega
  · rw [Nat.mul_add_mod]
    cases d.free with
    | false => simp
    | true => simp

theorem HeapInv.sizeAt_eq (hi : HeapInv x L) (hb : (b, s) ∈ used x L) : sizeAt x b = s := by
  obtain ⟨L₁, L₂, hL, rfl⟩ := mem_usedFrom.mp hb
  rw [append_assoc, singleton_append] at hL
  exact (hi.header _ _ _ hL).1

theorem usedFrom_pairwise :
    (∀ u ∈ usedFrom a L, a < u.1) ∧ (usedFrom a L).Pairwise fun u v => u.1 < v.1 := by
  induction L generalizing a with
  | nil => simp [usedFrom]
  | cons d L ih =>
    obtain ⟨hlt, hpair⟩ := ih (a := a + d.room)
    have hroom : 16 ≤ d.room := by
      rw [Blk.room]
      omega
    rw [usedFrom]
    split
    · exact ⟨fun u hu => by have := hlt u hu; omega, hpair⟩
    refine ⟨fun u hu => ?_, pairwise_cons.mpr ⟨fun u hu => ?_, hpair⟩⟩
    · rcases mem_cons.mp hu with rfl | hu
      · simp only
        omega
      · have := hlt u hu
        omega
    · have := hlt u hu
      simp only
      omega

theorem HeapInv.memset (hi : HeapInv x L) (hx : TouchedIn T x) (hT : zoneOf x ⊆ T)
    (hb : (b, s) ∈ used x L) (hn : n ≤ s) :
    Returns (memset b n) x fun _ x' => Ran T x x' L ∧ Kept (others x L b) x x' := by
  have hin := hi.used_inside hb
  have hP : WithinUsed x L [(b, n)] := by
    intro r hr
    rw [mem_singleton.mp hr]
    exact ⟨(b, s), hb, le_rfl, by simp only; omega⟩
  rw [Xma.memset, returns_modify]
  refine ⟨⟨?_, ?_, rfl, rfl⟩, ?_⟩
  · refine hi.write { x.touch b n with mem := fill x.mem b n 0 } hP ?_ rfl rfl rfl rfl rfl
    intro i hout
    refine fill_of_apart ?_
    by_contra hin'
    exact hout ⟨(b, n), mem_singleton.mpr rfl, by simp only; omega, by simp only; omega⟩
  · refine touchedIn_touch hx fun i hlo hhi => hT ⟨?_, ?_⟩
    · omega
    · omega
  · intro r hr i hlo hhi
    obtain ⟨hr, hne⟩ := mem_others.mp hr
    refine fill_of_apart ?_
    rcases used_apart hb hr with ⟨heq, -⟩ | hle | hle
    · exact absurd heq.symm hne
    · omega
    · omega

theorem HeapInv.memcpy (hi : HeapInv x L) (hx : TouchedIn T x) (hT : zoneOf x ⊆ T)
    {d : ℕ} (hd : (d, s) ∈ used x L) (hn : n ≤ s) (hsrc : ∀ i, b ≤ i → i < b + n → i ∈ T) :
    Returns (memcpy d b n) x fun _ x' => Ran T x x' L ∧ Kept (others x L d) x x' ∧
      ∀ k, k < n → (b + k < d ∨ d + n ≤ b + k) → x'.mem (d + k) = x.mem (b + k) := by
  have hin := hi.used_inside hd
  have hP : WithinUsed x L [(d, n)] := by
    intro r hr
    rw [mem_singleton.mp hr]
    exact ⟨(d, s), hd, le_rfl, by simp only; omega⟩
  rw [Xma.memcpy, returns_modify]
  refine ⟨⟨?_, ?_, rfl, rfl⟩, ?_, fun k hk hout => copyForward_of_lt hk hout⟩
  · refine hi.write { (x.touch b n).touch d n with mem := copyForward x.mem d b n }
      hP ?_ rfl rfl rfl rfl rfl
    intro i hout
    refine copyForward_of_apart ?_
    by_contra hin'
    exact hout ⟨(d, n), mem_singleton.mpr rfl, by simp only; omega, by simp only; omega⟩
  · refine touchedIn_touch (touchedIn_touch hx hsrc) fun i hlo hhi => hT ⟨?_, ?_⟩
    · omega
    · omega
  · intro r hr i hlo hhi
    obtain ⟨hr, hne⟩ := mem_others.mp hr
    refine copyForward_of_apart ?_
    rcases used_apart hd hr with ⟨heq, -⟩ | hle | hle
    · exact absurd heq.symm hne
    · omega
    · omega

/-! ## Freeing and resizing -/

theorem not_mem_others {i : ℕ} (hb : (b, s) ∈ used x L) (hlo : b ≤ i + 16)
    (hhi : i < b + s + 16) : i ∉ bytesOf (others x L b) := by
  rintro ⟨r, hr, hri, hir⟩
  obtain ⟨hr, hne⟩ := mem_others.mp hr
  rcases used_apart hb hr with ⟨heq, -⟩ | hle | hle
  · exact hne heq.symm
  · omega
  · omega

def Removed (U U' : List (ℕ × ℕ)) (b s : ℕ) : Prop :=
  ∃ U₁ U₂, U = U₁ ++ (b, s) :: U₂ ∧ U' = U₁ ++ U₂

theorem HeapInv.free (hi : HeapInv x L) (hT : zoneOf x ⊆ T) (hx : TouchedIn T x)
    (hb : (b, s) ∈ used x L) :
    Returns (free b) x fun _ x' => ∃ L', Ran T x x' L' ∧
      Removed (used x L) (used x' L') b s ∧ Kept (others x L b) x x' := by
  have hwithin : WithinUsed x L (others x L b) :=
    withinUsed_used.of_subset fun r hr => (mem_others.mp hr).1
  obtain ⟨hh, -⟩ := hi.heap hT hx hwithin
  have hin := hi.used_inside hb
  obtain ⟨L₁, L₂, rfl, hbaddr⟩ := mem_usedFrom.mp hb
  have hmin : 16 ≤ s := hi.minSize ⟨s, false⟩ (by simp)
  have hall : Ctx.Allows (callCtx x T (others x (L₁ ++ [⟨s, false⟩] ++ L₂) b))
      (x.start + span L₁) 32 := by
    intro i hlo hhi
    exact ⟨hT ⟨by omega, by omega⟩, not_mem_others hb (by omega) (by omega)⟩
  have hfree := hh.free (Q := fun _ x' => ∃ L', Ran T x x' L' ∧
    Removed (used x (L₁ ++ [⟨s, false⟩] ++ L₂)) (used x' L') b s ∧
      Kept (others x (L₁ ++ [⟨s, false⟩] ++ L₂) b) x x') rfl hall ?_
  · rw [hbaddr]
    rw [hbaddr] at hfree
    exact hfree
  · intro L' x' hx' hused
    refine ⟨L', hx'.ran, ⟨usedFrom x.start L₁, usedFrom (x.start + span L₁ + 16 + s) L₂, ?_, ?_⟩,
      hx'.keptAll⟩
    · simp [used, usedFrom_append, usedFrom, hbaddr, add_assoc]
    · rw [used, hx'.ran.start_eq]
      exact hused

def Resized (U U' : List (ℕ × ℕ)) (b s s' : ℕ) : Prop :=
  ∃ U₁ U₂, U = U₁ ++ (b, s) :: U₂ ∧ U' = U₁ ++ (b, s') :: U₂

theorem HeapInv.reallocMerge (hi : HeapInv x L) (hT : zoneOf x ⊆ T) (hx : TouchedIn T x)
    (hb : (b, s) ∈ used x L) (hn : RoundsUp n)
    (hbeyond : roundSize n + 32 ≤ s → x.end_ ≤ b + s → ∀ i, b + s ≤ i → i < b + s + 8 → i ∈ T) :
    Returns (reallocMerge b n) x fun r x' =>
      (r = 0 ∧ SameHeap x x' ∧ TouchedIn T x' ∧ s < roundSize n ∧ ¬GrowsInPlace x b n) ∨
      (r = b ∧ ∃ L' s', Ran T x x' L' ∧ Resized (used x L) (used x' L') b s s' ∧
        roundSize n ≤ s' ∧ Kept ((b, min s (roundSize n)) :: others x L b) x x') := by
  have hwithin : WithinUsed x L ((b, min s (roundSize n)) :: others x L b) := by
    intro r hr
    rcases mem_cons.mp hr with rfl | hr
    · exact ⟨(b, s), hb, le_rfl, by simp only; omega⟩
    · exact withinUsed_used r (mem_others.mp hr).1
  obtain ⟨hh, hfree⟩ := hi.heap hT hx hwithin
  have hin := hi.used_inside hb
  have hout : ∀ {i}, b + min s (roundSize n) ≤ i → i < b + s + 8 →
      i ∉ bytesOf ((b, min s (roundSize n)) :: others x L b) := by
    rintro i hlo hhi ⟨r, hr, hri, hir⟩
    rcases mem_cons.mp hr with rfl | hr
    · simp only at hri hir
      omega
    · exact not_mem_others hb (by omega) (by omega) ⟨r, hr, hri, hir⟩
  obtain ⟨L₁, L₂, rfl, hbaddr⟩ := mem_usedFrom.mp hb
  generalize hblk : x.start + span L₁ = blk at hbaddr
  subst hbaddr
  refine hh.reallocMerge hblk.symm hn rfl hfree ?_ ?_ ?_ ?_
  · intro hshrink i hlo hhi
    exact ⟨hT ⟨by omega, by omega⟩, hout (by omega) (by omega)⟩
  · intro hshrink hend i hlo hhi
    exact ⟨hbeyond hshrink hend i hlo hhi, hout (by omega) (by omega)⟩
  · intro x' hsame hx' hlt hnext
    refine .inl ⟨rfl, hsame, hx'.tracked.touched, hlt, ?_⟩
    rintro ⟨hinside, hfreeAt, hroom⟩
    rw [hi.sizeAt_eq hb] at hinside hfreeAt hroom
    cases L₂ with
    | nil =>
      have htiles := hi.tiles
      simp only [span_append, span, room_mk] at htiles
      omega
    | cons d M =>
      obtain ⟨t, f⟩ := d
      have hhdr := hi.header (L₁ ++ [⟨s, false⟩]) ⟨t, f⟩ M rfl
      simp only [span_append, span, room_mk, add_zero, ← add_assoc, hblk] at hhdr
      have hf : f = true := hhdr.2.mp hfreeAt
      have hlt' := hnext t M (by rw [hf])
      rw [hhdr.1] at hroom
      omega
  · intro s' M x' hle hx' hused
    refine .inr ⟨rfl, _, s', hx'.ran, ⟨usedFrom x.start L₁, usedFrom (blk + 16 + s) L₂, ?_, ?_⟩,
      hle, hx'.keptAll⟩
    · simp [used, usedFrom_append, usedFrom, ← hblk, add_assoc]
    · rw [used, hx'.ran.start_eq, ← hused]
      simp [usedFrom_append, usedFrom, ← hblk, add_assoc]

theorem Added.spec {r : ℕ} (ha : Added (used x L) (used x' L') r k) :
    (∃ s, k ≤ s ∧ (r, s) ∈ used x' L') ∧ ∀ u ∈ used x L, u ∈ others x' L' r := by
  obtain ⟨U₁, s, U₂, hU, hU', hle⟩ := ha
  have hpair := (usedFrom_pairwise (a := x'.start) (L := L')).2
  change (used x' L').Pairwise _ at hpair
  rw [hU', pairwise_append, pairwise_cons] at hpair
  refine ⟨⟨s, hle, by rw [hU']; simp⟩, fun u hu => mem_others.mpr ?_⟩
  rw [hU] at hu
  rw [hU']
  rcases mem_append.mp hu with hu | hu
  · have hlt := hpair.2.2 u hu (r, s) (.head _)
    exact ⟨mem_append_left _ hu, Nat.ne_of_lt hlt⟩
  · have hlt := hpair.2.1.1 u hu
    exact ⟨mem_append_right _ (.tail _ hu), (Nat.ne_of_lt hlt).symm⟩

theorem Ran.trans {x₁ x₂ : Xma} {L₁ L₂ : List Blk} (h : Ran T x x₁ L₁) (h' : Ran T x₁ x₂ L₂) :
    Ran T x x₂ L₂ :=
  ⟨h'.inv, h'.touched, h'.start_eq.trans h.start_eq, h'.end_eq.trans h.end_eq⟩

theorem Ran.zone_subset (h : Ran T x x' L') (hT : zoneOf x ⊆ T) : zoneOf x' ⊆ T := by
  rw [zoneOf, h.start_eq, h.end_eq]
  exact hT

theorem Ran.used_eq (h : Ran T x x' L') (M : List Blk) : used x' M = used x M := by
  rw [used, used, h.start_eq]

theorem HeapInv.calloc (hi : HeapInv x L) (hn : RoundsUp n) (hT : zoneOf x ⊆ T)
    (hx : TouchedIn T x) :
    Returns (calloc n) x (Allocated T x L n) := by
  rw [Xma.calloc, returns_bind]
  refine (hi.alloc hn hT hx).mono fun r x₁ hr => ?_
  rw [returns_bind]
  rcases hr with ⟨rfl, hsame, hx₁, hno⟩ | ⟨hne, hfit, L', hran, hadd, hkept⟩
  · rw [if_neg (by simp), returns_pure, returns_pure]
    exact .inl ⟨rfl, hsame, hx₁, hno⟩
  obtain ⟨⟨s, hle, hmem⟩, hold⟩ := hadd.spec
  rw [if_pos hne]
  refine (hran.inv.memset hran.touched (hran.zone_subset hT) hmem
    ((le_roundSize hn).trans hle)).mono fun _ x₂ ⟨hran₂, hkept₂⟩ => ?_
  rw [returns_pure]
  refine .inr ⟨hne, hfit, L', hran.trans hran₂, ?_, hkept.trans (hkept₂.of_subset hold)⟩
  rw [hran₂.used_eq]
  exact hadd

/-- The fallback of `qse_xma_realloc`: a block is allocated at `r`, then the
block `b` is freed. -/
def Moved (x : Xma) (L : List Blk) (x' : Xma) (L' : List Blk) (b s r size : ℕ) : Prop :=
  ∃ y M, Added (used x L) (used y M) r size ∧ Removed (used y M) (used x' L') b s

/-- What `qse_xma_realloc` does for a block in use `b` of size `s` and a request
of `n` bytes. -/
def Reallocated (T : Set ℕ) (x : Xma) (L : List Blk) (b s n r : ℕ) (x' : Xma) : Prop :=
  (r = 0 ∧ SameHeap x x' ∧ TouchedIn T x') ∨
  (r ≠ 0 ∧ ∃ L', Ran T x x' L' ∧ Kept (others x L b) x x' ∧
    (∀ k, k < min s n → x'.mem (r + k) = x.mem (b + k)) ∧
    ((r = b ∧ ∃ s', Resized (used x L) (used x' L') b s s' ∧ roundSize n ≤ s') ∨
      Moved x L x' L' b s r (roundSize n)))

theorem HeapInv.realloc (hi : HeapInv x L) (hT : zoneOf x ⊆ T) (hx : TouchedIn T x)
    (hb : (b, s) ∈ used x L) (hn : RoundsUp n)
    (hbeyond : roundSize n + 32 ≤ s → x.end_ ≤ b + s → ∀ i, b + s ≤ i → i < b + s + 8 → i ∈ T)
    (hcopy : s < roundSize n → ¬GrowsInPlace x b n → ¬NoFit L (roundSize n) →
      ∀ i, b ≤ i → i < b + n → i ∈ T) :
    Returns (realloc b n) x (Reallocated T x L b s n) := by
  have hin := hi.used_inside hb
  have hzone := hi.zone
  rw [Xma.realloc, if_neg (by omega), returns_bind]
  refine (hi.reallocMerge hT hx hb hn hbeyond).mono fun r x₁ hr => ?_
  rcases hr with ⟨rfl, hsame₁, hx₁, hlt, hgrow⟩ | ⟨rfl, L', s', hran, hres, hle, hkept⟩
  · -- the fallback
    have hi₁ := hsame₁.heapInv hi
    have hzone₁ : zoneOf x₁ ⊆ T := by
      rw [zoneOf, hsame₁.start, hsame₁.end_]
      exact hT
    have hused₁ : used x₁ L = used x L := by rw [used, used, hsame₁.start]
    rw [if_pos rfl, returns_bind]
    refine (hi₁.alloc hn hzone₁ hx₁).mono fun r x₂ hr => ?_
    rw [returns_bind]
    rcases hr with ⟨rfl, hsame₂, hx₂, -⟩ | ⟨hne, hserved, L₂, hran₂, hadd, hkept₂⟩
    · rw [if_neg (by simp), returns_pure, returns_pure]
      exact .inl ⟨rfl, hsame₁.trans hsame₂, hx₂⟩
    obtain ⟨⟨t, hle, hmem⟩, hold⟩ := hadd.spec
    rw [hused₁] at hadd hold hkept₂
    obtain ⟨hbmem, hbne⟩ := mem_others.mp (hold (b, s) hb)
    have hnt : n ≤ t := (le_roundSize hn).trans hle
    rw [if_pos hne, returns_bind]
    refine (hran₂.inv.memcpy hran₂.touched (hran₂.zone_subset hzone₁) hmem hnt
      (hcopy hlt hgrow hserved)).mono fun _ x₃ ⟨hran₃, hkept₃, hbytes⟩ => ?_
    have hbmem₃ : (b, s) ∈ used x₃ L₂ := by
      rw [hran₃.used_eq]
      exact hbmem
    refine (hran₃.inv.free (hran₃.zone_subset (hran₂.zone_subset hzone₁)) hran₃.touched
      hbmem₃).mono fun _ x₄ ⟨L₄, hran₄, hrem, hkept₄⟩ => ?_
    rw [returns_pure]
    have hran := (hran₂.trans hran₃).trans hran₄
    refine .inr ⟨hne, L₄, ⟨hran.inv, hran.touched, hran.start_eq.trans hsame₁.start,
      hran.end_eq.trans hsame₁.end_⟩, ?_, ?_, .inr ⟨x₂, L₂, hadd, ?_⟩⟩
    · intro u hu i hlo hhi
      obtain ⟨hu, hub⟩ := mem_others.mp hu
      have hu₃ : u ∈ others x₃ L₂ b := by
        rw [mem_others, hran₃.used_eq]
        exact ⟨(mem_others.mp (hold u hu)).1, hub⟩
      rw [hkept₄ u hu₃ i hlo hhi, hkept₃ u (hold u hu) i hlo hhi,
        hkept₂ u hu i hlo hhi, hsame₁.mem]
    · intro k hk
      have hr₃ : (r, t) ∈ others x₃ L₂ b := by
        rw [mem_others, hran₃.used_eq]
        exact ⟨hmem, fun heq => hbne heq.symm⟩
      have hapart : b + k < r ∨ r + n ≤ b + k := by
        rcases used_apart hmem hbmem with ⟨heq, -⟩ | hle' | hle'
        · exact absurd heq.symm hbne
        · omega
        · omega
      rw [hkept₄ (r, t) hr₃ (r + k) (by simp only; omega) (by simp only; omega),
        hbytes k (by omega) hapart,
        hkept₂ (b, s) hb (b + k) (by simp only; omega) (by simp only; omega), hsame₁.mem]
    · rw [hran₃.used_eq] at hrem
      exact hrem
  · rw [if_neg (by omega), returns_pure]
    refine .inr ⟨by omega, L', hran, ?_, ?_, .inl ⟨rfl, s', hres, hle⟩⟩
    · exact hkept.of_subset fun u hu => .tail _ hu
    · intro k hk
      have hround := le_roundSize hn
      exact hkept _ mem_cons_self (r + k) (by simp only; omega) (by simp only; omega)

end

/-! ## Setting up a zone -/

def InAddressSpace (x : Xma) : Prop := 16 ≤ x.start ∧ x.end_ < 2 ^ 64

instance (x : Xma) : Decidable (InAddressSpace x) := inferInstanceAs (Decidable (_ ∧ _))

section

variable {c : Ctx} {s : Stat} {x : Xma} {mem : Mem} {zoneptr zonesize : ℕ}

theorem tracked_empty (hx : x.xfree = fun _ => 0) (hzone : InAddressSpace x)
    (hbdec : x.bdec = szlog2 (FIXED * ALIGN)) (htouched : x.touched = []) :
    Tracked (callCtx x Set.univ []) (fun _ => none) x.stat x := by
  refine
    { start_eq := rfl, end_eq := rfl, zone := hzone, bdec := hbdec, stat := rfl,
      shows := nofun, inside := nofun, apart := nofun, headerAllowed := nofun,
      linksAllowed := nofun, touched := by simp [htouched], frame := fun _ _ => rfl,
      lists := ?_ }
  refine ⟨fun _ => [], fun k => ?_, fun k => nodup_nil, fun k a => by simp⟩
  rw [hx]
  exact linked_nil.mpr rfl

theorem initZone_zone (hinit : initZone mem zoneptr zonesize = some x) :
    x.start = zoneptr ∧ x.end_ = zoneptr + zonesize := by
  have hfields : ∃ x', initZone mem zoneptr zonesize = some x' ∧ x'.start = zoneptr ∧
      x'.end_ = zoneptr + zonesize := ⟨_, rfl, rfl, rfl⟩
  obtain ⟨x', hx', hstart, hend⟩ := hfields
  rw [hinit] at hx'
  cases hx'
  exact ⟨hstart, hend⟩

theorem heapInv_of_initZone (hinit : initZone mem zoneptr zonesize = some x)
    (hlo : FBLKMINSIZE ≤ zonesize) (hhi : zonesize ≤ 2 ^ 63) (hzone : InAddressSpace x) :
    HeapInv x [⟨zonesize - 16, true⟩] := by
  obtain ⟨hstart, hend⟩ := initZone_zone hinit
  rw [InAddressSpace, hstart, hend] at hzone
  clear hstart hend
  rw [initZone] at hinit
  obtain ⟨⟨⟨⟩, x'⟩, hrun, rfl⟩ := Option.map_eq_some_iff.mp hinit
  simp only [FBLKMINSIZE, MBLKHDRSIZE, MINALLOCSIZE] at hlo
  refine Returns.of_run (Q := fun _ x' => HeapInv x' _) ?_ hrun
  generalize hx₀ : ({
      mem := mem, start := zoneptr, end_ := zoneptr + zonesize, xfree := fun _ => 0,
      bdec := szlog2 (FIXED * ALIGN),
      stat := { total := zonesize, alloc := 0, avail := wordSub zonesize MBLKHDRSIZE,
                nused := 0, nfree := 1 },
      touched := [] } : Xma) = x₀
  have hfits : Fits (callCtx x₀ Set.univ []) [⟨zonesize - 16, true⟩] := by
    subst hx₀
    refine ⟨?_, ?_, ?_, ⟨by simp, trivial⟩⟩
    · simp only [callCtx, span, room_mk]
      omega
    · simp only [span, room_mk]
      omega
    · intro b hb
      rw [mem_singleton.mp hb]
      simp only
      omega
  have hsize : wordSub zonesize MBLKHDRSIZE = zonesize - 16 := by
    rw [MBLKHDRSIZE, wordSub_eq (by omega) (by omega)]
  have hstat : x₀.stat = statOf [⟨zonesize - 16, true⟩] := by
    subst hx₀
    simp only [statOf, span, usedSum, freeSum, usedCount, freeCount, room_mk, hsize, if_true,
      Stat.mk.injEq]
    exact ⟨by omega, trivial, rfl, trivial, trivial⟩
  have ht : Tracked (callCtx x₀ Set.univ []) (fun _ => none) x₀.stat x₀ := by
    subst hx₀
    exact tracked_empty rfl hzone rfl rfl
  have hstart : (callCtx x₀ Set.univ []).start = zoneptr := by
    subst hx₀
    rfl
  have hend : (callCtx x₀ Set.univ []).end_ = zoneptr + zonesize := by
    subst hx₀
    rfl
  have hall : ∀ {a n}, (callCtx x₀ Set.univ []).Allows a n := by
    intro a n i _ _
    exact ⟨trivial, fun hi => by obtain ⟨r, hr, -⟩ := hi; cases hr⟩
  generalize callCtx x₀ Set.univ [] = c at *
  rw [hsize, returns_bind]
  have ht := ht.record (b := zoneptr) rfl ⟨by omega, by omega⟩ (by simp) hall
  refine ht.setPrevSize (update_self ..) (by omega) fun x₁ ht₁ => ?_
  rw [returns_bind]
  refine ht₁.setFree (update_self ..) fun x₂ ht₂ => ?_
  rw [returns_bind]
  refine ht₂.setSize (update_self ..) rfl (by omega) fun x₃ ht₃ => ?_
  simp only [update_idem, hdrAt] at ht₃
  -- the block is put on its empty chain
  generalize hH : update (fun _ => none) zoneptr
    (some (⟨0, zonesize - 16, true, false⟩ : Hdr)) = H at ht₃
  have hb : H zoneptr = some ⟨0, zonesize - 16, true, false⟩ := by
    rw [← hH, update_self]
  obtain ⟨fl, hfl⟩ := ht₃.lists
  have hnil : ∀ k, fl k = [] := by
    intro k
    rw [eq_nil_iff_forall_not_mem]
    intro a ha
    obtain ⟨g, hg, hon, -⟩ := hfl.cell ha
    rw [← hH] at hg
    by_cases hab : a = zoneptr
    · rw [hab, update_self] at hg
      cases hg
      cases hon
    · rw [update_of_ne hab] at hg
      cases hg
  have hempty : ∀ k, x₃.xfree k = 0 := fun k =>
    (hfl.linked k).head_eq_nil_iff.mpr (hnil k)
  simp only [returns_bind]
  refine ht₃.setFreePrev (fun _ => ⟨rfl, rfl⟩) hb hall (by omega) fun x₄ hr₄ hx₄ hl₄ => ?_
  refine hr₄.setFreeNext hl₄ hb hall (by omega) fun x₅ hr₅ hx₅ hl₅ => ?_
  have hxfree : x₅.xfree = x₃.xfree := hx₅.trans hx₄
  have hfl₅ : FreeLists (update (nextOf x₃.mem) zoneptr 0)
      (update (prevOf x₃.mem) zoneptr 0) x₅.xfree H fl := by
    refine ⟨fun k => ?_, hfl.nodup, hfl.mem_iff⟩
    rw [hnil k, linked_nil, hxfree]
    exact hempty k
  refine (Tracked.of_lists _ _ _ hr₅ hl₅ hfl₅).getSize hb fun x₆ hsame₆ ht₆ => ?_
  rw [setXfree, returns_modify]
  have hpush := hfl₅.push (k := classOf (zonesize - 16))
    (update (nextOf x₃.mem) zoneptr 0) (update (prevOf x₃.mem) zoneptr 0)
    hb rfl (show zoneptr ≠ 0 by omega) rfl ?_ (update_self ..) ?_
    (fun _ _ => rfl) (fun _ _ _ _ => rfl)
  · have hxfi : getxfi x₀.bdec (zonesize - 16) = classOf (zonesize - 16) := by
      rw [ht.bdec, classOf]
    rw [hxfi]
    refine (Heap.of_tracked (x := x₆.putXfree (classOf (zonesize - 16)) zoneptr)
      (L := [⟨zonesize - 16, true⟩]) (c := c) (H := update H zoneptr
        (some ⟨0, zonesize - 16, true, true⟩)) (s := x₀.stat) ?_ hfits ?_ hstat).heapInv
    · rw [← hsame₆.xfree] at hpush
      refine Tracked.of_lists _ _ _ { ht₆.toRecorded.rechain hb (fun _ => hall) with } ?_ hpush
      intro a g hg
      change nextOf x₆.mem a = _ ∧ prevOf x₆.mem a = _
      rw [hsame₆.mem]
      by_cases hab : a = zoneptr
      · exact hl₅ (hab ▸ hb)
      · rw [update_of_ne hab] at hg
        exact hl₅ hg
    · funext q
      rw [hstart, headersFrom_cons, ← hH, update_idem]
      by_cases hq : q = zoneptr
      · rw [hq, update_self, if_pos rfl]
        rfl
      · rw [update_of_ne hq, if_neg hq]
        rfl
  · rw [update_self, hxfree, hempty]
  · intro hne
    rw [hxfree] at hne
    exact absurd (hempty _) hne

theorem heapInv_of_init {mmgrAlloc : ℕ → ℕ} (hinit : init mmgrAlloc mem zoneptr zonesize = some x)
    (hsize : zonesize < 2 ^ 63) (hzone : InAddressSpace x) :
    ∃ s, HeapInv x [⟨s, true⟩] := by
  rw [init] at hinit
  split at hinit
  · -- the zone comes from the memory manager
    have hround : alignToPow2 zonesize = (zonesize + 15) / 16 * 16 :=
      alignToPow2_eq (by simp only [RoundsUp, ALIGN]; omega)
    obtain ⟨z, hz⟩ : ∃ z, z = (if alignToPow2 zonesize < FBLKMINSIZE then FBLKMINSIZE
      else alignToPow2 zonesize) := ⟨_, rfl⟩
    simp only [← hz] at hinit
    have hbounds : FBLKMINSIZE ≤ z ∧ z ≤ 2 ^ 63 := by
      rw [hz]
      split
      · decide
      · omega
    split at hinit
    · cases hinit
    · exact ⟨_, heapInv_of_initZone hinit hbounds.1 hbounds.2 hzone⟩
  · split at hinit
    · cases hinit
    · exact ⟨_, heapInv_of_initZone hinit (by omega) (by omega) hzone⟩

theorem zone_of_check (zonesize : ℕ) {P : Xma → Bool}
    (h : ((init (fun _ => 0) (fun _ => 0) 4096 zonesize).any fun x =>
      decide (InAddressSpace x) && P x) = true) :
    ∃ x, init (fun _ => 0) (fun _ => 0) 4096 zonesize = some x ∧ InAddressSpace x ∧ P x = true := by
  rw [Option.any_eq_true] at h
  obtain ⟨x, hinit, hP⟩ := h
  rw [Bool.and_eq_true, decide_eq_true_eq] at hP
  exact ⟨x, hinit, hP.1, hP.2⟩

end

end Qse.Xma
