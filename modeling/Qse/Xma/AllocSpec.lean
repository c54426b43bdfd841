import Mathlib.Order.Interval.Finset.Nat
import Qse.Xma.Layout

/-!
# Allocation

What `alloc_from_freelist` and `qse_xma_alloc` do to the layout of the zone. A request of the size
`size` that is served from a free block of size `s` replaces that block by `carve size s`.
-/

open Function List

namespace Qse.Xma

open ByteMemory MachineWord LinkedChain StateProgram

def carve (size s : ℕ) : List Blk :=
  if FBLKMINSIZE ≤ s - size then [⟨size, false⟩, ⟨s - size - 16, true⟩] else [⟨s, false⟩]

section

variable {c : Ctx} {L L₁ L₂ : List Blk} {x : Xma} {cand s size : ℕ}

theorem span_carve (hle : size ≤ s) : span (carve size s) = span [⟨s, true⟩] := by
  rw [carve]
  split
  · next hrem =>
      simp only [FBLKMINSIZE, MBLKHDRSIZE, MINALLOCSIZE] at hrem
      simp only [span, room_mk]
      omega
  · rfl

theorem Fits.carve (hf : Fits c (L₁ ++ [⟨s, true⟩] ++ L₂)) (hmin : 16 ≤ size)
    (hle : size ≤ s) : Fits c (L₁ ++ carve size s ++ L₂) := by
  have hold := hf.coalesced
  rw [noFreePair_append, noFreePair_append, lastFree_append] at hold
  refine hf.replace (span_carve hle) ?_ ?_
  · intro b hb
    have hs := hf.minSize ⟨s, true⟩ (by simp)
    rw [Xma.carve] at hb
    split at hb
    · next hrem =>
        simp only [FBLKMINSIZE, MBLKHDRSIZE, MINALLOCSIZE] at hrem
        rcases mem_pair.mp hb with rfl | rfl
        · exact hmin
        · simp only
          omega
    · rw [mem_singleton.mp hb]
      exact hs
  · rw [Xma.carve]
    split
    · exact ⟨⟨by simp, by simp, trivial⟩, hold.2⟩
    · exact ⟨⟨by simp, trivial⟩, hold.2.of_used⟩

def Stat.takeWhole (st : Stat) (s : ℕ) : Stat :=
  { st with
    nfree := wordSub st.nfree 1
    nused := wordAdd st.nused 1
    alloc := wordAdd st.alloc s
    avail := wordSub st.avail s }

theorem Heap.of_takeWhole {x' : Xma} (hh : Heap c (L₁ ++ [⟨s, true⟩] ++ L₂) x)
    (ht : Tracked c (update (headersFrom c.start 0 (L₁ ++ [⟨s, true⟩] ++ L₂))
      (c.start + span L₁) (some ⟨lastSize 0 L₁, s, false, false⟩))
      ((statOf (L₁ ++ [⟨s, true⟩] ++ L₂)).takeWhole s) x') :
    Heap c (L₁ ++ [⟨s, false⟩] ++ L₂) x' := by
  have hs := hh.fits.minSize ⟨s, true⟩ (by simp)
  have hold := hh.fits.coalesced
  rw [noFreePair_append, noFreePair_append, lastFree_append] at hold
  refine Heap.of_tracked ht (hh.fits.replace rfl ?_ ?_) headersFrom_refile ?_
  · intro b hb
    rw [mem_singleton.mp hb]
    exact hs
  · exact ⟨⟨by simp, trivial⟩, hold.2.of_used⟩
  · obtain ⟨α, φ, u, g, hsmall, hstat⟩ := hh.fits.exists_stat
    simp only [Stat.takeWhole, hstat, span, usedSum, freeSum, usedCount, freeCount, room_mk,
      Stat.mk.injEq, if_true, if_false, Bool.false_eq_true] at hsmall ⊢
    simp (disch := omega) only [wordAdd_eq, wordSub_eq, true_and]
    omega

theorem Heap.takeFromFreelist (hh : Heap c (L₁ ++ [⟨s, true⟩] ++ L₂) x)
    (hcand : cand = c.start + span L₁) (hall : c.Allows cand (16 + s))
    (hmin : 16 ≤ size) (hle : size ≤ s) {Q : PUnit → Xma → Prop}
    (hQ : ∀ x', Heap c (L₁ ++ carve size s ++ L₂) x' → Q ⟨⟩ x') :
    Returns (takeFromFreelist cand size) x Q := by
  have hfits := hh.fits.carve hmin hle
  obtain ⟨α, φ, u, g, hsmall, hstat⟩ := hh.fits.exists_stat
  simp only [span, room_mk] at hsmall
  have ht := hh.tracked
  obtain ⟨z, hz⟩ : ∃ z, z = cand + 16 + s := ⟨_, rfl⟩
  have hhere := hh.here _ _ _ rfl hcand (hz.trans (add_assoc ..))
  simp only [Blk.hdr] at hhere
  have hs := ht.size_lt hhere.hdr
  generalize hH : headersFrom c.start 0 (L₁ ++ [⟨s, true⟩] ++ L₂) = H at ht hhere
  rw [Xma.takeFromFreelist, returns_bind]
  refine ht.detachFromFreelist hhere.hdr rfl fun x₁ ht₁ => ?_
  rw [returns_bind]
  refine ht₁.getSize (update_self ..) fun x₂ _ ht₂ => ?_
  simp only at hs ⊢
  rw [wordSub_eq hle (by omega), returns_bind]
  by_cases hrem : FBLKMINSIZE ≤ s - size
  · rw [if_pos hrem]
    rw [carve, if_pos hrem] at hfits hQ
    simp only [FBLKMINSIZE, MBLKHDRSIZE, MINALLOCSIZE] at hrem
    rw [splitCand, returns_bind]
    refine ht₂.setSize (update_self ..) rfl (by omega) fun x₃ ht₃ => ?_
    simp only [update_idem] at ht₃
    have hy : wordSub (s - size) MBLKHDRSIZE = s - size - 16 :=
      wordSub_eq (by rw [MBLKHDRSIZE]; omega) (by omega)
    rw [hy, returns_bind]
    generalize hye : cand + 16 + size = y
    have hin := hhere.inside
    have hyc : y ≠ cand := by omega
    have hnone : H y = none := hhere.none_of_lt (by omega) (by omega)
    refine ht₃.fileLeftover (update_self ..) hye.symm
      (by rw [update_of_ne hyc, hnone]) (by omega) ?_
      (hall.mono (by omega) (by omega)) (by omega) fun x₄ ht₄ => ?_
    · intro a g hg
      by_cases hac : a = cand
      · omega
      · rw [update_of_ne hac] at hg
        rcases hhere.others hg hac with hlt | hge
        · omega
        · omega
    rw [returns_bind]
    have hzy : y + 16 + (s - size - 16) = z := by omega
    refine ht₄.relinkNext (update_self ..) ?_ fun x₅ ht₅ => ?_
    · rw [hzy]
      intro hlt
      rw [update_of_ne (by omega), update_of_ne (by omega)]
      exact hhere.next hlt
    rw [hzy] at ht₅
    refine ht₅.modifyStat fun x₆ ht₆ => ?_
    rw [returns_bind]
    have hfront : relink (update (update H cand
        (some ⟨lastSize 0 L₁, size, true, false⟩)) y
          (some ⟨size, s - size - 16, true, true⟩)) z (s - size - 16) cand =
        some ⟨lastSize 0 L₁, size, true, false⟩ := by
      rw [relink, if_neg (by omega), update_of_ne (by omega), update_self]
    refine ht₆.setFree hfront fun x₇ ht₇ => ?_
    rw [returns_bind]
    refine ht₇.getSize (update_self ..) fun x₈ _ ht₈ => ?_
    refine ht₈.modifyStat fun x₉ ht₉ => ?_
    refine hQ x₉ (Heap.of_tracked ht₉ hfits ?_ ?_)
    · rw [← hH]
      refine headersFrom_pair (S := [⟨s, true⟩]) hcand hye.symm hzy.symm
        (by simp only [span, room_mk]; omega) ?_ (update_self ..) ?_ ?_ ?_
      · intro q hq
        rw [hH, update_of_ne (by omega), relink, if_neg (by omega),
          update_of_ne (by omega), update_of_ne (by omega)]
      · rw [update_of_ne hyc, relink, if_neg (by omega), update_self]
      · intro q hlo hhi hqy
        rw [hH, update_of_ne (by omega), relink, if_neg (by omega),
          update_of_ne hqy, update_of_ne (by omega)]
        exact hhere.none_of_lt hlo hhi
      · rw [hH, update_of_ne (by omega), relink, relink, if_pos rfl, if_pos rfl,
          update_of_ne (by omega), update_of_ne (by omega)]
    · simp only [hstat, span, usedSum, freeSum, usedCount, freeCount, room_mk,
        Stat.mk.injEq, MBLKHDRSIZE, if_true, if_false, Bool.false_eq_true]
      refine ⟨?_, ?_, ?_, ?_, ?_⟩
      · omega
      · rw [wordAdd_eq (by omega)]
        omega
      · rw [wordSub_eq (b := 16) (by omega) (by omega), wordSub_eq (by omega) (by omega)]
        omega
      · rw [wordAdd_eq (by omega)]
      · trivial
  · -- the whole candidate is taken
    rw [if_neg hrem]
    rw [carve, if_neg hrem] at hQ
    refine ht₂.modifyStat fun x₃ ht₃ => ?_
    rw [returns_bind]
    refine ht₃.setFree (update_self ..) fun x₄ ht₄ => ?_
    simp only [update_idem] at ht₄
    rw [returns_bind]
    refine ht₄.getSize (update_self ..) fun x₅ _ ht₅ => ?_
    refine ht₅.modifyStat fun x₆ ht₆ => ?_
    rw [← hH, hcand] at ht₆
    exact hQ x₆ (hh.of_takeWhole ht₆)

theorem Heap.takeHead (hh : Heap c (L₁ ++ [⟨s, true⟩] ++ L₂) x)
    (hcand : cand = c.start + span L₁) {Q : PUnit → Xma → Prop}
    (hQ : ∀ x', Heap c (L₁ ++ [⟨s, false⟩] ++ L₂) x' → Q ⟨⟩ x') :
    Returns (takeHead cand) x Q := by
  have hhere := hh.here _ _ _ rfl hcand rfl
  rw [Xma.takeHead, returns_bind]
  refine hh.tracked.detachFromFreelist hhere.hdr rfl fun x₁ ht₁ => ?_
  rw [returns_bind]
  refine ht₁.setFree (update_self ..) fun x₂ ht₂ => ?_
  rw [update_idem] at ht₂
  rw [returns_bind]
  refine ht₂.getSize (update_self ..) fun x₃ _ ht₃ => ?_
  refine ht₃.modifyStat fun x₄ ht₄ => ?_
  rw [hcand] at ht₄
  exact hQ x₄ (hh.of_takeWhole ht₄)

def Served (c : Ctx) (L : List Blk) (size k cand : ℕ) (x' : Xma) : Prop :=
  ∃ L₁ s L₂, L = L₁ ++ [⟨s, true⟩] ++ L₂ ∧ cand = c.start + span L₁ ∧ size ≤ s ∧
    classOf s = k ∧ Heap c (L₁ ++ carve size s ++ L₂) x'

def TooSmall (L : List Blk) (size k : ℕ) : Prop :=
  ∀ b ∈ L, b.free = true → classOf b.size = k → b.size < size

variable {Q : ℕ → Xma → Prop} {k : ℕ}

theorem Served.ne_zero {x' : Xma} (hs : Served c L size k cand x') : cand ≠ 0 := by
  obtain ⟨L₁, s, L₂, -, rfl, -, -, hh⟩ := hs
  have hzone := hh.tracked.zone
  omega

theorem Heap.searchFreelist (hh : Heap c L x) (hfree : FreeAllowed c L) (hmin : 16 ≤ size)
    {cs : List ℕ} {p fuel : ℕ} (hl : Linked 0 (nextOf x.mem) (prevOf x.mem) p cand cs)
    (hcs : ∀ a ∈ cs, ∃ h, headersFrom c.start 0 L a = some h ∧ h.chained = true ∧
      classOf h.size = k) (hfuel : cs.length < fuel) (hnone : ∀ x', SameHeap x x' → Heap c L x' →
      (∀ a ∈ cs, ∀ {h}, headersFrom c.start 0 L a = some h → h.size < size) → Q 0 x')
    (hsome : ∀ r x', Served c L size k r x' → Q r x') :
    Returns (searchFreelist size fuel cand) x Q := by
  induction cs generalizing p fuel cand x with
  | nil =>
    obtain ⟨fuel, rfl⟩ := Nat.exists_eq_add_of_lt hfuel
    rw [linked_nil] at hl
    rw [Xma.searchFreelist, if_pos hl, returns_pure]
    exact hnone x (SameHeap.refl x) hh (by simp)
  | cons a cs ih =>
    obtain ⟨fuel, rfl⟩ : ∃ n, fuel = n + 1 := ⟨fuel - 1, by omega⟩
    obtain ⟨rfl, hne, -, htail⟩ := hl
    obtain ⟨h, hh₁, hon, hk⟩ := hcs cand (.head _)
    rw [Xma.searchFreelist, if_neg hne, returns_bind]
    refine hh.tracked.getSize hh₁ fun x₁ hsame₁ ht₁ => ?_
    refine returns_ite (fun hle => ?_) (fun hlt => ?_)
    · obtain ⟨L₁, L₂, hL, hcand⟩ := free_of_chained hh₁ hon
      have hheap := hh.same ht₁
      rw [hL] at hheap
      rw [returns_bind]
      refine hheap.takeFromFreelist hcand (hcand ▸ hfree L₁ h.size L₂ hL) hmin hle
        fun x₂ hx₂ => ?_
      rw [returns_pure]
      exact hsome cand x₂ ⟨L₁, h.size, L₂, hL, hcand, hle, hk, hx₂⟩
    · rw [returns_bind]
      refine ht₁.getFreeNext hh₁ hon fun x₂ hsame₂ ht₂ => ?_
      have hsame := hsame₁.trans hsame₂
      rw [hsame₁.mem]
      refine ih (hh.same ht₂) (by rw [hsame.mem]; exact htail)
        (fun d hd => hcs d (.tail _ hd)) ?_ ?_
      · simp only [length_cons] at hfuel
        omega
      · intro x₃ hsame₃ hx₃ hsmall
        refine hnone x₃ (hsame.trans hsame₃) hx₃ fun d hd {g} hg => ?_
        rcases mem_cons.mp hd with rfl | hd
        · rw [hh₁] at hg
          cases hg
          exact Nat.lt_of_not_le hlt
        · exact hsmall d hd hg

theorem chain_length_lt (hh : Heap c L x) {fl : ℕ → List ℕ}
    (hfl : FreeLists (nextOf x.mem) (prevOf x.mem) x.xfree (headersFrom c.start 0 L) fl)
    (k : ℕ) : (fl k).length < x.end_ - x.start + 1 := by
  have hsub : (fl k).toFinset ⊆ Finset.Ico x.start x.end_ := by
    intro a ha
    obtain ⟨g, hg, -⟩ := hfl.cell (mem_toFinset.mp ha)
    have hin := hh.tracked.inside hg
    rw [Finset.mem_Ico, hh.tracked.start_eq, hh.tracked.end_eq]
    omega
  have hcard := Finset.card_le_card hsub
  rw [toFinset_card_of_nodup (hfl.nodup k), Nat.card_Ico] at hcard
  omega

theorem Heap.allocFromFreelist (hh : Heap c L x) (hfree : FreeAllowed c L) (hmin : 16 ≤ size)
    (hnone : ∀ x', SameHeap x x' → Heap c L x' → TooSmall L size k → Q 0 x')
    (hsome : ∀ r x', Served c L size k r x' → Q r x') :
    Returns (allocFromFreelist k size) x Q := by
  obtain ⟨fl, hfl⟩ := hh.tracked.lists
  have hlen := chain_length_lt hh hfl k
  rw [Xma.allocFromFreelist, returns_bind, returns_get, returns_bind, getXfree, returns_bind,
    returns_get, returns_pure]
  refine hh.searchFreelist hfree hmin (hfl.linked k) ?_ hlen ?_ hsome
  · intro a ha
    exact hfl.cell ha
  · intro x' hsame hx' hsmall
    refine hnone x' hsame hx' fun b hb hf hk => ?_
    obtain ⟨L₁, L₂, rfl⟩ := append_of_mem hb
    have hat : headersFrom c.start 0 (L₁ ++ b :: L₂) (c.start + span L₁) =
        some (b.hdr (lastSize 0 L₁)) := headersFrom_at
    exact hsmall _ ((hfl.mem_iff k _).mpr ⟨_, hat, hf, hk⟩) hat

theorem Heap.allocFromChains (hh : Heap c L x) (hfree : FreeAllowed c L) (hmin : 16 ≤ size)
    {ks : List ℕ}
    (hnone : ∀ x', SameHeap x x' → Heap c L x' → (∀ k ∈ ks, TooSmall L size k) → Q 0 x')
    (hsome : ∀ k ∈ ks, ∀ r x', Served c L size k r x' → Q r x') :
    Returns (allocFromChains size ks) x Q := by
  induction ks generalizing x with
  | nil =>
    rw [Xma.allocFromChains, returns_pure]
    exact hnone x (SameHeap.refl x) hh (by simp)
  | cons k ks ih =>
    rw [Xma.allocFromChains, returns_bind]
    refine hh.allocFromFreelist hfree hmin ?_ ?_
    · intro x₁ hsame₁ hx₁ hk
      rw [if_neg (by simp)]
      refine ih hx₁ ?_ fun j hj => hsome j (.tail _ hj)
      intro x₂ hsame₂ hx₂ hks
      refine hnone x₂ (hsame₁.trans hsame₂) hx₂ fun j hj => ?_
      rcases mem_cons.mp hj with rfl | hj
      · exact hk
      · exact hks j hj
    · intro r x₁ hserved
      rw [if_pos hserved.ne_zero, returns_pure]
      exact hsome k (.head _) r x₁ hserved

/-- No free block fits a request of the rounded size `size`, or only blocks of
fixed-size chains above its own do. -/
def NoFit (L : List Blk) (size : ℕ) : Prop :=
  ∀ b ∈ L, b.free = true → size ≤ b.size → classOf size < classOf b.size ∧ classOf b.size < FIXED

theorem mem_chainsAfter {xfi : ℕ} : k ∈ chainsAfter xfi ↔ xfi < k ∧ k < 94 := by
  simp only [chainsAfter, XFIMAX, mem_range'_1]
  omega

theorem noFit_of_tooSmall (hf : Fits c L) (hmin : 16 ≤ size) {xfi : ℕ}
    (hxfi : xfi = max (classOf size) (FIXED - 1)) (hown : TooSmall L size (classOf size))
    (hlater : ∀ k ∈ chainsAfter xfi, TooSmall L size k) : NoFit L size := by
  intro b hb hfree hle
  have hb64 : b.size < 2 ^ 64 := by
    obtain ⟨L₁, L₂, rfl⟩ := append_of_mem hb
    have hsmall := hf.small
    simp only [span_append, span, Blk.room] at hsmall
    omega
  have hmono := classOf_mono hmin hle hb64
  have hmax := classOf_le (hmin.trans hle) hb64
  have hne : classOf b.size ≠ classOf size := by
    intro heq
    have hlt := hown b hb hfree heq
    omega
  refine ⟨by omega, ?_⟩
  by_contra hfix
  simp only [FIXED] at hfix hxfi
  have hlt := hlater (classOf b.size) (mem_chainsAfter.mpr (by omega)) b hb hfree rfl
  omega

theorem Heap.allocNear (hh : Heap c L x) (hfree : FreeAllowed c L) (hmin : 16 ≤ size)
    (hempty : classOf size < FIXED → TooSmall L size (classOf size)) {Q : ℕ × ℕ → Xma → Prop}
    (hnone : ∀ xfi x', SameHeap x x' → Heap c L x' → TooSmall L size (classOf size) →
      xfi = max (classOf size) (FIXED - 1) → Q (0, xfi) x')
    (hsome : ∀ k r xfi x', (k = classOf size ∨ FIXED ≤ k) → Served c L size k r x' →
      Q (r, xfi) x') :
    Returns (allocNear (classOf size) size) x Q := by
  rw [Xma.allocNear]
  refine returns_ite (fun hfix => ?_) (fun hfix => ?_)
  · rw [returns_bind]
    refine hh.allocFromFreelist hfree hmin ?_ ?_
    · intro x₁ hsame₁ hx₁ hk
      rw [if_pos rfl, returns_bind]
      refine hx₁.allocFromFreelist hfree hmin ?_ ?_
      · intro x₂ hsame₂ hx₂ _
        rw [returns_pure]
        refine hnone _ x₂ (hsame₁.trans hsame₂) hx₂ hk ?_
        simp only [FIXED] at hfix ⊢
        omega
      · intro r x₂ hserved
        rw [returns_pure]
        exact hsome _ r _ x₂ (.inr (by decide)) hserved
    · intro r x₁ hserved
      rw [if_neg hserved.ne_zero, returns_pure]
      exact hsome _ r _ x₁ (.inl rfl) hserved
  · have hlt : classOf size < FIXED := Nat.lt_of_not_le hfix
    rw [returns_bind]
    refine hh.allocFromFreelist hfree hmin ?_ ?_
    · intro x₁ hsame₁ hx₁ _
      rw [if_pos rfl, returns_pure]
      refine hnone _ x₁ hsame₁ hx₁ (hempty hlt) ?_
      simp only [FIXED] at hlt ⊢
      omega
    · intro r x₁ hserved
      rw [returns_pure]
      exact hsome _ r _ x₁ (.inr (by decide)) hserved

theorem Heap.alloc (hh : Heap c L x) (hfree : FreeAllowed c L) {n : ℕ} (hn : RoundsUp n)
    {Q : ℕ → Xma → Prop}
    (hnone : ∀ x', SameHeap x x' → Heap c L x' → NoFit L (roundSize n) → Q 0 x')
    (hsome : ∀ k cand x', (k = classOf (roundSize n) ∨ FIXED ≤ k) →
      Served c L (roundSize n) k cand x' → Q (cand + 16) x') :
    Returns (alloc n) x Q := by
  have hmin := align_le_roundSize hn
  have hmax := classOf_le hmin (roundSize_lt hn)
  obtain ⟨fl, hfl⟩ := hh.tracked.lists
  have hxfi : getxfi x.bdec (roundSize n) = classOf (roundSize n) := by
    rw [hh.tracked.bdec, classOf]
  rw [Xma.alloc]
  simp only [returns_bind, returns_get, hxfi, getXfree, returns_pure]
  refine returns_ite (fun hhead => ?_) (fun hhead => ?_)
  · -- the head of the fixed-size chain fits exactly
    obtain ⟨hfix, hne⟩ := hhead
    obtain ⟨h, hh₁, hon, hk⟩ := hfl.cell (hfl.head_mem hne)
    obtain ⟨L₁, L₂, hL, hcand⟩ := free_of_chained hh₁ hon
    have hlo : 16 ≤ h.size := hh.fits.minSize ⟨h.size, true⟩ (by rw [hL]; simp)
    have hhi := hh.tracked.size_lt hh₁
    obtain ⟨hle, hrem⟩ := le_of_classOf_eq hn hlo (by omega) hfix hk
    rw [hL] at hh
    rw [returns_bind]
    refine hh.takeHead hcand fun x₁ hx₁ => ?_
    rw [returns_pure]
    refine hsome _ _ x₁ (.inl rfl) ⟨L₁, h.size, L₂, hL, hcand, hle, hk, ?_⟩
    rwa [carve, if_neg (by simp only [FBLKMINSIZE, MBLKHDRSIZE, MINALLOCSIZE]; omega)]
  · rw [if_neg (by simp only [XFIMAX]; omega), returns_bind]
    refine hh.allocNear hfree hmin ?_ ?_ ?_
    · -- an empty chain holds no block
      intro hfix b hb hf hk
      have hzero : x.xfree (classOf (roundSize n)) = 0 := by
        by_contra hne
        exact hhead ⟨hfix, hne⟩
      have hnil := (hfl.linked _).head_eq_nil_iff.mp hzero
      obtain ⟨L₁, L₂, rfl⟩ := append_of_mem hb
      have hmem := (hfl.mem_iff _ _).mpr ⟨_, headersFrom_at, hf, hk⟩
      rw [hnil] at hmem
      cases hmem
    · intro xfi x₁ hsame₁ hx₁ hown hcase
      rw [if_neg (by simp), returns_bind]
      refine hx₁.allocFromChains hfree hmin ?_ ?_
      · intro x₂ hsame₂ hx₂ hlater
        rw [if_pos rfl, returns_pure]
        exact hnone x₂ (hsame₁.trans hsame₂) hx₂
          (noFit_of_tooSmall hx₂.fits hmin hcase hown hlater)
      · intro k hk r x₂ hserved
        rw [if_neg hserved.ne_zero, returns_pure]
        refine hsome k r x₂ ?_ hserved
        have hlater := (mem_chainsAfter.mp hk).1
        simp only [FIXED] at hcase ⊢
        omega
    · intro k r xfi x₁ hk hserved
      rw [if_pos hserved.ne_zero, returns_pure]
      exact hsome k r x₁ hk hserved

end

end Qse.Xma
