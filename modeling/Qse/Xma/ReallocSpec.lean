import Qse.Xma.Layout

/-!
# Resizing in place

What `_realloc_merge` does to the layout of the zone. The bytes of the block up to the smaller of
its sizes are never written.
-/

open Function

namespace Qse.Xma

open ByteMemory MachineWord LinkedChain StateProgram

section

variable {c : Ctx} {L L₁ L₂ : List Blk} {x : Xma} {blk n s t size : ℕ}
  {Q : ℕ → Xma → Prop}

theorem fileJoined_spec {m : ℕ} {f : Stat → Stat} {x₀ : Xma}
    (hh : Heap c (L₁ ++ [⟨s, false⟩, ⟨t, true⟩] ++ L₂) x₀) (hblk : blk = c.start + span L₁)
    (hn : n = blk + 16 + s) (hmin : 16 ≤ size) (hm : 16 ≤ m) (hroom : size + 16 + m = s + 16 + t)
    (hall : c.Allows (blk + 16 + size) 32) (ht : Tracked c (update (update (update
      (headersFrom c.start 0 (L₁ ++ [⟨s, false⟩, ⟨t, true⟩] ++ L₂)) n (some ⟨s, t, true, false⟩))
      blk (some ⟨lastSize 0 L₁, size, false, false⟩)) n none)
      (statOf (L₁ ++ [⟨s, false⟩, ⟨t, true⟩] ++ L₂)) x)
    (hstat : f (statOf (L₁ ++ [⟨s, false⟩, ⟨t, true⟩] ++ L₂)) =
      statOf (L₁ ++ [⟨size, false⟩, ⟨m, true⟩] ++ L₂))
    (hQ : ∀ x', Heap c (L₁ ++ [⟨size, false⟩, ⟨m, true⟩] ++ L₂) x' → Q (blk + 16) x') :
    Returns (do
      let y ← fileLeftover blk m
      relinkNext y
      modifyStat f
      pure (blk + 16)) x Q := by
  have hf := hh.fits
  obtain ⟨_, _, _, _, hsmall, -⟩ := hf.exists_stat
  simp only [span, room_mk] at hsmall
  have hs : 16 ≤ s := hf.minSize ⟨s, false⟩ (by simp)
  have hold := hf.coalesced
  rw [noFreePair_append, noFreePair_append, lastFree_append] at hold
  obtain ⟨z, hz⟩ : ∃ z, z = n + 16 + t := ⟨_, rfl⟩
  obtain ⟨hhere, hnext⟩ := hf.here_pair hh.tracked.toRecorded hblk hn hz
  generalize hH : headersFrom c.start 0 (L₁ ++ [⟨s, false⟩, ⟨t, true⟩] ++ L₂) = H
    at ht hnext hhere
  have hinside := hnext.inside
  obtain ⟨y, hy⟩ : ∃ y, y = blk + 16 + size := ⟨_, rfl⟩
  have hzy : y + 16 + m = z := by omega
  -- between the two blocks there is nothing but the header that is forgotten
  have hnone : ∀ q, blk < q → q < z → q ≠ n → H q = none := by
    intro q hlo hhi hqn
    rcases lt_or_ge q n with hltn | hgen
    · exact hhere.none_of_lt hlo hltn
    · exact hnext.none_of_lt (by omega) hhi
  rw [returns_bind]
  refine ht.fileLeftover (by rw [update_of_ne (by omega)]; exact update_self ..)
    hy ?_ (by omega) ?_ (hall.mono (by omega) (by omega)) (by omega) fun x₁ ht₁ => ?_
  · by_cases hyn : y = n
    · rw [hyn, update_self]
    · rw [update_of_ne hyn, update_of_ne (by omega), update_of_ne hyn]
      exact hnone y (by omega) (by omega) hyn
  · intro a g hg
    by_cases han : a = n
    · rw [han, update_self] at hg
      cases hg
    rw [update_of_ne han] at hg
    by_cases hab : a = blk
    · omega
    rw [update_of_ne hab, update_of_ne han] at hg
    rcases hhere.others hg hab with hlo | hhi
    · omega
    · rcases hnext.others hg han with hlo' | hhi'
      · omega
      · omega
  rw [returns_bind]
  refine ht₁.relinkNext (update_self ..) ?_ fun x₂ ht₂ => ?_
  · rw [hzy]
    intro hltz
    rw [update_of_ne (by omega), update_of_ne (by omega),
      update_of_ne (by omega), update_of_ne (by omega)]
    exact hnext.next hltz
  rw [hzy] at ht₂
  rw [returns_bind]
  refine ht₂.modifyStat fun x₃ ht₃ => ?_
  rw [returns_pure]
  refine hQ x₃ (Heap.of_tracked ht₃ ?_ ?_ hstat)
  · refine hf.replace (by simp only [span, room_mk]; omega) ?_ ⟨⟨by simp, by simp, trivial⟩, hold.2⟩
    intro b hb
    rcases List.mem_pair.mp hb with rfl | rfl
    · exact hmin
    · exact hm
  · rw [← hH]
    refine headersFrom_pair (S := [⟨s, false⟩, ⟨t, true⟩]) hblk hy hzy.symm
      (by simp only [span, room_mk]; omega) ?_ ?_ ?_ ?_ ?_
    · intro q hq
      rw [hH, relink, if_neg (by omega), update_of_ne (by omega),
        update_of_ne (by omega), update_of_ne (by omega), update_of_ne (by omega)]
    · rw [relink, if_neg (by omega), update_of_ne (by omega), update_of_ne (by omega), update_self]
    · rw [relink, if_neg (by omega), update_self]
    · intro q hlo hhi hqy
      rw [hH, relink, if_neg (by omega), update_of_ne hqy]
      by_cases hqn : q = n
      · rw [hqn, update_self]
      · rw [update_of_ne hqn, update_of_ne (by omega), update_of_ne hqn]
        exact hnone q hlo hhi hqn
    · rw [hH, relink, relink, if_pos rfl, if_pos rfl, update_of_ne (by omega),
        update_of_ne (by omega), update_of_ne (by omega), update_of_ne (by omega)]

theorem growMerge_spec (hh : Heap c (L₁ ++ [⟨s, false⟩, ⟨t, true⟩] ++ L₂) x)
    (hblk : blk = c.start + span L₁) (hn : n = blk + 16 + s) (hlt : s < size)
    (hle : size - s ≤ t) (hall : c.Allows n (16 + t))
    (hsplit : ∀ x', Heap c (L₁ ++ [⟨size, false⟩, ⟨t - (size - s), true⟩] ++ L₂) x' →
      Q (blk + 16) x')
    (hwhole : ∀ x', size ≤ s + 16 + t → Heap c (L₁ ++ [⟨s + 16 + t, false⟩] ++ L₂) x' →
      Q (blk + 16) x') :
    Returns (growMerge (blk + 16) blk n (size - s)) x Q := by
  have hf := hh.fits
  obtain ⟨α, φ, u, g, hsmall, hstat⟩ := hf.exists_stat
  simp only [span, room_mk] at hsmall
  have hs : 16 ≤ s := hf.minSize ⟨s, false⟩ (by simp)
  have hold := hf.coalesced
  rw [noFreePair_append, noFreePair_append, lastFree_append] at hold
  obtain ⟨z, hz⟩ : ∃ z, z = n + 16 + t := ⟨_, rfl⟩
  have ht := hh.tracked
  obtain ⟨hhere, hnext⟩ := hf.here_pair ht.toRecorded hblk hn hz
  have hnblk : n ≠ blk := by omega
  rw [growMerge, returns_bind]
  refine ht.detachFromFreelist hnext.hdr rfl fun x₁ ht₁ => ?_
  rw [returns_bind]
  refine ht₁.getSize (update_self ..) fun x₂ _ ht₂ => ?_
  have hrem : wordSub (wordAdd MBLKHDRSIZE t) (size - s) = 16 + t - (size - s) := by
    rw [MBLKHDRSIZE, wordAdd_eq (by omega), wordSub_eq (by omega) (by omega)]
  have hblkhdr : update (headersFrom c.start 0 (L₁ ++ [⟨s, false⟩, ⟨t, true⟩] ++ L₂)) n
      (some ⟨s, t, true, false⟩) blk = some ⟨lastSize 0 L₁, s, false, false⟩ := by
    rw [update_of_ne hnblk.symm, hhere.hdr]
  simp only [hrem]
  refine returns_ite (fun hbig => ?_) (fun hsmallrem => ?_)
  · -- the next block is broken
    simp only [FBLKMINSIZE, MBLKHDRSIZE, MINALLOCSIZE] at hbig
    have hgrown : wordAdd s (size - s) = size := by
      rw [wordAdd_eq (by omega)]
      omega
    have hleft : wordSub (16 + t - (size - s)) MBLKHDRSIZE = t - (size - s) := by
      rw [MBLKHDRSIZE, wordSub_eq (by omega) (by omega)]
      omega
    rw [returns_bind]
    refine ht₂.getSize hblkhdr fun x₃ _ ht₃ => ?_
    rw [hgrown, hleft, returns_bind]
    refine ht₃.setSize hblkhdr rfl (by omega) fun x₄ ht₄ => ?_
    have ht₄ := ht₄.forget (b := n) (h := ⟨s, t, true, false⟩)
      (by rw [update_of_ne hnblk, update_self]) rfl
    refine fileJoined_spec hh hblk hn (by omega) (by omega) (by omega)
      (hall.mono (by omega) (by omega)) ht₄ ?_ hsplit
    simp only [hstat, span, usedSum, freeSum, usedCount, freeCount, room_mk,
      Stat.mk.injEq, if_true, if_false, Bool.false_eq_true]
    simp (disch := omega) only [wordAdd_eq, wordSub_eq, and_true]
    omega
  · -- the next block is taken as a whole
    generalize hH : headersFrom c.start 0 (L₁ ++ [⟨s, false⟩, ⟨t, true⟩] ++ L₂) = H
      at ht₂ hnext hhere hblkhdr
    simp only [FBLKMINSIZE, MBLKHDRSIZE, MINALLOCSIZE] at hsmallrem
    have hgrown : wordAdd s (wordAdd MBLKHDRSIZE t) = s + 16 + t := by
      rw [MBLKHDRSIZE, wordAdd_eq (a := 16) (by omega), wordAdd_eq (by omega)]
      omega
    rw [returns_bind]
    refine ht₂.getSize hblkhdr fun x₃ _ ht₃ => ?_
    simp only [hgrown, returns_bind]
    refine ht₃.setSize hblkhdr rfl (by omega) fun x₄ ht₄ => ?_
    have hzblk : blk + 16 + (s + 16 + t) = z := by omega
    refine ht₄.relinkNext (update_self ..) ?_ fun x₅ ht₅ => ?_
    · simp only [hzblk]
      intro hltz
      rw [update_of_ne (by omega), update_of_ne (by omega)]
      exact hnext.next hltz
    simp only [hzblk] at ht₅
    have hnhdr : relink (update (update H n (some ⟨s, t, true, false⟩)) blk
        (some ⟨lastSize 0 L₁, s + 16 + t, false, false⟩)) z (s + 16 + t) n =
          some ⟨s, t, true, false⟩ := by
      rw [relink, if_neg (by omega), update_of_ne hnblk, update_self]
    refine ht₅.getSize hnhdr fun x₆ _ ht₆ => ?_
    have ht₆ := ht₆.forget hnhdr rfl
    refine ht₆.modifyStat fun x₇ ht₇ => ?_
    rw [returns_pure]
    refine hwhole x₇ (by omega) (Heap.of_tracked ht₇ ?_ ?_ ?_)
    · refine hf.replace (by simp only [span, room_mk]; omega) ?_
        ⟨⟨by simp, trivial⟩, hold.2.of_used⟩
      intro b hb
      rw [List.mem_singleton.mp hb]
      simp only
      omega
    · rw [← hH]
      refine headersFrom_join (S := [⟨s, false⟩, ⟨t, true⟩]) (z := z) hblk (by omega)
        (by simp only [span, room_mk]; omega) ?_ ?_ ?_ ?_
      · intro q hq
        rw [hH, update_of_ne (by omega), relink, if_neg (by omega),
          update_of_ne (by omega), update_of_ne (by omega)]
      · rw [update_of_ne hnblk.symm, relink, if_neg (by omega), update_self]
      · intro q hlo hhi
        by_cases hqn : q = n
        · rw [hqn, update_self]
        · rw [hH, update_of_ne hqn, relink, if_neg (by omega),
            update_of_ne (by omega), update_of_ne hqn]
          rcases lt_or_ge q n with hltn | hgen
          · exact hhere.none_of_lt hlo hltn
          · exact hnext.none_of_lt (by omega) hhi
      · rw [hH, update_of_ne (by omega), relink, relink, if_pos rfl, if_pos rfl,
          update_of_ne (by omega), update_of_ne (by omega)]
    · simp only [hstat, span, usedSum, freeSum, usedCount, freeCount, room_mk,
        Stat.mk.injEq, MBLKHDRSIZE, if_true, if_false, Bool.false_eq_true]
      simp (disch := omega) only [wordAdd_eq, wordSub_eq, true_and]
      omega

theorem shrinkJoin_spec (hh : Heap c (L₁ ++ [⟨s, false⟩, ⟨t, true⟩] ++ L₂) x)
    (hblk : blk = c.start + span L₁) (hn : n = blk + 16 + s) (hmin : 16 ≤ size)
    (hrem : size + 32 ≤ s) (hall : c.Allows (blk + 16 + size) (s - size))
    (hQ : ∀ x', Heap c (L₁ ++ [⟨size, false⟩, ⟨s - size + t, true⟩] ++ L₂) x' → Q (blk + 16) x') :
    Returns (shrinkJoin (blk + 16) blk size n (s - size)) x Q := by
  have hf := hh.fits
  obtain ⟨α, φ, u, g, hsmall, hstat⟩ := hf.exists_stat
  simp only [span, room_mk] at hsmall
  have ht := hh.tracked
  obtain ⟨hhere, hnext⟩ := hf.here_pair ht.toRecorded hblk hn rfl
  have hnblk : n ≠ blk := by omega
  rw [shrinkJoin, returns_bind]
  refine ht.detachFromFreelist hnext.hdr rfl fun x₁ ht₁ => ?_
  rw [returns_bind]
  refine ht₁.setSize (by rw [update_of_ne hnblk.symm]; exact hhere.hdr) rfl
    (by omega) fun x₂ ht₂ => ?_
  rw [returns_bind]
  have hnhdr : update (update (headersFrom c.start 0 (L₁ ++ [⟨s, false⟩, ⟨t, true⟩] ++ L₂)) n
      (some ⟨s, t, true, false⟩)) blk (some ⟨lastSize 0 L₁, size, false, false⟩) n =
      some ⟨s, t, true, false⟩ := by
    rw [update_of_ne hnblk, update_self]
  refine ht₂.getSize hnhdr fun x₃ _ ht₃ => ?_
  have hleft : wordAdd (s - size) t = s - size + t := wordAdd_eq (by omega)
  rw [hleft]
  refine fileJoined_spec hh hblk hn hmin (by omega) (by omega) (hall.mono (by omega) (by omega))
    (ht₃.forget hnhdr rfl) ?_ hQ
  simp only [hstat, span, usedSum, freeSum, usedCount, freeCount, room_mk,
    Stat.mk.injEq, if_true, if_false, Bool.false_eq_true]
  simp (disch := omega) only [wordAdd_eq, wordSub_eq, and_true]
  omega

theorem shrinkSplit_spec (hh : Heap c (L₁ ++ [⟨s, false⟩] ++ L₂) x)
    (hblk : blk = c.start + span L₁) (hn : n = blk + 16 + s) (hmin : 16 ≤ size)
    (hrem : size + 32 ≤ s) (hall : c.Allows (blk + 16 + size) (s - size))
    (hnext : NoFreePair true L₂) (hbeyond : c.end_ ≤ n → c.Allows n 8)
    (hQ : ∀ x', Heap c (L₁ ++ [⟨size, false⟩, ⟨s - size - 16, true⟩] ++ L₂) x' → Q (blk + 16) x') :
    Returns (shrinkSplit (blk + 16) blk size n (s - size)) x Q := by
  have hf := hh.fits
  obtain ⟨α, φ, u, g, hsmall, hstat⟩ := hf.exists_stat
  simp only [span, room_mk] at hsmall
  have hhere := hh.here _ _ _ rfl hblk (z := n) (by rw [room_mk]; omega)
  have ht := hh.tracked
  generalize hH : headersFrom c.start 0 (L₁ ++ [⟨s, false⟩] ++ L₂) = H at ht hhere
  simp only [Blk.hdr] at hhere
  have hinside := hhere.inside
  have hleft : wordSub (s - size) MBLKHDRSIZE = s - size - 16 := by
    rw [MBLKHDRSIZE, wordSub_eq (by omega) (by omega)]
  rw [shrinkSplit, returns_bind]
  refine ht.setSize hhere.hdr rfl (by omega) fun x₁ ht₁ => ?_
  rw [hleft, returns_bind]
  obtain ⟨y, hy⟩ : ∃ y, y = blk + 16 + size := ⟨_, rfl⟩
  refine ht₁.fileLeftover (update_self ..) hy ?_ (by omega) ?_
    (hall.mono (by omega) (by omega)) (by omega) fun x₂ ht₂ => ?_
  · rw [update_of_ne (by omega)]
    exact hhere.none_of_lt (by omega) (by omega)
  · intro a g hg
    by_cases hab : a = blk
    · omega
    · rw [update_of_ne hab] at hg
      rcases hhere.others hg hab with hlo | hhi
      · omega
      · omega
  rw [returns_bind]
  refine ht₂.getSize (update_self ..) fun x₃ _ ht₃ => ?_
  simp only [returns_bind]
  have hlink : Returns (Xma.setPrevSize n (s - size - 16)) x₃ fun _ x' =>
      Tracked c (relink (update (update H blk
        (some ⟨lastSize 0 L₁, size, false, false⟩)) y
          (some ⟨size, s - size - 16, true, true⟩)) n (s - size - 16))
        (statOf (L₁ ++ [⟨s, false⟩] ++ L₂)) x' := by
    rcases lt_or_ge n c.end_ with hlt | hge
    · refine ht₃.setPrevSize_relink (by omega) ?_ fun x' hx' => hx'
      rw [update_of_ne (by omega), update_of_ne (by omega)]
      exact hhere.next hlt
    · refine ht₃.setPrevSizeBeyond hge (hbeyond hge) fun x' hx' => ?_
      rw [relink_of_none]
      · exact hx'
      · exact hx'.none_of_end_le hge
  refine hlink.mono fun _ x₄ ht₄ => ?_
  have hyhdr : relink (update (update H blk
      (some ⟨lastSize 0 L₁, size, false, false⟩)) y
        (some ⟨size, s - size - 16, true, true⟩)) n (s - size - 16) y =
      some ⟨size, s - size - 16, true, true⟩ := by
    rw [relink, if_neg (by omega), update_self]
  refine ht₄.getSize hyhdr fun x₅ _ ht₅ => ?_
  refine ht₅.modifyStat fun x₆ ht₆ => ?_
  rw [returns_pure]
  refine hQ x₆ (Heap.of_tracked ht₆ ?_ ?_ ?_)
  · refine hf.replace (by simp only [span, room_mk]; omega) ?_ ⟨⟨by simp, by simp, trivial⟩, hnext⟩
    intro b hb
    rcases List.mem_pair.mp hb with rfl | rfl
    · exact hmin
    · simp only
      omega
  · rw [← hH]
    refine headersFrom_pair (S := [⟨s, false⟩]) hblk hy (z := n) (by omega)
      (by simp only [span, room_mk]; omega) ?_ ?_ ?_ ?_ ?_
    · intro q hq
      rw [hH, relink, if_neg (by omega), update_of_ne (by omega), update_of_ne (by omega)]
    · rw [relink, if_neg (by omega), update_of_ne (by omega), update_self]
    · rw [hH]
      exact hyhdr
    · intro q hlo hhi hqy
      rw [hH, relink, if_neg (by omega), update_of_ne hqy, update_of_ne (by omega)]
      exact hhere.none_of_lt hlo hhi
    · rw [hH, relink, relink, if_pos rfl, if_pos rfl, update_of_ne (by omega),
        update_of_ne (by omega)]
  · simp only [hstat, span, usedSum, freeSum, usedCount, freeCount, room_mk,
      Stat.mk.injEq, if_true, if_false, Bool.false_eq_true]
    simp (disch := omega) only [wordAdd_eq, wordSub_eq, and_true]
    omega

theorem Heap.reallocMerge (hh : Heap c (L₁ ++ [⟨s, false⟩] ++ L₂) x)
    (hblk : blk = c.start + span L₁) {k : ℕ} (hk : RoundsUp k) (hsize : size = roundSize k)
    (hfree : FreeAllowed c (L₁ ++ [⟨s, false⟩] ++ L₂))
    (hall : size + 32 ≤ s → c.Allows (blk + 16 + size) (s - size))
    (hbeyond : size + 32 ≤ s → c.end_ ≤ blk + 16 + s → c.Allows (blk + 16 + s) 8)
    (hnone : ∀ x', SameHeap x x' → Heap c (L₁ ++ [⟨s, false⟩] ++ L₂) x' → s < size →
      (∀ t M, L₂ = ⟨t, true⟩ :: M → t < size - s) → Q 0 x')
    (hsome : ∀ s' M x', size ≤ s' → Heap c (L₁ ++ [⟨s', false⟩] ++ M) x' →
      usedFrom (blk + 16 + s') M = usedFrom (blk + 16 + s) L₂ → Q (blk + 16) x') :
    Returns (reallocMerge (blk + 16) k) x Q := by
  have hmin : 16 ≤ size := hsize ▸ align_le_roundSize hk
  have hmax : size < 2 ^ 64 := hsize ▸ roundSize_lt hk
  obtain ⟨n, hn⟩ : ∃ n, n = blk + 16 + s := ⟨_, rfl⟩
  have hnL : n = c.start + span (L₁ ++ [⟨s, false⟩]) := by
    simp only [span_append, span, room_mk]
    omega
  obtain ⟨hnin, hnout⟩ := hh.fits.next_flag hnL
  have hhere := hh.here _ _ _ rfl hblk rfl
  have hs := hh.tracked.size_lt hhere.hdr
  have hold := hh.fits.coalesced
  rw [noFreePair_append] at hold
  simp only [Blk.hdr] at hhere hs
  rw [Xma.reallocMerge]
  simp only [MBLKHDRSIZE, Nat.add_sub_cancel, returns_bind, ← hsize]
  refine hh.tracked.getSize hhere.hdr fun x₁ hsame₁ ht₁ => ?_
  simp only
  refine returns_ite (fun hgrow => ?_) (fun hnogrow => ?_)
  · rw [wordSub_eq (by omega) hmax]
    simp only [returns_bind]
    refine ht₁.nextMblk hhere.hdr fun x₂ hsame₂ ht₂ => ?_
    simp only
    rw [← hn]
    refine ht₂.nextIsFree hnin hnout fun x₃ hsame₃ ht₃ => ?_
    have hsame := hsame₁.trans (hsame₂.trans hsame₃)
    cases hflag : headFree L₂ with
    | false =>
      simp only [Bool.false_eq_true, if_false, returns_pure]
      refine hnone x₃ hsame (hh.same ht₃) hgrow fun t M hL₂ => ?_
      rw [hL₂] at hflag
      cases hflag
    | true =>
      obtain ⟨t, M, rfl⟩ := exists_of_headFree hflag
      have hnext := hh.here (L₁ ++ [⟨s, false⟩]) ⟨t, true⟩ M
        (by simp) hnL rfl
      simp only [Blk.hdr] at hnext
      rw [if_pos rfl, returns_bind]
      refine ht₃.getSize hnext.hdr fun x₄ hsame₄ ht₄ => ?_
      simp only
      refine returns_ite (fun hsmall => ?_) (fun hfits => ?_)
      · rw [returns_pure]
        refine hnone x₄ (hsame.trans hsame₄) (hh.same ht₄) hgrow fun t' M' hL₂ => ?_
        cases hL₂
        exact hsmall
      · have hheap := hh.same ht₄
        have hfreen := hfree (L₁ ++ [⟨s, false⟩]) t M (by simp)
        rw [← hnL] at hfreen
        have hLe : L₁ ++ [⟨s, false⟩] ++ ⟨t, true⟩ :: M =
            L₁ ++ [⟨s, false⟩, ⟨t, true⟩] ++ M := by simp
        rw [hLe] at hheap
        refine growMerge_spec hheap hblk hn hgrow (Nat.le_of_not_lt hfits) hfreen ?_ ?_
        · intro x' hx'
          refine hsome size (⟨t - (size - s), true⟩ :: M) x' le_rfl ?_ ?_
          · simpa using hx'
          · simp only [usedFrom, if_true, room_mk]
            congr 1
            omega
        · intro x' hle hx'
          refine hsome (s + 16 + t) M x' hle hx' ?_
          simp only [usedFrom, if_true, room_mk]
          congr 1
          omega
  · refine returns_ite (fun hshrink => ?_) (fun hsameSize => ?_)
    · rw [wordSub_eq (by omega) (by omega)]
      refine returns_ite (fun hbig => ?_) (fun hsmall => ?_)
      · simp only [FBLKMINSIZE, MBLKHDRSIZE, MINALLOCSIZE] at hbig
        simp only [returns_bind]
        refine ht₁.nextMblk hhere.hdr fun x₂ hsame₂ ht₂ => ?_
        simp only
        rw [← hn]
        refine ht₂.nextIsFree hnin hnout fun x₃ hsame₃ ht₃ => ?_
        cases hflag : headFree L₂ with
        | false =>
          rw [if_neg (by simp)]
          refine shrinkSplit_spec (hh.same ht₃) hblk hn hmin (by omega) (hall (by omega))
            (hold.2.of_headFree hflag) (fun hge => ?_) fun x' hx' => ?_
          · rw [hn] at hge ⊢
            exact hbeyond (by omega) hge
          · refine hsome size (⟨s - size - 16, true⟩ :: L₂) x' le_rfl ?_ ?_
            · simpa using hx'
            · simp only [usedFrom, if_true, room_mk]
              congr 1
              omega
        | true =>
          obtain ⟨t, M, rfl⟩ := exists_of_headFree hflag
          have hheap := hh.same ht₃
          have hLe : L₁ ++ [⟨s, false⟩] ++ ⟨t, true⟩ :: M =
              L₁ ++ [⟨s, false⟩, ⟨t, true⟩] ++ M := by simp
          rw [hLe] at hheap
          rw [if_pos rfl]
          refine shrinkJoin_spec hheap hblk hn hmin (by omega) (hall (by omega))
            fun x' hx' => ?_
          refine hsome size (⟨s - size + t, true⟩ :: M) x' le_rfl ?_ ?_
          · simpa using hx'
          · simp only [usedFrom, if_true, room_mk]
            congr 1
            omega
      · rw [returns_pure]
        exact hsome s L₂ x₁ (by omega) (hh.same ht₁) rfl
    · rw [returns_pure]
      exact hsome s L₂ x₁ (by omega) (hh.same ht₁) rfl

end

end Qse.Xma
