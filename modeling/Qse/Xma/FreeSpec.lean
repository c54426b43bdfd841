import Qse.Xma.Layout

/-!
# Freeing

What `qse_xma_free` does to the layout of the zone: the block becomes free and is joined with the
free neighbours it has.
-/

open Function List

namespace Qse.Xma

open ByteMemory MachineWord LinkedChain StateProgram

def Stat.release (st : Stat) (s : ℕ) : Stat :=
  { st with nused := wordSub st.nused 1, alloc := wordSub st.alloc s }

section

variable {c : Ctx} {L L₁ L₂ : List Blk} {x : Xma} {blk r s t : ℕ}
  {Q : PUnit → Xma → Prop}

theorem freeAlone_spec (hf : Fits c (L₁ ++ [⟨s, false⟩] ++ L₂))
    (ht : Tracked c (headersFrom c.start 0 (L₁ ++ [⟨s, false⟩] ++ L₂))
      ((statOf (L₁ ++ [⟨s, false⟩] ++ L₂)).release s) x)
    (hblk : blk = c.start + span L₁) (hall : c.Allows blk 32)
    (hprev : lastFree false L₁ = false) (hnext : NoFreePair true L₂)
    (hQ : ∀ x', Heap c (L₁ ++ [⟨s, true⟩] ++ L₂) x' → Q ⟨⟩ x') :
    Returns (freeAlone blk s) x Q := by
  have hhere := hf.here ht.toRecorded _ _ _ rfl hblk rfl
  rw [freeAlone, returns_bind]
  refine ht.setFree hhere.hdr fun x₁ ht₁ => ?_
  rw [returns_bind]
  refine ht₁.attachToFreelist (update_self ..) rfl hall fun x₂ ht₂ => ?_
  rw [update_idem] at ht₂
  refine ht₂.modifyStat fun x₃ ht₃ => ?_
  refine hQ x₃ (Heap.of_tracked ht₃ ?_ ?_ ?_)
  · refine hf.replace rfl ?_ ⟨⟨by simp [hprev], trivial⟩, hnext⟩
    intro b hb
    rw [mem_singleton.mp hb]
    exact hf.minSize ⟨s, false⟩ (by simp)
  · rw [hblk]
    exact headersFrom_refile
  · obtain ⟨α, φ, u, g, hsmall, hstat⟩ := hf.exists_stat
    simp only [Stat.release, hstat, span, usedSum, freeSum, usedCount, freeCount, room_mk,
      Stat.mk.injEq, if_true, if_false, Bool.false_eq_true] at hsmall ⊢
    simp (disch := omega) only [wordAdd_eq, wordSub_eq, true_and, and_true]
    omega

variable {p y : ℕ}

theorem freeJoinPrev_spec (hf : Fits c (L₁ ++ [⟨r, true⟩, ⟨s, false⟩] ++ L₂))
    (ht : Tracked c (headersFrom c.start 0 (L₁ ++ [⟨r, true⟩, ⟨s, false⟩] ++ L₂))
      ((statOf (L₁ ++ [⟨r, true⟩, ⟨s, false⟩] ++ L₂)).release s) x) (hp : p = c.start + span L₁)
    (hblk : blk = p + 16 + r) (hy : y = blk + 16 + s) (hnext : NoFreePair true L₂)
    (hQ : ∀ x', Heap c (L₁ ++ [⟨r + 16 + s, true⟩] ++ L₂) x' → Q ⟨⟩ x') :
    Returns (freeJoinPrev p y s) x Q := by
  obtain ⟨α, φ, u, g, hsmall, hstat⟩ := hf.exists_stat
  simp only [span, room_mk] at hsmall
  obtain ⟨hprev, hhere⟩ := hf.here_pair ht.toRecorded hp hblk hy
  have hall := ht.linksAllowed hprev.hdr rfl
  generalize hH : headersFrom c.start 0 (L₁ ++ [⟨r, true⟩, ⟨s, false⟩] ++ L₂) = H
    at ht hprev hhere
  rw [freeJoinPrev, returns_bind]
  refine ht.detachFromFreelist hprev.hdr rfl fun x₁ ht₁ => ?_
  rw [returns_bind]
  refine ht₁.getSize (update_self ..) fun x₂ _ ht₂ => ?_
  have hsize : wordAdd r (wordAdd MBLKHDRSIZE s) = r + 16 + s := by
    rw [MBLKHDRSIZE, wordAdd_eq (a := 16) (by omega), wordAdd_eq (by omega)]
    omega
  simp only [hsize, returns_bind]
  refine ht₂.setSize (update_self ..) rfl (by omega) fun x₃ ht₃ => ?_
  refine ht₃.getSize (update_self ..) fun x₄ _ ht₄ => ?_
  simp only [update_idem] at ht₄
  refine ht₄.setPrevSizeInside (by simp only; omega) ?_ fun x₅ ht₅ => ?_
  · intro hlt
    rw [update_of_ne (by omega)]
    exact hhere.next hlt
  have hfront : relink (update H p (some ⟨lastSize 0 L₁, r + 16 + s, true, false⟩)) y
      (r + 16 + s) p = some ⟨lastSize 0 L₁, r + 16 + s, true, false⟩ := by
    rw [relink, if_neg (by omega), update_self]
  refine ht₅.attachToFreelist hfront rfl hall fun x₆ ht₆ => ?_
  -- the freed block is no longer a block of its own
  have ht₆ := ht₆.forget (b := blk) (h := ⟨r, s, false, false⟩)
    (by rw [update_of_ne (by omega), relink, if_neg (by omega),
      update_of_ne (by omega)]; exact hhere.hdr) rfl
  refine ht₆.modifyStat fun x₇ ht₇ => ?_
  refine hQ x₇ (Heap.of_tracked ht₇ ?_ ?_ ?_)
  · have hold := hf.coalesced
    rw [noFreePair_append, noFreePair_append] at hold
    refine hf.replace (by simp only [span, room_mk]; omega) ?_
      ⟨⟨hold.1.2.1, trivial⟩, hnext⟩
    intro b hb
    have hr := hf.minSize ⟨r, true⟩ (by simp)
    rw [mem_singleton.mp hb]
    simp only at hr ⊢
    omega
  · rw [← hH]
    refine headersFrom_join (S := [⟨r, true⟩, ⟨s, false⟩]) (z := y) hp (by omega)
      (by simp only [span, room_mk]; omega) ?_ ?_ ?_ ?_
    · intro q hq
      rw [hH, update_of_ne (by omega), update_of_ne (by omega), relink,
        if_neg (by omega), update_of_ne (by omega)]
    · rw [update_of_ne (by omega), update_self]
    · intro q hlo hhi
      by_cases hq : q = blk
      · rw [hq, update_self]
      · rw [hH, update_of_ne hq, update_of_ne (by omega), relink,
          if_neg (by omega), update_of_ne (by omega)]
        by_cases hlt : q < blk
        · exact hprev.none_of_lt hlo hlt
        · exact hhere.none_of_lt (by omega) hhi
    · rw [hH, update_of_ne (by omega), update_of_ne (by omega), relink,
        relink, if_pos rfl, if_pos rfl, update_of_ne (by omega)]
  · simp only [Stat.release, hstat, span, usedSum, freeSum, usedCount, freeCount, room_mk,
      Stat.mk.injEq, MBLKHDRSIZE, if_true, if_false, Bool.false_eq_true]
    simp (disch := omega) only [wordAdd_eq, wordSub_eq, and_true]
    omega

theorem freeJoinNext_spec (hf : Fits c (L₁ ++ [⟨s, false⟩, ⟨t, true⟩] ++ L₂))
    (ht : Tracked c (headersFrom c.start 0 (L₁ ++ [⟨s, false⟩, ⟨t, true⟩] ++ L₂))
      ((statOf (L₁ ++ [⟨s, false⟩, ⟨t, true⟩] ++ L₂)).release s) x) (hblk : blk = c.start + span L₁)
    (hy : y = blk + 16 + s) (hall : c.Allows blk 32) (hprev : lastFree false L₁ = false)
    (hQ : ∀ x', Heap c (L₁ ++ [⟨s + 16 + t, true⟩] ++ L₂) x' → Q ⟨⟩ x') :
    Returns (freeJoinNext blk y s) x Q := by
  obtain ⟨α, φ, u, g, hsmall, hstat⟩ := hf.exists_stat
  simp only [span, room_mk] at hsmall
  obtain ⟨z, hz⟩ : ∃ z, z = y + 16 + t := ⟨_, rfl⟩
  obtain ⟨hhere, hnext⟩ := hf.here_pair ht.toRecorded hblk hy hz
  generalize hH : headersFrom c.start 0 (L₁ ++ [⟨s, false⟩, ⟨t, true⟩] ++ L₂) = H
    at ht hnext hhere
  have hyblk : y ≠ blk := by omega
  rw [freeJoinNext, returns_bind]
  refine ht.nextMblk hnext.hdr fun x₁ _ ht₁ => ?_
  simp only
  rw [← hz, returns_bind]
  refine ht₁.detachFromFreelist hnext.hdr rfl fun x₂ ht₂ => ?_
  rw [returns_bind]
  refine ht₂.setFree (by rw [update_of_ne hyblk.symm]; exact hhere.hdr)
    fun x₃ ht₃ => ?_
  rw [returns_bind]
  refine ht₃.getSize (update_self ..) fun x₄ _ ht₄ => ?_
  rw [returns_bind]
  refine ht₄.getSize (by rw [update_of_ne hyblk]; exact update_self ..)
    fun x₅ _ ht₅ => ?_
  have hsize : wordAdd s (wordAdd MBLKHDRSIZE t) = s + 16 + t := by
    rw [MBLKHDRSIZE, wordAdd_eq (a := 16) (by omega), wordAdd_eq (by omega)]
    omega
  simp only [hsize, returns_bind]
  refine ht₅.setSize (update_self ..) rfl (by omega) fun x₆ ht₆ => ?_
  simp only [update_idem] at ht₆
  refine ht₆.getSize (update_self ..) fun x₇ _ ht₇ => ?_
  refine ht₇.setPrevSizeInside (by simp only; omega) ?_ fun x₈ ht₈ => ?_
  · intro hlt
    rw [update_of_ne (by omega), update_of_ne (by omega)]
    exact hnext.next hlt
  have hfront : relink (update (update H y (some ⟨s, t, true, false⟩)) blk
      (some ⟨lastSize 0 L₁, s + 16 + t, true, false⟩)) z (s + 16 + t) blk =
        some ⟨lastSize 0 L₁, s + 16 + t, true, false⟩ := by
    rw [relink, if_neg (by omega), update_self]
  refine ht₈.attachToFreelist hfront rfl hall fun x₉ ht₉ => ?_
  -- the next block is no longer a block of its own
  have ht₉ := ht₉.forget (b := y) (h := ⟨s, t, true, false⟩)
    (by rw [update_of_ne hyblk, relink, if_neg (by omega), update_of_ne hyblk, update_self]) rfl
  refine ht₉.modifyStat fun x₁₀ ht₁₀ => ?_
  refine hQ x₁₀ (Heap.of_tracked ht₁₀ ?_ ?_ ?_)
  · have hold := hf.coalesced
    rw [noFreePair_append, noFreePair_append, lastFree_append] at hold
    refine hf.replace (by simp only [span, room_mk]; omega) ?_
      ⟨⟨by simp [hprev], trivial⟩, hold.2⟩
    intro b hb
    have hs := hf.minSize ⟨s, false⟩ (by simp)
    rw [mem_singleton.mp hb]
    simp only at hs ⊢
    omega
  · rw [← hH]
    refine headersFrom_join (S := [⟨s, false⟩, ⟨t, true⟩]) (z := z) hblk (by omega)
      (by simp only [span, room_mk]; omega) ?_ ?_ ?_ ?_
    · intro q hq
      rw [hH, update_of_ne (by omega), update_of_ne (by omega), relink,
        if_neg (by omega), update_of_ne (by omega), update_of_ne (by omega)]
    · rw [update_of_ne hyblk.symm, update_self]
    · intro q hlo hhi
      by_cases hq : q = y
      · rw [hq, update_self]
      · rw [hH, update_of_ne hq, update_of_ne (by omega), relink,
          if_neg (by omega), update_of_ne (by omega), update_of_ne hq]
        by_cases hlt : q < y
        · exact hhere.none_of_lt hlo hlt
        · exact hnext.none_of_lt (by omega) hhi
    · rw [hH, update_of_ne (by omega), update_of_ne (by omega), relink,
        relink, if_pos rfl, if_pos rfl, update_of_ne (by omega),
        update_of_ne (by omega)]
  · simp only [Stat.release, hstat, span, usedSum, freeSum, usedCount, freeCount, room_mk,
      Stat.mk.injEq, MBLKHDRSIZE, if_true, if_false, Bool.false_eq_true]
    simp (disch := omega) only [wordAdd_eq, wordSub_eq, and_true]
    omega

theorem freeJoinBoth_spec (hf : Fits c (L₁ ++ [⟨r, true⟩, ⟨s, false⟩, ⟨t, true⟩] ++ L₂))
    (ht : Tracked c (headersFrom c.start 0 (L₁ ++ [⟨r, true⟩, ⟨s, false⟩, ⟨t, true⟩] ++ L₂))
      ((statOf (L₁ ++ [⟨r, true⟩, ⟨s, false⟩, ⟨t, true⟩] ++ L₂)).release s) x)
    (hp : p = c.start + span L₁) (hblk : blk = p + 16 + r) (hy : y = blk + 16 + s)
    (hQ : ∀ x', Heap c (L₁ ++ [⟨r + 16 + s + 16 + t, true⟩] ++ L₂) x' → Q ⟨⟩ x') :
    Returns (freeJoinBoth p y s) x Q := by
  obtain ⟨α, φ, u, g, hsmall, hstat⟩ := hf.exists_stat
  simp only [span, room_mk] at hsmall
  obtain ⟨z, hz⟩ : ∃ z, z = y + 16 + t := ⟨_, rfl⟩
  have hprev := hf.here ht.toRecorded L₁ ⟨r, true⟩ (⟨s, false⟩ :: ⟨t, true⟩ :: L₂)
    (by simp) hp (z := blk) (by rw [room_mk]; omega)
  have hhere := hf.here ht.toRecorded (L₁ ++ [⟨r, true⟩]) ⟨s, false⟩ (⟨t, true⟩ :: L₂)
    (by simp) (q := blk)
    (by simp only [span_append, span, room_mk]; omega) (z := y) (by rw [room_mk]; omega)
  have hnext := hf.here ht.toRecorded (L₁ ++ [⟨r, true⟩, ⟨s, false⟩]) ⟨t, true⟩ L₂ (by simp)
    (q := y) (by simp only [span_append, span, room_mk]; omega)
    (z := z) (by rw [room_mk]; omega)
  have hall := ht.linksAllowed hprev.hdr rfl
  generalize hH : headersFrom c.start 0 (L₁ ++ [⟨r, true⟩, ⟨s, false⟩, ⟨t, true⟩] ++ L₂) = H
    at ht hprev hnext hhere
  simp only [Blk.hdr, lastSize_append, lastSize] at hprev hnext hhere
  have hyp : y ≠ p := by omega
  rw [freeJoinBoth, returns_bind]
  refine ht.getSize hnext.hdr fun x₁ _ ht₁ => ?_
  have hbs : wordAdd (wordAdd (wordAdd MBLKHDRSIZE s) MBLKHDRSIZE) t = 16 + s + 16 + t := by
    rw [MBLKHDRSIZE, wordAdd_eq (a := 16) (by omega), wordAdd_eq (a := 16 + s) (by omega),
      wordAdd_eq (by omega)]
  have hsize : wordAdd r (16 + s + 16 + t) = r + 16 + s + 16 + t := by
    rw [wordAdd_eq (by omega)]
    omega
  simp only [hbs, returns_bind]
  refine ht₁.detachFromFreelist hprev.hdr rfl fun x₂ ht₂ => ?_
  refine ht₂.detachFromFreelist (by rw [update_of_ne hyp]; exact hnext.hdr) rfl
    fun x₃ ht₃ => ?_
  have hpsome : update (update H p (some ⟨lastSize 0 L₁, r, true, false⟩)) y
      (some ⟨s, t, true, false⟩) p = some ⟨lastSize 0 L₁, r, true, false⟩ := by
    rw [update_of_ne hyp.symm, update_self]
  refine ht₃.getSize hpsome fun x₄ _ ht₄ => ?_
  simp only [hsize]
  refine ht₄.setSize hpsome rfl (by omega) fun x₅ ht₅ => ?_
  refine ht₅.attachToFreelist (update_self ..) rfl hall fun x₆ ht₆ => ?_
  simp only [update_idem] at ht₆
  have hzp : p + 16 + (r + 16 + s + 16 + t) = z := by omega
  refine ht₆.relinkNext (update_self ..) ?_ fun x₇ ht₇ => ?_
  · rw [hzp]
    intro hlt
    rw [update_of_ne (by omega), update_of_ne (by omega), update_of_ne (by omega)]
    exact hnext.next hlt
  rw [hzp] at ht₇
  -- the freed block and the next one are no longer blocks of their own
  have ht₇ := ht₇.forget (b := blk) (h := ⟨r, s, false, false⟩)
    (by rw [relink, if_neg (by omega), update_of_ne (by omega),
      update_of_ne (by omega), update_of_ne (by omega)]; exact hhere.hdr) rfl
  have ht₇ := ht₇.forget (b := y) (h := ⟨s, t, true, false⟩)
    (by rw [update_of_ne (by omega), relink, if_neg (by omega), update_of_ne hyp, update_self]) rfl
  refine ht₇.modifyStat fun x₈ ht₈ => ?_
  refine hQ x₈ (Heap.of_tracked ht₈ ?_ ?_ ?_)
  · have hold := hf.coalesced
    rw [noFreePair_append, noFreePair_append, lastFree_append] at hold
    refine hf.replace (by simp only [span, room_mk]; omega) ?_
      ⟨⟨hold.1.2.1, trivial⟩, hold.2⟩
    intro b hb
    have hr := hf.minSize ⟨r, true⟩ (by simp)
    rw [mem_singleton.mp hb]
    simp only at hr ⊢
    omega
  · rw [← hH]
    refine headersFrom_join (S := [⟨r, true⟩, ⟨s, false⟩, ⟨t, true⟩]) (z := z) hp (by omega)
      (by simp only [span, room_mk]; omega) ?_ ?_ ?_ ?_
    · intro q hq
      rw [hH, update_of_ne (by omega), update_of_ne (by omega), relink,
        if_neg (by omega), update_of_ne (by omega), update_of_ne (by omega),
        update_of_ne (by omega)]
    · rw [update_of_ne (by omega), update_of_ne (by omega), relink, if_neg (by omega), update_self]
    · intro q hlo hhi
      by_cases hq : q = y
      · rw [hq, update_self]
      by_cases hqb : q = blk
      · rw [update_of_ne hq, hqb, update_self]
      rw [hH, update_of_ne hq, update_of_ne hqb, relink,
        if_neg (by omega), update_of_ne (by omega), update_of_ne hq,
        update_of_ne (by omega)]
      rcases lt_or_ge q blk with hlt | hge
      · exact hprev.none_of_lt hlo hlt
      · rcases lt_or_ge q y with hlt | hge'
        · exact hhere.none_of_lt (by omega) hlt
        · exact hnext.none_of_lt (by omega) hhi
    · rw [hH, update_of_ne (by omega), update_of_ne (by omega), relink,
        relink, if_pos rfl, if_pos rfl, update_of_ne (by omega),
        update_of_ne (by omega), update_of_ne (by omega)]
  · have hns : wordAdd (wordAdd MBLKHDRSIZE s) MBLKHDRSIZE = 16 + s + 16 := by
      rw [MBLKHDRSIZE, wordAdd_eq (a := 16) (by omega), wordAdd_eq (by omega)]
    simp only [Stat.release, hns, hstat, span, usedSum, freeSum, usedCount, freeCount, room_mk,
      Stat.mk.injEq, if_true, if_false, Bool.false_eq_true]
    simp (disch := omega) only [wordAdd_eq, wordSub_eq]
    omega

theorem Fits.prev_flag (hf : Fits c (L₁ ++ L₂)) {st : Stat}
    (hr : Recorded c (headersFrom c.start 0 (L₁ ++ L₂)) st x) (hblk : blk = c.start + span L₁)
    (hp : p = wordSub blk (wordAdd 16 (lastSize 0 L₁))) :
    (c.start ≤ p → ∃ h, headersFrom c.start 0 (L₁ ++ L₂) p = some h ∧ h.free = lastFree false L₁) ∧
    (¬c.start ≤ p → lastFree false L₁ = false) ∧
    (∀ M r, L₁ = M ++ [⟨r, true⟩] → p = c.start + span M) := by
  have hzone := hr.zone
  have hspan := hf.span_eq
  rw [span_append] at hspan
  rcases eq_nil_or_concat' L₁ with rfl | ⟨M, d, rfl⟩
  · simp only [lastSize, span] at hp hblk
    rw [wordAdd_eq (by omega), wordSub_eq (by omega) (by omega)] at hp
    refine ⟨fun hlo => by omega, fun _ => rfl, ?_⟩
    intro M r hM
    simp at hM
  simp only [span_append, span, Blk.room] at hspan hblk
  rw [lastSize_concat, wordAdd_eq (by omega), wordSub_eq (by omega) (by omega)] at hp
  have hpM : p = c.start + span M := by omega
  rw [lastFree_concat]
  refine ⟨fun _ => ⟨d.hdr (lastSize 0 M), ?_, rfl⟩, fun hlo => by omega, ?_⟩
  · rw [hpM, append_assoc]
    exact headersFrom_at
  · intro M' r hM
    obtain ⟨rfl, -⟩ := append_inj' hM rfl
    exact hpM

theorem Heap.free (hh : Heap c (L₁ ++ [⟨s, false⟩] ++ L₂) x)
    (hblk : blk = c.start + span L₁) (hall : c.Allows blk 32) (hQ : ∀ L' x', Heap c L' x' →
      usedFrom c.start L' = usedFrom c.start L₁ ++ usedFrom (blk + 16 + s) L₂ → Q ⟨⟩ x') :
    Returns (free (blk + 16)) x Q := by
  have hhere := hh.here _ _ _ rfl hblk rfl
  have hflag := hh.fits
  rw [append_assoc] at hflag
  have hfits := hh.fits
  have hold := hfits.coalesced
  rw [noFreePair_append, noFreePair_append] at hold
  rw [Xma.free]
  simp only [MBLKHDRSIZE, Nat.add_sub_cancel, returns_bind]
  refine hh.tracked.getSize hhere.hdr fun x₁ _ ht₁ => ?_
  refine ht₁.modifyStat fun x₂ ht₂ => ?_
  refine ht₂.prevMblk hhere.hdr fun x₃ _ ht₃ => ?_
  refine ht₃.nextMblk hhere.hdr fun x₄ _ ht₄ => ?_
  simp only [Blk.hdr]
  generalize hp : wordSub blk (wordAdd 16 (lastSize 0 L₁)) = p
  obtain ⟨y, hy⟩ : ∃ y, y = blk + 16 + s := ⟨_, rfl⟩
  rw [← hy]
  have hr := ht₄.toRecorded
  rw [append_assoc] at hr
  obtain ⟨hpin, hpout, hpaddr⟩ := hflag.prev_flag hr hblk hp.symm
  rw [← append_assoc] at hpin
  refine ht₄.prevIsFree hpin hpout fun x₅ _ ht₅ => ?_
  have hyL : y = c.start + span (L₁ ++ [⟨s, false⟩]) := by
    simp only [span_append, span, room_mk]
    omega
  obtain ⟨hyin, hyout⟩ := hfits.next_flag hyL
  refine ht₅.nextIsFree hyin hyout fun x₆ _ ht₆ => ?_
  cases hpf : lastFree false L₁ with
  | false =>
    cases hnf : headFree L₂ with
    | false =>
      simp only [Bool.false_and, Bool.false_eq_true, if_false]
      refine freeAlone_spec hfits ht₆ hblk hall hpf (hold.2.of_headFree hnf)
        fun x' hx' => hQ _ x' hx' ?_
      simp [usedFrom_append, usedFrom, hblk, add_assoc]
    | true =>
      obtain ⟨t, M, rfl⟩ := exists_of_headFree hnf
      simp only [Bool.false_and, Bool.false_eq_true, if_false, if_true]
      have hLe : L₁ ++ [⟨s, false⟩] ++ ⟨t, true⟩ :: M =
          L₁ ++ [⟨s, false⟩, ⟨t, true⟩] ++ M := by simp
      rw [hLe] at ht₆ hfits
      refine freeJoinNext_spec hfits ht₆ hblk hy hall hpf fun x' hx' => hQ _ x' hx' ?_
      simp [usedFrom_append, usedFrom, hblk, add_assoc]
  | true =>
    obtain ⟨M, r, rfl⟩ := exists_of_lastFree hpf
    have hpM := hpaddr M r rfl
    simp only [span_append, span, room_mk] at hblk
    cases hnf : headFree L₂ with
    | false =>
      simp only [Bool.and_false, Bool.false_eq_true, if_false, if_true]
      have hLe : M ++ [⟨r, true⟩] ++ [⟨s, false⟩] ++ L₂ =
          M ++ [⟨r, true⟩, ⟨s, false⟩] ++ L₂ := by simp
      rw [hLe] at ht₆ hfits
      refine freeJoinPrev_spec hfits ht₆ hpM (by omega) hy (hold.2.of_headFree hnf)
        fun x' hx' => hQ _ x' hx' ?_
      simp [usedFrom_append, usedFrom, hblk, add_assoc]
    | true =>
      obtain ⟨t, N, rfl⟩ := exists_of_headFree hnf
      simp only [Bool.and_self, if_true]
      have hLe : M ++ [⟨r, true⟩] ++ [⟨s, false⟩] ++ ⟨t, true⟩ :: N =
          M ++ [⟨r, true⟩, ⟨s, false⟩, ⟨t, true⟩] ++ N := by simp
      rw [hLe] at ht₆ hfits
      refine freeJoinBoth_spec hfits ht₆ hpM (by omega) hy fun x' hx' => hQ _ x' hx' ?_
      simp [usedFrom_append, usedFrom, hblk, add_assoc]

end

end Qse.Xma
