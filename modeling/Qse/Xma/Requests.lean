import Qse.Xma.Runs

/-!
# Refused and served requests

When `qse_xma_alloc` refuses a request that survives rounding, the free blocks large enough for it
all lie in fixed-size chains above its own.
-/

namespace Qse.Xma

open ByteMemory MachineWord LinkedChain StateProgram

def roundedUp (n : ℕ) : ℕ := (max n 16 + 15) / 16 * 16

section

variable {L L' : List Blk} {x x' : Xma} {live : Finset ℕ} {b k n r s : ℕ} {c : Call}
  {T : Set ℕ}

theorem Runs.returns {Q : ℕ → Xma → Prop} (hrun : Runs x c r x')
    (h : Returns c.run x.forgetTouched Q) : Q r x' :=
  h.of_run hrun

/-- A refused request fits no free block, or only free blocks of fixed-size
chains above its own. -/
theorem alloc_null_reachable (hx : Reachable (fun x c => c.Sound x) x live) (hn : n < 2 ^ 64)
    (hrun : Runs x (.alloc n) 0 x') :
    ∃ L, HeapInv x L ∧ ∀ b ∈ L, b.free = true → roundedUp n ≤ b.size →
      classOf (roundedUp n) < classOf b.size ∧ classOf b.size < FIXED := by
  obtain ⟨L, hL⟩ := reachable_inv (fun _ _ hs => hs) hx
  refine ⟨L, hL.inv, ?_⟩
  by_cases hround : RoundsUp n
  · have hrounded : roundedUp n = roundSize n := (roundSize_eq hround).symm
    have hi := (sameHeap_forgetTouched x).heapInv hL.inv
    rcases hrun.returns (hi.alloc hround (Set.subset_univ _) (touchedIn_forgetTouched x _))
      with ⟨-, -, -, hno⟩ | ⟨hne, -⟩
    · rw [hrounded]
      exact hno
    · exact absurd rfl hne
  · -- no block is as large as a request that wraps
    intro b hb _ hle
    obtain ⟨L₁, L₂, rfl⟩ := List.append_of_mem hb
    have hsmall := hL.inv.small
    simp only [span_append, span, Blk.room] at hsmall
    simp only [RoundsUp, ALIGN] at hround
    rw [roundedUp] at hle
    omega

/-- A zone of 272 bytes is one free block of 256 bytes, filed in a fixed-size
chain. -/
theorem alloc_null_reachable_zone : ∃ x x', Runs x (.alloc 16) 0 x' ∧
    ∃ L, HeapInv x L ∧ ∀ b ∈ L, b.free = true → roundedUp 16 ≤ b.size →
      classOf (roundedUp 16) < classOf b.size ∧ classOf b.size < FIXED := by
  obtain ⟨x, hinit, hzone, hP⟩ := zone_of_check 272 (P := fun x =>
    x.check (.alloc 16) fun r _ => decide (r = 0)) (by decide +kernel)
  obtain ⟨r, x', hrun, hr⟩ := runs_of_check hP
  obtain rfl := of_decide_eq_true hr
  exact ⟨x, x', hrun, alloc_null_reachable (.init hinit (by decide) hzone) (by decide) hrun⟩

/-- A zone whose only free block is large enough refuses a request. -/
theorem alloc_null_with_room : ∃ x live x' L b, Reachable (fun _ c => c.Rounds) x live ∧
    Runs x (.alloc 16) 0 x' ∧ HeapInv x L ∧ L = [b] ∧ b.free = true ∧ roundedUp 16 ≤ b.size := by
  obtain ⟨x, hinit, hzone, hP⟩ := zone_of_check 272 (P := fun x =>
    x.check (.alloc 16) fun r _ => decide (r = 0)) (by decide +kernel)
  obtain ⟨r, x', hrun, hr⟩ := runs_of_check hP
  obtain rfl := of_decide_eq_true hr
  obtain ⟨s, hi⟩ := heapInv_of_init hinit (by decide) hzone
  have hs : 16 ≤ s := hi.minSize ⟨s, true⟩ (by simp)
  exact ⟨x, ∅, x', _, ⟨s, true⟩, .init hinit (by decide) hzone, hrun, hi, rfl, rfl, hs⟩

theorem allocFromFreelist_zero :
    Yields (allocFromFreelist k 0) x fun r x' =>
      (r = 0 ∧ x.xfree k = 0 ∧ x' = x) ∨ r ≠ 0 := by
  by_cases hk : x.xfree k = 0
  · refine Returns.yields (allocFromFreelist_empty hk ?_)
    exact .inl ⟨rfl, hk, rfl⟩
  have hget : Yields (get : XmaM Xma) x fun y x' => y = x ∧ x' = x :=
    Returns.yields (returns_get.mpr ⟨rfl, rfl⟩)
  have hhead : Yields (getXfree k) x fun cand _ => cand = x.xfree k := by
    refine Returns.yields ?_
    rw [getXfree, returns_bind, returns_get, returns_pure]
  rw [allocFromFreelist]
  refine hget.bind fun y x' hsame => ?_
  rw [hsame.1, hsame.2]
  refine hhead.bind fun cand _ hcand => ?_
  rw [searchFreelist, if_neg (hcand ▸ hk)]
  refine Yields.skip fun candSize _ => yields_ite (fun _ => ?_) fun hneg => ?_
  · exact Yields.skip fun _ _ => yields_pure (.inr (hcand ▸ hk))
  · exact absurd (Nat.zero_le _) hneg

theorem allocFromChains_zero {ks : List ℕ} :
    Yields (allocFromChains 0 ks) x fun r x' =>
      (r = 0 ∧ (∀ k ∈ ks, x.xfree k = 0) ∧ x' = x) ∨ r ≠ 0 := by
  induction ks with
  | nil => exact yields_pure (.inl ⟨rfl, by simp, rfl⟩)
  | cons k ks ih =>
    rw [allocFromChains]
    refine allocFromFreelist_zero.bind fun r x₁ hr => ?_
    rcases hr with ⟨rfl, hk, rfl⟩ | hne
    · rw [if_neg (by simp)]
      intro r x' hrun
      rcases ih r x' hrun with ⟨hr, hks, hx'⟩ | hne
      · refine .inl ⟨hr, fun j hj => ?_, hx'⟩
        rcases List.mem_cons.mp hj with rfl | hj
        · exact hk
        · exact hks j hj
      · exact .inr hne
    · rw [if_pos hne]
      exact yields_pure (.inr hne)

theorem alloc_wrapped (hround : roundSize n = 0) (hbdec : x.bdec = szlog2 (FIXED * ALIGN)) :
    Yields (alloc n) x fun r _ => r = 0 → x.xfree (classOf 0) = 0 ∧ x.xfree XFIMAX = 0 ∧
      ∀ k ∈ chainsAfter (FIXED - 1), x.xfree k = 0 := by
  have hxfi : getxfi x.bdec 0 = classOf 0 := by rw [hbdec, classOf]
  have hget : Yields (get : XmaM Xma) x fun y x' => y = x ∧ x' = x :=
    Returns.yields (returns_get.mpr ⟨rfl, rfl⟩)
  have hhead : Yields (getXfree (classOf 0)) x fun head x' =>
      head = x.xfree (classOf 0) ∧ x' = x := by
    refine Returns.yields ?_
    rw [getXfree, returns_bind, returns_get, returns_pure]
    exact ⟨rfl, rfl⟩
  have hsmall : classOf 0 < FIXED := by decide
  rw [alloc]
  refine hget.bind fun y x' hsame => ?_
  rw [hsame.1, hsame.2]
  simp only [hround, hxfi]
  refine hhead.bind fun head x₁ hown => ?_
  obtain ⟨hheq, hx₁⟩ := hown
  rw [hx₁]
  refine yields_ite (fun _ => ?_) fun hempty => ?_
  · refine Yields.skip fun _ _ => yields_pure fun hzero => ?_
    simp [MBLKHDRSIZE] at hzero
  have hown : x.xfree (classOf 0) = 0 := by
    by_contra hne
    exact hempty ⟨hsmall, hheq ▸ hne⟩
  rw [if_neg (show ¬classOf 0 = XFIMAX by decide), allocNear, if_neg (by omega)]
  refine Yields.bind (R := fun p x' =>
    (p = (0, FIXED - 1) ∧ x.xfree XFIMAX = 0 ∧ x' = x) ∨ p.1 ≠ 0) ?_ fun p x₂ hp => ?_
  · refine allocFromFreelist_zero.bind fun cand x₂ hcand => yields_pure ?_
    rcases hcand with ⟨rfl, hhuge, rfl⟩ | hne
    · exact .inl ⟨rfl, hhuge, rfl⟩
    · exact .inr hne
  obtain ⟨cand, xfi⟩ := p
  rcases hp with ⟨hp, hhuge, rfl⟩ | hne
  · cases hp
    simp only [ne_eq, not_true_eq_false, if_false]
    refine allocFromChains_zero.bind fun cand x₃ hcand => ?_
    rcases hcand with ⟨rfl, hks, -⟩ | hne
    · rw [if_pos rfl]
      exact yields_pure fun _ => ⟨hown, hhuge, hks⟩
    · rw [if_neg hne]
      refine yields_pure fun hzero => ?_
      simp [MBLKHDRSIZE] at hzero
  · have hne' : cand ≠ 0 := hne
    simp only [ne_eq, hne', not_false_eq_true, if_true]
    refine yields_pure fun hzero => ?_
    simp [MBLKHDRSIZE] at hzero

theorem reallocMerge_wrapped (hround : roundSize n = 0) :
    Yields (reallocMerge b n) x fun r _ => r = b := by
  rw [reallocMerge]
  simp only [hround]
  refine Yields.skip fun blkSize _ => yields_ite (fun hlt => absurd hlt (by simp)) fun _ => ?_
  refine yields_ite (fun _ => ?_) fun _ => yields_pure rfl
  refine yields_ite (fun _ => ?_) fun _ => yields_pure rfl
  refine Yields.skip fun _ _ => Yields.skip fun nFree _ => yields_ite (fun _ => ?_) fun _ => ?_
  · rw [shrinkJoin]
    refine Yields.skip fun _ _ => Yields.skip fun _ _ => Yields.skip fun _ _ => ?_
    exact Yields.skip fun _ _ => Yields.skip fun _ _ => Yields.skip fun _ _ => yields_pure rfl
  · rw [shrinkSplit]
    refine Yields.skip fun _ _ => Yields.skip fun _ _ => Yields.skip fun _ _ => ?_
    exact Yields.skip fun _ _ => Yields.skip fun _ _ => Yields.skip fun _ _ => yields_pure rfl

/-- The request is refused and nothing changes, or the block returned has at
least the requested size. -/
def MeetsRequest (x : Xma) (c : Call) : Prop :=
  ∃ r x', Runs x c r x' ∧ (r = 0 ∧ SameHeap x x' ∨ r ≠ 0 ∧ c.size ≤ x'.sizeAt r)

theorem Allocated.meets (ha : Allocated T x L n r x') (hn : RoundsUp n) :
    r = 0 ∧ SameHeap x x' ∨ r ≠ 0 ∧ n ≤ x'.sizeAt r := by
  rcases ha with ⟨hr, hsame, -, -⟩ | ⟨hne, -, L', hran, hadd, -⟩
  · exact .inl ⟨hr, hsame⟩
  · obtain ⟨⟨s, hle, hmem⟩, -⟩ := hadd.spec
    rw [hran.inv.sizeAt_eq hmem]
    exact .inr ⟨hne, (le_roundSize hn).trans hle⟩

theorem Reallocated.meets (ha : Reallocated T x L b s n r x') (hb : (b, s) ∈ used x L)
    (hn : RoundsUp n) : r = 0 ∧ SameHeap x x' ∨ r ≠ 0 ∧ n ≤ x'.sizeAt r := by
  have hround := le_roundSize hn
  rcases ha with ⟨hr, hsame, -⟩ | ⟨hne, L', hran, -, -, hcase⟩
  · exact .inl ⟨hr, hsame⟩
  refine .inr ⟨hne, ?_⟩
  rcases hcase with ⟨rfl, s', ⟨U₁, U₂, -, hU'⟩, hle⟩ | ⟨y, M, hadd, U₁, U₂, hV, hU'⟩
  · have hmem : (r, s') ∈ used x' L' := by
      rw [hU']
      simp
    rw [hran.inv.sizeAt_eq hmem]
    exact hround.trans hle
  obtain ⟨⟨t, hle, hmem⟩, hold⟩ := hadd.spec
  have hbr : b ≠ r := (mem_others.mp (hold (b, s) hb)).2
  have hmem' : (r, t) ∈ used x' L' := by
    rw [hV] at hmem
    rw [hU']
    rcases List.mem_append.mp hmem with hmem | hmem
    · exact List.mem_append_left _ hmem
    · rcases List.mem_cons.mp hmem with heq | hmem
      · exact absurd (congrArg Prod.fst heq).symm hbr
      · exact List.mem_append_right _ hmem
  rw [hran.inv.sizeAt_eq hmem']
  exact hround.trans hle

theorem sizeAt_lt (x : Xma) (b : ℕ) : x.sizeAt b < 2 ^ 63 := by
  have hlt := load_lt x.mem (b - 8) 8
  rw [sizeAt]
  norm_num at hlt
  omega

/-- In a run of sound calls, a further `alloc` or `realloc` of any size meets
its request exactly if it is sound. -/
theorem meetsRequest_iff_sound (hx : Reachable (fun x c => c.Sound x) x live)
    (hc : (∃ n, c = .alloc n) ∨ ∃ b n, c = .realloc b n) (hv : c.Valid live)
    (hn : c.size < 2 ^ 64) : MeetsRequest x c ↔ c.Sound x := by
  obtain ⟨L, hL⟩ := reachable_inv (fun _ _ hs => hs) hx
  have hsame₀ := sameHeap_forgetTouched x
  have hL' := hsame₀.liveInv hL
  constructor
  · rintro ⟨r, x', hrun, hmeets⟩
    by_contra hsound
    have hwrap : ¬c.Rounds := fun hr => hsound (.inl hr)
    have hround : roundSize c.size = 0 := roundSize_of_wrap hn hwrap
    have hr : r = 0 := by
      rcases hmeets with ⟨hr, -⟩ | ⟨-, hle⟩
      · exact hr
      · -- a wrapped request exceeds every recorded size
        have hlt := sizeAt_lt x' r
        simp only [Call.Rounds, RoundsUp, ALIGN] at hwrap
        omega
    have halloc : Yields (Xma.alloc c.size) x.forgetTouched fun r _ => r = 0 →
        x.xfree (classOf 0) = 0 ∧ x.xfree XFIMAX = 0 ∧
          ∀ k ∈ chainsAfter (FIXED - 1), x.xfree k = 0 := alloc_wrapped hround hL'.inv.bdec
    rw [Runs] at hrun
    rcases hc with ⟨n, rfl⟩ | ⟨b, n, rfl⟩
    · exact hsound (.inr ⟨hwrap, hn, rfl, halloc r x' hrun hr⟩)
    rw [Call.run, Xma.realloc] at hrun
    by_cases hb : b = 0
    · rw [if_pos hb] at hrun
      exact hsound (.inr ⟨hwrap, hn, hb, halloc r x' hrun hr⟩)
    rw [if_neg hb] at hrun
    have hkeep : Yields (do
        let m ← Xma.reallocMerge b n
        if m = 0 then do
          let m ← Xma.alloc n
          (if m ≠ 0 then do
              Xma.memcpy m b n
              Xma.free b
            else pure ⟨⟩)
          pure m
        else pure m) x.forgetTouched fun r _ => r = b := by
      refine (reallocMerge_wrapped hround).bind fun m _ hm => ?_
      rw [if_neg (hm ▸ hb)]
      exact yields_pure hm
    exact hb ((hkeep r x' hrun).symm.trans hr)
  · rintro (hr | hstarved)
    · have hcov : c.Covered Set.univ x.forgetTouched L := by
        cases c with
        | realloc b n => exact fun _ => ⟨fun _ _ _ _ _ => trivial, fun _ _ _ _ _ _ => trivial⟩
        | _ => trivial
      obtain ⟨r, x', hrun, he⟩ :=
        hL'.effect hv hr (Set.subset_univ _) (touchedIn_forgetTouched x _) hcov
      refine ⟨r, x', hrun, ?_⟩
      have hmeets : r = 0 ∧ SameHeap x.forgetTouched x' ∨ r ≠ 0 ∧ c.size ≤ x'.sizeAt r := by
        rcases hc with ⟨n, rfl⟩ | ⟨b, n, rfl⟩
        · exact Allocated.meets he hr
        · rw [Call.Effect] at he
          split at he
          · exact he.meets hr
          · next hb =>
              exact he.meets (hL'.used_of_mem (hv.resolve_left hb)) hr
      rcases hmeets with ⟨hzero, hsame⟩ | hmeets
      · exact .inl ⟨hzero, hsame₀.trans hsame⟩
      · exact .inr hmeets
    · obtain ⟨r, x', hrun, rfl, rfl⟩ :=
        Call.Starved.returns (x := x.forgetTouched) hstarved hL'.inv.bdec
      exact ⟨0, _, hrun, .inl ⟨rfl, hsame₀⟩⟩

/-- A request of 64 bytes in a zone of 1024 bytes. -/
theorem meetsRequest_iff_sound_zone : ∃ x, x.start = 4096 ∧ x.end_ = 5120 ∧
    (MeetsRequest x (.alloc 64) ↔ (Call.alloc 64).Sound x) := by
  obtain ⟨x, hinit, hzone, hP⟩ := zone_of_check 1024 (P := fun x =>
    decide (x.start = 4096 ∧ x.end_ = 5120)) (by decide +kernel)
  obtain ⟨hstart, hend⟩ := of_decide_eq_true hP
  exact ⟨x, hstart, hend, meetsRequest_iff_sound (.init hinit (by decide) hzone)
    (.inl ⟨64, rfl⟩) trivial (by decide)⟩

/-- The largest request in a zone of 4096 bytes gets a block of recorded size
zero. -/
theorem alloc_max_size : ∃ x live x', Reachable (fun _ c => c.Rounds) x live ∧
    Runs x (.alloc (2 ^ 64 - 1)) 4112 x' ∧ x'.sizeAt 4112 = 0 ∧
      ¬MeetsRequest x (.alloc (2 ^ 64 - 1)) := by
  obtain ⟨x, hinit, hzone, hP⟩ := zone_of_check 4096 (P := fun x =>
    x.check (.alloc (2 ^ 64 - 1)) fun r x' => decide (r = 4112 ∧ x'.sizeAt 4112 = 0))
    (by decide +kernel)
  obtain ⟨r, x', hrun, hr⟩ := runs_of_check hP
  obtain ⟨rfl, hsize⟩ := of_decide_eq_true hr
  refine ⟨x, ∅, x', .init hinit (by decide) hzone, hrun, hsize, ?_⟩
  rintro ⟨r', y, hrun', hmeets⟩
  rw [Runs] at hrun hrun'
  rw [hrun] at hrun'
  cases hrun'
  rcases hmeets with ⟨hzero, -⟩ | ⟨-, hle⟩
  · cases hzero
  · rw [hsize] at hle
    exact absurd hle (by decide)

end

end Qse.Xma
