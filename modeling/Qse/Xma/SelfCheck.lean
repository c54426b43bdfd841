import Qse.Xma.Runs

/-!
# The heap invariant over runs

In every state of a run whose requests survive rounding, the blocks tile the
zone, `prev_size` fields, coalescing and free lists are in order, and no
assertion of `DBG_VERIFY` fails.
-/

namespace Qse.Xma

open ByteMemory MachineWord LinkedChain StateProgram

section

variable {L : List Blk} {x : Xma} {live : Finset ℕ}

/-- The loop of `DBG_VERIFY` over the blocks left, by induction on them. -/
theorem dbgVerifyFrom_of_shows {a p fuel fsum asum : ℕ} (hshow : ShowsBlocks x.mem a p L)
    (hend : a + span L = x.end_) (hfuel : span L < fuel) (hfirst : a = x.start → p = 0)
    (hstart : x.start ≤ a) (hend64 : x.end_ < 2 ^ 64)
    (hfsum : fsum + freeSum L = x.stat.avail) (hasum : asum + usedSum L = x.stat.alloc)
    (htotal : x.stat.alloc + x.stat.avail + 16 * (x.stat.nused + x.stat.nfree) = x.stat.total)
    (h64 : x.stat.total < 2 ^ 64) : dbgVerifyFrom x fuel a fsum asum = true := by
  induction L generalizing a p fuel fsum asum with
  | nil =>
    obtain ⟨fuel, rfl⟩ : ∃ n, fuel = n + 1 := ⟨fuel - 1, by omega⟩
    simp only [span, freeSum, usedSum, add_zero] at hend hfsum hasum
    rw [dbgVerifyFrom, if_neg (by omega)]
    have hisum : wordAdd x.stat.nfree x.stat.nused * MBLKHDRSIZE % 2 ^ 64 =
        16 * (x.stat.nused + x.stat.nfree) := by
      rw [wordAdd_eq (by omega), MBLKHDRSIZE]
      omega
    have hsub : wordSub x.stat.total (wordAdd x.stat.alloc x.stat.avail) =
        16 * (x.stat.nused + x.stat.nfree) := by
      rw [wordAdd_eq (by omega), wordSub_eq (by omega) (by omega)]
      omega
    have hadd : wordAdd (wordAdd x.stat.alloc x.stat.avail)
        (16 * (x.stat.nused + x.stat.nfree)) = x.stat.total := by
      rw [wordAdd_eq (a := x.stat.alloc) (by omega), wordAdd_eq (by omega)]
      omega
    simp only [hisum, hsub, hadd, hasum, hfsum, decide_true, Bool.and_self]
  | cons b L ih =>
    obtain ⟨fuel, rfl⟩ : ∃ n, fuel = n + 1 := ⟨fuel - 1, by omega⟩
    obtain ⟨hprev, hword, hrest⟩ := hshow
    simp only [span, Blk.room] at hend hfuel
    have hbit : b.free.toNat ≤ 1 := Bool.toNat_le b.free
    have hsize : load x.mem (a + 8) 8 / 2 = b.size := by omega
    have hfree : decide (load x.mem (a + 8) 8 % 2 = 1) = b.free := by
      rw [hword, Nat.mul_add_mod]
      cases b.free <;> rfl
    rw [dbgVerifyFrom, if_pos (by omega)]
    simp only [hsize, hfree, MBLKHDRSIZE, Bool.and_eq_true, decide_eq_true_eq]
    refine ⟨⟨fun ha => hprev.trans (hfirst ha), fun hlt => ?_⟩, ?_⟩
    · -- the next block shows the size of this one
      cases L with
      | nil =>
        simp only [span] at hend
        omega
      | cons d L => exact hrest.1
    · simp only [freeSum, usedSum] at hfsum hasum
      refine ih hrest (by omega) (by omega) (by omega) (by omega) ?_ ?_
      · cases hf : b.free with
        | false =>
          rw [hf] at hfsum
          simp only [Bool.false_eq_true, if_false] at hfsum ⊢
          omega
        | true =>
          rw [hf] at hfsum
          simp only [if_true] at hfsum ⊢
          rw [wordAdd_eq (by omega)]
          omega
      · cases hf : b.free with
        | false =>
          rw [hf] at hasum
          simp only [Bool.false_eq_true, if_false] at hasum ⊢
          rw [wordAdd_eq (by omega)]
          omega
        | true =>
          rw [hf] at hasum
          simp only [if_true] at hasum ⊢
          omega

theorem HeapInv.dbgVerify (hi : HeapInv x L) : dbgVerify x = true := by
  have hsums := span_eq_sums L
  have htiles := hi.tiles
  have hsmall := hi.small
  have hstat := hi.stat
  refine dbgVerifyFrom_of_shows hi.shows hi.tiles (by omega) (fun _ => rfl) le_rfl
    hi.zone.2 ?_ ?_ ?_ ?_
  · rw [hstat]
    exact zero_add _
  · rw [hstat]
    exact zero_add _
  · rw [hstat]
    simp only [statOf]
    omega
  · rw [hstat]
    simp only [statOf]
    omega

/-- The heap invariant holds after every call of a run whose requested sizes
survive rounding and whose calls get live blocks, and each further such call
returns. -/
theorem heapInv_reachable (hx : Reachable (fun _ c => c.Rounds) x live) :
    (∃ L, HeapInv x L ∧ ∀ b, b ∈ live ↔ ∃ s, (b, s) ∈ used x L) ∧ Xma.dbgVerify x = true ∧
      ∀ c : Call, c.Valid live → c.Rounds → ∃ r x', Runs x c r x' := by
  obtain ⟨L, hL⟩ := reachable_inv (fun _ _ hc => .inl hc) hx
  refine ⟨⟨L, hL.inv, hL.mem_live⟩, hL.inv.dbgVerify, fun c hv hc => ?_⟩
  obtain ⟨r, x', hrun, -⟩ := hL.step hv (.inl hc)
  exact ⟨r, x', hrun⟩

/-- A zone of 80 bytes from which 64 bytes have been allocated. -/
theorem heapInv_reachable_alloc : ∃ x, x.stat.nused = 1 ∧
    (∃ L, HeapInv x L ∧ ∀ b, b ∈ ({4112} : Finset ℕ) ↔ ∃ s, (b, s) ∈ used x L) ∧
      Xma.dbgVerify x = true ∧
      ∀ c : Call, c.Valid {4112} → c.Rounds → ∃ r x', Runs x c r x' := by
  obtain ⟨x₀, x₁, hinit, hzone, halloc, hused⟩ : ∃ x₀ x₁,
      init (fun _ => 0) (fun _ => 0) 4096 80 = some x₀ ∧ InAddressSpace x₀ ∧
        Runs x₀ (.alloc 64) 4112 x₁ ∧ x₁.stat.nused = 1 :=
    ⟨_, _, rfl, ⟨by decide, by decide⟩, rfl, by decide⟩
  have hx₀ : Reachable (fun _ c => c.Rounds) x₀ ∅ := .init hinit (by decide) hzone
  exact ⟨x₁, hused, heapInv_reachable (hx₀.call (c := .alloc 64) trivial (by decide) halloc)⟩

end

end Qse.Xma
