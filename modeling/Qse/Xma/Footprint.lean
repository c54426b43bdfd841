import Qse.Xma.Runs

/-!
# Accesses outside the zone

`_realloc_merge` writes the header behind a block that shrinks also when the block is the last one,
and the fallback of `qse_xma_realloc` copies as many bytes as are requested. A call that avoids both
stays inside the zone.
-/

namespace Qse.Xma

open ByteMemory MachineWord LinkedChain StateProgram

/-- The byte `i` lies in the zone of `x`. -/
def InZone (x : Xma) (i : ℕ) : Prop := x.start ≤ i ∧ i < x.end_

instance (x : Xma) (i : ℕ) : Decidable (InZone x i) := inferInstanceAs (Decidable (_ ∧ _))

/-- No free block serves a request of `n` bytes. -/
def NoneServes (x : Xma) (n : ℕ) : Prop := ∀ L, HeapInv x L → NoFit L (roundSize n)

/-- A call keeps to the zone: it is sound, a last block is not shrunk by 32
bytes or more, and where `realloc` falls back to copying, the bytes to copy end
inside the zone. -/
def Call.StaysInside (x : Xma) (c : Call) : Prop :=
  c.Sound x ∧ ∀ b n, c = .realloc b n → b ≠ 0 →
    ¬(roundSize n + 32 ≤ x.sizeAt b ∧ x.end_ ≤ b + x.sizeAt b) ∧
      (x.sizeAt b < roundSize n → b + n ≤ x.end_ ∨ GrowsInPlace x b n ∨ NoneServes x n)

section

variable {L : List Blk} {x : Xma} {live : Finset ℕ} {c : Call}

theorem Call.StaysInside.covered (hs : c.StaysInside x) (hl : LiveInv x L live)
    (hv : c.Valid live) : c.Covered (zoneOf x.forgetTouched) x.forgetTouched L := by
  cases c with
  | realloc b n =>
    intro hb
    obtain ⟨hlast, hcopy⟩ := hs.2 b n rfl hb
    have hin := hl.inv.used_inside (hl.used_of_mem (hv.resolve_left hb))
    refine ⟨fun hshrink hend => absurd ⟨hshrink, hend⟩ hlast, ?_⟩
    intro hlt hgrow hserved i hlo hhi
    rcases hcopy hlt with hle | hgrow' | hnone
    · refine ⟨?_, ?_⟩
      · change x.start ≤ i
        omega
      · change i < x.end_
        omega
    · exact absurd hgrow' hgrow
    · exact absurd (hnone L hl.inv) hserved
  | _ => trivial

/-- In a run whose calls all keep to the zone, a further such call on live
blocks touches only bytes of the zone. -/
theorem touched_inside_zone (hx : Reachable (fun x c => c.StaysInside x) x live)
    (hv : c.Valid live) (hs : c.StaysInside x) :
    ∃ r x', Runs x c r x' ∧ ∀ e ∈ x'.touched, ∀ i, e.1 ≤ i → i < e.1 + e.2 → InZone x i := by
  obtain ⟨L, hL⟩ := reachable_inv (fun _ _ hc => hc.1) hx
  have hL' := (sameHeap_forgetTouched x).liveInv hL
  rcases hs.1 with hr | hstarved
  · obtain ⟨r, x', hrun, he⟩ := hL'.effect hv hr Set.Subset.rfl
      (touchedIn_forgetTouched x _) (hs.covered hL hv)
    exact ⟨r, x', hrun, he.touchedIn⟩
  · obtain ⟨r, x', hrun, -, rfl⟩ :=
      Call.Starved.returns (x := x.forgetTouched) hstarved hL'.inv.bdec
    exact ⟨r, _, hrun, fun e he => by cases he⟩

/-- A block that is not the last one is shrunk. -/
theorem touched_inside_zone_shrink : ∃ x r x', Runs x (.realloc 4112 16) r x' ∧
    ∀ e ∈ x'.touched, ∀ i, e.1 ≤ i → i < e.1 + e.2 → InZone x i := by
  obtain ⟨x₀, hinit, hzone, hP⟩ := zone_of_check 1024 (P := fun x₀ =>
    x₀.check (.alloc 64) fun r x₁ =>
      decide (r = 4112 ∧ x₁.sizeAt 4112 = 64 ∧ x₁.end_ = 5120)) (by decide +kernel)
  obtain ⟨r, x₁, halloc, hP₁⟩ := runs_of_check hP
  obtain ⟨rfl, hsize, hend⟩ := of_decide_eq_true hP₁
  have hx₀ : Reachable (fun x c => c.StaysInside x) x₀ ∅ := .init hinit (by decide) hzone
  have hx₁ := hx₀.call (c := .alloc 64) trivial
    ⟨.inl (by decide), fun _ _ hc => by cases hc⟩ halloc
  refine ⟨x₁, touched_inside_zone hx₁ (c := .realloc 4112 16) (.inr (by decide))
    ⟨.inl (by decide), ?_⟩⟩
  intro b n hc _
  cases hc
  rw [hsize, hend]
  exact ⟨by decide, fun h => absurd h (by decide)⟩

/-- Shrinking the last block writes behind the zone, and growing a last block by
copying reads behind it. -/
theorem realloc_leaves_zone :
    (∃ x live r x', Reachable (fun _ c => c.Rounds) x live ∧ 4112 ∈ live ∧
      Runs x (.realloc 4112 16) r x' ∧ (4176, 8) ∈ x'.touched ∧ ¬InZone x 4176) ∧
    (∃ x live r x', Reachable (fun _ c => c.Rounds) x live ∧ 4768 ∈ live ∧
      Runs x (.realloc 4768 640) r x' ∧ (4768, 640) ∈ x'.touched ∧ ¬InZone x 5400) := by
  constructor
  · obtain ⟨x₀, hinit, hzone, hP⟩ := zone_of_check 80 (P := fun x₀ =>
      x₀.check (.alloc 64) fun r x₁ => decide (r = 4112) &&
        x₁.check (.realloc 4112 16) fun _ x₂ =>
          decide ((4176, 8) ∈ x₂.touched ∧ ¬InZone x₁ 4176)) (by decide +kernel)
    obtain ⟨r, x₁, halloc, hP₁⟩ := runs_of_check hP
    rw [Bool.and_eq_true, decide_eq_true_eq] at hP₁
    obtain ⟨rfl, hP₁⟩ := hP₁
    obtain ⟨r', x₂, hrealloc, hP₂⟩ := runs_of_check hP₁
    have hx₀ : Reachable (fun _ c => c.Rounds) x₀ ∅ := .init hinit (by decide) hzone
    exact ⟨x₁, _, r', x₂, hx₀.call (c := .alloc 64) trivial (by decide) halloc, by decide,
      hrealloc, of_decide_eq_true hP₂⟩
  · obtain ⟨x₀, hinit, hzone, hP⟩ := zone_of_check 1200 (P := fun x₀ =>
      x₀.check (.alloc 640) fun r x₁ => decide (r = 4112) &&
        x₁.check (.alloc 528) fun r x₂ => decide (r = 4768) &&
          x₂.check (.free 4112) fun r x₃ => decide (r = 0) &&
            x₃.check (.realloc 4768 640) fun _ x₄ =>
              decide ((4768, 640) ∈ x₄.touched ∧ ¬InZone x₃ 5400)) (by decide +kernel)
    obtain ⟨r, x₁, halloc₁, hP₁⟩ := runs_of_check hP
    rw [Bool.and_eq_true, decide_eq_true_eq] at hP₁
    obtain ⟨rfl, hP₁⟩ := hP₁
    obtain ⟨r, x₂, halloc₂, hP₂⟩ := runs_of_check hP₁
    rw [Bool.and_eq_true, decide_eq_true_eq] at hP₂
    obtain ⟨rfl, hP₂⟩ := hP₂
    obtain ⟨r, x₃, hfree, hP₃⟩ := runs_of_check hP₂
    rw [Bool.and_eq_true, decide_eq_true_eq] at hP₃
    obtain ⟨rfl, hP₃⟩ := hP₃
    obtain ⟨r, x₄, hrealloc, hP₄⟩ := runs_of_check hP₃
    have hx₀ : Reachable (fun _ c => c.Rounds) x₀ ∅ := .init hinit (by decide) hzone
    have hx₁ := hx₀.call (c := .alloc 640) trivial (by decide) halloc₁
    have hx₂ := hx₁.call (c := .alloc 528) trivial (by decide) halloc₂
    have hx₃ := hx₂.call (c := .free 4112) (by decide) (by decide) hfree
    exact ⟨x₃, _, r, x₄, hx₃, by decide, hrealloc, of_decide_eq_true hP₄⟩

end

section

variable {T : Set ℕ} {L : List Blk} {x x' : Xma} {live : Finset ℕ} {b k n r s : ℕ}
  {c : Call}

def SameContents (x x' : Xma) (u : ℕ) : Prop :=
  ∀ k, k < x.sizeAt u → x'.mem (u + k) = x.mem (u + k)

theorem SameHeap.sameContents (hs : SameHeap x x') (u : ℕ) : SameContents x x' u := by
  intro k _
  rw [hs.mem]

variable {u : ℕ}

theorem Kept.sameContents {P : List (ℕ × ℕ)} (hk : Kept P x x')
    (hu : (u, x.sizeAt u) ∈ P) : SameContents x x' u :=
  fun k hlt => hk _ hu (u + k) (Nat.le_add_right _ _) (Nat.add_lt_add_left hlt u)

theorem Allocated.sameContents (ha : Allocated T x L n r x')
    (hu : (u, x.sizeAt u) ∈ used x L) : SameContents x x' u := by
  rcases ha with ⟨-, hsame, -, -⟩ | ⟨-, -, L', -, -, hkept⟩
  · exact hsame.sameContents u
  · exact hkept.sameContents hu

theorem Call.Effect.sameContents (he : c.Effect T x L r x') (hl : LiveInv x L live) (hu : u ∈ live)
    (hne : u ≠ c.block) : SameContents x x' u := by
  have hused := hl.used_of_mem hu
  cases c with
  | alloc n | calloc n => exact Allocated.sameContents he hused
  | realloc b n =>
    rw [Call.Effect] at he
    split at he
    · exact he.sameContents hused
    · rcases he with ⟨-, hsame, -⟩ | ⟨-, L', -, hkept, -⟩
      · exact hsame.sameContents u
      · exact hkept.sameContents (mem_others.mpr ⟨hused, hne⟩)
  | free b =>
    obtain ⟨-, L', -, -, hkept⟩ := he
    exact hkept.sameContents (mem_others.mpr ⟨hused, hne⟩)

/-- Whatever the call, the contents of every other live block are unchanged; and
a block that is resized keeps its contents up to the smaller size. -/
theorem contents_reachable (hx : Reachable (fun x c => c.Sound x) x live)
    (hv : c.Valid live) (hr : c.Rounds) :
    ∃ r x', Runs x c r x' ∧ (∀ u ∈ live, u ≠ c.block → SameContents x x' u) ∧
      ∀ b n, c = .realloc b n → b ≠ 0 → r ≠ 0 →
        ∀ k, k < min (x.sizeAt b) n → x'.mem (r + k) = x.mem (b + k) := by
  obtain ⟨L, hL⟩ := reachable_inv (fun _ _ hs => hs) hx
  have hL' := (sameHeap_forgetTouched x).liveInv hL
  have hcov : c.Covered Set.univ x.forgetTouched L := by
    cases c with
    | realloc b n => exact fun _ => ⟨fun _ _ _ _ _ => trivial, fun _ _ _ _ _ _ => trivial⟩
    | _ => trivial
  obtain ⟨r, x', hrun, he⟩ :=
    hL'.effect hv hr (Set.subset_univ _) (touchedIn_forgetTouched x _) hcov
  refine ⟨r, x', hrun, fun u hu hne => he.sameContents hL' hu hne, ?_⟩
  rintro b n rfl hb hrne k hk
  rw [Call.Effect, if_neg hb] at he
  rcases he with ⟨hzero, -, -⟩ | ⟨-, L', -, -, hbytes, -⟩
  · exact absurd hzero hrne
  · exact hbytes k hk

/-- Resizing a block of a zone of 1024 bytes. -/
theorem contents_reachable_grow : ∃ x r x', Runs x (.realloc 4112 128) r x' ∧
    (∀ u ∈ ({4112} : Finset ℕ), u ≠ 4112 → SameContents x x' u) ∧
      ∀ b n, Call.realloc 4112 128 = .realloc b n → b ≠ 0 → r ≠ 0 →
        ∀ k, k < min (x.sizeAt b) n → x'.mem (r + k) = x.mem (b + k) := by
  obtain ⟨x₀, hinit, hzone, hP⟩ := zone_of_check 1024 (P := fun x₀ =>
    x₀.check (.alloc 64) fun r _ => decide (r = 4112)) (by decide +kernel)
  obtain ⟨r, x₁, halloc, hr⟩ := runs_of_check hP
  obtain rfl := of_decide_eq_true hr
  have hx₀ : Reachable (fun x c => c.Sound x) x₀ ∅ := .init hinit (by decide) hzone
  have hx₁ := hx₀.call (c := .alloc 64) trivial (.inl (by decide)) halloc
  exact ⟨x₁, contents_reachable hx₁ (c := .realloc 4112 128) (.inr (by decide)) (by decide)⟩

end

end Qse.Xma
