import Qse.Xma.Tracked

/-!
# Header writes, attaching and detaching

The rules of `Tracked` for the code that changes memory. What `attach_to_freelist` and
`detach_from_freelist` do to the lists is stated for arbitrary link functions (`FreeLists.push`,
`FreeLists.remove`).
-/

open Function Option

namespace Qse.Xma

open ByteMemory MachineWord LinkedChain StateProgram

/-! ## Free lists over link functions -/

section Lists

variable {next prev next' prev' xfree : ℕ → ℕ} {H H' : Headers} {fl : ℕ → List ℕ}
  {b : ℕ} {h : Hdr}

variable {k a : ℕ}

section

variable (hfl : FreeLists next prev xfree H fl)
include hfl

theorem FreeLists.cell (ha : a ∈ fl k) :
    ∃ g, H a = some g ∧ g.chained = true ∧ classOf g.size = k :=
  (hfl.mem_iff k a).mp ha

theorem FreeLists.congr
    (hlink : ∀ {a g}, H a = some g → next' a = next a ∧ prev' a = prev a)
    (hiff : ∀ k a, (∃ g, H' a = some g ∧ g.chained = true ∧ classOf g.size = k) ↔
      ∃ g, H a = some g ∧ g.chained = true ∧ classOf g.size = k) :
    FreeLists next' prev' xfree H' fl where
  linked := by
    intro k
    refine (hfl.linked k).congr (fun a ha => ?_) (fun a ha => ?_)
    · obtain ⟨g, hg, -⟩ := hfl.cell ha
      exact (hlink hg).1
    · obtain ⟨g, hg, -⟩ := hfl.cell ha
      exact (hlink hg).2
  nodup := hfl.nodup
  mem_iff := by
    intro k a
    rw [hiff]
    exact hfl.mem_iff k a

theorem FreeLists.not_mem_of_unchained
    (hb : H b = some h) (hoff : h.chained = false) (k : ℕ) : b ∉ fl k := by
  intro hk
  obtain ⟨g, hg, hgc, -⟩ := hfl.cell hk
  rw [hb] at hg
  cases hg
  simp [hoff] at hgc

theorem FreeLists.class_unique {j : ℕ} (hk : a ∈ fl k) (hj : a ∈ fl j) : k = j := by
  obtain ⟨g, hg, -, hgk⟩ := hfl.cell hk
  obtain ⟨g', hg', -, hgj⟩ := hfl.cell hj
  rw [hg] at hg'
  cases hg'
  exact hgk.symm.trans hgj

theorem FreeLists.head_mem
    (hk : xfree k ≠ 0) : xfree k ∈ fl k :=
  (hfl.linked k).head_mem hk

theorem FreeLists.next_mem (ha : a ∈ fl k) (hn : next a ≠ 0) : next a ∈ fl k :=
  (hfl.linked k).next_mem ha hn

theorem FreeLists.prev_cases (ha : a ∈ fl k) :
    a = xfree k ∧ prev a = 0 ∨ a ≠ xfree k ∧ prev a ≠ 0 ∧ prev a ∈ fl k := by
  rcases (hfl.linked k).prev_mem ha with ⟨hhead, hp⟩ | ⟨hmem, hnext⟩
  · exact .inl ⟨hhead, hp⟩
  · have hp0 : prev a ≠ 0 := (hfl.linked k).ne_nil hmem
    refine .inr ⟨?_, hp0, hmem⟩
    rintro rfl
    exact hp0 ((hfl.linked k).prev_head ((hfl.linked k).ne_nil ha))

theorem FreeLists.push (next' prev' : ℕ → ℕ)
    (hb : H b = some h) (hoff : h.chained = false) (hb0 : b ≠ 0) (hk : k = classOf h.size)
    (hbnext : next' b = xfree k) (hbprev : prev' b = 0)
    (hheadprev : xfree k ≠ 0 → prev' (xfree k) = b) (hnext : ∀ a, a ≠ b → next' a = next a)
    (hprev : ∀ a, a ≠ b → a ≠ 0 → a ≠ xfree k → prev' a = prev a) :
    FreeLists next' prev' (update xfree k b)
      (update H b (some { h with chained := true }))
      (update fl k (b :: fl k)) := by
  have hbnot := hfl.not_mem_of_unchained hb hoff
  refine ⟨fun j => ?_, fun j => ?_, fun j a => ?_⟩
  · by_cases hj : j = k
    · subst hj
      rw [update_self, update_self]
      refine (hfl.linked j).push (hfl.nodup j) hb0 hbnext hbprev ?_ ?_ hheadprev
      · intro a ha
        exact hnext a (fun hab => hbnot j (hab ▸ ha))
      · intro a ha hah
        exact hprev a (fun hab => hbnot j (hab ▸ ha)) ((hfl.linked j).ne_nil ha) hah
    · rw [update_of_ne hj, update_of_ne hj]
      refine (hfl.linked j).congr (fun a ha => ?_) (fun a ha => ?_)
      · exact hnext a (fun hab => hbnot j (hab ▸ ha))
      · have ha0 := (hfl.linked j).ne_nil ha
        refine hprev a (fun hab => hbnot j (hab ▸ ha)) ha0 ?_
        -- the head of the chain of `b` is filed in another chain
        rintro rfl
        exact hj (hfl.class_unique ha (hfl.head_mem ha0))
  · by_cases hj : j = k
    · subst hj
      rw [update_self]
      exact List.nodup_cons.mpr ⟨hbnot j, hfl.nodup j⟩
    · rw [update_of_ne hj]
      exact hfl.nodup j
  · by_cases hab : a = b
    · subst hab
      simp only [update_self, some.injEq, exists_eq_left', true_and]
      by_cases hj : j = k
      · subst hj
        simp [hk]
      rw [update_of_ne hj, ← hk]
      constructor
      · intro hmem
        exact absurd hmem (hbnot j)
      · intro heq
        exact absurd heq.symm hj
    · rw [update_of_ne hab, ← hfl.mem_iff]
      by_cases hj : j = k
      · subst hj
        simp [hab]
      · rw [update_of_ne hj]

theorem FreeLists.remove (next' prev' : ℕ → ℕ)
    (hb : H b = some h) (hon : h.chained = true) (hk : k = classOf h.size)
    (hnext : ∀ a, a ≠ 0 → a ≠ prev b → next' a = next a)
    (hnextPrev : prev b ≠ 0 → next' (prev b) = next b)
    (hprev : ∀ a, a ≠ 0 → a ≠ next b → prev' a = prev a)
    (hprevNext : next b ≠ 0 → prev' (next b) = prev b) :
    FreeLists next' prev' (if prev b ≠ 0 then xfree else update xfree k (next b))
      (update H b (some { h with chained := false }))
      (update fl k ((fl k).erase b)) := by
  have hbmem : b ∈ fl k := (hfl.mem_iff k b).mpr ⟨h, hb, hon, hk.symm⟩
  have hzero : ∀ j, 0 ∉ fl j := fun j hj => (hfl.linked j).ne_nil hj rfl
  -- the links that change belong to cells of the chain of `b`
  have hother : ∀ j, j ≠ k → ∀ a ∈ fl j, a ≠ prev b ∧ a ≠ next b := by
    intro j hj a ha
    have ha0 := (hfl.linked j).ne_nil ha
    constructor
    · rintro rfl
      rcases hfl.prev_cases hbmem with ⟨-, hp⟩ | ⟨-, -, hp⟩
      · exact ha0 hp
      · exact hj (hfl.class_unique ha hp)
    · rintro rfl
      exact hj (hfl.class_unique ha (hfl.next_mem hbmem ha0))
  have hheads : (if prev b ≠ 0 then xfree else update xfree k (next b)) =
      update xfree k (if b = xfree k then next b else xfree k) := by
    rcases hfl.prev_cases hbmem with ⟨hhead, hp⟩ | ⟨hhead, hp, -⟩
    · rw [if_neg (by simp [hp]), if_pos hhead]
    · rw [if_pos hp, if_neg hhead, update_eq_self]
  rw [hheads]
  refine ⟨fun j => ?_, fun j => ?_, fun j a => ?_⟩
  · by_cases hj : j = k
    · subst hj
      rw [update_self, update_self]
      refine (hfl.linked j).remove (hfl.nodup j) hbmem (hzero j) ?_ ?_ ?_ hprevNext
      · intro a ha hap
        exact hnext a ((hfl.linked j).ne_nil ha) hap
      · intro hbh
        rcases hfl.prev_cases hbmem with ⟨hhead, -⟩ | ⟨-, hp, -⟩
        · exact absurd hhead hbh
        · exact hnextPrev hp
      · intro a ha han
        exact hprev a ((hfl.linked j).ne_nil ha) han
    · rw [update_of_ne hj, update_of_ne hj]
      refine (hfl.linked j).congr (fun a ha => ?_) (fun a ha => ?_)
      · exact hnext a ((hfl.linked j).ne_nil ha) (hother j hj a ha).1
      · exact hprev a ((hfl.linked j).ne_nil ha) (hother j hj a ha).2
  · by_cases hj : j = k
    · subst hj
      rw [update_self]
      exact (hfl.nodup j).erase b
    · rw [update_of_ne hj]
      exact hfl.nodup j
  · by_cases hab : a = b
    · subst hab
      simp only [update_self, some.injEq, exists_eq_left',
        Bool.false_eq_true, false_and, iff_false]
      by_cases hj : j = k
      · subst hj
        rw [update_self]
        exact (hfl.nodup j).not_mem_erase
      · rw [update_of_ne hj]
        intro hmem
        exact hj (hfl.class_unique hmem hbmem)
    · rw [update_of_ne hab, ← hfl.mem_iff]
      by_cases hj : j = k
      · subst hj
        rw [update_self]
        exact List.mem_erase_of_ne hab
      · rw [update_of_ne hj]

end

end Lists

def relink (H : Headers) (z v : ℕ) : Headers :=
  fun q => if q = z then (H z).map fun h => { h with prevSize := v } else H q

section Rules

variable {c : Ctx} {H : Headers} {s : Stat} {x : Xma} {b v : ℕ} {h : Hdr}

/-! ## Writes to memory -/

def LinksAre (H : Headers) (x : Xma) (next prev : ℕ → ℕ) : Prop :=
  ∀ {a h}, H a = some h → nextOf x.mem a = next a ∧ prevOf x.mem a = prev a

theorem Tracked.of_lists (next prev : ℕ → ℕ) (fl : ℕ → List ℕ)
    (hr : Recorded c H s x) (hl : LinksAre H x next prev)
    (hfl : FreeLists next prev x.xfree H fl) : Tracked c H s x :=
  ⟨hr, fl, hfl.congr (fun hg => hl hg) (fun _ _ => Iff.rfl)⟩

theorem Recorded.putWord (hr : Recorded c H s x) {p : ℕ} {H' : Headers} (hall : c.Allows p 8)
    (hdom : ∀ {a k}, H' a = some k → ∃ k₀, H a = some k₀ ∧ k.chained = k₀.chained)
    (hshow : ∀ {a k}, H' a = some k → ShowsHdr (store x.mem p 8 v) a k) :
    Recorded c H' s (x.putWord p v) where
  start_eq := hr.start_eq
  end_eq := hr.end_eq
  zone := hr.zone
  bdec := hr.bdec
  stat := hr.stat
  shows := hshow
  inside := fun hk => hr.inside (hdom hk).choose_spec.1
  apart := fun hk hk' => hr.apart (hdom hk).choose_spec.1 (hdom hk').choose_spec.1
  headerAllowed := fun hk => hr.headerAllowed (hdom hk).choose_spec.1
  linksAllowed := by
    intro a k hk hc
    obtain ⟨k₀, hk₀, heq⟩ := hdom hk
    exact hr.linksAllowed hk₀ (heq ▸ hc)
  touched := by
    intro e he
    rcases List.mem_cons.mp he with rfl | he
    · exact fun i hi hin => (hall i hi hin).1
    · exact hr.touched e he
  frame := by
    intro i hi
    have hout : i < p ∨ p + 8 ≤ i := by
      by_contra hin
      exact hi (hall i (by omega) (by omega)).2
    exact (store_of_apart hout).trans (hr.frame i hi)

theorem Tracked.writeHeader (ht : Tracked c H s x) (hb : H b = some h) {p w : ℕ}
    {h' : Hdr} (hp : b ≤ p ∧ p + 8 ≤ b + 16)
    (hshow : ShowsHdr (store x.mem p 8 w) b h') (hch : h'.chained = h.chained)
    (hclass : h.chained = true → classOf h'.size = classOf h.size) :
    Tracked c (update H b (some h')) s (x.putWord p w) := by
  obtain ⟨fl, hfl⟩ := ht.lists
  have hr : Recorded c (update H b (some h')) s (x.putWord p w) := by
    refine ht.putWord ((ht.headerAllowed hb).mono (by omega) (by omega)) ?_ ?_
    · intro a k hk
      by_cases hab : a = b
      · subst hab
        rw [update_self] at hk
        cases hk
        exact ⟨h, hb, hch⟩
      · rw [update_of_ne hab] at hk
        exact ⟨k, hk, rfl⟩
    · intro a k hk
      by_cases hab : a = b
      · subst hab
        rw [update_self] at hk
        cases hk
        exact hshow
      · rw [update_of_ne hab] at hk
        have hsep := ht.apart hk hb hab
        exact ⟨(load_store_apart (by omega)).trans (ht.shows hk).1,
          (load_store_apart (by omega)).trans (ht.shows hk).2⟩
  refine ⟨hr, fl, hfl.congr ?_ ?_⟩
  · -- links of recorded blocks lie outside every header
    intro a g hg
    have hsep : a = b ∨ a + 32 ≤ b ∨ b + 32 ≤ a := by
      by_cases hab : a = b
      · exact .inl hab
      · exact .inr (ht.apart hg hb hab)
    exact ⟨load_store_apart (by omega), load_store_apart (by omega)⟩
  · intro k a
    by_cases hab : a = b
    · subst hab
      simp only [hb, update_self, some.injEq, exists_eq_left', hch]
      constructor
      · rintro ⟨hc, hk⟩
        exact ⟨hc, (hclass hc).symm.trans hk⟩
      · rintro ⟨hc, hk⟩
        exact ⟨hc, (hclass hc).trans hk⟩
    · rw [update_of_ne hab]

variable {Q : PUnit → Xma → Prop}

theorem Tracked.setPrevSize (ht : Tracked c H s x) (hb : H b = some h) (hv : v < 2 ^ 64)
    (hQ : ∀ x', Tracked c (update H b (some { h with prevSize := v })) s x' → Q ⟨⟩ x') :
    Returns (setPrevSize b v) x Q := by
  rw [Xma.setPrevSize, returns_storeWord]
  refine hQ _ (ht.writeHeader hb ⟨by omega, by omega⟩ ⟨?_, ?_⟩ rfl (fun _ => rfl))
  · rw [load_store_same]
    exact Nat.mod_eq_of_lt (by norm_num; exact hv)
  · rw [load_store_apart (by omega)]
    exact (ht.shows hb).2

theorem Tracked.setSize (ht : Tracked c H s x) (hb : H b = some h) (hoff : h.chained = false)
    (hv : v < 2 ^ 63) (hQ : ∀ x', Tracked c (update H b (some { h with size := v })) s x' →
      Q ⟨⟩ x') :
    Returns (setSize b v) x Q := by
  have hall := (ht.headerAllowed hb).mono (b := b + 8) (k := 8) (by omega) (by omega)
  have hbit : h.free.toNat ≤ 1 := Bool.toNat_le h.free
  have hword : 2 * (v % 2 ^ 63) + (2 * h.size + h.free.toNat) % 2 = 2 * v + h.free.toNat := by
    rw [Nat.mod_eq_of_lt hv]
    omega
  rw [Xma.setSize, returns_bind, returns_loadWord, returns_storeWord, (ht.shows hb).2, hword]
  refine hQ _ ((ht.touch_of_allows hall).writeHeader hb ⟨by omega, by omega⟩ ⟨?_, ?_⟩ rfl
    (fun hc => absurd hc (by simp [hoff])))
  · rw [load_store_apart (by omega)]
    exact (ht.shows hb).1
  · rw [load_store_same]
    exact Nat.mod_eq_of_lt (by norm_num; omega)

theorem Tracked.setFree (ht : Tracked c H s x) (hb : H b = some h) {f : Bool}
    (hQ : ∀ x', Tracked c (update H b (some { h with free := f })) s x' → Q ⟨⟩ x') :
    Returns (setFree b f) x Q := by
  have hall := (ht.headerAllowed hb).mono (b := b + 8) (k := 8) (by omega) (by omega)
  have hsize := ht.size_lt hb
  have hold : h.free.toNat ≤ 1 := Bool.toNat_le h.free
  have hnew : f.toNat ≤ 1 := Bool.toNat_le f
  have hword : (2 * h.size + h.free.toNat) / 2 * 2 + f.toNat = 2 * h.size + f.toNat := by
    omega
  rw [Xma.setFree, returns_bind, returns_loadWord, returns_storeWord, (ht.shows hb).2, hword]
  refine hQ _ ((ht.touch_of_allows hall).writeHeader hb ⟨by omega, by omega⟩ ⟨?_, ?_⟩ rfl
    (fun _ => rfl))
  · rw [load_store_apart (by omega)]
    exact (ht.shows hb).1
  · rw [load_store_same]
    exact Nat.mod_eq_of_lt (by norm_num; omega)

theorem Tracked.modifyStat (ht : Tracked c H s x) {f : Stat → Stat}
    (hQ : ∀ x', Tracked c H (f s) x' → Q ⟨⟩ x') :
    Returns (modifyStat f) x Q := by
  rw [Xma.modifyStat, returns_modify]
  exact hQ _ { ht with stat := congrArg f ht.stat }

/-! ## Link writes -/

variable {next prev : ℕ → ℕ}

theorem Recorded.putLink (hr : Recorded c H s x) (hb : H b = some h) {off : ℕ}
    (hoff : off = 16 ∨ off = 24) (hall : c.Allows (b + off) 8) :
    Recorded c H s (x.putWord (b + off) v) := by
  refine hr.putWord hall (fun hk => ⟨_, hk, rfl⟩) ?_
  intro a k hk
  have hsep : a = b ∨ a + 32 ≤ b ∨ b + 32 ≤ a := by
    by_cases hab : a = b
    · exact .inl hab
    · exact .inr (hr.apart hk hb hab)
  exact ⟨(load_store_apart (by omega)).trans (hr.shows hk).1,
    (load_store_apart (by omega)).trans (hr.shows hk).2⟩

variable {z : ℕ}

theorem Recorded.setFreeNext (hr : Recorded c H s x) (hl : LinksAre H x next prev)
    (hb : H b = some h) (hall : c.Allows (b + 24) 8) (hv : v < 2 ^ 64)
    (hQ : ∀ x', Recorded c H s x' → x'.xfree = x.xfree →
      LinksAre H x' (update next b v) prev → Q ⟨⟩ x') :
    Returns (setFreeNext b v) x Q := by
  rw [Xma.setFreeNext, returns_storeWord]
  refine hQ _ (hr.putLink hb (.inr rfl) hall) rfl ?_
  intro a g hg
  have hlg := hl hg
  by_cases hab : a = b
  · subst hab
    rw [update_self]
    refine ⟨?_, ?_⟩
    · refine (load_store_same _ _ _ _).trans (Nat.mod_eq_of_lt ?_)
      norm_num
      exact hv
    · exact (load_store_apart (by omega)).trans hlg.2
  · have hsep := hr.apart hg hb hab
    rw [update_of_ne hab]
    exact ⟨(load_store_apart (by omega)).trans hlg.1, (load_store_apart (by omega)).trans hlg.2⟩

theorem Recorded.setFreePrev (hr : Recorded c H s x) (hl : LinksAre H x next prev)
    (hb : H b = some h) (hall : c.Allows (b + 16) 8) (hv : v < 2 ^ 64)
    (hQ : ∀ x', Recorded c H s x' → x'.xfree = x.xfree →
      LinksAre H x' next (update prev b v) → Q ⟨⟩ x') :
    Returns (setFreePrev b v) x Q := by
  rw [Xma.setFreePrev, returns_storeWord]
  refine hQ _ (hr.putLink hb (.inl rfl) hall) rfl ?_
  intro a g hg
  have hlg := hl hg
  by_cases hab : a = b
  · subst hab
    rw [update_self]
    refine ⟨?_, ?_⟩
    · exact (load_store_apart (by omega)).trans hlg.1
    · refine (load_store_same _ _ _ _).trans (Nat.mod_eq_of_lt ?_)
      norm_num
      exact hv
  · have hsep := hr.apart hg hb hab
    rw [update_of_ne hab]
    exact ⟨(load_store_apart (by omega)).trans hlg.1, (load_store_apart (by omega)).trans hlg.2⟩

theorem Recorded.rechain (hr : Recorded c H s x) (hb : H b = some h) {f : Bool}
    (hall : f = true → c.Allows b 32) :
    Recorded c (update H b (some { h with chained := f })) s x := by
  have hdom : ∀ {a k}, update H b (some { h with chained := f }) a = some k →
      (a = b ∧ k = { h with chained := f }) ∨ H a = some k := by
    intro a k hk
    by_cases hab : a = b
    · subst hab
      rw [update_self] at hk
      cases hk
      exact .inl ⟨rfl, rfl⟩
    · rw [update_of_ne hab] at hk
      exact .inr hk
  have hold : ∀ {a k}, update H b (some { h with chained := f }) a = some k →
      ∃ k₀, H a = some k₀ := by
    intro a k hk
    rcases hdom hk with ⟨rfl, -⟩ | hk
    · exact ⟨h, hb⟩
    · exact ⟨k, hk⟩
  refine
    { hr with
      shows := ?_
      inside := fun hk => hr.inside (hold hk).choose_spec
      apart := fun hk hk' => hr.apart (hold hk).choose_spec (hold hk').choose_spec
      headerAllowed := fun hk => hr.headerAllowed (hold hk).choose_spec
      linksAllowed := ?_ }
  · intro a k hk
    rcases hdom hk with ⟨rfl, rfl⟩ | hk
    · exact ⟨(hr.shows hb).1, (hr.shows hb).2⟩
    · exact hr.shows hk
  · intro a k hk hc
    rcases hdom hk with ⟨rfl, rfl⟩ | hk
    · exact hall hc
    · exact hr.linksAllowed hk hc

/-! ## Attaching and detaching -/

theorem Recorded.addr_lt (hr : Recorded c H s x) (hb : H b = some h) : 0 < b ∧ b < 2 ^ 64 := by
  have hin := hr.inside hb
  have hz := hr.zone
  omega

section

variable (ht : Tracked c H s x) (hb : H b = some h)
include ht hb

theorem Tracked.attachToFreelist
    (hoff : h.chained = false) (hall : c.Allows b 32)
    (hQ : ∀ x', Tracked c (update H b (some { h with chained := true })) s x' → Q ⟨⟩ x') :
    Returns (attachToFreelist b) x Q := by
  obtain ⟨fl, hfl⟩ := ht.lists
  have hbaddr := ht.addr_lt hb
  have hbnot := hfl.not_mem_of_unchained hb hoff
  have hxfi : getxfi x.bdec h.size = classOf h.size := by rw [ht.bdec, classOf]
  rw [Xma.attachToFreelist, returns_bind, returns_get, returns_bind]
  refine ht.getSize hb fun x₁ hsame₁ ht₁ => ?_
  simp only [returns_bind]
  rw [hxfi]
  generalize hk : classOf h.size = k
  -- the block's own links
  have hl₁ : LinksAre H x₁ (nextOf x.mem) (prevOf x.mem) := by
    intro a g _
    rw [hsame₁.mem]
    exact ⟨rfl, rfl⟩
  refine ht₁.setFreePrev hl₁ hb (hall.mono (by omega) (by omega)) (by omega)
    fun x₂ hr₂ hx₂ hl₂ => ?_
  rw [Xma.getXfree, returns_bind, returns_get, returns_pure, hx₂, hsame₁.xfree]
  have hheadmem : x.xfree k ≠ 0 → ∃ g, H (x.xfree k) = some g ∧ g.chained = true :=
    fun hne => by
      obtain ⟨g, hg, hgc, -⟩ := hfl.cell (hfl.head_mem hne)
      exact ⟨g, hg, hgc⟩
  have hheadlt : x.xfree k < 2 ^ 64 := by
    by_cases hne : x.xfree k = 0
    · omega
    · obtain ⟨g, hg, -⟩ := hheadmem hne
      exact (ht.addr_lt hg).2
  refine hr₂.setFreeNext hl₂ hb (hall.mono (by omega) (by omega)) hheadlt
    fun x₃ hr₃ hx₃ hl₃ => ?_
  -- the back link of the old head
  have hfinish : ∀ x₄ : Xma, Recorded c H s x₄ → x₄.xfree = x.xfree →
      LinksAre H x₄ (update (nextOf x.mem) b (x.xfree k))
        (if x.xfree k ≠ 0
          then update (update (prevOf x.mem) b 0) (x.xfree k) b
          else update (prevOf x.mem) b 0) →
      Returns (setXfree k b) x₄ Q := by
    intro x₄ hr₄ hx₄ hl₄
    rw [Xma.setXfree, returns_modify]
    refine hQ _ (Tracked.of_lists (x := x₄.putXfree k b)
      (update (nextOf x.mem) b (x.xfree k))
      (if x.xfree k ≠ 0
        then update (update (prevOf x.mem) b 0) (x.xfree k) b
        else update (prevOf x.mem) b 0)
      (update fl k (b :: fl k)) ?_ ?_ ?_)
    · exact { hr₄.rechain hb (fun _ => hall) with }
    · intro a g hg
      by_cases hab : a = b
      · exact hl₄ (hab ▸ hb)
      · rw [update_of_ne hab] at hg
        exact hl₄ hg
    · have hheadb : x.xfree k ≠ 0 → b ≠ x.xfree k := by
        rintro hne rfl
        exact hbnot k (hfl.head_mem hne)
      have hpush := hfl.push (k := k) (update (nextOf x.mem) b (x.xfree k))
        (if x.xfree k ≠ 0
          then update (update (prevOf x.mem) b 0) (x.xfree k) b
          else update (prevOf x.mem) b 0)
        hb hoff (show b ≠ 0 by omega) hk.symm (update_self ..) ?_ ?_ ?_ ?_
      · rw [← hx₄] at hpush ⊢
        exact hpush
      · split
        · next hne => rw [update_of_ne (hheadb hne), update_self]
        · exact update_self ..
      · intro hne
        rw [if_pos hne, update_self]
      · intro a hab
        exact update_of_ne hab ..
      · intro a hab _ hah
        split
        · rw [update_of_ne hah, update_of_ne hab]
        · rw [update_of_ne hab]
  by_cases hne : x.xfree k ≠ 0
  · rw [if_pos hne] at hfinish ⊢
    obtain ⟨g, hg, hgc⟩ := hheadmem hne
    refine hr₃.setFreePrev hl₃ hg ((ht.linksAllowed hg hgc).mono (by omega) (by omega))
      hbaddr.2 fun x₄ hr₄ hx₄ hl₄ => ?_
    exact hfinish x₄ hr₄ (hx₄.trans (hx₃.trans (hx₂.trans hsame₁.xfree))) hl₄
  · rw [if_neg hne] at hfinish ⊢
    rw [returns_pure]
    exact hfinish x₃ hr₃ (hx₃.trans (hx₂.trans hsame₁.xfree)) hl₃

theorem Tracked.getFreePrev
    (hon : h.chained = true) {Q : ℕ → Xma → Prop}
    (hQ : ∀ x', SameHeap x x' → Tracked c H s x' → Q (prevOf x.mem b) x') :
    Returns (getFreePrev b) x Q := by
  have hall := (ht.linksAllowed hb hon).mono (b := b + 16) (k := 8) (by omega) (by omega)
  rw [Xma.getFreePrev, returns_loadWord]
  exact hQ _ (SameHeap.touch x _ _) (ht.touch_of_allows hall)

theorem Tracked.getFreeNext
    (hon : h.chained = true) {Q : ℕ → Xma → Prop}
    (hQ : ∀ x', SameHeap x x' → Tracked c H s x' → Q (nextOf x.mem b) x') :
    Returns (getFreeNext b) x Q := by
  have hall := (ht.linksAllowed hb hon).mono (b := b + 24) (k := 8) (by omega) (by omega)
  rw [Xma.getFreeNext, returns_loadWord]
  exact hQ _ (SameHeap.touch x _ _) (ht.touch_of_allows hall)

theorem Tracked.detachFromFreelist
    (hon : h.chained = true)
    (hQ : ∀ x', Tracked c (update H b (some { h with chained := false })) s x' → Q ⟨⟩ x') :
    Returns (detachFromFreelist b) x Q := by
  obtain ⟨fl, hfl⟩ := ht.lists
  have hbmem : b ∈ fl (classOf h.size) := (hfl.mem_iff _ b).mpr ⟨h, hb, hon, rfl⟩
  have hprevcell : prevOf x.mem b ≠ 0 → ∃ g, H (prevOf x.mem b) = some g ∧ g.chained = true := by
    intro hne
    rcases hfl.prev_cases hbmem with ⟨-, hp⟩ | ⟨-, -, hp⟩
    · exact absurd hp hne
    · obtain ⟨g, hg, hgc, -⟩ := hfl.cell hp
      exact ⟨g, hg, hgc⟩
  have hnextcell : nextOf x.mem b ≠ 0 → ∃ g, H (nextOf x.mem b) = some g ∧ g.chained = true := by
    intro hne
    obtain ⟨g, hg, hgc, -⟩ := hfl.cell (hfl.next_mem hbmem hne)
    exact ⟨g, hg, hgc⟩
  rw [Xma.detachFromFreelist, returns_bind]
  refine ht.getFreePrev hb hon fun x₁ hsame₁ ht₁ => ?_
  rw [returns_bind]
  refine ht₁.getFreeNext hb hon fun x₂ hsame₂ ht₂ => ?_
  have hsame := hsame₁.trans hsame₂
  rw [hsame₁.mem]
  generalize hpe : prevOf x.mem b = p at *
  generalize hne : nextOf x.mem b = n at *
  have hp64 : p < 2 ^ 64 := by
    rw [← hpe]
    exact (load_lt _ _ _).trans_eq (by norm_num)
  have hn64 : n < 2 ^ 64 := by
    rw [← hne]
    exact (load_lt _ _ _).trans_eq (by norm_num)
  have hl₂ : LinksAre H x₂ (nextOf x.mem) (prevOf x.mem) := by
    intro a g _
    rw [hsame.mem]
    exact ⟨rfl, rfl⟩
  -- the forward link of the predecessor, or the head of the chain
  have hlast : ∀ x₃ : Xma, Recorded c H s x₃ →
      x₃.xfree = (if p ≠ 0 then x.xfree else update x.xfree (classOf h.size) n) →
      LinksAre H x₃ (if p ≠ 0 then update (nextOf x.mem) p n else nextOf x.mem)
        (prevOf x.mem) →
      Returns (if n ≠ 0 then Xma.setFreePrev n p else pure ⟨⟩) x₃ Q := by
    intro x₃ hr₃ hx₃ hl₃
    have hdone : ∀ x₄ : Xma, Recorded c H s x₄ → x₄.xfree = x₃.xfree →
        LinksAre H x₄ (if p ≠ 0 then update (nextOf x.mem) p n else nextOf x.mem)
          (if n ≠ 0 then update (prevOf x.mem) n p else prevOf x.mem) →
        Q ⟨⟩ x₄ := by
      intro x₄ hr₄ hx₄ hl₄
      have hfl' := hfl.remove (k := classOf h.size)
        (if p ≠ 0 then update (nextOf x.mem) p n else nextOf x.mem)
        (if n ≠ 0 then update (prevOf x.mem) n p else prevOf x.mem)
        hb hon rfl ?_ ?_ ?_ ?_
      · rw [hpe, hne, ← hx₃, ← hx₄] at hfl'
        refine hQ x₄ (Tracked.of_lists _ _ _ (hr₄.rechain hb (by simp)) ?_ hfl')
        intro a g hg
        by_cases hab : a = b
        · exact hl₄ (hab ▸ hb)
        · rw [update_of_ne hab] at hg
          exact hl₄ hg
      · intro a _ hap
        rw [hpe] at hap
        split
        · exact update_of_ne hap ..
        · rfl
      · rw [hpe, hne]
        intro hp
        rw [if_pos hp, update_self]
      · intro a _ han
        rw [hne] at han
        split
        · exact update_of_ne han ..
        · rfl
      · rw [hpe, hne]
        intro hn
        rw [if_pos hn, update_self]
    by_cases hn : n ≠ 0
    · rw [if_pos hn] at hdone ⊢
      obtain ⟨g, hg, hgc⟩ := hnextcell hn
      refine hr₃.setFreePrev hl₃ hg ((ht.linksAllowed hg hgc).mono (by omega) (by omega))
        hp64 fun x₄ hr₄ hx₄ hl₄ => ?_
      exact hdone x₄ hr₄ hx₄ hl₄
    · rw [if_neg hn] at hdone ⊢
      rw [returns_pure]
      exact hdone x₃ hr₃ rfl hl₃
  rw [returns_bind]
  by_cases hp : p ≠ 0
  · rw [if_pos hp] at hlast ⊢
    obtain ⟨g, hg, hgc⟩ := hprevcell hp
    refine ht₂.setFreeNext hl₂ hg ((ht.linksAllowed hg hgc).mono (by omega) (by omega))
      hn64 fun x₃ hr₃ hx₃ hl₃ => ?_
    rw [if_pos hp] at hlast
    exact hlast x₃ hr₃ (hx₃.trans hsame.xfree) hl₃
  rw [if_neg hp] at hlast ⊢
  rw [returns_bind, returns_get, returns_bind]
  refine ht₂.getSize hb fun x₃ hsame₃ ht₃ => ?_
  rw [if_neg hp] at hlast
  have hxfi : getxfi x₂.bdec h.size = classOf h.size := by rw [ht₂.bdec, classOf]
  rw [Xma.setXfree, returns_modify, hxfi]
  refine hlast _ { ht₃.toRecorded with } ?_ ?_
  · rw [Xma.putXfree, hsame₃.xfree, hsame.xfree]
  · intro a g hg
    have hlg := hl₂ hg
    rw [← hsame₃.mem] at hlg
    exact hlg

end

/-! ## Splitting and joining -/

theorem relink_of_none (hz : H z = none) : relink H z v = H := by
  funext q
  by_cases hq : q = z
  · rw [relink, if_pos hq, hq, hz, map_none]
  · rw [relink, if_neg hq]

theorem Recorded.none_of_end_le (hr : Recorded c H s x) (hz : c.end_ ≤ z) : H z = none := by
  rw [eq_none_iff_forall_ne_some]
  intro g hg
  have hin := (hr.inside hg).2
  omega

theorem Tracked.setPrevSize_relink (ht : Tracked c H s x) (hv : v < 2 ^ 64) (hz : ∃ g, H z = some g)
    (hQ : ∀ x', Tracked c (relink H z v) s x' → Q ⟨⟩ x') :
    Returns (Xma.setPrevSize z v) x Q := by
  obtain ⟨g, hg⟩ := hz
  have hupd : relink H z v = update H z (some { g with prevSize := v }) := by
    funext q
    by_cases hq : q = z
    · rw [relink, if_pos hq, hq, update_self, hg, map_some]
    · rw [relink, if_neg hq, update_of_ne hq]
  rw [hupd] at hQ
  exact ht.setPrevSize hg hv hQ

theorem Tracked.setPrevSizeInside (ht : Tracked c H s x) (hv : v < 2 ^ 64)
    (hz : z < c.end_ → ∃ g, H z = some g) (hQ : ∀ x', Tracked c (relink H z v) s x' → Q ⟨⟩ x') :
    Returns (setPrevSizeInside z v) x Q := by
  rw [Xma.setPrevSizeInside, returns_bind, returns_get, ht.end_eq]
  refine returns_ite (fun hlt => ?_) (fun hge => ?_)
  · exact ht.setPrevSize_relink hv (hz hlt) hQ
  · rw [relink_of_none (ht.none_of_end_le (Nat.le_of_not_lt hge))] at hQ
    rw [returns_pure]
    exact hQ x ht

theorem Tracked.relinkNext (ht : Tracked c H s x) (hb : H b = some h)
    (hz : b + 16 + h.size < c.end_ → ∃ g, H (b + 16 + h.size) = some g)
    (hQ : ∀ x', Tracked c (relink H (b + 16 + h.size) h.size) s x' → Q ⟨⟩ x') :
    Returns (relinkNext b) x Q := by
  rw [Xma.relinkNext, returns_bind]
  refine ht.nextMblk hb fun x₁ _ ht₁ => ?_
  rw [returns_bind]
  refine ht₁.getSize hb fun x₂ _ ht₂ => ?_
  have hsize := ht.size_lt hb
  exact ht₂.setPrevSizeInside (by omega) hz hQ

theorem Tracked.fileLeftover (ht : Tracked c H s x) (hb : H b = some h) {y : ℕ}
    (hy : y = b + 16 + h.size) (hnew : H y = none) (hin : c.start ≤ y ∧ y + 32 ≤ c.end_)
    (hapart : ∀ {a g}, H a = some g → a + 32 ≤ y ∨ y + 32 ≤ a)
    (hall : c.Allows y 32) (hv : v < 2 ^ 63) {Q : ℕ → Xma → Prop}
    (hQ : ∀ x', Tracked c (update H y (some ⟨h.size, v, true, true⟩)) s x' → Q y x') :
    Returns (fileLeftover b v) x Q := by
  have hne : b ≠ y := by omega
  have hsize := ht.size_lt hb
  rw [Xma.fileLeftover, returns_bind]
  refine ht.nextMblk hb fun x₁ _ ht₁ => ?_
  rw [← hy]
  simp only [returns_bind]
  have ht₁ := ht₁.record hnew hin hapart (hall.mono (by omega) (by omega))
  refine ht₁.setFree (update_self ..) fun x₂ ht₂ => ?_
  refine ht₂.setSize (update_self ..) rfl hv fun x₃ ht₃ => ?_
  simp only [update_idem] at ht₃
  refine ht₃.getSize (h := h) (by rw [update_of_ne hne, hb]) fun x₄ _ ht₄ => ?_
  refine ht₄.setPrevSize (update_self ..) (by omega) fun x₅ ht₅ => ?_
  refine ht₅.attachToFreelist (update_self ..) rfl hall fun x₆ ht₆ => ?_
  simp only [update_idem] at ht₆
  rw [returns_pure]
  exact hQ x₆ ht₆

theorem Tracked.setPrevSizeBeyond (ht : Tracked c H s x) (hb : c.end_ ≤ b) (hall : c.Allows b 8)
    (hQ : ∀ x', Tracked c H s x' → Q ⟨⟩ x') :
    Returns (Xma.setPrevSize b v) x Q := by
  obtain ⟨fl, hfl⟩ := ht.lists
  have hsep : ∀ {a g}, H a = some g → a + 32 ≤ b := by
    intro a g hg
    exact (ht.inside hg).2.trans hb
  rw [Xma.setPrevSize, returns_storeWord]
  refine hQ _ ⟨ht.putWord hall (fun hk => ⟨_, hk, rfl⟩) ?_, fl, hfl.congr ?_ (fun _ _ => Iff.rfl)⟩
  · intro a g hg
    have hle := hsep hg
    exact ⟨(load_store_apart (by omega)).trans (ht.shows hg).1,
      (load_store_apart (by omega)).trans (ht.shows hg).2⟩
  · intro a g hg
    have hle := hsep hg
    exact ⟨load_store_apart (by omega), load_store_apart (by omega)⟩

end Rules

end Qse.Xma
