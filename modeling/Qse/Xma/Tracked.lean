import Qse.Support.Chains
import Qse.Support.Returns
import Qse.Xma.SizeClass

/-!
# Tracked block headers

`Recorded c H s x` says that the memory of the allocator `x` shows the block headers of `H`, and
`Tracked c H s x` besides that the free lists hold exactly the blocks marked as chained. The context
`c` fixes the zone and the bytes that may be touched and changed.
-/

open Function

namespace Qse.Xma

open ByteMemory MachineWord LinkedChain StateProgram

/-! ## Headers and free lists -/

/-- What a header says. `chained` is ghost: the block is on a free list. -/
structure Hdr where
  prevSize : ℕ
  size : ℕ
  free : Bool
  chained : Bool

abbrev Headers := ℕ → Option Hdr

/-- The memory shows the header `h` at `a`. -/
def ShowsHdr (m : Mem) (a : ℕ) (h : Hdr) : Prop :=
  load m a 8 = h.prevSize ∧ load m (a + 8) 8 = 2 * h.size + h.free.toNat

/-- `c->free_next` -/
def nextOf (m : Mem) (c : ℕ) : ℕ := load m (c + 24) 8

/-- `c->free_prev` -/
def prevOf (m : Mem) (c : ℕ) : ℕ := load m (c + 16) 8

/-- The free lists from the heads `xfree` hold the chained blocks of `H`, each
once, in the chain of its size. -/
structure FreeLists (next prev xfree : ℕ → ℕ) (H : Headers) (fl : ℕ → List ℕ) : Prop where
  linked : ∀ k, Linked 0 next prev 0 (xfree k) (fl k)
  nodup : ∀ k, (fl k).Nodup
  mem_iff : ∀ k a, a ∈ fl k ↔ ∃ h, H a = some h ∧ h.chained = true ∧ classOf h.size = k

/-- The zone of a call, the bytes it may touch and change, and the memory it
starts with. -/
structure Ctx where
  start : ℕ
  end_ : ℕ
  touchable : Set ℕ
  writable : Set ℕ
  before : Mem

def Ctx.Allows (c : Ctx) (a n : ℕ) : Prop :=
  ∀ i, a ≤ i → i < a + n → i ∈ c.touchable ∧ i ∈ c.writable

theorem Ctx.Allows.mono {c : Ctx} {a n b k : ℕ} (h : c.Allows a n)
    (hab : a ≤ b) (hk : b + k ≤ a + n) : c.Allows b k :=
  fun i hi hik => h i (by omega) (by omega)

/-- The allocator `x` shows the headers `H` and the statistics `s`. -/
structure Recorded (c : Ctx) (H : Headers) (s : Stat) (x : Xma) : Prop where
  start_eq : x.start = c.start
  end_eq : x.end_ = c.end_
  zone : 16 ≤ c.start ∧ c.end_ < 2 ^ 64
  bdec : x.bdec = szlog2 (FIXED * ALIGN)
  stat : x.stat = s
  shows : ∀ {a h}, H a = some h → ShowsHdr x.mem a h
  inside : ∀ {a h}, H a = some h → c.start ≤ a ∧ a + 32 ≤ c.end_
  apart : ∀ {a b h h'}, H a = some h → H b = some h' → a ≠ b → a + 32 ≤ b ∨ b + 32 ≤ a
  headerAllowed : ∀ {a h}, H a = some h → c.Allows a 16
  linksAllowed : ∀ {a h}, H a = some h → h.chained = true → c.Allows a 32
  touched : ∀ e ∈ x.touched, ∀ i, e.1 ≤ i → i < e.1 + e.2 → i ∈ c.touchable
  frame : ∀ i, i ∉ c.writable → x.mem i = c.before i

/-- The headers `H` are recorded and the free lists hold the chained ones. -/
structure Tracked (c : Ctx) (H : Headers) (s : Stat) (x : Xma) : Prop
    extends Recorded c H s x where
  lists : ∃ fl, FreeLists (nextOf x.mem) (prevOf x.mem) x.xfree H fl

/-- Two allocator states with the same heap; only the record of accesses may
differ. -/
structure SameHeap (x x' : Xma) : Prop where
  mem : x'.mem = x.mem
  start : x'.start = x.start
  end_ : x'.end_ = x.end_
  xfree : x'.xfree = x.xfree
  bdec : x'.bdec = x.bdec
  stat : x'.stat = x.stat

theorem SameHeap.refl (x : Xma) : SameHeap x x := ⟨rfl, rfl, rfl, rfl, rfl, rfl⟩

theorem SameHeap.trans {x y z : Xma} (h : SameHeap x y) (h' : SameHeap y z) : SameHeap x z :=
  ⟨h'.mem.trans h.mem, h'.start.trans h.start, h'.end_.trans h.end_,
    h'.xfree.trans h.xfree, h'.bdec.trans h.bdec, h'.stat.trans h.stat⟩

theorem SameHeap.touch (x : Xma) (a n : ℕ) : SameHeap x (x.touch a n) :=
  ⟨rfl, rfl, rfl, rfl, rfl, rfl⟩

section Rules

variable {c : Ctx} {H : Headers} {s : Stat} {x : Xma} {b v : ℕ} {h : Hdr}

/-! ## Reading -/

variable {a n : ℕ} {Q : ℕ → Xma → Prop}

theorem Recorded.touch (hr : Recorded c H s x)
    (ha : ∀ i, a ≤ i → i < a + n → i ∈ c.touchable) : Recorded c H s (x.touch a n) :=
  { hr with
    touched := by
      intro e he
      rcases List.mem_cons.mp he with rfl | he
      · exact ha
      · exact hr.touched e he }

theorem Recorded.touch_of_allows (hr : Recorded c H s x) (ha : c.Allows a n) :
    Recorded c H s (x.touch a n) :=
  hr.touch fun i hi hin => (ha i hi hin).1

theorem Tracked.touch_of_allows (ht : Tracked c H s x) (ha : c.Allows a n) :
    Tracked c H s (x.touch a n) :=
  ⟨ht.toRecorded.touch_of_allows ha, ht.lists⟩

@[simp] theorem returns_loadWord : Returns (loadWord a) x Q ↔ Q (load x.mem a 8) (x.touch a 8) := by
  simp only [loadWord, returns_bind, returns_get, returns_modify, returns_pure]

@[simp] theorem returns_storeWord {Q : PUnit → Xma → Prop} :
    Returns (storeWord a v) x Q ↔ Q ⟨⟩ (x.putWord a v) := by
  simp only [storeWord, returns_modify]

theorem Recorded.size_lt (ht : Recorded c H s x) (hb : H b = some h) : h.size < 2 ^ 63 := by
  have hword := (ht.shows hb).2
  have hlt := load_lt x.mem (b + 8) 8
  rw [hword] at hlt
  norm_num at hlt
  omega

section

variable (ht : Tracked c H s x)
include ht

theorem Tracked.getPrevSize (hb : H b = some h)
    (hQ : ∀ x', SameHeap x x' → Tracked c H s x' → Q h.prevSize x') :
    Returns (getPrevSize b) x Q := by
  have hall := (ht.headerAllowed hb).mono (b := b) (k := 8) (by omega) (by omega)
  rw [Xma.getPrevSize, returns_loadWord, (ht.shows hb).1]
  exact hQ _ (SameHeap.touch x b 8) (ht.touch_of_allows hall)

theorem Tracked.getSize (hb : H b = some h)
    (hQ : ∀ x', SameHeap x x' → Tracked c H s x' → Q h.size x') :
    Returns (getSize b) x Q := by
  have hall := (ht.headerAllowed hb).mono (b := b + 8) (k := 8) (by omega) (by omega)
  have hsize : (2 * h.size + h.free.toNat) / 2 = h.size := by
    have hbit : h.free.toNat ≤ 1 := Bool.toNat_le h.free
    omega
  rw [Xma.getSize, returns_bind, returns_loadWord, returns_pure, (ht.shows hb).2, hsize]
  exact hQ _ (SameHeap.touch x (b + 8) 8) (ht.touch_of_allows hall)

theorem Tracked.getFree (hb : H b = some h) {Q : Bool → Xma → Prop}
    (hQ : ∀ x', SameHeap x x' → Tracked c H s x' → Q h.free x') :
    Returns (getFree b) x Q := by
  have hall := (ht.headerAllowed hb).mono (b := b + 8) (k := 8) (by omega) (by omega)
  have hfree : decide ((2 * h.size + h.free.toNat) % 2 = 1) = h.free := by
    rw [Nat.mul_add_mod]
    cases h.free <;> rfl
  rw [Xma.getFree, returns_bind, returns_loadWord, returns_pure, (ht.shows hb).2, hfree]
  exact hQ _ (SameHeap.touch x (b + 8) 8) (ht.touch_of_allows hall)

theorem Tracked.nextMblk (hb : H b = some h)
    (hQ : ∀ x', SameHeap x x' → Tracked c H s x' → Q (b + 16 + h.size) x') :
    Returns (nextMblk b) x Q := by
  rw [Xma.nextMblk, returns_bind]
  refine ht.getSize hb fun x₁ hsame ht₁ => ?_
  rw [returns_pure]
  exact hQ x₁ hsame ht₁

theorem Tracked.prevMblk (hb : H b = some h)
    (hQ : ∀ x', SameHeap x x' → Tracked c H s x' → Q (wordSub b (wordAdd 16 h.prevSize)) x') :
    Returns (prevMblk b) x Q := by
  rw [Xma.prevMblk, returns_bind]
  refine ht.getPrevSize hb fun x₁ hsame ht₁ => ?_
  rw [returns_pure]
  exact hQ x₁ hsame ht₁

theorem Tracked.nextIsFree {y : ℕ} {f : Bool} (hy : y < c.end_ → ∃ h, H y = some h ∧ h.free = f)
    (hout : ¬y < c.end_ → f = false) {Q : Bool → Xma → Prop}
    (hQ : ∀ x', SameHeap x x' → Tracked c H s x' → Q f x') :
    Returns (nextIsFree y) x Q := by
  rw [Xma.nextIsFree, returns_bind, returns_get, ht.end_eq]
  refine returns_ite (fun hlt => ?_) (fun hlt => ?_)
  · obtain ⟨h, hh, rfl⟩ := hy hlt
    exact ht.getFree hh hQ
  · rw [returns_pure, ← hout hlt]
    exact hQ x (SameHeap.refl x) ht

theorem Tracked.prevIsFree {y : ℕ} {f : Bool} (hy : c.start ≤ y → ∃ h, H y = some h ∧ h.free = f)
    (hout : ¬c.start ≤ y → f = false) {Q : Bool → Xma → Prop}
    (hQ : ∀ x', SameHeap x x' → Tracked c H s x' → Q f x') :
    Returns (prevIsFree y) x Q := by
  rw [Xma.prevIsFree, returns_bind, returns_get, ht.start_eq]
  refine returns_ite (fun hlt => ?_) (fun hlt => ?_)
  · obtain ⟨h, hh, rfl⟩ := hy hlt
    exact ht.getFree hh hQ
  · rw [returns_pure, ← hout hlt]
    exact hQ x (SameHeap.refl x) ht

/-! ## Recording and forgetting blocks -/

theorem Tracked.forget (hb : H b = some h)
    (hoff : h.chained = false) : Tracked c (update H b none) s x := by
  have hold : ∀ {a k}, update H b none a = some k → H a = some k := by
    intro a k hk
    by_cases hab : a = b
    · subst hab
      simp at hk
    · rwa [update_of_ne hab] at hk
  obtain ⟨fl, hfl⟩ := ht.lists
  have hfl' : FreeLists (nextOf x.mem) (prevOf x.mem) x.xfree (update H b none) fl := by
    refine ⟨hfl.linked, hfl.nodup, fun k a => ?_⟩
    rw [hfl.mem_iff]
    by_cases hab : a = b
    · subst hab
      simp [hb, hoff]
    · rw [update_of_ne hab]
  exact
    { ht with
      shows := fun hk => ht.shows (hold hk)
      inside := fun hk => ht.inside (hold hk)
      apart := fun hk hk' => ht.apart (hold hk) (hold hk')
      headerAllowed := fun hk => ht.headerAllowed (hold hk)
      linksAllowed := fun hk => ht.linksAllowed (hold hk)
      lists := ⟨fl, hfl'⟩ }

end

def hdrAt (m : Mem) (b : ℕ) : Hdr where
  prevSize := load m b 8
  size := load m (b + 8) 8 / 2
  free := decide (load m (b + 8) 8 % 2 = 1)
  chained := false

theorem showsHdr_hdrAt (m : Mem) (b : ℕ) : ShowsHdr m b (hdrAt m b) := by
  refine ⟨rfl, ?_⟩
  simp only [hdrAt]
  rcases Nat.mod_two_eq_zero_or_one (load m (b + 8) 8) with hw | hw
  · simp [hw]
    omega
  · simp [hw]
    omega

theorem Tracked.record (ht : Tracked c H s x) (hnew : H b = none)
    (hin : c.start ≤ b ∧ b + 32 ≤ c.end_)
    (hapart : ∀ {a h}, H a = some h → a + 32 ≤ b ∨ b + 32 ≤ a) (hall : c.Allows b 16) :
    Tracked c (update H b (some (hdrAt x.mem b))) s x := by
  obtain ⟨fl, hfl⟩ := ht.lists
  have hcases : ∀ {a k}, update H b (some (hdrAt x.mem b)) a = some k →
      a = b ∧ k = hdrAt x.mem b ∨ a ≠ b ∧ H a = some k := by
    intro a k hk
    by_cases hab : a = b
    · subst hab
      rw [update_self] at hk
      exact .inl ⟨rfl, (Option.some.inj hk).symm⟩
    · rw [update_of_ne hab] at hk
      exact .inr ⟨hab, hk⟩
  have hfl' : FreeLists (nextOf x.mem) (prevOf x.mem) x.xfree
      (update H b (some (hdrAt x.mem b))) fl := by
    refine ⟨hfl.linked, hfl.nodup, fun k a => ?_⟩
    rw [hfl.mem_iff]
    by_cases hab : a = b
    · subst hab
      simp [hnew, hdrAt]
    · rw [update_of_ne hab]
  refine { ht with shows := ?_, inside := ?_, apart := ?_, headerAllowed := ?_,
                   linksAllowed := ?_, lists := ⟨fl, hfl'⟩ }
  · intro a k hk
    rcases hcases hk with ⟨rfl, rfl⟩ | ⟨-, hk⟩
    · exact showsHdr_hdrAt x.mem a
    · exact ht.shows hk
  · intro a k hk
    rcases hcases hk with ⟨rfl, rfl⟩ | ⟨-, hk⟩
    · exact hin
    · exact ht.inside hk
  · intro a a' k k' hk hk' hne
    rcases hcases hk with ⟨rfl, rfl⟩ | ⟨-, hold⟩
    · rcases hcases hk' with ⟨rfl, rfl⟩ | ⟨-, hold'⟩
      · exact absurd rfl hne
      · exact (hapart hold').symm
    · rcases hcases hk' with ⟨rfl, rfl⟩ | ⟨-, hold'⟩
      · exact hapart hold
      · exact ht.apart hold hold' hne
  · intro a k hk
    rcases hcases hk with ⟨rfl, rfl⟩ | ⟨-, hk⟩
    · exact hall
    · exact ht.headerAllowed hk
  · intro a k hk hch
    rcases hcases hk with ⟨rfl, rfl⟩ | ⟨-, hk⟩
    · simp [hdrAt] at hch
    · exact ht.linksAllowed hk hch

end Rules

end Qse.Xma
