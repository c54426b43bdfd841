import Qse.Xma.FreeList

/-!
# Layouts of the zone

A layout is the list of blocks of the zone, each with its size and its free flag. `headersFrom a p
L` are the headers that the blocks of `L` carry when the first one lies at `a` behind a block of
size `p`. `Heap c L x` says that the allocator `x` is laid out as `L`.
-/

open Function List

namespace Qse.Xma

open ByteMemory MachineWord LinkedChain StateProgram

/-! ## Layouts -/

structure Blk where
  size : ℕ
  free : Bool
deriving DecidableEq

def Blk.room (b : Blk) : ℕ := 16 + b.size

@[simp] theorem room_mk (s : ℕ) (f : Bool) : Blk.room ⟨s, f⟩ = 16 + s := rfl

def span : List Blk → ℕ
  | [] => 0
  | b :: L => b.room + span L

def lastSize (p : ℕ) : List Blk → ℕ
  | [] => p
  | b :: L => lastSize b.size L

def lastFree (f : Bool) : List Blk → Bool
  | [] => f
  | b :: L => lastFree b.free L

def headFree : List Blk → Bool
  | [] => false
  | b :: _ => b.free

def Blk.hdr (b : Blk) (p : ℕ) : Hdr := ⟨p, b.size, b.free, b.free⟩

def headersFrom (a p : ℕ) : List Blk → Headers
  | [] => fun _ => none
  | b :: L => fun q => if q = a then some (b.hdr p) else headersFrom (a + b.room) b.size L q

/-- No two adjacent blocks are both free, also with a block flagged `f` put in
front. -/
def NoFreePair (f : Bool) : List Blk → Prop
  | [] => True
  | b :: L => ¬(f = true ∧ b.free = true) ∧ NoFreePair b.free L

def usedFrom (a : ℕ) : List Blk → List (ℕ × ℕ)
  | [] => []
  | b :: L =>
    if b.free then usedFrom (a + b.room) L
    else (a + 16, b.size) :: usedFrom (a + b.room) L

def usedSum : List Blk → ℕ
  | [] => 0
  | b :: L => (if b.free then 0 else b.size) + usedSum L

def freeSum : List Blk → ℕ
  | [] => 0
  | b :: L => (if b.free then b.size else 0) + freeSum L

def usedCount : List Blk → ℕ
  | [] => 0
  | b :: L => (if b.free then 0 else 1) + usedCount L

def freeCount : List Blk → ℕ
  | [] => 0
  | b :: L => (if b.free then 1 else 0) + freeCount L

def statOf (L : List Blk) : Stat where
  total := span L
  alloc := usedSum L
  avail := freeSum L
  nused := usedCount L
  nfree := freeCount L

section Lists

variable {a p q v : ℕ} {f : Bool} {b : Blk} {L L₁ L₂ S S' : List Blk}

@[simp] theorem span_append : span (L₁ ++ L₂) = span L₁ + span L₂ := by
  induction L₁ with
  | nil => simp [span]
  | cons b L ih => simp [span, ih, add_assoc]

@[simp] theorem lastSize_append : lastSize p (L₁ ++ L₂) = lastSize (lastSize p L₁) L₂ := by
  induction L₁ generalizing p with
  | nil => rfl
  | cons b L ih => exact ih

@[simp] theorem lastFree_append : lastFree f (L₁ ++ L₂) = lastFree (lastFree f L₁) L₂ := by
  induction L₁ generalizing f with
  | nil => rfl
  | cons b L ih => exact ih

@[simp] theorem usedSum_append : usedSum (L₁ ++ L₂) = usedSum L₁ + usedSum L₂ := by
  induction L₁ with
  | nil => simp [usedSum]
  | cons b L ih => simp [usedSum, ih, add_assoc]

@[simp] theorem freeSum_append : freeSum (L₁ ++ L₂) = freeSum L₁ + freeSum L₂ := by
  induction L₁ with
  | nil => simp [freeSum]
  | cons b L ih => simp [freeSum, ih, add_assoc]

@[simp] theorem usedCount_append : usedCount (L₁ ++ L₂) = usedCount L₁ + usedCount L₂ := by
  induction L₁ with
  | nil => simp [usedCount]
  | cons b L ih => simp [usedCount, ih, add_assoc]

@[simp] theorem freeCount_append : freeCount (L₁ ++ L₂) = freeCount L₁ + freeCount L₂ := by
  induction L₁ with
  | nil => simp [freeCount]
  | cons b L ih => simp [freeCount, ih, add_assoc]

theorem noFreePair_append :
    NoFreePair f (L₁ ++ L₂) ↔ NoFreePair f L₁ ∧ NoFreePair (lastFree f L₁) L₂ := by
  induction L₁ generalizing f with
  | nil => simp [NoFreePair, lastFree]
  | cons b L ih => simp [NoFreePair, lastFree, ih, and_assoc]

theorem lastFree_concat : lastFree f (L ++ [b]) = b.free := by
  rw [lastFree_append]
  rfl

theorem lastSize_concat : lastSize p (L ++ [b]) = b.size := by
  rw [lastSize_append]
  rfl

theorem exists_of_lastFree (h : lastFree false L = true) : ∃ M r, L = M ++ [⟨r, true⟩] := by
  rcases eq_nil_or_concat' L with rfl | ⟨M, ⟨r, g⟩, rfl⟩
  · cases h
  · rw [lastFree_concat] at h
    cases h
    exact ⟨M, r, rfl⟩

theorem exists_of_headFree (h : headFree L = true) : ∃ t M, L = ⟨t, true⟩ :: M := by
  cases L with
  | nil => cases h
  | cons b M =>
    obtain ⟨t, g⟩ := b
    cases h
    exact ⟨t, M, rfl⟩

theorem NoFreePair.of_headFree (h : NoFreePair f L) (hh : headFree L = false) :
    NoFreePair true L := by
  cases L with
  | nil => trivial
  | cons b M => exact ⟨fun hb => absurd (hh.symm.trans hb.2) (by simp), h.2⟩

theorem NoFreePair.of_used (h : NoFreePair f L) : NoFreePair false L := by
  cases L with
  | nil => trivial
  | cons b L => exact ⟨by simp, h.2⟩

theorem usedFrom_append : usedFrom a (L₁ ++ L₂) = usedFrom a L₁ ++ usedFrom (a + span L₁) L₂ := by
  induction L₁ generalizing a with
  | nil => rfl
  | cons b L ih =>
    simp only [cons_append, usedFrom, ih, span, add_assoc]
    split
    · rfl
    · rfl

theorem span_eq_sums (L : List Blk) :
    span L = usedSum L + freeSum L + 16 * (usedCount L + freeCount L) := by
  induction L with
  | nil => rfl
  | cons b L ih =>
    simp only [span, usedSum, freeSum, usedCount, freeCount, Blk.room]
    split
    · omega
    · omega

/-! ## Headers of a layout -/

@[simp] theorem headersFrom_nil : headersFrom a p [] q = none := rfl

theorem headersFrom_cons :
    headersFrom a p (b :: L) q =
      if q = a then some (b.hdr p) else headersFrom (a + b.room) b.size L q := rfl

theorem headersFrom_lt (h : q < a) : headersFrom a p L q = none := by
  induction L generalizing a p with
  | nil => rfl
  | cons b L ih =>
    rw [headersFrom_cons, if_neg (by omega)]
    exact ih (by omega)

theorem headersFrom_append_lt (h : q < a + span L₁) :
    headersFrom a p (L₁ ++ L₂) q = headersFrom a p L₁ q := by
  induction L₁ generalizing a p with
  | nil => rw [nil_append, headersFrom_lt (by simpa [span] using h), headersFrom_nil]
  | cons b L ih =>
    simp only [cons_append, headersFrom_cons]
    split
    · rfl
    · refine ih ?_
      rw [span] at h
      omega

theorem headersFrom_append_ge (h : a + span L₁ ≤ q) :
    headersFrom a p (L₁ ++ L₂) q = headersFrom (a + span L₁) (lastSize p L₁) L₂ q := by
  induction L₁ generalizing a p with
  | nil => rfl
  | cons b L ih =>
    simp only [span, Blk.room] at h
    simp only [cons_append, headersFrom_cons, lastSize, span]
    rw [if_neg (by omega), ih (by rw [Blk.room]; omega), add_assoc]

theorem headersFrom_append_at :
    headersFrom a p (L₁ ++ L₂) (a + span L₁) = L₂.head?.map (Blk.hdr · (lastSize p L₁)) := by
  rw [headersFrom_append_ge le_rfl]
  cases L₂ with
  | nil => rfl
  | cons b L => simp [headersFrom_cons]

theorem headersFrom_at :
    headersFrom a p (L₁ ++ b :: L₂) (a + span L₁) = some (b.hdr (lastSize p L₁)) := by
  rw [headersFrom_append_at]
  rfl

theorem headersFrom_eq_some {h : Hdr} (hq : headersFrom a p L q = some h) :
    ∃ L₁ b L₂, L = L₁ ++ b :: L₂ ∧ q = a + span L₁ ∧ h = b.hdr (lastSize p L₁) := by
  induction L generalizing a p with
  | nil => cases hq
  | cons d L ih =>
    rw [headersFrom_cons] at hq
    split at hq
    · next heq =>
        exact ⟨[], d, L, rfl, by rw [heq, span, add_zero], (Option.some.inj hq).symm⟩
    · obtain ⟨L₁, b, L₂, rfl, rfl, rfl⟩ := ih hq
      exact ⟨d :: L₁, b, L₂, rfl, by rw [span, add_assoc], rfl⟩

variable {H' : Headers} {z : ℕ} {g : Bool}

theorem headersFrom_replace (hspan : span S' = span S) (hz : z = a + span L₁ + span S)
    (hout : ∀ q, q < a + span L₁ ∨ a + span L₁ + span S < q →
      H' q = headersFrom a p (L₁ ++ S ++ L₂) q)
    (hin : ∀ q, a + span L₁ ≤ q → q < a + span L₁ + span S →
      H' q = headersFrom (a + span L₁) (lastSize p L₁) S' q)
    (hnext : H' z = relink (headersFrom a p (L₁ ++ S ++ L₂)) z
      (lastSize (lastSize p L₁) S') z) :
    H' = headersFrom a p (L₁ ++ S' ++ L₂) := by
  funext q
  rcases lt_or_ge q (a + span L₁) with hlt | hge
  · rw [hout q (.inl hlt), append_assoc, append_assoc,
      headersFrom_append_lt hlt, headersFrom_append_lt hlt]
  rcases Nat.lt_trichotomy q (a + span L₁ + span S) with hlt | heq | hgt
  · rw [hin q hge hlt, append_assoc, headersFrom_append_ge hge, headersFrom_append_lt (by omega)]
  · -- the block that follows learns the size of the last block of `S'`
    have hold : headersFrom a p (L₁ ++ S ++ L₂) z =
        L₂.head?.map (Blk.hdr · (lastSize p (L₁ ++ S))) := by
      rw [hz, add_assoc, ← span_append, headersFrom_append_at]
    have hnew : headersFrom a p (L₁ ++ S' ++ L₂) z =
        L₂.head?.map (Blk.hdr · (lastSize (lastSize p L₁) S')) := by
      rw [hz, add_assoc, ← hspan, ← span_append, headersFrom_append_at, lastSize_append]
    rw [heq, ← hz, hnext, relink, if_pos rfl, hold, hnew, Option.map_map]
    rfl
  · have hge' : a + span (L₁ ++ S) ≤ q := by
      rw [span_append]
      omega
    have hge'' : a + span (L₁ ++ S') ≤ q := by
      rw [span_append]
      omega
    rw [hout q (.inr hgt), headersFrom_append_ge hge', headersFrom_append_ge hge'']
    have heq : span (L₁ ++ S) = span (L₁ ++ S') := by
      rw [span_append, span_append, hspan]
    rw [heq]
    -- behind the block that follows, the layouts agree
    cases L₂ with
    | nil => rfl
    | cons b L =>
      have hne : q ≠ a + span (L₁ ++ S') := by
        rw [span_append]
        omega
      rw [headersFrom_cons, headersFrom_cons, if_neg hne, if_neg hne]

theorem headersFrom_join {at_ m : ℕ} (hat : at_ = a + span L₁) (hz : z = at_ + 16 + m)
    (hspan : span S = 16 + m)
    (hout : ∀ q, q < at_ ∨ z < q → H' q = headersFrom a p (L₁ ++ S ++ L₂) q)
    (hfront : H' at_ = some ⟨lastSize p L₁, m, g, g⟩) (hinside : ∀ q, at_ < q → q < z → H' q = none)
    (hnext : H' z = relink (headersFrom a p (L₁ ++ S ++ L₂)) z m z) :
    H' = headersFrom a p (L₁ ++ [⟨m, g⟩] ++ L₂) := by
  subst hat
  refine headersFrom_replace (S := S) (z := z) ?_ ?_ ?_ ?_ hnext
  · rw [hspan]
    rfl
  · omega
  · intro q hq
    exact hout q (by omega)
  · intro q hlo hhi
    rw [headersFrom_cons, headersFrom_nil]
    by_cases hq : q = a + span L₁
    · rw [if_pos hq, hq, hfront]
      rfl
    · rw [if_neg hq]
      exact hinside q (by omega) (by omega)

theorem headersFrom_pair {at_ y n m : ℕ} {g' : Bool} (hat : at_ = a + span L₁)
    (hy : y = at_ + 16 + n) (hz : z = y + 16 + m) (hspan : span S = 16 + n + (16 + m))
    (hout : ∀ q, q < at_ ∨ z < q → H' q = headersFrom a p (L₁ ++ S ++ L₂) q)
    (hfront : H' at_ = some ⟨lastSize p L₁, n, g, g⟩) (hback : H' y = some ⟨n, m, g', g'⟩)
    (hinside : ∀ q, at_ < q → q < z → q ≠ y → H' q = none)
    (hnext : H' z = relink (headersFrom a p (L₁ ++ S ++ L₂)) z m z) :
    H' = headersFrom a p (L₁ ++ [⟨n, g⟩, ⟨m, g'⟩] ++ L₂) := by
  subst hat
  refine headersFrom_replace (S := S) (z := z) ?_ ?_ ?_ ?_ hnext
  · simp only [hspan, span, room_mk]
    omega
  · omega
  · intro q hq
    exact hout q (by omega)
  · intro q hlo hhi
    have hroom : a + span L₁ + Blk.room ⟨n, g⟩ = y := by
      rw [room_mk]
      omega
    rw [headersFrom_cons, headersFrom_cons, headersFrom_nil, hroom]
    by_cases hq : q = a + span L₁
    · rw [if_pos hq, hq, hfront]
      rfl
    · by_cases hqy : q = y
      · rw [if_neg hq, if_pos hqy, hqy, hback]
        rfl
      · rw [if_neg hq, if_neg hqy]
        exact hinside q (by omega) (by omega) hqy

theorem headersFrom_refile {s : ℕ} {f : Bool} :
    update (headersFrom a p (L₁ ++ [⟨s, f⟩] ++ L₂)) (a + span L₁)
        (some ⟨lastSize p L₁, s, g, g⟩) =
      headersFrom a p (L₁ ++ [⟨s, g⟩] ++ L₂) := by
  refine headersFrom_join (S := [⟨s, f⟩]) rfl rfl rfl ?_ (update_self ..) ?_ ?_
  · intro q hq
    exact update_of_ne (by omega) ..
  · intro q hlo hhi
    rw [update_of_ne (by omega), append_assoc, headersFrom_append_ge (by omega),
      singleton_append, headersFrom_cons, if_neg (by omega),
      headersFrom_lt (by rw [room_mk]; omega)]
  · -- the size before the block that follows stays the same
    have hz : a + span L₁ + 16 + s = a + span (L₁ ++ [⟨s, f⟩]) := by
      simp only [span_append, span, room_mk]
      omega
    rw [update_of_ne (by omega), relink, if_pos rfl, hz, headersFrom_append_at]
    cases L₂ with
    | nil => rfl
    | cons b L => simp [Blk.hdr, lastSize]

end Lists

/-! ## Heaps laid out as a list of blocks -/

/-- The layout `L` fills the zone, every block has room for the two links of a
free block, and free blocks are coalesced. -/
structure Fits (c : Ctx) (L : List Blk) : Prop where
  span_eq : c.start + span L = c.end_
  small : span L ≤ 2 ^ 63
  minSize : ∀ b ∈ L, 16 ≤ b.size
  coalesced : NoFreePair false L

/-- The allocator `x` is laid out as `L`. -/
structure Heap (c : Ctx) (L : List Blk) (x : Xma) : Prop where
  fits : Fits c L
  tracked : Tracked c (headersFrom c.start 0 L) (statOf L) x

section

variable {c : Ctx} {L L₁ L₂ S S' : List Blk} {x : Xma} {b : Blk} {q : ℕ}

theorem Fits.replace (hf : Fits c (L₁ ++ S ++ L₂)) (hspan : span S' = span S)
    (hmin : ∀ b ∈ S', 16 ≤ b.size)
    (hpair : NoFreePair (lastFree false L₁) S' ∧ NoFreePair (lastFree (lastFree false L₁) S') L₂) :
    Fits c (L₁ ++ S' ++ L₂) where
  span_eq := by
    have hold := hf.span_eq
    rw [span_append, span_append] at hold ⊢
    rwa [hspan]
  small := by
    have hold := hf.small
    rw [span_append, span_append] at hold ⊢
    rwa [hspan]
  minSize := by
    intro b hb
    rcases mem_append.mp hb with hb | hb
    · rcases mem_append.mp hb with hb | hb
      · exact hf.minSize b (mem_append_left _ (mem_append_left _ hb))
      · exact hmin b hb
    · exact hf.minSize b (mem_append_right _ hb)
  coalesced := by
    have hold := hf.coalesced
    rw [noFreePair_append, noFreePair_append] at hold
    rw [noFreePair_append, noFreePair_append, lastFree_append]
    exact ⟨⟨hold.1.1, hpair.1⟩, hpair.2⟩

theorem Heap.of_tracked {H : Headers} {s : Stat} (ht : Tracked c H s x) (hf : Fits c L)
    (hH : H = headersFrom c.start 0 L) (hs : s = statOf L) : Heap c L x :=
  ⟨hf, hH ▸ hs ▸ ht⟩

/-- The block at `b` with header `h` ends at `z`: the other blocks lie before
`b` or from `z` on, and `z` is a block or the end of the zone. -/
structure Here (c : Ctx) (H : Headers) (b z : ℕ) (h : Hdr) : Prop where
  hdr : H b = some h
  stop : z = b + 16 + h.size
  inside : c.start ≤ b ∧ z ≤ c.end_
  others : ∀ {a g}, H a = some g → a ≠ b → a + 32 ≤ b ∨ z ≤ a
  next : z < c.end_ → ∃ g, H z = some g

variable {z : ℕ}

theorem Here.none_of_lt {H : Headers} {h : Hdr} {a : ℕ} (hr : Here c H q z h) (hlo : q < a)
    (hhi : a < z) : H a = none := by
  rw [Option.eq_none_iff_forall_ne_some]
  intro g hg
  rcases hr.others hg (by omega) with hle | hle
  · omega
  · omega

theorem Fits.next_recorded (hf : Fits c (L₁ ++ L₂)) (hq : q = c.start + span L₁)
    (hlt : q < c.end_) :
    ∃ d L, L₂ = d :: L ∧ headersFrom c.start 0 (L₁ ++ L₂) q = some (d.hdr (lastSize 0 L₁)) := by
  cases L₂ with
  | nil =>
    have hspan := hf.span_eq
    rw [append_nil] at hspan
    omega
  | cons d L => exact ⟨d, L, rfl, hq ▸ headersFrom_at⟩

theorem Fits.here (hf : Fits c L) {st : Stat} (hr : Recorded c (headersFrom c.start 0 L) st x)
    (L₁ : List Blk) (b : Blk) (L₂ : List Blk) (hL : L = L₁ ++ [b] ++ L₂)
    (hq : q = c.start + span L₁) (hz : z = q + b.room) :
    Here c (headersFrom c.start 0 L) q z (b.hdr (lastSize 0 L₁)) := by
  have hat : headersFrom c.start 0 L q = some (b.hdr (lastSize 0 L₁)) := by
    rw [hL, append_assoc, hq]
    exact headersFrom_at
  refine ⟨hat, ?_, ?_, ?_, ?_⟩
  · simp only [hz, Blk.room, Blk.hdr]
    omega
  · have hspan := hf.span_eq
    simp only [hL, span_append, span] at hspan
    omega
  · intro a g hg hne
    rcases hr.apart hg hat hne with hle | hle
    · exact .inl hle
    · refine .inr ?_
      by_contra hlt
      rw [hL, append_assoc, headersFrom_append_ge (by omega), singleton_append,
        headersFrom_cons, if_neg (by omega), headersFrom_lt (by omega)] at hg
      cases hg
  · intro hlt
    have hzL : z = c.start + span (L₁ ++ [b]) := by
      simp only [span_append, span]
      omega
    rw [hL] at hf
    obtain ⟨d, L', -, hd⟩ := hf.next_recorded hzL hlt
    rw [hL]
    exact ⟨_, hd⟩

theorem Heap.here (hh : Heap c L x) (L₁ : List Blk) (b : Blk) (L₂ : List Blk)
    (hL : L = L₁ ++ [b] ++ L₂) (hq : q = c.start + span L₁) (hz : z = q + b.room) :
    Here c (headersFrom c.start 0 L) q z (b.hdr (lastSize 0 L₁)) :=
  hh.fits.here hh.tracked.toRecorded L₁ b L₂ hL hq hz

theorem Fits.here_pair {s t n : ℕ} {f g : Bool} (hf : Fits c (L₁ ++ [⟨s, f⟩, ⟨t, g⟩] ++ L₂))
    {st : Stat} (hr : Recorded c (headersFrom c.start 0 (L₁ ++ [⟨s, f⟩, ⟨t, g⟩] ++ L₂)) st x)
    (hq : q = c.start + span L₁) (hn : n = q + 16 + s) (hz : z = n + 16 + t) :
    Here c (headersFrom c.start 0 (L₁ ++ [⟨s, f⟩, ⟨t, g⟩] ++ L₂)) q n ⟨lastSize 0 L₁, s, f, f⟩ ∧
      Here c (headersFrom c.start 0 (L₁ ++ [⟨s, f⟩, ⟨t, g⟩] ++ L₂)) n z ⟨s, t, g, g⟩ := by
  have hfirst := hf.here hr L₁ ⟨s, f⟩ (⟨t, g⟩ :: L₂) (by simp) hq
    (z := n) (by rw [room_mk]; omega)
  have hsecond := hf.here hr (L₁ ++ [⟨s, f⟩]) ⟨t, g⟩ L₂ (by simp) (q := n)
    (by simp only [span_append, span, room_mk]; omega) (z := z) (by rw [room_mk]; omega)
  rw [lastSize_append] at hsecond
  exact ⟨hfirst, hsecond⟩

theorem Fits.exists_stat (hf : Fits c (L₁ ++ S ++ L₂)) :
    ∃ a f u g : ℕ, a + f + 16 * (u + g) + span S ≤ 2 ^ 63 ∧
      ∀ S', statOf (L₁ ++ S' ++ L₂) = ⟨a + f + 16 * (u + g) + span S', a + usedSum S',
        f + freeSum S', u + usedCount S', g + freeCount S'⟩ := by
  have hfront := span_eq_sums L₁
  have hback := span_eq_sums L₂
  have hsmall := hf.small
  rw [span_append, span_append] at hsmall
  refine ⟨usedSum L₁ + usedSum L₂, freeSum L₁ + freeSum L₂, usedCount L₁ + usedCount L₂,
    freeCount L₁ + freeCount L₂, by omega, fun S' => ?_⟩
  simp only [statOf, span_append, usedSum_append, freeSum_append, usedCount_append,
    freeCount_append, Stat.mk.injEq]
  omega

theorem Fits.next_flag (hf : Fits c (L₁ ++ L₂)) (hq : q = c.start + span L₁) :
    (q < c.end_ → ∃ h, headersFrom c.start 0 (L₁ ++ L₂) q = some h ∧ h.free = headFree L₂) ∧
    (¬q < c.end_ → headFree L₂ = false) := by
  constructor
  · intro hlt
    obtain ⟨d, M, rfl, hd⟩ := hf.next_recorded hq hlt
    exact ⟨_, hd, rfl⟩
  · intro hge
    cases L₂ with
    | nil => rfl
    | cons d M =>
      have hspan := hf.span_eq
      simp only [span_append, span, Blk.room] at hspan
      omega

theorem Heap.same {x' : Xma} (hh : Heap c L x)
    (ht : Tracked c (headersFrom c.start 0 L) (statOf L) x') : Heap c L x' :=
  ⟨hh.fits, ht⟩

def FreeAllowed (c : Ctx) (L : List Blk) : Prop :=
  ∀ L₁ s L₂, L = L₁ ++ [⟨s, true⟩] ++ L₂ → c.Allows (c.start + span L₁) (16 + s)

theorem free_of_chained {h : Hdr} (hq : headersFrom c.start 0 L q = some h)
    (hon : h.chained = true) :
    ∃ L₁ L₂, L = L₁ ++ [⟨h.size, true⟩] ++ L₂ ∧ q = c.start + span L₁ := by
  obtain ⟨L₁, ⟨s, f⟩, L₂, hL, haddr, rfl⟩ := headersFrom_eq_some hq
  refine ⟨L₁, L₂, ?_, haddr⟩
  have hf : f = true := hon
  rw [hL, hf, append_assoc, singleton_append]
  rfl

end

end Qse.Xma
