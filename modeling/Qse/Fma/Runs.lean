import Qse.Fma.Model

/-!
# Runs of the allocator

Every operation keeps what holds between two calls, so long as the size of a chunk does not wrap.
-/

open List Option

namespace Qse.Fma

open ByteMemory WordChain

variable {s s' : State} {live free : List ℕ} {blk cnk a p size k : ℕ} {answer : Option ℕ}

theorem putNext_eq (h : inside s a = true) (next : ℕ) :
    putNext s a next = some { s with mem := store s.mem a 8 next } := if_pos h

theorem getNext_eq (h : inside s a = true) : getNext s a = some (load s.mem a 8) := if_pos h

theorem weave_eq (hsize : s.fma.blksize = size) (hword : 8 ≤ size) (hblk : 0 < blk)
    (hroom : blk + k * size < 2 ^ 64)
    (hinside : ∀ a, blk ≤ a → a + size ≤ blk + k * size → inside s a = true) :
    ∃ m, weave k blk s = some (blk + k * size, { s with mem := m }) ∧
      Segment m blk (slotsFrom size blk k) (blk + k * size) ∧
      ∀ i, i < blk ∨ blk + k * size ≤ i → m i = s.mem i := by
  induction k generalizing blk s with
  | zero =>
    refine ⟨s.mem, ?_, ?_, fun _ _ => rfl⟩
    · rw [zero_mul]
      rfl
    · rw [zero_mul]
      rfl
  | succ k ih =>
    rw [Nat.succ_mul] at hroom hinside ⊢
    have hfirst : inside s blk = true := hinside blk le_rfl (by omega)
    have hput := putNext_eq hfirst (blk + size)
    have hload : load (store s.mem blk 8 (blk + size)) blk 8 = blk + size := by
      rw [load_store_same, Nat.mod_eq_of_lt (by simpa using by omega)]
    have hget : getNext { s with mem := store s.mem blk 8 (blk + size) } blk =
        some (blk + size) := by
      rw [getNext_eq (by exact hfirst)]
      exact congrArg some hload
    obtain ⟨m, hrun, hsegment, hframe⟩ :=
      @ih { s with mem := store s.mem blk 8 (blk + size) } (blk + size) hsize
        (by omega) (by omega) (fun a hle hlt => hinside a (by omega) (by omega))
    have hend : blk + size + k * size = blk + (k * size + size) := by omega
    rw [hend] at hrun hsegment hframe
    refine ⟨m, ?_, ?_, ?_⟩
    · simp only [weave, hsize, hput, hget, bind_eq_bind, bind_some, hrun]
    · refine ⟨rfl, by omega, ?_⟩
      have hkept : load m blk 8 = blk + size := by
        rw [← hload]
        exact load_congr fun i hle hlt => hframe i (by omega)
      rw [hkept]
      exact hsegment
    · intro i hi
      rw [hframe i (by omega)]
      exact store_of_apart (by omega)

theorem chunk_linked {m : Mem} {cnk last head : ℕ} (hword : 8 ≤ size)
    (hlast : last = cnk + 8 + k * size)
    (hsegment : Segment m (cnk + 8) (slotsFrom size (cnk + 8) k) last) :
    Segment (store (store m last 8 0) cnk 8 head) (cnk + 8)
      (slotsFrom size (cnk + 8) (k + 1)) 0 := by
  have hbounds {b : ℕ} (hmem : b ∈ slotsFrom size (cnk + 8) k) : cnk + 8 ≤ b ∧ b + 8 ≤ last := by
    have h := mem_slotsFrom hmem
    omega
  rw [slotsFrom_succ]
  refine ((hsegment.store ?_).store ?_).append ?_
  · exact fun b hmem => .inr (hbounds hmem).2
  · exact fun b hmem => .inl (hbounds hmem).1
  · refine ⟨hlast, by omega, ?_⟩
    rw [← hlast, load_store_apart (by omega), load_store_same]
    rfl

theorem header_linked {m m' : Mem} {cnk last head : ℕ} {l : List ℕ} (hpos : 0 < cnk)
    (hhead : head < 2 ^ 64) (hheads : Segment m head l 0)
    (hframe : ∀ i, i < cnk + 8 ∨ last ≤ i → m' i = m i)
    (hapart : ∀ b ∈ l, last + 8 ≤ b ∨ b + 8 ≤ cnk) (hle : cnk + 8 ≤ last) :
    Segment (store (store m' last 8 0) cnk 8 head) cnk (cnk :: l) 0 := by
  have hkept : Segment (store m' last 8 0) head l 0 := by
    refine (hheads.congr fun b hmem i hi hi' => hframe i ?_).store fun b hmem => ?_
    · have h := hapart b hmem
      omega
    · have h := hapart b hmem
      omega
  refine hkept.push (by omega) hhead fun b hmem => ?_
  have h := hapart b hmem
  omega

theorem Holds.cnkhead_lt (h : Holds s live free) : s.fma.cnkhead < 2 ^ 64 := by
  have hheads := h.heads
  cases hcnks : s.cnks with
  | nil =>
    rw [hcnks] at hheads
    have hnull : s.fma.cnkhead = 0 := hheads
    omega
  | cons r cnks =>
    rw [hcnks] at hheads
    have hfirst : s.fma.cnkhead = r.1 := hheads.1
    obtain ⟨-, hsize, hend⟩ := h.sized r (by rw [hcnks]; exact mem_cons_self)
    simp only [word] at hsize
    omega

theorem Holds.addChunk_eq (h : Holds s live [])
    (hfits : word + s.fma.blksize * s.fma.maxblks < 2 ^ 64)
    (hmore : ¬(s.fma.maxcnks ≠ 0 ∧ s.fma.maxcnks ≤ s.fma.numcnks))
    (hanswers : Answers s (some cnk)) :
    ∃ s' free, addChunk s (some cnk) = some (cnk, s') ∧ Holds s' live free ∧ free ≠ [] ∧
      cnk ≠ 0 ∧ s'.fma.blksize = s.fma.blksize ∧ s'.fma.maxblks = s.fma.maxblks := by
  obtain ⟨hpos, hend, hapart⟩ := hanswers cnk rfl
  have hword := h.word_le
  have hsize : cnkSize s.fma = 8 + s.fma.blksize * s.fma.maxblks := by
    have hsmall : s.fma.blksize * s.fma.maxblks < 2 ^ 64 := by omega
    rw [cnkSize, Nat.mod_eq_of_lt hsmall, Nat.mod_eq_of_lt hfits, word]
  obtain ⟨k, hk⟩ := Nat.exists_eq_add_of_lt h.blks
  rw [zero_add] at hk
  have hproduct : s.fma.blksize * s.fma.maxblks = k * s.fma.blksize + s.fma.blksize := by
    rw [hk, mul_comm, Nat.succ_mul]
  rw [hsize, hproduct] at hend hapart
  set size := s.fma.blksize with hblksize
  set s₁ : State := ⟨s.mem, { s.fma with freeblk := cnk + word },
    (cnk, cnkSize s.fma) :: s.cnks⟩ with hs₁
  have hinside (a : ℕ) (hle : cnk ≤ a) (hlt : a + 8 ≤ cnk + (8 + (k * size + size))) :
      inside s₁ a = true := by
    refine inside_of_mem (r := (cnk, cnkSize s.fma)) (.head _) hle ?_
    rw [hsize, hproduct]
    exact hlt
  obtain ⟨m, hweave, hsegment, hframe⟩ := @weave_eq s₁ (cnk + 8) size k
    rfl hword (by omega) (by omega) (fun a hle hlt => hinside a (by omega) (by omega))
  have hlast := putNext_eq (s := ⟨m, s₁.fma, s₁.cnks⟩) (hinside (cnk + 8 + k * size) (by omega)
    (by omega)) 0
  have hheader := putNext_eq
    (s := ⟨store m (cnk + 8 + k * size) 8 0, s₁.fma, s₁.cnks⟩)
    (hinside cnk le_rfl (by omega)) s₁.fma.cnkhead
  set m' : Mem := store (store m (cnk + 8 + k * size) 8 0) cnk 8 s.fma.cnkhead with hm'
  have hold (r : ℕ × ℕ) (hr : r ∈ s.cnks) : cnk + (8 + (k * size + size)) ≤ r.1 ∨
      r.1 + 8 ≤ cnk := by
    have hr' := (h.sized r hr).2.1
    simp only [word] at hr'
    have happ := hapart r hr
    omega
  refine ⟨⟨m', { s₁.fma with cnkhead := cnk, numcnks := s.fma.numcnks + 1 }, s₁.cnks⟩,
    slotsFrom size (cnk + 8) (k + 1), ?_, ?_, cons_ne_nil _ _, by omega, rfl, rfl⟩
  · rw [addChunk, if_neg hmore]
    have hcount : s.fma.maxblks - 1 = k := by omega
    simp only [hcount, bind_eq_bind]
    change (weave k (cnk + 8) s₁).bind _ = _
    simp only [hweave, bind_some, hlast, hheader]
    rfl
  · constructor
    · exact hword
    · exact h.blks
    · exact forall_mem_cons.mpr ⟨⟨hpos, hsize, by rw [hsize, hproduct]; exact hend⟩, h.sized⟩
    · refine Pairwise.cons (fun r hr => ?_) h.apart
      change cnk + cnkSize s.fma ≤ r.1 ∨ r.1 + r.2 ≤ cnk
      rw [hsize, hproduct]
      exact hapart r hr
    · exact congrArg (· + 1) h.count
    · intro hlimit
      have hcount := h.count
      change s.fma.maxcnks ≠ 0 at hlimit
      change s.cnks.length + 1 ≤ s.fma.maxcnks
      omega
    · refine header_linked hpos h.cnkhead_lt h.heads hframe (fun b hmem => ?_) (by omega)
      obtain ⟨r, hr, rfl⟩ := mem_map.mp hmem
      have hr' := hold r hr
      omega
    · exact chunk_linked hword rfl hsegment
    · change (live ++ slotsFrom size (cnk + 8) (k + 1)).Perm
        (slotsFrom size (cnk + 8) s.fma.maxblks ++ slots s)
      have hperm := h.perm
      rw [append_nil] at hperm
      rw [hk]
      exact (hperm.append_right _).trans perm_append_comm

theorem Holds.take_eq (h : Holds s live (blk :: free)) :
    ∃ s', take s = some (blk, s') ∧ Holds s' (blk :: live) free ∧ blk ≠ 0 ∧
      s'.fma.blksize = s.fma.blksize ∧ s'.fma.maxblks = s.fma.maxblks := by
  obtain ⟨hfirst, hne, hchain⟩ := h.chain
  have hinside := h.inside_slot (h.slot_of_free (.head _))
  refine ⟨{ s with fma := { s.fma with freeblk := load s.mem blk 8 } }, ?_, ?_, hne, rfl, rfl⟩
  · rw [take, hfirst, getNext_eq hinside]
    rfl
  · exact ⟨h.word_le, h.blks, h.sized, h.apart, h.count, h.limit, h.heads, hchain,
      perm_middle.symm.trans h.perm⟩

theorem Holds.alloc_eq (h : Holds s live free)
    (hfits : word + s.fma.blksize * s.fma.maxblks < 2 ^ 64) (hanswers : Answers s answer)
    (size : ℕ) :
    ∃ p s' free', alloc s size answer = some (p, s') ∧
      Holds s' (if p = 0 then live else p :: live) free' ∧
      s'.fma.blksize = s.fma.blksize ∧ s'.fma.maxblks = s.fma.maxblks ∧
      (p = 0 → s.fma.blksize < size ∨ free = [] ∧
        (s.fma.maxcnks ≠ 0 ∧ s.cnks.length = s.fma.maxcnks ∨ answer = none)) := by
  have htake {s₁ : State} {free₁ : List ℕ} (h₁ : Holds s₁ live free₁) (hne : free₁ ≠ [])
      (hsize : s₁.fma.blksize = s.fma.blksize) (hblks : s₁.fma.maxblks = s.fma.maxblks) :
      ∃ p s' free', take s₁ = some (p, s') ∧ Holds s' (if p = 0 then live else p :: live) free' ∧
        s'.fma.blksize = s.fma.blksize ∧ s'.fma.maxblks = s.fma.maxblks ∧ p ≠ 0 := by
    obtain ⟨blk, free', rfl⟩ := exists_cons_of_ne_nil hne
    obtain ⟨s', hrun, hholds, hblk, hsize', hblks'⟩ := h₁.take_eq
    refine ⟨blk, s', free', hrun, ?_, hsize'.trans hsize, hblks'.trans hblks, hblk⟩
    rw [if_neg hblk]
    exact hholds
  by_cases hlarge : s.fma.blksize < size
  · exact ⟨0, s, free, if_pos hlarge, h, rfl, rfl, fun _ => .inl hlarge⟩
  by_cases hnone : s.fma.freeblk = 0
  · obtain rfl := h.free_eq_nil_iff.mp hnone
    by_cases hmore : s.fma.maxcnks ≠ 0 ∧ s.fma.maxcnks ≤ s.fma.numcnks
    · have hlimit := h.limit hmore.1
      have hcount := h.count
      refine ⟨0, s, [], ?_, h, rfl, rfl, fun _ => .inr ⟨rfl, .inl ⟨hmore.1, by omega⟩⟩⟩
      simp [alloc, hlarge, hnone, addChunk, hmore.1, hmore.2]
    cases answer with
    | none =>
      refine ⟨0, s, [], ?_, h, rfl, rfl, fun _ => .inr ⟨rfl, .inr rfl⟩⟩
      simp only [alloc, if_neg hlarge, if_pos hnone, addChunk, if_neg hmore]
      rfl
    | some cnk =>
      obtain ⟨s₁, free₁, hadd, h₁, hne, hcnk, hsize, hblks⟩ :=
        h.addChunk_eq hfits hmore hanswers
      obtain ⟨p, s', free', hrun, hholds, hsize', hblks', hp⟩ := htake h₁ hne hsize hblks
      refine ⟨p, s', free', ?_, hholds, hsize', hblks', fun hzero => absurd hzero hp⟩
      simp only [alloc, if_neg hlarge, if_pos hnone, hadd, bind_eq_bind,
        bind_some, if_neg hcnk, hrun]
  · have hne : free ≠ [] := fun hnil => hnone (h.free_eq_nil_iff.mpr hnil)
    obtain ⟨p, s', free', hrun, hholds, hsize', hblks', hp⟩ := htake h hne rfl rfl
    refine ⟨p, s', free', ?_, hholds, hsize', hblks', fun hzero => absurd hzero hp⟩
    rw [alloc, if_neg hlarge, if_neg hnone, hrun]

theorem Holds.free_eq (h : Holds s live free) (hlive : blk ∈ live) :
    ∃ s', Fma.free s blk = some s' ∧ Holds s' (live.erase blk) (blk :: free) ∧
      s'.fma.blksize = s.fma.blksize ∧ s'.fma.maxblks = s.fma.maxblks := by
  have hslot := h.slot_of_live hlive
  have hword := h.word_le
  refine ⟨⟨store s.mem blk 8 s.fma.freeblk, { s.fma with freeblk := blk }, s.cnks⟩, ?_, ?_, rfl,
    rfl⟩
  · simp only [Fma.free, putNext_eq (h.inside_slot hslot), bind_eq_bind, bind_some]
  · have hheads : Segment (store s.mem blk 8 s.fma.freeblk) s.fma.cnkhead
        (s.cnks.map Prod.fst) 0 := by
      refine h.heads.store fun b hmem => ?_
      obtain ⟨r, hr, rfl⟩ := mem_map.mp hmem
      have hheader := h.slot_header hslot hr
      omega
    have hchain : Segment (store s.mem blk 8 s.fma.freeblk) blk (blk :: free) 0 := by
      refine h.chain.push (by have hlt := h.slot_lt hslot; omega) h.freeblk_lt fun b hmem => ?_
      have hapart := (pairwise_append.mp h.pairwise).2.2 blk hlive b hmem
      simp only [Apart] at hapart
      omega
    refine ⟨h.word_le, h.blks, h.sized, h.apart, h.count, h.limit, hheads, hchain, ?_⟩
    have hperm : (live.erase blk ++ blk :: free).Perm (live ++ free) :=
      perm_middle.trans ((perm_cons_erase hlive).symm.append_right free)
    exact hperm.trans h.perm

theorem Holds.write (h : Holds s live free) {m : Mem}
    (hheads : ∀ r ∈ s.cnks, ∀ i, r.1 ≤ i → i < r.1 + 8 → m i = s.mem i)
    (hfree : ∀ b ∈ free, ∀ i, b ≤ i → i < b + 8 → m i = s.mem i) :
    Holds { s with mem := m } live free := by
  refine ⟨h.word_le, h.blks, h.sized, h.apart, h.count, h.limit, ?_, h.chain.congr hfree, h.perm⟩
  refine h.heads.congr fun b hmem => ?_
  obtain ⟨r, hr, rfl⟩ := mem_map.mp hmem
  exact hheads r hr

structure Serves (s : State) (live : List ℕ) : Prop where
  inside : ∀ a ∈ slots s, ∃ r ∈ s.cnks, r.1 + word ≤ a ∧ a + s.fma.blksize ≤ r.1 + r.2
  apart : (slots s).Pairwise (Apart s.fma.blksize)
  blocks : ∃ free, Segment s.mem s.fma.freeblk free 0 ∧ (live ++ free).Perm (slots s)
  limit : s.fma.maxcnks ≠ 0 → s.cnks.length ≤ s.fma.maxcnks
  alloc : ∀ size answer, Answers s answer → ∃ p s', alloc s size answer = some (p, s') ∧
    (size ≤ s.fma.blksize → p = 0 → s.fma.freeblk = 0 ∧
      (s.fma.maxcnks ≠ 0 ∧ s.cnks.length = s.fma.maxcnks ∨ answer = none))
  free : ∀ blk ∈ live, ∃ s', Fma.free s blk = some s'

def Fits (s : State) : Prop := word + s.fma.blksize * s.fma.maxblks < 2 ^ 64

theorem Holds.serves (h : Holds s live free) (hfits : Fits s) : Serves s live where
  inside _ hmem := h.slot hmem
  apart := h.pairwise_slots
  blocks := ⟨free, h.chain, h.perm⟩
  limit := h.limit
  alloc size answer hanswers := by
    obtain ⟨p, s', -, hrun, -, -, -, hnull⟩ := h.alloc_eq hfits hanswers size
    refine ⟨p, s', hrun, fun hle hzero => ?_⟩
    obtain ⟨hnil, hwhy⟩ := (hnull hzero).resolve_left (by omega)
    exact ⟨h.free_eq_nil_iff.mpr hnil, hwhy⟩
  free blk hlive := by
    obtain ⟨s', hrun, -⟩ := h.free_eq hlive
    exact ⟨s', hrun⟩

theorem holds_init (mem : Mem) (blksize maxblks maxcnks : ℕ) :
    Holds (init mem blksize maxblks maxcnks) [] [] := by
  constructor
  · change 8 ≤ if blksize < word then word else blksize
    by_cases hsmall : blksize < word
    · rw [if_pos hsmall]
      exact le_refl 8
    · rw [if_neg hsmall]
      exact Nat.le_of_not_lt hsmall
  · change 0 < if maxblks ≤ 0 then 1 else maxblks
    by_cases hzero : maxblks ≤ 0
    · rw [if_pos hzero]
      exact Nat.one_pos
    · rw [if_neg hzero]
      exact Nat.pos_of_ne_zero fun h => hzero (le_of_eq h)
  · exact fun _ hmem => absurd hmem not_mem_nil
  · exact Pairwise.nil
  · rfl
  · exact fun _ => Nat.zero_le _
  · rfl
  · rfl
  · exact Perm.refl _

theorem Reach.holds {mem : Mem} {blksize maxblks maxcnks : ℕ}
    (hfits : Fits (Fma.init mem blksize maxblks maxcnks))
    (hreach : Reach mem blksize maxblks maxcnks s live) : Fits s ∧ ∃ free, Holds s live free := by
  have hkept {s s' : State} (hs : Fits s) (hsize : s'.fma.blksize = s.fma.blksize)
      (hblks : s'.fma.maxblks = s.fma.maxblks) : Fits s' := by
    rw [Fits, hsize, hblks]
    exact hs
  induction hreach with
  | init => exact ⟨hfits, [], holds_init ..⟩
  | @alloc s s' live size p answer _ hanswers hrun ih =>
    obtain ⟨hs, free, h⟩ := ih
    obtain ⟨p', s'', free', hrun', h', hsize, hblks, -⟩ := h.alloc_eq hs hanswers size
    cases hrun.symm.trans hrun'
    exact ⟨hkept hs hsize hblks, free', h'⟩
  | @reallocNull s s' live size p answer _ hanswers hrun ih =>
    obtain ⟨hs, free, h⟩ := ih
    obtain ⟨p', s'', free', hrun', h', hsize, hblks, -⟩ := h.alloc_eq hs hanswers size
    rw [Fma.realloc, if_neg (not_not_intro rfl)] at hrun
    cases hrun.symm.trans hrun'
    exact ⟨hkept hs hsize hblks, free', h'⟩
  | @realloc s s' live blk size p answer _ _ hlive hrun ih =>
    obtain ⟨hs, free, h⟩ := ih
    have hne : blk ≠ 0 := Nat.pos_iff_ne_zero.mp (h.slot_lt (h.slot_of_live hlive)).1
    rw [Fma.realloc, if_pos hne] at hrun
    have hsame : s' = s := by
      split at hrun <;> exact (congrArg Prod.snd (some.inj hrun)).symm
    rw [hsame]
    exact ⟨hs, free, h⟩
  | @free s s' live blk _ hlive hrun ih =>
    obtain ⟨hs, free, h⟩ := ih
    obtain ⟨s'', hrun', h', hsize, hblks⟩ := h.free_eq hlive
    cases hrun.symm.trans hrun'
    exact ⟨hkept hs hsize hblks, blk :: free, h'⟩
  | @write s live blk mem' _ hlive hsame ih =>
    obtain ⟨hs, free, h⟩ := ih
    refine ⟨hs, free, h.write (fun r hr i hle hlt => hsame i ?_) fun b hb i hle hlt => hsame i ?_⟩
    · have hheader := h.slot_header (h.slot_of_live hlive) hr
      omega
    · have hword := h.word_le
      have hapart := (pairwise_append.mp h.pairwise).2.2 blk hlive b hb
      simp only [Apart] at hapart
      omega
  | @elsewhere s live mem' _ hsame ih =>
    obtain ⟨hs, free, h⟩ := ih
    refine ⟨hs, free, h.write (fun r hr i hle hlt => hsame r hr i hle ?_)
      fun b hb i hle hlt => ?_⟩
    · have hsize := (h.sized r hr).2.1
      simp only [word] at hsize
      omega
    · obtain ⟨r, hr, hle', hlt'⟩ := h.slot (h.slot_of_free hb)
      have hword := h.word_le
      exact hsame r hr i (by omega) (by omega)

/-- In every state that is reached the live blocks and the free list are the slots of the chunks,
and the calls do what they are for, if the size of a chunk does not wrap. -/
theorem reach_serves {mem : Mem} {blksize maxblks maxcnks : ℕ}
    (hfits : Fits (Fma.init mem blksize maxblks maxcnks))
    (hreach : Reach mem blksize maxblks maxcnks s live) : Serves s live := by
  obtain ⟨hs, free, h⟩ := hreach.holds hfits
  exact h.serves hs

/-- The one chunk of two blocks is used up, a block is freed, the other is resized, and the first
is handed out again. -/
theorem reach_serves_exhausted : ∃ s, Reach (fun _ => 0) 16 2 1 s [72, 88] ∧ Serves s [72, 88] := by
  let s₀ := init (fun _ => 0) 16 2 1
  have hcompute : (alloc s₀ 16 (some 64)).bind (fun p₁ => (alloc p₁.2 16 none).bind fun p₂ =>
      (alloc p₂.2 16 none).bind fun p₃ => (free p₃.2 72).bind fun s₄ =>
        (realloc s₄ 88 12 none).bind fun p₅ => (realloc p₅.2 0 10 none).map fun p₆ =>
          (p₁.1, p₂.1, p₃.1, p₅.1, p₆.1)) = some (72, 88, 0, 88, 72) := by decide +kernel
  obtain ⟨⟨b₁, s₁⟩, hrun₁, hrest⟩ := bind_eq_some_iff.mp hcompute
  obtain ⟨⟨b₂, s₂⟩, hrun₂, hrest⟩ := bind_eq_some_iff.mp hrest
  obtain ⟨⟨b₃, s₃⟩, hrun₃, hrest⟩ := bind_eq_some_iff.mp hrest
  obtain ⟨s₄, hrun₄, hrest⟩ := bind_eq_some_iff.mp hrest
  obtain ⟨⟨b₅, s₅⟩, hrun₅, hrest⟩ := bind_eq_some_iff.mp hrest
  obtain ⟨⟨b₆, s₆⟩, hrun₆, hends⟩ := map_eq_some_iff.mp hrest
  simp only [Prod.mk.injEq] at hends
  obtain ⟨rfl, rfl, rfl, rfl, rfl⟩ := hends
  have hnone (s : State) : Answers s none := by rintro _ ⟨⟩
  have hanswers : Answers s₀ (some 64) := by
    rintro _ ⟨⟩
    exact ⟨by decide, by decide, fun r hr => absurd hr not_mem_nil⟩
  have hfits : Fits s₀ := Nat.lt_of_sub_pos (by decide)
  have hreach₂ : Reach (fun _ => 0) 16 2 1 s₂ [88, 72] :=
    .alloc (.alloc .init hanswers hrun₁) (hnone s₁) hrun₂
  have hreach₄ : Reach (fun _ => 0) 16 2 1 s₄ [88] :=
    .free (.alloc hreach₂ (hnone s₂) hrun₃) (by decide) hrun₄
  have hreach : Reach (fun _ => 0) 16 2 1 s₆ [72, 88] :=
    .reallocNull (.realloc hreach₄ (hnone s₄) (by decide) hrun₅) (hnone s₅) hrun₆
  exact ⟨s₆, hreach, reach_serves hfits hreach⟩

/-- Two blocks of 2^63 bytes have a chunk of eight bytes. -/
theorem not_serves : ¬∀ mem blksize maxblks maxcnks s live, blksize < 2 ^ 64 → maxblks < 2 ^ 64 →
    Reach mem blksize maxblks maxcnks s live → Serves s live := by
  intro hall
  have hserves := hall (fun _ => 0) (2 ^ 63) 2 0 _ [] (by decide) (by decide) .init
  have hanswers : Answers (init (fun _ => 0) (2 ^ 63) 2 0) (some 16) := by
    rintro _ ⟨⟩
    exact ⟨by decide, by decide, fun r hr => absurd hr not_mem_nil⟩
  obtain ⟨p, s', hrun, -⟩ := hserves.alloc 8 (some 16) hanswers
  have hnone : Fma.alloc (init (fun _ => 0) (2 ^ 63) 2 0) 8 (some 16) = none := by
    decide
  rw [hnone] at hrun
  cases hrun

end Qse.Fma
