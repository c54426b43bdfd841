import Qse.HashList.Model
import Qse.Support.Chains

/-!
# The linked list in the heap

A list of nodes stays linked both ways when a node is inserted in front of another one or at the
end and when one is taken out.
-/

open Function List

namespace Qse.HashList

open TwoWayChain

variable {T : Type} {m m' : Heap T} {l : DatumList} {as pre post : List ℕ} {node pos : ℕ}

structure Threaded (m : Heap T) (l : DatumList) (as : List ℕ) : Prop where
  nodup : as.Nodup
  chain : Chain m.prev m.next none as none
  headNode : l.headNode = first as none
  tailNode : l.tailNode = last none as
  nodeCount : l.nodeCount = as.length

/-- Only links of the nodes `as` differ. -/
structure Relinked (m m' : Heap T) (as : List ℕ) : Prop where
  value : m'.value = m.value
  fresh : m'.fresh = m.fresh
  prev : ∀ i ∉ as, m'.prev i = m.prev i
  next : ∀ i ∉ as, m'.next i = m.next i

theorem Relinked.trans {m'' : Heap T} (h : Relinked m m' as) (h' : Relinked m' m'' as) :
    Relinked m m'' as where
  value := h'.value.trans h.value
  fresh := h'.fresh.trans h.fresh
  prev i hi := (h'.prev i hi).trans (h.prev i hi)
  next i hi := (h'.next i hi).trans (h.next i hi)

theorem Relinked.mono {bs : List ℕ} (h : Relinked m m' as) (hsub : ∀ i ∈ as, i ∈ bs) :
    Relinked m m' bs where
  value := h.value
  fresh := h.fresh
  prev i hi := h.prev i fun has => hi (hsub i has)
  next i hi := h.next i fun has => hi (hsub i has)

theorem Threaded.congr (hl : Threaded m l as) (hprev : ∀ i ∈ as, m'.prev i = m.prev i)
    (hnext : ∀ i ∈ as, m'.next i = m.next i) : Threaded m' l as :=
  { hl with chain := hl.chain.congr hprev hnext }

theorem threaded_new : Threaded m .new [] where
  nodup := nodup_nil
  chain := trivial
  headNode := rfl
  tailNode := rfl
  nodeCount := rfl

theorem Threaded.prev_eq (hl : Threaded m l (pre ++ node :: post)) : m.prev node = last none pre :=
  (chain_append.mp hl.chain).2.1

theorem Threaded.next_eq (hl : Threaded m l (pre ++ node :: post)) :
    m.next node = first post none :=
  (chain_append.mp hl.chain).2.2.1

theorem Threaded.not_both (hl : Threaded m l (pre ++ post)) {i : ℕ} (hpre : i ∈ pre) :
    first post none ≠ some i := by
  intro hfirst
  exact disjoint_of_nodup_append hl.nodup hpre (first_mem hfirst)

theorem Threaded.not_both' (hl : Threaded m l (pre ++ post)) {i : ℕ} (hpost : i ∈ post) :
    last none pre ≠ some i := by
  intro hlast
  exact disjoint_of_nodup_append hl.nodup (last_mem hlast) hpost

theorem Threaded.inserted {l' : DatumList} (hl : Threaded m l (pre ++ post))
    (hnew : node ∉ pre ++ post) (hprev : ∀ i, m'.prev i = if i = node then last none pre
      else if first post none = some i then some node else m.prev i)
    (hnext : ∀ i, m'.next i = if i = node then first post none
      else if last none pre = some i then some node else m.next i)
    (hhead : l'.headNode = if pre = [] then some node else l.headNode)
    (htail : l'.tailNode = if post = [] then some node else l.tailNode)
    (hcount : l'.nodeCount = l.nodeCount + 1) : Threaded m' l' (pre ++ node :: post) where
  nodup := nodup_middle.mpr (nodup_cons.mpr ⟨hnew, hl.nodup⟩)
  chain := by
    obtain ⟨hnodup, hnodup', -⟩ := nodup_append.mp hl.nodup
    have hchain : Chain m.prev m.next none (pre ++ ([] ++ post)) none := hl.chain
    have hne {i : ℕ} (hi : i ∈ pre ++ post) : i ≠ node := fun heq => hnew (heq ▸ hi)
    have hmid : Chain m'.prev m'.next (last none pre) [node] (first post none) :=
      ⟨(hprev node).trans (if_pos rfl), (hnext node).trans (if_pos rfl), trivial⟩
    refine hchain.splice hnodup hnodup' hmid ?_ ?_ ?_ ?_
    · intro i hi
      rw [hprev, if_neg (hne (mem_append_left _ hi)), if_neg (hl.not_both hi)]
    · intro i hi
      rw [hnext, if_neg (hne (mem_append_left _ hi))]
      rfl
    · intro i hi
      rw [hprev, if_neg (hne (mem_append_right _ hi)), last_concat]
    · intro i hi
      rw [hnext, if_neg (hne (mem_append_right _ hi)), if_neg (hl.not_both' hi)]
  headNode := by
    rw [hhead, hl.headNode]
    cases pre with
    | nil => rfl
    | cons a pre => rfl
  tailNode := by
    rw [htail, hl.tailNode, last_append, last_append, last_cons]
    cases post with
    | nil => rfl
    | cons b post => rw [if_neg (cons_ne_nil b post), last_cons, last_cons]
  nodeCount := by
    rw [hcount, hl.nodeCount, length_append, length_append, length_cons]
    rfl

theorem Threaded.insertNode_none (hl : Threaded m l as) (hnew : node ∉ as)
    (hprev : m.prev node = none) (hnext : m.next node = none) :
    ∃ m' l', l.insertNode m none node = some (m', l') ∧ Threaded m' l' (as ++ [node]) ∧
      Relinked m m' (node :: as) := by
  have hl' : Threaded m l (as ++ []) := by rwa [append_nil]
  have hnew' : node ∉ as ++ [] := by rwa [append_nil]
  cases hlast : last none as with
  | none =>
    obtain rfl := last_eq_none.mp hlast
    refine ⟨m, ⟨some node, some node, l.nodeCount + 1⟩, ?_, ?_, ?_⟩
    · have hzero : l.nodeCount = 0 := hl.nodeCount
      rw [DatumList.insertNode, if_pos hzero]
    · refine hl'.inserted hnew' (fun i => ?_) (fun i => ?_) rfl rfl rfl
      · split
        · rename_i hi
          rw [hi, hprev]
          rfl
        · rfl
      · split
        · rename_i hi
          rw [hi, hnext]
          rfl
        · rfl
    · exact ⟨rfl, rfl, fun _ _ => rfl, fun _ _ => rfl⟩
  | some tail =>
    have htail := last_mem hlast
    have hne : node ≠ tail := fun heq => hnew (heq ▸ htail)
    have hcount : l.nodeCount ≠ 0 := by
      rw [hl.nodeCount]
      exact Nat.ne_of_gt (length_pos_of_mem htail)
    refine ⟨_, _, by rw [DatumList.insertNode, if_neg hcount, hl.tailNode, hlast], ?_, ?_⟩
    · refine hl'.inserted hnew' (fun i => ?_) (fun i => ?_) ?_ rfl rfl
      · simp [update_apply, hlast]
      · by_cases hi : i = node
        · rw [if_pos hi, hi]
          exact (update_of_ne hne _ _).trans hnext
        · rw [if_neg hi, hlast]
          simp [update_apply, eq_comm]
      · rw [if_neg (ne_nil_of_mem htail)]
    · refine ⟨rfl, rfl, fun i hi => ?_, fun i hi => ?_⟩
      · rw [mem_cons, not_or] at hi
        exact update_of_ne hi.1 _ _
      · rw [mem_cons, not_or] at hi
        have hit : i ≠ tail := by
          rintro rfl
          exact hi.2 htail
        exact update_of_ne hit _ _

theorem Threaded.insertNode_some (hl : Threaded m l (pre ++ pos :: post))
    (hnew : node ∉ pre ++ pos :: post) :
    ∃ m' l', l.insertNode m (some pos) node = some (m', l') ∧
      Threaded m' l' (pre ++ node :: pos :: post) ∧
      Relinked m m' (node :: (pre ++ pos :: post)) := by
  have hpos : pos ∈ pre ++ pos :: post := mem_append_right _ (.head _)
  have hne : pos ≠ node := fun heq => hnew (heq ▸ hpos)
  have hbefore : Function.update m.prev node (m.prev pos) pos = last none pre := by
    rw [update_of_ne hne, hl.prev_eq]
  cases hlast : last none pre with
  | none =>
    refine ⟨_, _, by simp only [DatumList.insertNode, hbefore, hlast]; rfl, ?_, ?_⟩
    · obtain rfl := last_eq_none.mp hlast
      refine hl.inserted hnew (fun i => ?_) (fun i => ?_) rfl rfl rfl
      · by_cases hi : i = node
        · rw [if_pos hi, hi]
          simp [hne.symm, hl.prev_eq]
        · rw [if_neg hi]
          simp [update_apply, hi, eq_comm]
      · simp [update_apply]
    · refine ⟨rfl, rfl, fun i hi => ?_, fun i hi => ?_⟩
      · rw [mem_cons, not_or] at hi
        have hip : i ≠ pos := by
          rintro rfl
          exact hi.2 hpos
        simp [hi.1, hip]
      · rw [mem_cons, not_or] at hi
        simp [hi.1]
  | some before =>
    have hbef := last_mem hlast
    have hbn : before ≠ node := fun heq => hnew (mem_append_left _ (heq ▸ hbef))
    refine ⟨_, _, by simp only [DatumList.insertNode, hbefore, hlast]; rfl, ?_, ?_⟩
    · refine hl.inserted hnew (fun i => ?_) (fun i => ?_) ?_ rfl rfl
      · by_cases hi : i = node
        · rw [if_pos hi, hi]
          simp [hne.symm, hl.prev_eq]
        · rw [if_neg hi]
          simp [update_apply, hi, eq_comm]
      · by_cases hi : i = node
        · rw [if_pos hi, hi]
          simp [hbn.symm]
        · rw [if_neg hi, hlast]
          simp [update_apply, hi, eq_comm]
      · rw [if_neg (ne_nil_of_mem hbef)]
    · refine ⟨rfl, rfl, fun i hi => ?_, fun i hi => ?_⟩
      · rw [mem_cons, not_or] at hi
        have hip : i ≠ pos := by
          rintro rfl
          exact hi.2 hpos
        simp [hi.1, hip]
      · rw [mem_cons, not_or] at hi
        have hib : i ≠ before := by
          rintro rfl
          exact hi.2 (mem_append_left _ hbef)
        simp [hi.1, hib]

theorem Threaded.taken {l' : DatumList} (hl : Threaded m l (pre ++ node :: post))
    (hprev : ∀ i ∈ pre ++ post,
      m'.prev i = if first post none = some i then last none pre else m.prev i)
    (hnext : ∀ i ∈ pre ++ post,
      m'.next i = if last none pre = some i then first post none else m.next i)
    (hhead : l'.headNode = if pre = [] then first post none else l.headNode)
    (htail : l'.tailNode = if post = [] then last none pre else l.tailNode)
    (hcount : l'.nodeCount = l.nodeCount - 1) : Threaded m' l' (pre ++ post) where
  nodup := (nodup_cons.mp (nodup_middle.mp hl.nodup)).2
  chain := by
    have hall := (nodup_cons.mp (nodup_middle.mp hl.nodup)).2
    obtain ⟨hnodup, hnodup', -⟩ := nodup_append.mp hall
    have hdisj := disjoint_of_nodup_append hall
    have hchain : Chain m.prev m.next none (pre ++ ([node] ++ post)) none := hl.chain
    have hmid : Chain m'.prev m'.next (last none pre) [] (first post none) := trivial
    refine hchain.splice hnodup hnodup' hmid ?_ ?_ ?_ ?_
    · intro i hi
      rw [hprev i (mem_append_left _ hi), if_neg]
      exact fun hfirst => hdisj hi (first_mem hfirst)
    · intro i hi
      exact hnext i (mem_append_left _ hi)
    · intro i hi
      rw [hprev i (mem_append_right _ hi), append_nil]
    · intro i hi
      rw [hnext i (mem_append_right _ hi), if_neg]
      exact fun hlast => hdisj (last_mem hlast) hi
  headNode := by
    rw [hhead, hl.headNode]
    cases pre with
    | nil => rfl
    | cons a pre => rfl
  tailNode := by
    rw [htail, hl.tailNode, last_append, last_append, last_cons]
    cases post with
    | nil => rfl
    | cons b post => rw [if_neg (cons_ne_nil b post), last_cons, last_cons]
  nodeCount := by
    rw [hcount, hl.nodeCount, length_append, length_append, length_cons]
    rfl

theorem Threaded.yield_false (hl : Threaded m l (pre ++ node :: post)) :
    Threaded (l.yield m node false).1 (l.yield m node false).2 (pre ++ post) ∧
      Relinked m (l.yield m node false).1 (pre ++ node :: post) := by
  have hnode := (nodup_cons.mp (nodup_middle.mp hl.nodup)).1
  have hsub {i : ℕ} (hi : i ∈ pre ++ post) : i ∈ pre ++ node :: post := by
    rcases mem_append.mp hi with hi | hi
    · exact mem_append_left _ hi
    · exact mem_append_right _ (.tail _ hi)
  cases hfirst : first post none with
  | none =>
    cases hlast : last none pre with
    | none =>
      have hrun : l.yield m node false = (m, ⟨none, none, l.nodeCount - 1⟩) := by
        simp [DatumList.yield, hl.next_eq, hfirst, hl.prev_eq, hlast]
      rw [hrun]
      refine ⟨hl.taken (fun i _ => ?_) (fun i _ => ?_) ?_ ?_ rfl, rfl, rfl, fun _ _ => rfl,
        fun _ _ => rfl⟩
      · simp [hfirst]
      · simp [hlast]
      · simp [last_eq_none.mp hlast, hfirst]
      · simp [first_eq_none.mp hfirst, hlast]
    | some before =>
      have hbef := last_mem hlast
      have hrun : l.yield m node false =
          ({ m with next := Function.update m.next before none },
            ⟨l.headNode, some before, l.nodeCount - 1⟩) := by
        simp [DatumList.yield, hl.next_eq, hfirst, hl.prev_eq, hlast]
      rw [hrun]
      refine ⟨hl.taken (fun i _ => ?_) (fun i _ => ?_) ?_ ?_ rfl, rfl, rfl, fun _ _ => rfl,
        fun i hi => ?_⟩
      · simp [hfirst]
      · simp [hlast, hfirst, update_apply, eq_comm]
      · simp [ne_nil_of_mem hbef]
      · simp [first_eq_none.mp hfirst, hlast]
      · refine update_of_ne ?_ _ _
        rintro rfl
        exact hi (hsub (mem_append_left _ hbef))
  | some after =>
    have haft := first_mem hfirst
    have hne : node ≠ after := fun heq => hnode (heq ▸ mem_append_right _ haft)
    cases hlast : last none pre with
    | none =>
      have hrun : l.yield m node false =
          ({ m with prev := Function.update m.prev after none },
            ⟨some after, l.tailNode, l.nodeCount - 1⟩) := by
        simp [DatumList.yield, hl.next_eq, hfirst, hl.prev_eq, hlast, hne]
      rw [hrun]
      refine ⟨hl.taken (fun i _ => ?_) (fun i _ => ?_) ?_ ?_ rfl, rfl, rfl, fun i hi => ?_,
        fun _ _ => rfl⟩
      · simp [hlast, hfirst, update_apply, eq_comm]
      · simp [hlast]
      · simp [last_eq_none.mp hlast, hfirst]
      · simp [ne_nil_of_mem haft]
      · refine update_of_ne ?_ _ _
        rintro rfl
        exact hi (hsub (mem_append_right _ haft))
    | some before =>
      have hbef := last_mem hlast
      have hrun : l.yield m node false =
          ({ m with
            prev := Function.update m.prev after (some before)
            next := Function.update m.next before (some after) },
            ⟨l.headNode, l.tailNode, l.nodeCount - 1⟩) := by
        simp [DatumList.yield, hl.next_eq, hfirst, hl.prev_eq, hlast, hne]
      rw [hrun]
      refine ⟨hl.taken (fun i _ => ?_) (fun i _ => ?_) ?_ ?_ rfl, rfl, rfl, fun i hi => ?_,
        fun i hi => ?_⟩
      · simp [hlast, hfirst, update_apply, eq_comm]
      · simp [hlast, hfirst, update_apply, eq_comm]
      · simp [ne_nil_of_mem hbef]
      · simp [ne_nil_of_mem haft]
      · refine update_of_ne ?_ _ _
        rintro rfl
        exact hi (hsub (mem_append_right _ haft))
      · refine update_of_ne ?_ _ _
        rintro rfl
        exact hi (hsub (mem_append_left _ hbef))

theorem yield_true (m : Heap T) (l : DatumList) (node : ℕ) :
    l.yield m node true =
      ({ (l.yield m node false).1 with
        next := Function.update (l.yield m node false).1.next node none
        prev := Function.update (l.yield m node false).1.prev node none },
        (l.yield m node false).2) := rfl

theorem Threaded.yield_true (hl : Threaded m l (pre ++ node :: post)) :
    Threaded (l.yield m node true).1 (l.yield m node true).2 (pre ++ post) ∧
      Relinked m (l.yield m node true).1 (pre ++ node :: post) ∧
      (l.yield m node true).1.prev node = none ∧ (l.yield m node true).1.next node = none := by
  obtain ⟨htaken, hvalue, hfresh, hprev, hnext⟩ := hl.yield_false
  have hnode := (nodup_cons.mp (nodup_middle.mp hl.nodup)).1
  rw [HashList.yield_true]
  refine ⟨htaken.congr (fun i hi => ?_) (fun i hi => ?_), ⟨hvalue, hfresh, fun i hi => ?_,
    fun i hi => ?_⟩, update_self .., update_self ..⟩
  · refine update_of_ne ?_ _ _
    rintro rfl
    exact hnode hi
  · refine update_of_ne ?_ _ _
    rintro rfl
    exact hnode hi
  · refine (update_of_ne ?_ _ _).trans (hprev i hi)
    rintro rfl
    exact hi (mem_append_right _ (.head _))
  · refine (update_of_ne ?_ _ _).trans (hnext i hi)
    rintro rfl
    exact hi (mem_append_right _ (.head _))

theorem clearFrom_eq (p : Option ℕ) (h : Chain m.prev m.next p as none) {n : ℕ}
    (hn : as.length ≤ n) (count : ℕ) :
    DatumList.clearFrom m n (first as none) count = some (count - as.length) := by
  induction as generalizing p n count with
  | nil =>
    cases n with
    | zero => rfl
    | succ n => rfl
  | cons a as ih =>
    obtain ⟨n, rfl⟩ : ∃ k, n = k + 1 := ⟨n - 1, by rw [length_cons] at hn; omega⟩
    rw [first_cons, DatumList.clearFrom, h.2.1,
      ih (some a) h.2.2 (Nat.le_of_succ_le_succ hn), length_cons, Nat.sub_sub,
      add_comm 1]

theorem Threaded.clear (hl : Threaded m l as) : l.clear m = some .new := by
  rw [DatumList.clear, hl.headNode, clearFrom_eq none hl.chain hl.nodeCount.ge, hl.nodeCount,
    Nat.sub_self]
  rfl

end Qse.HashList
