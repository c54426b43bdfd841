import Qse.HashList.Chain
import Qse.Support.KeyedSet

/-!
# Buckets as segments of one list

The nodes of a bucket stand one behind the other, so the list is seen as groups, each with the
number of its bucket.
-/

open Function List

namespace Qse.HashList

open TwoWayChain

variable {T : Type} {h : Hashing T} {m m' : Heap T} {t : HashList} {node c : ℕ} {datum : T}
  {gs gs₁ gs₂ : List (ℕ × List ℕ)} {seg seg₁ seg₂ : List ℕ}

def flat (gs : List (ℕ × List ℕ)) : List ℕ := gs.flatMap Prod.snd

@[simp] theorem flat_append : flat (gs₁ ++ gs₂) = flat gs₁ ++ flat gs₂ := flatMap_append

theorem mem_flat : node ∈ flat gs ↔ ∃ g ∈ gs, node ∈ g.2 := mem_flatMap

structure Bucketed (h : Hashing T) (m : Heap T) (t : HashList) (gs : List (ℕ × List ℕ)) : Prop where
  threaded : Threaded m t.datumList (flat gs)
  keys : (gs.map Prod.fst).Nodup
  capacity : 0 < t.nodeCapacity
  nonempty : ∀ g ∈ gs, g.2 ≠ []
  inBucket : ∀ g ∈ gs, ∀ i ∈ g.2, bucket h t (m.value i) = g.1
  head : ∀ g ∈ gs, t.nodes (2 * g.1) = g.2.head?
  tail : ∀ g ∈ gs, t.nodes (2 * g.1 + 1) = g.2.getLast?
  vacant : ∀ c, c ∉ gs.map Prod.fst → t.nodes (2 * c) = none ∧ t.nodes (2 * c + 1) = none

theorem initList_capacity (nodeCapacity loadFactor : ℕ) :
    0 < (initList nodeCapacity loadFactor).nodeCapacity := by
  rw [initList, minCapacity]
  split
  · exact Nat.one_pos
  · rename_i hle
    exact lt_of_lt_of_le Nat.one_pos (not_lt.mp hle)

theorem bucketed_initList (nodeCapacity loadFactor : ℕ) :
    Bucketed h m (initList nodeCapacity loadFactor) [] where
  threaded := threaded_new
  keys := nodup_nil
  capacity := initList_capacity nodeCapacity loadFactor
  nonempty _ hg := absurd hg not_mem_nil
  inBucket _ hg := absurd hg not_mem_nil
  head _ hg := absurd hg not_mem_nil
  tail _ hg := absurd hg not_mem_nil
  vacant _ _ := ⟨rfl, rfl⟩

/-! ## The group of a bucket -/

def group (c : ℕ) (seg : List ℕ) : List (ℕ × List ℕ) := if seg = [] then [] else [(c, seg)]

@[simp] theorem flat_group (c : ℕ) (seg : List ℕ) : flat (group c seg) = seg := by
  rw [group]
  split
  · rename_i hnil
    rw [hnil]
    rfl
  · simp [flat]

theorem mem_group {g : ℕ × List ℕ} : g ∈ group c seg ↔ g = (c, seg) ∧ seg ≠ [] := by
  rw [group]
  split
  · rename_i hnil
    simp [hnil]
  · rename_i hne
    simp [hne]

theorem Bucketed.split (hb : Bucketed h m t gs) (c : ℕ) :
    ∃ gs₁ seg gs₂, gs = gs₁ ++ (group c seg ++ gs₂) ∧ t.nodes (2 * c) = seg.head? ∧
      t.nodes (2 * c + 1) = seg.getLast? ∧ (∀ i ∈ seg, bucket h t (m.value i) = c) ∧
      (∀ g ∈ gs₁ ++ gs₂, g.1 ≠ c) ∧ (seg = [] → gs₂ = []) := by
  by_cases hc : c ∈ gs.map Prod.fst
  · obtain ⟨⟨_, seg⟩, hg, rfl⟩ := mem_map.mp hc
    have hne := hb.nonempty _ hg
    obtain ⟨gs₁, gs₂, rfl⟩ := append_of_mem hg
    refine ⟨gs₁, seg, gs₂, ?_, hb.head _ hg, hb.tail _ hg, hb.inBucket _ hg, ?_,
      fun hnil => absurd hnil hne⟩
    · rw [group, if_neg hne]
      rfl
    · intro g hgmem heq
      have hkeys := hb.keys
      rw [map_append, map_cons] at hkeys
      have hnot := (nodup_cons.mp (nodup_middle.mp hkeys)).1
      rw [← map_append] at hnot
      exact hnot (mem_map.mpr ⟨g, hgmem, heq⟩)
  · obtain ⟨hhead, htail⟩ := hb.vacant c hc
    refine ⟨gs, [], [], by simp [group], hhead, htail, ?_, ?_, fun _ => rfl⟩
    · exact fun i hi => absurd hi not_mem_nil
    · intro g hg heq
      rw [append_nil] at hg
      exact hc (mem_map.mpr ⟨g, hg, heq⟩)

theorem Bucketed.regroup {seg' : List ℕ} {t' : HashList}
    (hb : Bucketed h m t (gs₁ ++ (group c seg ++ gs₂))) (hother : ∀ g ∈ gs₁ ++ gs₂, g.1 ≠ c)
    (hthreaded : Threaded m' t'.datumList (flat gs₁ ++ (seg' ++ flat gs₂)))
    (hvalue : m'.value = m.value) (hcapacity : t'.nodeCapacity = t.nodeCapacity)
    (hin : ∀ i ∈ seg', bucket h t (m.value i) = c)
    (hhead : t'.nodes (2 * c) = seg'.head?) (htail : t'.nodes (2 * c + 1) = seg'.getLast?)
    (hnodes : ∀ k, k ≠ 2 * c → k ≠ 2 * c + 1 → t'.nodes k = t.nodes k) :
    Bucketed h m' t' (gs₁ ++ (group c seg' ++ gs₂)) := by
  have hsplit {seg : List ℕ} {g : ℕ × List ℕ} (hg : g ∈ gs₁ ++ (group c seg ++ gs₂)) :
      g = (c, seg) ∧ seg ≠ [] ∨ g ∈ gs₁ ++ gs₂ := by
    rcases mem_append.mp hg with hg | hg
    · exact .inr (mem_append_left _ hg)
    · rcases mem_append.mp hg with hg | hg
      · exact .inl (mem_group.mp hg)
      · exact .inr (mem_append_right _ hg)
  have hold {g : ℕ × List ℕ} (hg : g ∈ gs₁ ++ gs₂) : g ∈ gs₁ ++ (group c seg ++ gs₂) := by
    rcases mem_append.mp hg with hg | hg
    · exact mem_append_left _ hg
    · exact mem_append_right _ (mem_append_right _ hg)
  have hbucket (d : T) : bucket h t' d = bucket h t d := by
    rw [bucket, bucket, hcapacity]
  have hkeep {k : ℕ} (hk : k ≠ c) : t'.nodes (2 * k) = t.nodes (2 * k) ∧
      t'.nodes (2 * k + 1) = t.nodes (2 * k + 1) :=
    ⟨hnodes _ (by omega) (by omega), hnodes _ (by omega) (by omega)⟩
  constructor
  · rw [flat_append, flat_append, flat_group]
    exact hthreaded
  · have hkeys := hb.keys
    rw [map_append, map_append] at hkeys ⊢
    have hothers : (gs₁.map Prod.fst ++ gs₂.map Prod.fst).Nodup := by
      obtain ⟨h₁, h₂, hdisj⟩ := nodup_append.mp hkeys
      obtain ⟨_, h₂, _⟩ := nodup_append.mp h₂
      exact nodup_append.mpr ⟨h₁, h₂, fun a ha b hb => hdisj a ha b (mem_append_right _ hb)⟩
    have hnot : c ∉ gs₁.map Prod.fst ++ gs₂.map Prod.fst := by
      rw [← map_append]
      intro hc
      obtain ⟨g, hg, heq⟩ := mem_map.mp hc
      exact hother g hg heq
    rw [group]
    split
    · exact hothers
    · exact nodup_middle.mpr (nodup_cons.mpr ⟨hnot, hothers⟩)
  · exact hcapacity ▸ hb.capacity
  · intro g hg
    rcases hsplit hg with ⟨rfl, hne⟩ | hg
    · exact hne
    · exact hb.nonempty g (hold hg)
  · intro g hg i hi
    rw [hbucket, hvalue]
    rcases hsplit hg with ⟨rfl, _⟩ | hg
    · exact hin i hi
    · exact hb.inBucket g (hold hg) i hi
  · intro g hg
    rcases hsplit hg with ⟨rfl, _⟩ | hg
    · exact hhead
    · rw [(hkeep (hother g hg)).1]
      exact hb.head g (hold hg)
  · intro g hg
    rcases hsplit hg with ⟨rfl, _⟩ | hg
    · exact htail
    · rw [(hkeep (hother g hg)).2]
      exact hb.tail g (hold hg)
  · intro k hk
    by_cases hkc : k = c
    · have hnil : seg' = [] := by
        by_contra hne
        apply hk
        rw [hkc]
        refine mem_map.mpr ⟨(c, seg'), ?_, rfl⟩
        exact mem_append_right _ (mem_append_left _ (mem_group.mpr ⟨rfl, hne⟩))
      rw [hkc, hhead, htail, hnil]
      exact ⟨rfl, rfl⟩
    rw [(hkeep hkc).1, (hkeep hkc).2]
    apply hb.vacant
    intro hk'
    obtain ⟨g, hg, heq⟩ := mem_map.mp hk'
    rcases hsplit hg with ⟨rfl, _⟩ | hg
    · exact hkc heq.symm
    · refine hk (mem_map.mpr ⟨g, ?_, heq⟩)
      rcases mem_append.mp hg with hg | hg
      · exact mem_append_left _ hg
      · exact mem_append_right _ (mem_append_right _ hg)

theorem findFrom_eq {p n : Option ℕ} {fuel : ℕ} (hchain : Chain m.prev m.next p seg n)
    (hnodup : seg.Nodup) (hne : seg ≠ []) (hfuel : seg.length ≤ fuel) :
    findFrom h m datum seg.getLast? fuel seg.head? =
      some (seg.find? fun i => h.equaler datum (m.value i)) := by
  induction seg generalizing p fuel with
  | nil => exact absurd rfl hne
  | cons a seg ih =>
    obtain ⟨fuel, rfl⟩ : ∃ k, fuel = k + 1 := ⟨fuel - 1, by rw [length_cons] at hfuel; omega⟩
    obtain ⟨hnot, hnodup⟩ := nodup_cons.mp hnodup
    rw [head?_cons, findFrom, find?_cons]
    cases heq : h.equaler datum (m.value a) with
    | true => rfl
    | false =>
      cases seg with
      | nil =>
        rw [if_neg (by simp), getLast?_singleton, if_pos rfl]
        rfl
      | cons b seg =>
        have hlast : some a ≠ (a :: b :: seg).getLast? := by
          rw [getLast?_cons_cons]
          intro hlast
          exact hnot (mem_of_getLast? hlast.symm)
        have hrest := ih hchain.2.2 hnodup (cons_ne_nil b seg)
          (Nat.le_of_succ_le_succ hfuel)
        rw [if_neg (by simp), if_neg hlast, hchain.2.1, getLast?_cons_cons]
        exact hrest

theorem Bucketed.findNode (hb : Bucketed h m t gs) (datum : T) :
    ∃ r, findNode h m t datum = some r ∧
      (∀ i, r = some i → i ∈ flat gs ∧ h.equaler datum (m.value i) = true) ∧
      (r = none → ∀ i ∈ flat gs, h.equaler datum (m.value i) ≠ true) := by
  obtain ⟨gs₁, seg, gs₂, rfl, hhead, htail, _, hother, _⟩ := hb.split (bucket h t datum)
  have hthreaded := hb.threaded
  rw [flat_append, flat_append, flat_group] at hthreaded ⊢
  refine ⟨seg.find? fun i => h.equaler datum (m.value i), ?_, ?_, ?_⟩
  · rw [HashList.findNode, hhead, htail]
    cases seg with
    | nil => rfl
    | cons a seg =>
      have hnodup := (nodup_append.mp (nodup_append.mp hthreaded.nodup).2.1).1
      have hchain := (chain_append.mp (chain_append.mp hthreaded.chain).2).1
      apply findFrom_eq hchain hnodup (cons_ne_nil a seg)
      rw [hthreaded.nodeCount, length_append, length_append]
      omega
  · intro i hi
    refine ⟨?_, by simpa using find?_some hi⟩
    exact mem_append_right _ (mem_append_left _ (mem_of_find?_eq_some hi))
  · intro hnone i hi heq
    -- an equal value would be in the same bucket
    have hsame : bucket h t (m.value i) = bucket h t datum := by
      rw [bucket, bucket, h.agree heq]
    have hnot {g : ℕ × List ℕ} (hg : g ∈ gs₁ ++ gs₂)
        (hmem : g ∈ gs₁ ++ (group (bucket h t datum) seg ++ gs₂)) : i ∉ g.2 := by
      intro hig
      exact hother g hg ((hb.inBucket g hmem i hig).symm.trans hsame)
    rcases mem_append.mp hi with hi | hi
    · obtain ⟨g, hg, hig⟩ := mem_flat.mp hi
      exact hnot (mem_append_left _ hg) (mem_append_left _ hg) hig
    · rcases mem_append.mp hi with hi | hi
      · exact find?_eq_none.mp hnone i hi heq
      · obtain ⟨g, hg, hig⟩ := mem_flat.mp hi
        exact hnot (mem_append_right _ hg)
          (mem_append_right _ (mem_append_right _ hg)) hig

theorem Bucketed.enter (hb : Bucketed h m t gs) (hnew : node ∉ flat gs)
    (hprev : m.prev node = none) (hnext : m.next node = none) (hc : bucket h t (m.value node) = c) :
    ∃ m' t' gs', enter m t (2 * c) (2 * c + 1) node = some (m', t') ∧ Bucketed h m' t' gs' ∧
      Relinked m m' (node :: flat gs) ∧ (flat gs').Perm (node :: flat gs) ∧
      t'.nodes (2 * c) = some node ∧ t'.nodeCapacity = t.nodeCapacity ∧
      t'.threshold = t.threshold ∧ t'.loadFactor = t.loadFactor := by
  obtain ⟨gs₁, seg, gs₂, rfl, hhead, htail, hin, hother, hend⟩ := hb.split c
  have hthreaded := hb.threaded
  simp only [flat_append, flat_group] at hthreaded hnew ⊢
  cases seg with
  | nil =>
    obtain rfl := hend rfl
    obtain ⟨m', l', hrun, hthreaded', hrelinked⟩ :=
      hthreaded.insertNode_none hnew hprev hnext
    have hlist : flat gs₁ ++ ([] ++ flat []) ++ [node] = flat gs₁ ++ ([node] ++ flat []) := by
      simp [flat]
    rw [hlist] at hthreaded'
    refine ⟨m', { t with
        nodes := Function.update (Function.update t.nodes (2 * c) (some node)) (2 * c + 1)
          (some node)
        datumList := l' }, gs₁ ++ (group c [node] ++ []), ?_, ?_, hrelinked, ?_, ?_, rfl, rfl,
      rfl⟩
    · rw [HashList.enter, hhead]
      simp [hrun]
    · refine hb.regroup hother hthreaded' hrelinked.value rfl ?_ ?_ ?_ ?_
      · simpa using hc
      · simp
      · simp
      · intro k hk hk'
        simp [hk, hk']
    · simp only [flat_append, flat_group]
      exact perm_middle
    · simp
  | cons first seg =>
    obtain ⟨m', l', hrun, hthreaded', hrelinked⟩ := hthreaded.insertNode_some hnew
    refine ⟨m', { t with
        nodes := Function.update t.nodes (2 * c) (some node)
        datumList := l' }, gs₁ ++ (group c (node :: first :: seg) ++ gs₂), ?_, ?_, hrelinked, ?_,
      ?_, rfl, rfl, rfl⟩
    · rw [HashList.enter, hhead]
      simp [hrun]
    · refine hb.regroup hother hthreaded' hrelinked.value rfl ?_ ?_ ?_ ?_
      · intro i hi
        rcases mem_cons.mp hi with rfl | hi
        · exact hc
        · exact hin i hi
      · simp
      · simp [htail]
      · intro k hk _
        simp [hk]
    · simp only [flat_append, flat_group]
      exact perm_middle
    · simp

/-! ## Removing a node -/

theorem nodesWithout_spec {head tail : ℕ} (hne : head ≠ tail)
    (hnodup : (seg₁ ++ node :: seg₂).Nodup) (hhead : t.nodes head = (seg₁ ++ node :: seg₂).head?)
    (htail : t.nodes tail = (seg₁ ++ node :: seg₂).getLast?)
    (hprev : seg₁ ≠ [] → m.prev node = seg₁.getLast?)
    (hnext : seg₂ ≠ [] → m.next node = seg₂.head?) :
    nodesWithout m t node head tail head = (seg₁ ++ seg₂).head? ∧
      nodesWithout m t node head tail tail = (seg₁ ++ seg₂).getLast? ∧
      ∀ k, k ≠ head → k ≠ tail → nodesWithout m t node head tail k = t.nodes k := by
  have hnot := (nodup_cons.mp (nodup_middle.mp hnodup)).1
  have hdisj := disjoint_of_nodup_append hnodup
  rw [nodesWithout, hhead, htail]
  cases seg₁ with
  | nil =>
    cases seg₂ with
    | nil =>
      refine ⟨by simp, by simp [hne.symm], fun k hk hk' => by simp [hk, hk']⟩
    | cons b seg₂ =>
      have hlast : some node ≠ (b :: seg₂).getLast? := by
        intro heq
        exact hnot (mem_of_getLast? heq.symm)
      rw [nil_append, nil_append, head?_cons, getLast?_cons_cons,
        if_neg hlast, if_pos rfl, hnext (cons_ne_nil b seg₂)]
      refine ⟨by simp, ?_, fun k hk _ => by simp [hk]⟩
      rw [update_of_ne hne.symm, htail]
      rfl
  | cons a seg₁ =>
    have han : some node ≠ some a := by
      rintro ⟨rfl⟩
      exact hnot (.head _)
    cases seg₂ with
    | nil =>
      rw [cons_append, head?_cons, ← cons_append, getLast?_concat,
        if_neg han.symm, if_neg han, if_pos rfl, hprev (cons_ne_nil a seg₁)]
      refine ⟨?_, by simp, fun k _ hk => by simp [hk]⟩
      rw [update_of_ne hne, hhead]
      rfl
    | cons b seg₂ =>
      have hlast : (a :: seg₁ ++ node :: b :: seg₂).getLast? =
          (a :: seg₁ ++ b :: seg₂).getLast? := by
        rw [getLast?_append_cons, getLast?_append_cons, getLast?_cons_cons]
      have hends : some a ≠ (a :: seg₁ ++ node :: b :: seg₂).getLast? := by
        rw [getLast?_append_cons]
        intro heq
        exact hdisj mem_cons_self (mem_of_getLast? heq.symm)
      have hnl : some node ≠ (a :: seg₁ ++ node :: b :: seg₂).getLast? := by
        rw [hlast, getLast?_append_cons]
        intro heq
        exact hnot (mem_append_right _ (mem_of_getLast? heq.symm))
      rw [cons_append, head?_cons, ← cons_append, if_neg hends, if_neg han, if_neg hnl]
      exact ⟨hhead, htail.trans hlast, fun _ _ _ => rfl⟩

theorem removeAt_eq (m : Heap T) (t : HashList) (np hc : ℕ) :
    removeAt m t np hc = ((t.datumList.yield m np false).1, { t with
      nodes := nodesWithout m t np (2 * hc) (2 * hc + 1)
      datumList := (t.datumList.yield m np false).2 }) := rfl

theorem Bucketed.removeAt (hb : Bucketed h m t gs) (hnode : node ∈ flat gs) :
    ∃ m' t' gs', removeAt m t node (bucket h t (m.value node)) = (m', t') ∧
      Bucketed h m' t' gs' ∧ Relinked m m' (flat gs) ∧ (flat gs).Perm (node :: flat gs') ∧
      t'.nodeCapacity = t.nodeCapacity ∧ t'.threshold = t.threshold ∧
      t'.loadFactor = t.loadFactor := by
  generalize hc : bucket h t (m.value node) = c
  obtain ⟨gs₁, seg, gs₂, rfl, hhead, htail, hin, hother, _⟩ := hb.split c
  have hseg : node ∈ seg := by
    obtain ⟨g, hg, hng⟩ := mem_flat.mp hnode
    have hkey := (hb.inBucket g hg node hng).symm.trans hc
    rcases mem_append.mp hg with hg | hg
    · exact absurd hkey (hother g (mem_append_left _ hg))
    · rcases mem_append.mp hg with hg | hg
      · obtain ⟨rfl, _⟩ := mem_group.mp hg
        exact hng
      · exact absurd hkey (hother g (mem_append_right _ hg))
  obtain ⟨seg₁, seg₂, rfl⟩ := append_of_mem hseg
  have hthreaded := hb.threaded
  have hflat : flat (gs₁ ++ (group c (seg₁ ++ node :: seg₂) ++ gs₂)) =
      flat gs₁ ++ seg₁ ++ node :: (seg₂ ++ flat gs₂) := by
    simp
  rw [hflat] at hthreaded ⊢
  obtain ⟨htaken, hrelinked⟩ := hthreaded.yield_false
  have hnodup : (seg₁ ++ node :: seg₂).Nodup := by
    have hall := hb.threaded.nodup
    rw [flat_append, flat_append, flat_group] at hall
    exact (nodup_append.mp (nodup_append.mp hall).2.1).1
  have hprev (hne : seg₁ ≠ []) : m.prev node = seg₁.getLast? := by
    rw [hthreaded.prev_eq, last_append, last, getLast?_eq_some_getLast hne]
    rfl
  have hnext (hne : seg₂ ≠ []) : m.next node = seg₂.head? := by
    rw [hthreaded.next_eq, first_append, first, head?_eq_some_head hne]
    rfl
  obtain ⟨hhead', htail', hnodes⟩ :=
    nodesWithout_spec (Nat.ne_of_lt (lt_add_one (2 * c))) hnodup hhead htail hprev hnext
  refine ⟨_, _, gs₁ ++ (group c (seg₁ ++ seg₂) ++ gs₂), removeAt_eq m t node c, ?_, hrelinked, ?_,
    rfl, rfl, rfl⟩
  · refine hb.regroup hother ?_ hrelinked.value rfl ?_ hhead' htail' hnodes
    · rw [append_assoc, ← append_assoc (flat gs₁)]
      exact htaken
    · intro i hi
      apply hin
      rcases mem_append.mp hi with hi | hi
      · exact mem_append_left _ hi
      · exact mem_append_right _ (.tail _ hi)
  · simp only [flat_append, flat_group]
    rw [append_assoc seg₁, ← append_assoc (flat gs₁)]
    exact perm_middle

open KeyedSet

variable {T : Type} {h : Hashing T} {m m' : Heap T} {t temp : HashList} {l : DatumList} {c : ℕ}
  {datum : T} {gs : List (ℕ × List ℕ)} {rest : List ℕ}

theorem Bucketed.congr (hb : Bucketed h m t gs)
    (hvalue : ∀ i ∈ flat gs, h.hasher (m'.value i) = h.hasher (m.value i))
    (hprev : ∀ i ∈ flat gs, m'.prev i = m.prev i) (hnext : ∀ i ∈ flat gs, m'.next i = m.next i) :
    Bucketed h m' t gs :=
  { hb with
    threaded := hb.threaded.congr hprev hnext
    inBucket := fun g hg i hi => by
      rw [bucket, hvalue i (mem_flat.mpr ⟨g, hg, hi⟩)]
      exact hb.inBucket g hg i hi }

theorem rehashFrom_eq (hl : Threaded m l rest) (hb : Bucketed h m temp gs)
    (hdisj : ∀ i ∈ rest, i ∉ flat gs) {n : ℕ} (hn : rest.length ≤ n) :
    ∃ m' t' gs', rehashFrom h n m l temp (first rest none) = some (m', t') ∧
      Bucketed h m' t' gs' ∧ Relinked m m' (rest ++ flat gs) ∧
      (flat gs').Perm (rest ++ flat gs) ∧ t'.nodeCapacity = temp.nodeCapacity ∧
      t'.threshold = temp.threshold ∧ t'.loadFactor = temp.loadFactor := by
  induction rest generalizing m l temp gs n with
  | nil =>
    refine ⟨m, temp, gs, ?_, hb, ⟨rfl, rfl, fun _ _ => rfl, fun _ _ => rfl⟩, .refl _, rfl, rfl, rfl⟩
    cases n with
    | zero => rfl
    | succ n => rfl
  | cons p rest ih =>
    obtain ⟨n, rfl⟩ : ∃ k, n = k + 1 := ⟨n - 1, by rw [length_cons] at hn; omega⟩
    have hl' : Threaded m l ([] ++ p :: rest) := hl
    obtain ⟨htaken, hrelinked, hprev, hnext⟩ := hl'.yield_true
    have hp : p ∉ flat gs := hdisj p (.head _)
    have hout {i : ℕ} (hi : i ∈ flat gs) : i ∉ [] ++ p :: rest := fun hrest => hdisj i hrest hi
    have hb' := hb.congr (fun i _ => by rw [hrelinked.value])
      (fun i hi => hrelinked.prev i (hout hi)) fun i hi => hrelinked.next i (hout hi)
    obtain ⟨m₂, temp₂, gs₂, henter, hb₂, hrelinked₂, hperm₂, -, hcapa, hthreshold, hload⟩ :=
      hb'.enter hp hprev hnext rfl
    obtain ⟨hnot, -⟩ := nodup_cons.mp hl.nodup
    have hrest : ∀ i ∈ rest, i ∉ p :: flat gs := by
      intro i hi hmem
      rcases mem_cons.mp hmem with rfl | hmem
      · exact hnot hi
      · exact hdisj i (.tail _ hi) hmem
    have hl₂ : Threaded m₂ _ rest := htaken.congr (fun i hi => hrelinked₂.prev i (hrest i hi))
      fun i hi => hrelinked₂.next i (hrest i hi)
    have hdisj₂ : ∀ i ∈ rest, i ∉ flat gs₂ := fun i hi hmem => hrest i hi (hperm₂.mem_iff.mp hmem)
    obtain ⟨m₃, t₃, gs₃, hrun, hb₃, hrelinked₃, hperm₃, hcapa₃, hthreshold₃, hload₃⟩ :=
      ih hl₂ hb₂ hdisj₂ (Nat.le_of_succ_le_succ hn)
    refine ⟨m₃, t₃, gs₃, ?_, hb₃, ?_, ?_, hcapa₃.trans hcapa, hthreshold₃.trans hthreshold,
      hload₃.trans hload⟩
    · rw [first_cons, rehashFrom, hl'.next_eq]
      simp only [henter]
      exact hrun
    · refine ((hrelinked.mono ?_).trans (hrelinked₂.mono ?_)).trans (hrelinked₃.mono ?_)
      · exact fun i hi => mem_append_left _ hi
      · intro i hi
        rcases mem_cons.mp hi with rfl | hi
        · exact mem_append_left _ (.head _)
        · exact mem_append_right _ hi
      · intro i hi
        rcases mem_append.mp hi with hi | hi
        · exact mem_append_left _ (.tail _ hi)
        · rcases mem_cons.mp (hperm₂.mem_iff.mp hi) with rfl | hi
          · exact mem_append_left _ (.head _)
          · exact mem_append_right _ hi
    · exact hperm₃.trans ((hperm₂.append_left rest).trans perm_middle)

theorem Bucketed.rehash (hb : Bucketed h m t gs) (resizer : ℕ → ℕ) :
    ∃ m' t' gs', rehash h resizer m t = some (m', t') ∧ Bucketed h m' t' gs' ∧
      Relinked m m' (flat gs) ∧ (flat gs').Perm (flat gs) ∧ t'.nodeCapacity = defaultCapacity ∧
      t'.threshold = (initList defaultCapacity t.loadFactor).threshold ∧
      t'.loadFactor = (initList defaultCapacity t.loadFactor).loadFactor := by
  have hempty : Bucketed h m (ofCapacity (resizer t.nodeCapacity) t.loadFactor) [] :=
    bucketed_initList _ _
  obtain ⟨m', t', gs', hrun, hb', hrelinked, hperm, hcapa, hthreshold, hload⟩ :=
    rehashFrom_eq hb.threaded hempty (fun _ _ => not_mem_nil) hb.threaded.nodeCount.ge
  have hnil : flat gs ++ flat [] = flat gs := append_nil _
  rw [hnil] at hrelinked hperm
  refine ⟨m', t', gs', ?_, hb', hrelinked, hperm, hcapa, hthreshold, hload⟩
  rw [HashList.rehash, hb.threaded.headNode]
  exact hrun

/-! ## Distinct values -/

structure Listed (h : Hashing T) (m : Heap T) (t : HashList) (gs : List (ℕ × List ℕ)) : Prop
    extends Bucketed h m t gs where
  distinct : ∀ i ∈ flat gs, ∀ j ∈ flat gs, h.equaler (m.value i) (m.value j) = true → i = j
  old : ∀ i ∈ flat gs, i < m.fresh

def values (m : Heap T) (as : List ℕ) : Set T := {d | ∃ i ∈ as, m.value i = d}

theorem values_perm {as bs : List ℕ} (hperm : as.Perm bs) : values m as = values m bs := by
  ext d
  constructor
  · rintro ⟨i, hi, rfl⟩
    exact ⟨i, hperm.mem_iff.mp hi, rfl⟩
  · rintro ⟨i, hi, rfl⟩
    exact ⟨i, hperm.mem_iff.mpr hi, rfl⟩

theorem Listed.findNode_cases (hl : Listed h m t gs) (datum : T) :
    (∃ i, findNode h m t datum = some (some i) ∧ i ∈ flat gs ∧
      h.equaler datum (m.value i) = true ∧ Present h.same (values m (flat gs)) datum) ∨
    findNode h m t datum = some none ∧ ¬Present h.same (values m (flat gs)) datum ∧
      ∀ i ∈ flat gs, h.equaler datum (m.value i) ≠ true := by
  obtain ⟨r, hrun, hsome, hnone⟩ := hl.toBucketed.findNode datum
  cases r with
  | some i =>
    obtain ⟨hi, heq⟩ := hsome i rfl
    exact .inl ⟨i, hrun, hi, heq, m.value i, ⟨i, hi, rfl⟩, heq⟩
  | none =>
    refine .inr ⟨hrun, ?_, hnone rfl⟩
    rintro ⟨_, ⟨i, hi, rfl⟩, heq⟩
    exact hnone rfl i hi heq

theorem Listed.overwrite (hl : Listed h m t gs) {i : ℕ} (hi : i ∈ flat gs)
    (heq : h.equaler datum (m.value i) = true) :
    Listed h { m with value := Function.update m.value i datum } t gs ∧
      values { m with value := Function.update m.value i datum } (flat gs) =
        put h.same (values m (flat gs)) datum := by
  have hsame (j : ℕ) : h.equaler (Function.update m.value i datum j) (m.value j) = true := by
    by_cases hj : j = i
    · rw [hj, update_self]
      exact heq
    · rw [update_of_ne hj]
      exact h.equaler_self _
  constructor
  · refine ⟨hl.toBucketed.congr (fun j _ => h.agree (hsame j)) (fun _ _ => rfl) fun _ _ => rfl,
      fun j hj k hk hjk => ?_, hl.old⟩
    apply hl.distinct j hj k hk
    exact h.equaler_trans (h.equaler_symm (hsame j)) (h.equaler_trans hjk (hsame k))
  · ext d
    rw [put, Set.mem_insert_iff]
    constructor
    · rintro ⟨j, hj, rfl⟩
      by_cases hji : j = i
      · rw [hji]
        exact .inl (update_self ..)
      · refine .inr ⟨⟨j, hj, (update_of_ne hji ..).symm⟩, fun hdj => hji ?_⟩
        apply hl.distinct j hj i hi
        exact h.equaler_symm (h.equaler_trans (h.equaler_symm heq)
          (h.equaler_trans hdj (hsame j)))
    · rintro (rfl | ⟨⟨j, hj, rfl⟩, hne⟩)
      · exact ⟨i, hi, update_self ..⟩
      · refine ⟨j, hj, update_of_ne ?_ ..⟩
        rintro rfl
        exact hne heq

theorem Listed.newcomer (hl : Listed h m t gs)
    (habsent : ∀ i ∈ flat gs, h.equaler datum (m.value i) ≠ true) :
    ∃ m' t' gs', HashList.enter (newNode m datum).1 t (2 * bucket h t datum)
        (2 * bucket h t datum + 1) (newNode m datum).2 = some (m', t') ∧ Listed h m' t' gs' ∧
      values m' (flat gs') = insert datum (values m (flat gs)) ∧
      (flat gs').length = (flat gs).length + 1 ∧ m'.value (newNode m datum).2 = datum ∧
      t'.nodes (2 * bucket h t datum) = some (newNode m datum).2 ∧
      t'.nodeCapacity = t.nodeCapacity ∧ t'.threshold = t.threshold ∧
      t'.loadFactor = t.loadFactor := by
  have hfresh : m.fresh ∉ flat gs := fun hmem => lt_irrefl _ (hl.old _ hmem)
  have hne {i : ℕ} (hi : i ∈ flat gs) : i ≠ m.fresh := fun heq => hfresh (heq ▸ hi)
  have hvalue {i : ℕ} (hi : i ∈ flat gs) : (newNode m datum).1.value i = m.value i :=
    update_of_ne (hne hi) ..
  have hself : (newNode m datum).1.value m.fresh = datum := update_self ..
  have hb : Bucketed h (newNode m datum).1 t gs :=
    hl.toBucketed.congr (fun i hi => by rw [hvalue hi])
      (fun i hi => update_of_ne (hne hi) ..) fun i hi => update_of_ne (hne hi) ..
  have hbucket : bucket h t ((newNode m datum).1.value m.fresh) = bucket h t datum := by
    rw [hself]
  obtain ⟨m', t', gs', hrun, hb', hrelinked, hperm, hhead, hkept⟩ :=
    hb.enter hfresh (update_self ..) (update_self ..) hbucket
  have hcases {i : ℕ} (hi : i ∈ flat gs') : i = m.fresh ∧ m'.value i = datum ∨
      i ∈ flat gs ∧ m'.value i = m.value i := by
    rw [hrelinked.value]
    rcases mem_cons.mp (hperm.mem_iff.mp hi) with rfl | hi
    · exact .inl ⟨rfl, hself⟩
    · exact .inr ⟨hi, hvalue hi⟩
  refine ⟨m', t', gs', hrun, ⟨hb', fun i hi j hj hij => ?_, fun i hi => ?_⟩, ?_, ?_, ?_, hhead,
    hkept⟩
  · obtain ⟨hi, hvi⟩ | ⟨hi, hvi⟩ := hcases hi <;> obtain ⟨hj, hvj⟩ | ⟨hj, hvj⟩ := hcases hj <;>
      rw [hvi, hvj] at hij
    · rw [hi, hj]
    · exact absurd hij (habsent j hj)
    · exact absurd (h.equaler_symm hij) (habsent i hi)
    · exact hl.distinct i hi j hj hij
  · have hsucc : m'.fresh = m.fresh + 1 := hrelinked.fresh
    obtain ⟨rfl, _⟩ | ⟨hi, _⟩ := hcases hi
    · omega
    · have hlt := hl.old i hi
      omega
  · ext d
    rw [Set.mem_insert_iff]
    constructor
    · rintro ⟨i, hi, rfl⟩
      obtain ⟨_, hvi⟩ | ⟨hi, hvi⟩ := hcases hi
      · exact .inl hvi
      · exact .inr ⟨i, hi, hvi.symm⟩
    · rintro (rfl | ⟨i, hi, rfl⟩)
      · refine ⟨m.fresh, hperm.mem_iff.mpr (.head _), ?_⟩
        rw [hrelinked.value, hself]
      · refine ⟨i, hperm.mem_iff.mpr (.tail _ hi), ?_⟩
        rw [hrelinked.value, hvalue hi]
  · rw [hperm.length_eq, length_cons]
  · rw [hrelinked.value]
    exact hself

theorem Listed.rehashed (hl : Listed h m t gs) (resizer : ℕ → ℕ) :
    ∃ m' t' gs', rehash h resizer m t = some (m', t') ∧ Listed h m' t' gs' ∧
      m'.value = m.value ∧ (flat gs').Perm (flat gs) ∧ t'.nodeCapacity = defaultCapacity ∧
      t'.threshold = (initList defaultCapacity t.loadFactor).threshold ∧
      t'.loadFactor = (initList defaultCapacity t.loadFactor).loadFactor := by
  obtain ⟨m', t', gs', hrun, hb, hrelinked, hperm, hkept⟩ := hl.toBucketed.rehash resizer
  refine ⟨m', t', gs', hrun, ⟨hb, fun i hi j hj hij => ?_, fun i hi => ?_⟩, hrelinked.value, hperm,
    hkept⟩
  · rw [hrelinked.value] at hij
    exact hl.distinct i (hperm.mem_iff.mp hi) j (hperm.mem_iff.mp hj) hij
  · rw [hrelinked.fresh]
    exact hl.old i (hperm.mem_iff.mp hi)

theorem Listed.removed (hl : Listed h m t gs) {i : ℕ} (hi : i ∈ flat gs)
    (heq : h.equaler datum (m.value i) = true) :
    ∃ m' t' gs', removeAt m t i (bucket h t (m.value i)) = (m', t') ∧ Listed h m' t' gs' ∧
      values m' (flat gs') = erase h.same (values m (flat gs)) datum ∧
      (flat gs').length ≤ (flat gs).length ∧
      t'.nodeCapacity = t.nodeCapacity ∧ t'.threshold = t.threshold ∧
      t'.loadFactor = t.loadFactor := by
  obtain ⟨m', t', gs', hrun, hb, hrelinked, hperm, hkept⟩ := hl.toBucketed.removeAt hi
  have hsub {j : ℕ} (hj : j ∈ flat gs') : j ∈ flat gs :=
    hperm.mem_iff.mpr (.tail _ hj)
  have hnot : i ∉ flat gs' := (nodup_cons.mp (hperm.nodup_iff.mp hl.threaded.nodup)).1
  refine ⟨m', t', gs', hrun, ⟨hb, fun j hj k hk hjk => ?_, fun j hj => ?_⟩, ?_, ?_, hkept⟩
  · rw [hrelinked.value] at hjk
    exact hl.distinct j (hsub hj) k (hsub hk) hjk
  · rw [hrelinked.fresh]
    exact hl.old j (hsub hj)
  · ext d
    constructor
    · rintro ⟨j, hj, rfl⟩
      rw [hrelinked.value]
      refine ⟨⟨j, hsub hj, rfl⟩, fun hdj => hnot ?_⟩
      rwa [hl.distinct i hi j (hsub hj) (h.equaler_trans (h.equaler_symm heq) hdj)]
    · rintro ⟨⟨j, hj, rfl⟩, hne⟩
      have hji : j ≠ i := by
        rintro rfl
        exact hne heq
      refine ⟨j, (mem_cons.mp (hperm.mem_iff.mp hj)).resolve_left hji, ?_⟩
      rw [hrelinked.value]
  · rw [hperm.length_eq, length_cons]
    exact Nat.le_succ _

end Qse.HashList
