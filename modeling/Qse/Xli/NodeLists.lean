import Qse.Support.Chains
import Qse.Xli.Ownership

/-!
# Lists in memory

A list whose atoms are linked both ways stays one when an atom is inserted and when one is taken
out.
-/

open List

namespace Qse.Xli

open TwoWayChain

namespace Heap

def prevOf (h : Heap) (a : Addr) : Option Addr :=
  match h.mem a with
  | some (.atom node) => node.prev
  | _ => none

def nextOf (h : Heap) (a : Addr) : Option Addr :=
  match h.mem a with
  | some (.atom node) => node.next
  | _ => none

variable {h h' : Heap} {a b l : Addr}

@[simp] theorem put_mem (cell : Cell) :
  (h.put a cell).mem b = if b = a then some cell else h.mem b :=
  Function.update_apply ..

@[simp] theorem free_mem : (h.free a).mem b = if b = a then none else h.mem b :=
  Function.update_apply ..

end Heap

/-- The list is one of the atoms, in order: its head and tail are the first and the last one, they
are linked both ways, and all of them are in the list. -/
structure ListAt (h : Heap) (l : Addr) (items : List Entry) : Prop where
  mem : h.mem l = some (.list ⟨first (addrs items) none, last none (addrs items)⟩)
  chain : Chain h.prevOf h.nextOf none (addrs items) none
  atoms : ∀ e ∈ items, ∃ prev next, h.mem e.1 = some (.atom ⟨prev, next, some l, e.2⟩)

variable {h h' : Heap} {a b l : Addr} {items xs ys : List Entry} {body : Body}

theorem ListAt.atom_ne (hlist : ListAt h l items) (ha : a ∈ addrs items) : a ≠ l := by
  obtain ⟨e, he, rfl⟩ := mem_map.1 ha
  obtain ⟨prev, next, hmem⟩ := hlist.atoms e he
  intro heq
  rw [heq, hlist.mem] at hmem
  cases hmem

theorem ListAt.congr (hlist : ListAt h l items) (hl : h'.mem l = h.mem l)
    (hatoms : ∀ a ∈ addrs items, h'.mem a = h.mem a) : ListAt h' l items where
  mem := hl.trans hlist.mem
  chain := hlist.chain.congr (fun a ha => by rw [Heap.prevOf, Heap.prevOf, hatoms a ha])
    fun a ha => by rw [Heap.nextOf, Heap.nextOf, hatoms a ha]
  atoms e he := by
    obtain ⟨prev, next, hmem⟩ := hlist.atoms e he
    exact ⟨prev, next, (hatoms e.1 (mem_map_of_mem he)).trans hmem⟩

theorem ListAt.splice {ms ms' : List Entry} (hlist : ListAt h l (xs ++ (ms ++ ys)))
    (hnodup : (addrs (xs ++ ys)).Nodup)
    (hl : h'.mem l = some (.list ⟨first (addrs (xs ++ (ms' ++ ys))) none,
      last none (addrs (xs ++ (ms' ++ ys)))⟩))
    (hmid : Chain h'.prevOf h'.nextOf (last none (addrs xs)) (addrs ms') (first (addrs ys) none))
    (hnew : ∀ e ∈ ms', ∃ prev next, h'.mem e.1 = some (.atom ⟨prev, next, some l, e.2⟩))
    (hxs : ∀ e ∈ xs, ∀ prev next, h.mem e.1 = some (.atom ⟨prev, next, some l, e.2⟩) →
      h'.mem e.1 = some (.atom ⟨prev,
        if last none (addrs xs) = some e.1 then first (addrs (ms' ++ ys)) none else next,
        some l, e.2⟩))
    (hys : ∀ e ∈ ys, ∀ prev next, h.mem e.1 = some (.atom ⟨prev, next, some l, e.2⟩) →
      h'.mem e.1 = some (.atom ⟨
        if first (addrs ys) none = some e.1 then last none (addrs (xs ++ ms')) else prev, next,
        some l, e.2⟩)) : ListAt h' l (xs ++ (ms' ++ ys)) := by
  rw [addrs_append] at hnodup
  obtain ⟨hnodupx, hnodupy, -⟩ := nodup_append.1 hnodup
  have hchain := hlist.chain
  simp only [addrs_append] at hchain hl hxs hys
  have hatomx : ∀ e ∈ xs, ∃ prev next, h.mem e.1 = some (.atom ⟨prev, next, some l, e.2⟩) :=
    fun e he => hlist.atoms e (mem_append_left _ he)
  have hatomy : ∀ e ∈ ys, ∃ prev next, h.mem e.1 = some (.atom ⟨prev, next, some l, e.2⟩) :=
    fun e he => hlist.atoms e (mem_append_right _ (mem_append_right _ he))
  refine ⟨by simpa only [addrs_append] using hl, ?_, ?_⟩
  · rw [addrs_append, addrs_append]
    refine hchain.splice hnodupx hnodupy hmid ?_ ?_ ?_ ?_
    · intro c hc
      obtain ⟨e, he, rfl⟩ := mem_map.1 hc
      obtain ⟨prev, next, hmem⟩ := hatomx e he
      simp only [Heap.prevOf, hmem, hxs e he prev next hmem]
    · intro c hc
      obtain ⟨e, he, rfl⟩ := mem_map.1 hc
      obtain ⟨prev, next, hmem⟩ := hatomx e he
      simp only [Heap.nextOf, hmem, hxs e he prev next hmem]
    · intro c hc
      obtain ⟨e, he, rfl⟩ := mem_map.1 hc
      obtain ⟨prev, next, hmem⟩ := hatomy e he
      simp only [Heap.prevOf, hmem, hys e he prev next hmem]
    · intro c hc
      obtain ⟨e, he, rfl⟩ := mem_map.1 hc
      obtain ⟨prev, next, hmem⟩ := hatomy e he
      simp only [Heap.nextOf, hmem, hys e he prev next hmem]
  · intro e he
    rcases mem_append.1 he with he | he
    · obtain ⟨prev, next, hmem⟩ := hatomx e he
      exact ⟨_, _, hxs e he prev next hmem⟩
    · rcases mem_append.1 he with he | he
      · exact hnew e he
      · obtain ⟨prev, next, hmem⟩ := hatomy e he
        exact ⟨_, _, hys e he prev next hmem⟩

theorem ListAt.node (hlist : ListAt h l items) (ha : a ∈ addrs items) :
    ∃ prev next body, h.mem a = some (.atom ⟨prev, next, some l, body⟩) := by
  obtain ⟨e, he, rfl⟩ := mem_map.1 ha
  obtain ⟨prev, next, hmem⟩ := hlist.atoms e he
  exact ⟨prev, next, e.2, hmem⟩

theorem ListAt.insert (hlist : ListAt h l (xs ++ ys)) (hnodup : (addrs (xs ++ ys)).Nodup)
    (hl : h'.mem l = some (.list ⟨first (addrs (xs ++ (a, body) :: ys)) none,
      last none (addrs (xs ++ (a, body) :: ys))⟩))
    (ha : h'.mem a = some (.atom ⟨last none (addrs xs), first (addrs ys) none, some l, body⟩))
    (hothers : ∀ b prev next body', b ∈ addrs (xs ++ ys) →
      h.mem b = some (.atom ⟨prev, next, some l, body'⟩) →
      h'.mem b = some (.atom ⟨if first (addrs ys) none = some b then some a else prev,
        if last none (addrs xs) = some b then some a else next, some l, body'⟩)) :
    ListAt h' l (xs ++ (a, body) :: ys) := by
  have hdisjoint := (nodup_append.1 (by rwa [addrs_append] at hnodup)).2.2
  have hlist : ListAt h l (xs ++ ([] ++ ys)) := hlist
  have hl : h'.mem l = some (.list ⟨first (addrs (xs ++ ([(a, body)] ++ ys))) none,
      last none (addrs (xs ++ ([(a, body)] ++ ys)))⟩) := hl
  refine hlist.splice hnodup hl ?_ ?_ ?_ ?_
  · refine ⟨?_, ?_, trivial⟩
    · rw [Heap.prevOf, ha]
    · rw [Heap.nextOf, ha]
      rfl
  · intro e he
    obtain rfl := mem_singleton.1 he
    exact ⟨_, _, ha⟩
  · intro e he prev next hmem
    have hin := mem_map_of_mem (f := Prod.fst) he
    rw [hothers e.1 prev next e.2 (by rw [addrs_append]; exact mem_append_left _ hin) hmem,
      if_neg fun hfirst => hdisjoint _ hin _ (first_mem hfirst) rfl]
    rfl
  · intro e he prev next hmem
    have hin := mem_map_of_mem (f := Prod.fst) he
    rw [hothers e.1 prev next e.2 (by rw [addrs_append]; exact mem_append_right _ hin) hmem]
    have hnot : ¬last none (addrs xs) = some e.1 :=
      fun hlast => hdisjoint _ (last_mem hlast) _ hin rfl
    rw [if_neg hnot, addrs_append, addrs_cons, addrs_nil, last_concat]

theorem insertAtom_spec (hlist : ListAt h l (xs ++ ys)) (hnodup : (addrs (xs ++ ys)).Nodup)
    (ha : h.mem a = some (.atom ⟨none, none, none, body⟩)) (hfresh : a ∉ addrs (xs ++ ys))
    {parent : Option Addr} (hparent : parent.getD root = l) :
    ∃ h', h.insertAtom parent (first (addrs ys) none) a = .ok h' ∧
      ListAt h' l (xs ++ (a, body) :: ys) ∧
      (∀ b, b ≠ a → b ≠ l → b ∉ addrs (xs ++ ys) → h'.mem b = h.mem b) ∧
      h'.calls = h.calls := by
  have hal : a ≠ l := by
    rintro rfl
    rw [hlist.mem] at ha
    cases ha
  have hne : ∀ b ∈ addrs (xs ++ ys), b ≠ a ∧ b ≠ l := fun b hb => ⟨by
    rintro rfl
    exact hfresh hb, hlist.atom_ne hb⟩
  have hget : h.getList l = .ok ⟨first (addrs (xs ++ ys)) none, last none (addrs (xs ++ ys))⟩ := by
    rw [Heap.getList, hlist.mem]
  simp only [Heap.insertAtom, hparent, hget, crash_bind]
  cases hys : first (addrs ys) none with
  | none =>
    obtain rfl : ys = [] := by simpa [addrs] using hys
    cases htail : last none (addrs xs) with
    | none =>
      obtain rfl : xs = [] := by simpa [addrs] using htail
      have hl := hlist.mem
      refine ⟨_, by
        simp only [Heap.modNode, Heap.modList, Heap.getNode, Heap.getList, ha, hl, crash_bind,
          Heap.put_mem, if_true, if_neg hal, if_neg hal.symm, addrs_nil, append_nil,
          first_nil, last_nil]
        rfl, hlist.insert hnodup ?_ ?_ ?_, ?_, ?_⟩
      · simp [hal.symm, last_cons]
      · simp
      · rintro b prev next body' ⟨⟩
      · intro b hba hbl _
        simp [hba, hbl]
      · rfl
    | some tail =>
      have hin : tail ∈ addrs (xs ++ []) := by
        rw [append_nil]
        exact last_mem htail
      obtain ⟨tprev, tnext, tbody, ht⟩ := hlist.node hin
      obtain ⟨hta, htl⟩ := hne tail hin
      have hl := hlist.mem
      rw [append_nil, htail] at hl
      refine ⟨_, by
        simp only [Heap.modNode, Heap.modList, Heap.getNode, Heap.getList, ha, hl, ht, htail,
          crash_bind, Heap.put_mem, if_true, if_neg hal, if_neg hal.symm, if_neg hta,
          if_neg hta.symm, if_neg htl.symm, append_nil]
        rfl, hlist.insert hnodup ?_ ?_ ?_, ?_, ?_⟩
      · have hfirst : first (addrs xs) (some a) = (first (addrs xs) none).or (some a) :=
          first_eq_or
        rw [addrs_append, addrs_cons, addrs_nil, last_concat, first_append, first_cons, hfirst]
        simp [hal.symm]
      · simp [htail]
      · intro b prev next body' hb hmem
        obtain ⟨hba, hbl⟩ := hne b hb
        by_cases hbt : b = tail
        · subst hbt
          obtain ⟨rfl, rfl, rfl⟩ : tprev = prev ∧ tnext = next ∧ tbody = body' := by
            simpa using ht.symm.trans hmem
          simp [hba, hbl, htail]
        · have htb : ¬tail = b := fun heq => hbt heq.symm
          simp [hba, hbl, hbt, htb, htail, hmem]
      · intro b hba hbl hb
        have hbt : b ≠ tail := by
          rintro rfl
          exact hb hin
        simp [hba, hbl, hbt]
      · rfl
  | some peer =>
    obtain ⟨⟨_, pbody⟩, ys, rfl⟩ : ∃ y ys', ys = y :: ys' := by
      cases ys with
      | nil => cases hys
      | cons y ys => exact ⟨y, ys, rfl⟩
    obtain rfl : _ = peer := Option.some.inj hys
    rename_i peer
    have hpeer : peer ∈ addrs (xs ++ (peer, pbody) :: ys) := by simp
    obtain ⟨pprev, pnext, hp⟩ := hlist.atoms (peer, pbody) (by simp)
    have hpprev : pprev = last none (addrs xs) := by
      have hchain := hlist.chain
      rw [addrs_append] at hchain
      have hprev := (chain_append.1 hchain).2.1
      rw [Heap.prevOf, hp] at hprev
      exact hprev
    subst hpprev
    obtain ⟨hpa, hpl⟩ := hne peer hpeer
    obtain ⟨head, hhead⟩ : ∃ head, first (addrs (xs ++ (peer, pbody) :: ys)) none = some head :=
      Option.ne_none_iff_exists'.1 (by simp)
    obtain ⟨tail, htail⟩ : ∃ tail, last none (addrs (xs ++ (peer, pbody) :: ys)) = some tail :=
      Option.ne_none_iff_exists'.1 (by simp)
    have hl := hlist.mem
    rw [hhead, htail] at hl
    cases hlast : last none (addrs xs) with
    | none =>
      obtain rfl : xs = [] := by simpa [addrs] using hlast
      obtain rfl : peer = head := Option.some.inj hhead
      refine ⟨_, by
        simp only [Heap.modNode, Heap.modList, Heap.getNode, Heap.getList, ha, hl, hp, hhead,
          htail, hlast, crash_bind, Heap.put_mem, if_true, if_neg hal, if_neg hal.symm,
          if_neg hpa, if_neg hpa.symm, if_neg hpl, reduceCtorEq, or_self, if_false]
        rfl, hlist.insert hnodup ?_ ?_ ?_, ?_, ?_⟩
      · rw [← htail]
        simp [hal.symm, hpl.symm, last_cons]
      · simp
      · intro b prev next body' hb hmem
        obtain ⟨hba, hbl⟩ := hne b hb
        by_cases hbp : b = peer
        · subst hbp
          obtain ⟨rfl, rfl, rfl⟩ : none = prev ∧ pnext = next ∧ pbody = body' := by
            simpa using hp.symm.trans hmem
          simp [hba]
        · have hpb : ¬peer = b := fun heq => hbp heq.symm
          simp [hba, hbl, hbp, hpb, hmem]
      · intro b hba hbl hb
        have hbp : b ≠ peer := by
          rintro rfl
          exact hb hpeer
        simp [hba, hbl, hbp]
      · rfl
    | some q =>
      have hqx := last_mem hlast
      have hq : q ∈ addrs (xs ++ (peer, pbody) :: ys) := by
        rw [addrs_append]
        exact mem_append_left _ hqx
      obtain ⟨qprev, qnext, qbody, hqmem⟩ := hlist.node hq
      obtain ⟨hqa, hql⟩ := hne q hq
      have hqp : q ≠ peer := by
        rintro rfl
        rw [addrs_append] at hnodup
        exact (nodup_append.1 hnodup).2.2 q hqx q (by simp) rfl
      rw [hlast] at hp
      refine ⟨_, by
        simp only [Heap.modNode, Heap.modList, Heap.getNode, Heap.getList, ha, hl, hp, hqmem,
          hhead, htail, crash_bind, Heap.put_mem, if_true, if_neg hal, if_neg hal.symm,
          if_neg hpa, if_neg hpa.symm, if_neg hqa, if_neg hqa.symm, if_neg hqp.symm,
          reduceCtorEq, or_self, if_false]
        rfl, hlist.insert hnodup ?_ ?_ ?_, ?_, ?_⟩
      · have hfirst : first (addrs (xs ++ (a, body) :: (peer, pbody) :: ys)) none = some head := by
          obtain ⟨x, hx⟩ : ∃ x, first (addrs xs) none = some x := by
            refine Option.ne_none_iff_exists'.1 fun hnone => ?_
            rw [first_eq_none.1 hnone] at hlast
            cases hlast
          rw [addrs_append, first_append, first_eq_or, hx] at hhead ⊢
          exact hhead
        have hsame : last none (addrs (xs ++ (a, body) :: (peer, pbody) :: ys)) = some tail := by
          rw [addrs_append, last_append, addrs_cons, last_cons] at htail
          rw [addrs_append, last_append, addrs_cons, addrs_cons, last_cons, last_cons]
          exact htail
        rw [hfirst, hsame]
        simp [hal.symm, hpl.symm, hql.symm, hl]
      · simp [hlast]
      · intro b prev next body' hb hmem
        obtain ⟨hba, hbl⟩ := hne b hb
        by_cases hbp : b = peer
        · subst hbp
          obtain ⟨rfl, rfl, rfl⟩ : some q = prev ∧ pnext = next ∧ pbody = body' := by
            simpa using hp.symm.trans hmem
          simp [hba, hlast, hqp]
        · have hpb : ¬peer = b := fun heq => hbp heq.symm
          by_cases hbq : b = q
          · subst hbq
            obtain ⟨rfl, rfl, rfl⟩ : qprev = prev ∧ qnext = next ∧ qbody = body' := by
              simpa using hqmem.symm.trans hmem
            simp [hba, hbp, hpb, hlast]
          · have hqb : ¬q = b := fun heq => hbq heq.symm
            simp [hba, hbp, hpb, hbq, hqb, hlast, hmem]
      · intro b hba hbl hb
        have hbp : b ≠ peer := by
          rintro rfl
          exact hb hpeer
        have hbq : b ≠ q := by
          rintro rfl
          exact hb hq
        simp [hba, hbp, hbq]
      · rfl

theorem ListAt.remove (hlist : ListAt h l (xs ++ (a, body) :: ys))
    (hnodup : (addrs (xs ++ ys)).Nodup)
    (hl : h'.mem l = some (.list ⟨first (addrs (xs ++ ys)) none, last none (addrs (xs ++ ys))⟩))
    (hothers : ∀ b prev next body', b ∈ addrs (xs ++ ys) →
      h.mem b = some (.atom ⟨prev, next, some l, body'⟩) →
      h'.mem b = some (.atom ⟨if first (addrs ys) none = some b then last none (addrs xs) else prev,
        if last none (addrs xs) = some b then first (addrs ys) none else next, some l, body'⟩)) :
    ListAt h' l (xs ++ ys) := by
  have hdisjoint := (nodup_append.1 (by rwa [addrs_append] at hnodup)).2.2
  have hlist : ListAt h l (xs ++ ([(a, body)] ++ ys)) := hlist
  have hl : h'.mem l = some (.list ⟨first (addrs (xs ++ ([] ++ ys))) none,
      last none (addrs (xs ++ ([] ++ ys)))⟩) := hl
  refine hlist.splice hnodup hl trivial (fun e he => nomatch he) ?_ ?_
  · intro e he prev next hmem
    have hin := mem_map_of_mem (f := Prod.fst) he
    rw [hothers e.1 prev next e.2 (by rw [addrs_append]; exact mem_append_left _ hin) hmem,
      if_neg fun hfirst => hdisjoint _ hin _ (first_mem hfirst) rfl]
    rfl
  · intro e he prev next hmem
    have hin := mem_map_of_mem (f := Prod.fst) he
    rw [hothers e.1 prev next e.2 (by rw [addrs_append]; exact mem_append_right _ hin) hmem]
    have hnot : ¬last none (addrs xs) = some e.1 :=
      fun hlast => hdisjoint _ (last_mem hlast) _ hin rfl
    rw [if_neg hnot, append_nil]

theorem ListAt.links (hlist : ListAt h l (xs ++ (a, body) :: ys)) :
    h.mem a = some (.atom ⟨last none (addrs xs), first (addrs ys) none, some l, body⟩) := by
  obtain ⟨prev, next, hmem⟩ := hlist.atoms (a, body) (by simp)
  have hchain := hlist.chain
  rw [addrs_append] at hchain
  obtain ⟨hprev, hnext, -⟩ := (chain_append.1 hchain).2
  simp only at hmem hprev hnext
  rw [Heap.prevOf, hmem] at hprev
  rw [Heap.nextOf, hmem] at hnext
  rw [hmem]
  exact congrArg₂ (fun p n => some (Cell.atom ⟨p, n, some l, body⟩)) hprev hnext

theorem unlink_spec (hlist : ListAt h l (xs ++ (a, body) :: ys))
    (hnodup : (addrs (xs ++ (a, body) :: ys)).Nodup) :
    ∃ h', h.unlink a = .ok h' ∧ ListAt h' l (xs ++ ys) ∧
      (∀ b, b ≠ l → b ∉ addrs (xs ++ ys) → h'.mem b = h.mem b) ∧ h'.calls = h.calls := by
  have ha := hlist.links
  have hget : h.getList l = .ok ⟨first (addrs (xs ++ (a, body) :: ys)) none,
      last none (addrs (xs ++ (a, body) :: ys))⟩ := by
    rw [Heap.getList, hlist.mem]
  have hne : ∀ b ∈ addrs (xs ++ ys), b ≠ l := fun b hb => hlist.atom_ne (by
    simp only [addrs_append, addrs_cons, mem_append, mem_cons] at hb ⊢
    exact hb.imp_right .inr)
  have hnode : ∀ b ∈ addrs (xs ++ ys), ∃ prev next body',
      h.mem b = some (.atom ⟨prev, next, some l, body'⟩) := fun b hb => hlist.node (by
    simp only [addrs_append, addrs_cons, mem_append, mem_cons] at hb ⊢
    exact hb.imp_right .inr)
  have hnodup' : (addrs (xs ++ ys)).Nodup := by
    refine hnodup.sublist ?_
    rw [addrs_append, addrs_append, addrs_cons]
    exact (sublist_cons_self _ _).append_left _
  have hapart := hnodup'
  rw [addrs_append] at hapart
  have hdisjoint := (nodup_append.1 hapart).2.2
  have hl := hlist.mem
  have hfirst : first (addrs (xs ++ (a, body) :: ys)) none = first (addrs xs) (some a) := by
    rw [addrs_append, first_append, addrs_cons, first_cons]
  have hlast : last none (addrs (xs ++ (a, body) :: ys)) = last (some a) (addrs ys) := by
    rw [addrs_append, last_append, addrs_cons, last_cons]
  rw [hfirst, hlast] at hl hget
  simp only [Heap.unlink, Heap.getNode, ha, hget, crash_bind]
  cases hprev : last none (addrs xs) with
  | none =>
    obtain rfl : xs = [] := by simpa [addrs] using hprev
    cases hnext : first (addrs ys) none with
    | none =>
      obtain rfl : ys = [] := by simpa [addrs] using hnext
      refine ⟨_, by
        simp only [Heap.modList, Heap.getList, hl, crash_bind, Heap.put_mem, if_true, addrs_nil,
          first_nil, last_nil, ne_eq, not_true_eq_false, if_false]
        rfl, hlist.remove hnodup' ?_ ?_, ?_, ?_⟩
      · simp
      · rintro b prev next body' ⟨⟩
      · intro b hbl _
        simp [hbl]
      · rfl
    | some next =>
      have hin := first_mem hnext
      have hmem : next ∈ addrs ([] ++ ys) := hin
      obtain ⟨nprev, nnext, nbody, hn⟩ := hnode next hmem
      have hnl := hne next hmem
      refine ⟨_, by
        simp only [Heap.modNode, Heap.getNode, Heap.modList, Heap.getList, hl, hn, crash_bind,
          Heap.put_mem, addrs_nil, first_nil, if_neg hnl, ne_eq, not_true_eq_false, if_false]
        rfl, hlist.remove hnodup' ?_ ?_, ?_, ?_⟩
      · rw [nil_append, hnext, ← last_of_first hnext (some a)]
        simp [hnl.symm]
      · intro b prev next' body' hb hb'
        have hbl := hne b hb
        by_cases hbn : b = next
        · subst hbn
          obtain ⟨rfl, rfl, rfl⟩ : nprev = prev ∧ nnext = next' ∧ nbody = body' := by
            simpa using hn.symm.trans hb'
          simp [hnext]
        · have hnb : ¬next = b := fun heq => hbn heq.symm
          simp [hbl, hbn, hnb, hnext, hb']
      · intro b hbl hb
        have hbn : b ≠ next := by
          rintro rfl
          exact hb hmem
        simp [hbl, hbn]
      · rfl
  | some prev =>
    have hpx := last_mem hprev
    have hpin : prev ∈ addrs (xs ++ ys) := by
      rw [addrs_append]
      exact mem_append_left _ hpx
    obtain ⟨pprev, pnext, pbody, hp⟩ := hnode prev hpin
    have hpl := hne prev hpin
    cases hnext : first (addrs ys) none with
    | none =>
      obtain rfl : ys = [] := by simpa [addrs] using hnext
      refine ⟨_, by
        simp only [Heap.modNode, Heap.getNode, Heap.modList, Heap.getList, hl, hp, crash_bind,
          Heap.put_mem, addrs_nil, last_nil, if_neg hpl.symm, ne_eq, not_true_eq_false, if_false]
        rfl, hlist.remove hnodup' ?_ ?_, ?_, ?_⟩
      · rw [append_nil, hprev, ← first_of_last hprev (some a)]
        simp
      · intro b prev' next' body' hb hmem
        have hbl := hne b hb
        by_cases hbp : b = prev
        · subst hbp
          obtain ⟨rfl, rfl, rfl⟩ : pprev = prev' ∧ pnext = next' ∧ pbody = body' := by
            simpa using hp.symm.trans hmem
          simp [hbl, hprev]
        · have hpb : ¬prev = b := fun heq => hbp heq.symm
          simp [hbl, hbp, hpb, hprev, hmem]
      · intro b hbl hb
        have hbp : b ≠ prev := by
          rintro rfl
          exact hb hpin
        simp [hbl, hbp]
      · rfl
    | some next =>
      have hny := first_mem hnext
      have hnin : next ∈ addrs (xs ++ ys) := by
        rw [addrs_append]
        exact mem_append_right _ hny
      obtain ⟨nprev, nnext, nbody, hn⟩ := hnode next hnin
      have hnp : next ≠ prev := fun heq => hdisjoint prev hpx next hny heq.symm
      refine ⟨_, by
        simp only [Heap.modNode, Heap.getNode, hp, hn, crash_bind, Heap.put_mem, if_neg hnp]
        rfl, hlist.remove hnodup' ?_ ?_, ?_, ?_⟩
      · rw [addrs_append, first_append, last_append, hprev, hnext, first_of_last hprev (some next),
          ← first_of_last hprev (some a), last_of_first hnext (some prev),
          ← last_of_first hnext (some a)]
        simp [(hne next hnin).symm, hpl.symm, hl]
      · intro b prev' next' body' hb hmem
        by_cases hbn : b = next
        · subst hbn
          obtain ⟨rfl, rfl, rfl⟩ : nprev = prev' ∧ nnext = next' ∧ nbody = body' := by
            simpa using hn.symm.trans hmem
          simp [hprev, hnext, hnp.symm]
        · have hnb : ¬next = b := fun heq => hbn heq.symm
          by_cases hbp : b = prev
          · subst hbp
            obtain ⟨rfl, rfl, rfl⟩ : pprev = prev' ∧ pnext = next' ∧ pbody = body' := by
              simpa using hp.symm.trans hmem
            simp [hprev, hnext, hbn, hnb]
          · have hpb : ¬prev = b := fun heq => hbp heq.symm
            simp [hprev, hnext, hbn, hnb, hbp, hpb, hmem]
      · intro b hbl hb
        have hbp : b ≠ prev := by
          rintro rfl
          exact hb hpin
        have hbn : b ≠ next := by
          rintro rfl
          exact hb hnin
        simp [hbp, hbn]
      · rfl

end Qse.Xli
