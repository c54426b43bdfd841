import Qse.Xli.NodeLists
import Mathlib.Data.Fintype.EquivFin

/-!
# Trees in memory

The memory shows a store when every list of the store is in order and the segments of every string
are linked.
-/

open List Option

namespace Qse.Xli

open TwoWayChain

def SegsAt (h : Heap) : Option Addr → List (Addr × Str) → Prop
  | cur, [] => cur = none
  | cur, (s, str) :: segs => cur = some s ∧ ∃ next, h.mem s = some (.str str next) ∧
    SegsAt h next segs

structure Shows (h : Heap) (st : Store) : Prop where
  lists : ∀ l items, st.lists l = some items → ListAt h l items
  strs : ∀ s segs, st.strs s = some segs → SegsAt h (some s) segs
  disjoint : ∀ s segs s' segs' a, st.strs s = some segs → st.strs s' = some segs' →
    a ∈ addrs segs → a ∈ addrs segs' → s = s'

variable {h h' h₀ : Heap} {st : Store} {a l s : Addr} {v : ValPtr} {as bs : List Addr}
  {items xs ys : List Entry} {segs : List (Addr × Str)} {cur : Option Addr} {body : Body}

theorem SegsAt.congr (hsegs : SegsAt h cur segs) (hsame : ∀ a ∈ addrs segs, h'.mem a = h.mem a) :
    SegsAt h' cur segs := by
  induction segs generalizing cur with
  | nil => exact hsegs
  | cons seg segs ih =>
    obtain ⟨hcur, next, hmem, hrest⟩ := hsegs
    refine ⟨hcur, next, (hsame _ (.head _)).trans hmem, ih hrest fun a ha => ?_⟩
    exact hsame a (.tail _ ha)

theorem SegsAt.seg (hsegs : SegsAt h cur segs) (ha : a ∈ addrs segs) :
    ∃ str next, h.mem a = some (.str str next) := by
  induction segs generalizing cur with
  | nil => cases ha
  | cons seg segs ih =>
    obtain ⟨-, next, hmem, hrest⟩ := hsegs
    rcases mem_cons.1 ha with rfl | ha
    · exact ⟨_, next, hmem⟩
    · exact ih hrest ha

theorem SegsAt.head (hsegs : SegsAt h (some s) segs) : ∃ str rest, segs = (s, str) :: rest := by
  cases segs with
  | nil => cases hsegs
  | cons seg segs =>
    obtain ⟨hs, -⟩ := hsegs
    cases hs
    exact ⟨seg.2, segs, rfl⟩

theorem SegsAt.head_mem (hsegs : SegsAt h (some s) segs) : s ∈ addrs segs := by
  obtain ⟨str, rest, rfl⟩ := hsegs.head
  exact .head _

theorem Shows.apart {list : ListRec} (hshows : Shows h st) (hl : h.mem l = some (.list list)) :
    st.Apart l := by
  refine ⟨fun l' items hitems hin => ?_, fun s segs hsegs hin => ?_⟩
  · obtain ⟨prev, next, body, hmem⟩ := (hshows.lists l' items hitems).node hin
    rw [hl] at hmem
    cases hmem
  · obtain ⟨str, next, hmem⟩ := (hshows.strs s segs hsegs).seg hin
    rw [hl] at hmem
    cases hmem

/-! ## Freeing -/

def Heap.freeAll (h : Heap) (as : List Addr) : Heap :=
  { h with mem := fun a => if a ∈ as then none else h.mem a }

@[simp] theorem Heap.freeAll_mem : (h.freeAll as).mem a = if a ∈ as then none else h.mem a := rfl

@[simp] theorem Heap.freeAll_calls : (h.freeAll as).calls = h.calls := rfl

theorem Heap.ext_mem {h h' : Heap} (hmem : ∀ a, h.mem a = h'.mem a) (hcalls : h.calls = h'.calls) :
    h = h' := by
  cases h with
  | mk mem calls =>
    obtain rfl : mem = _ := funext hmem
    obtain rfl : calls = _ := hcalls
    rfl

theorem Heap.freeAll_nil : h.freeAll [] = h := Heap.ext_mem (fun a => by simp) rfl

theorem Heap.freeAll_freeAll : (h.freeAll as).freeAll bs = h.freeAll (as ++ bs) := by
  refine Heap.ext_mem (fun a => ?_) rfl
  by_cases ha : a ∈ as <;> simp [ha]

theorem Heap.free_eq : h.free a = h.freeAll [a] := Heap.ext_mem (fun b => by simp) rfl

theorem Heap.freeAll_congr (hsame : ∀ a, a ∈ as ↔ a ∈ bs) : h.freeAll as = h.freeAll bs :=
  Heap.ext_mem (fun a => by simp [hsame a]) rfl

variable {n : ℕ}

theorem freeSegs_spec (hsegs : SegsAt h cur segs) (hnodup : (addrs segs).Nodup)
    (hfuel : segs.length ≤ n) : Heap.freeSegs n h cur = .ok (h.freeAll (addrs segs)) := by
  induction segs generalizing h cur n with
  | nil =>
    obtain rfl : cur = none := hsegs
    cases n with
    | zero | succ n => exact congrArg Except.ok Heap.freeAll_nil.symm
  | cons seg segs ih =>
    obtain ⟨rfl, next, hmem, hrest⟩ := hsegs
    obtain ⟨hfirst, hnodup⟩ := nodup_cons.1 hnodup
    obtain ⟨n, rfl⟩ : ∃ m, n = m + 1 := Nat.exists_eq_succ_of_ne_zero (by
      rw [length_cons] at hfuel
      omega)
    have hkept : SegsAt (h.free seg.1) next segs := hrest.congr fun a ha => by
      rw [Heap.free_mem, if_neg]
      rintro rfl
      exact hfirst ha
    have hget : h.getStr seg.1 = .ok (seg.2, next) := by
      rw [Heap.getStr, hmem]
    simp only [Heap.freeSegs, hget, crash_bind]
    rw [ih hkept hnodup (by simpa using hfuel), Heap.free_eq, Heap.freeAll_freeAll]
    rfl

def FreesVal (h₀ : Heap) (st : Store) (n : ℕ) : Prop :=
  ∀ (h : Heap) (v : ValPtr) (as : List Addr), Owns st [v] as → as.Nodup →
    (∀ a ∈ as, h.mem a = h₀.mem a) → 4 * as.length + 1 ≤ n → h.freeVal n v = .ok (h.freeAll as)

theorem freeAtom_spec {node : Node} (hfrees : FreesVal h₀ st n) (hmem : h.mem a = some (.atom node))
    (howns : Owns st (vals [(a, node.body)]) as) (hnodup : as.Nodup)
    (hsame : ∀ a ∈ as, h.mem a = h₀.mem a) (hfuel : 4 * as.length + 1 ≤ n) :
    h.freeAtom (n + 1) a = .ok (h.freeAll (as ++ [a])) := by
  have hget : h.getNode a = .ok node := by
    rw [Heap.getNode, hmem]
  simp only [Heap.freeAtom, hget, crash_bind]
  obtain ⟨prev, next, super, body⟩ := node
  cases body with
  | pair key ali tag val =>
    simp only
    rw [hfrees h val as howns hnodup hsame hfuel, crash_bind, Heap.free_eq, Heap.freeAll_freeAll]
  | text ptr | file path | eof =>
    cases howns
    simp only
    rw [Heap.free_eq]
    rfl

theorem freeAtoms_spec (hfrees : ∀ m < n, FreesVal h₀ st m)
    (hchain : ∀ xs e ys, items = xs ++ e :: ys →
      ∃ node, h.mem e.1 = some (.atom node) ∧ node.body = e.2 ∧ node.next = first (addrs ys) none)
    (howns : Owns st (vals items) as) (hnodup : (addrs items ++ as).Nodup)
    (hsame : ∀ a ∈ as, h.mem a = h₀.mem a) (hfuel : items.length + 4 * as.length + 2 ≤ n) :
    h.freeAtoms n (first (addrs items) none) = .ok (h.freeAll (addrs items ++ as)) := by
  induction items generalizing h n as with
  | nil =>
    cases howns
    cases n with
    | zero | succ n => exact congrArg Except.ok Heap.freeAll_nil.symm
  | cons e items ih =>
    obtain ⟨node, hmem, hbody, hnext⟩ := hchain [] e items rfl
    rw [vals_cons] at howns
    obtain ⟨as₁, as₂, hval, hrest, rfl⟩ := owns_append howns
    rw [length_cons, length_append] at hfuel
    obtain ⟨n, rfl⟩ : ∃ m, n = m + 2 := ⟨n - 2, by omega⟩
    have hget : h.getNode e.1 = .ok node := by
      rw [Heap.getNode, hmem]
    have hcount : ∀ x, (addrs (e :: items) ++ (as₁ ++ as₂)).count x ≤ 1 :=
      nodup_iff_count_le_one.1 hnodup
    have hatom : h.freeAtom (n + 1) e.1 = .ok (h.freeAll (as₁ ++ [e.1])) := by
      refine freeAtom_spec (hfrees n (by omega)) hmem (by rwa [hbody]) ?_ ?_ (by omega)
      · exact (nodup_append.1 (nodup_append.1 hnodup).2.1).1
      · exact fun a ha => hsame a (mem_append_left _ ha)
    have hkept : ∀ a ∈ addrs items ++ as₂, (h.freeAll (as₁ ++ [e.1])).mem a = h.mem a := by
      intro a ha
      rw [Heap.freeAll_mem, if_neg]
      intro hfreed
      have hone := hcount a
      have h₁ := one_le_count_iff.2 ha
      have h₂ := one_le_count_iff.2 hfreed
      simp only [addrs_cons, count_append, count_cons, count_nil] at hone h₁ h₂
      omega
    have hothers : (h.freeAll (as₁ ++ [e.1])).freeAtoms (n + 1) (first (addrs items) none) =
        .ok ((h.freeAll (as₁ ++ [e.1])).freeAll (addrs items ++ as₂)) := by
      refine ih (fun m hm => hfrees m (by omega)) ?_ hrest ?_ ?_ (by omega)
      · rintro xs f ys rfl
        obtain ⟨fnode, hf, hfbody⟩ := hchain (e :: xs) f ys rfl
        refine ⟨fnode, (hkept f.1 ?_).trans hf, hfbody⟩
        simp
      · rw [nodup_iff_count_le_one]
        intro x
        have hone := hcount x
        simp only [addrs_cons, count_append, count_cons] at hone ⊢
        omega
      · intro a ha
        rw [hkept a (mem_append_right _ ha)]
        exact hsame a (mem_append_right _ ha)
    simp only [addrs_cons, first_cons, Heap.freeAtoms, hget, crash_bind]
    rw [hatom, crash_bind, hnext, hothers, Heap.freeAll_freeAll]
    refine congrArg Except.ok (Heap.freeAll_congr fun a => ?_)
    simp only [mem_append, mem_cons, not_mem_nil]
    tauto

theorem freeVal_spec (hshows : Shows h₀ st) (n : ℕ) : FreesVal h₀ st n := by
  induction n using Nat.strong_induction_on with
  | _ n ih =>
    intro h v as howns hnodup hsame hfuel
    obtain ⟨n, rfl⟩ : ∃ m, n = m + 1 := ⟨n - 1, by omega⟩
    cases howns with
    | const hv hrest =>
      cases hrest
      rw [Heap.freeAll_nil]
      cases v with
      | nil | true | false => rfl
      | str s | list l => cases hv
    | @str s str segs _ as hs hrest =>
      cases hrest
      rw [append_nil] at hnodup hsame hfuel ⊢
      obtain ⟨-, next, hmem, hsegs⟩ := hshows.strs s _ hs
      have hget : h.getStr s = .ok (str, next) := by
        rw [Heap.getStr, hsame s (.head _), hmem]
      have hkept : SegsAt h next segs :=
        hsegs.congr fun a ha => hsame a (.tail _ ha)
      have hlength : segs.length ≤ n := by
        rw [length_cons, addrs, length_map] at hfuel
        omega
      simp only [Heap.freeVal, hget, crash_bind]
      rw [freeSegs_spec hkept (nodup_cons.1 hnodup).2 hlength, crash_bind, Heap.free_eq,
        Heap.freeAll_freeAll]
      refine congrArg Except.ok (Heap.freeAll_congr fun a => ?_)
      simp only [mem_append, mem_cons, not_mem_nil]
      tauto
    | @list l items _ as hl hrest =>
      rw [append_nil] at hrest
      have hlist := hshows.lists l items hl
      obtain ⟨hfirst, hnodup⟩ := nodup_cons.1 hnodup
      rw [length_cons, length_append, addrs, length_map] at hfuel
      obtain ⟨n, rfl⟩ : ∃ m, n = m + 1 := ⟨n - 1, by omega⟩
      have hget : h.getList l = .ok ⟨first (addrs items) none, last none (addrs items)⟩ := by
        rw [Heap.getList, hsame l (.head _), hlist.mem]
      have hatoms : h.freeAtoms n (first (addrs items) none) =
          .ok (h.freeAll (addrs items ++ as)) := by
        refine freeAtoms_spec (fun m hm => ih m (by omega)) ?_ hrest hnodup ?_ (by omega)
        · rintro xs e ys rfl
          refine ⟨_, (hsame e.1 ?_).trans hlist.links, rfl, rfl⟩
          simp
        · exact fun a ha => hsame a (.tail _ (mem_append_right _ ha))
      have hleft : (h.freeAll (addrs items ++ as)).getList l =
          .ok ⟨first (addrs items) none, last none (addrs items)⟩ := by
        rw [Heap.getList, Heap.freeAll_mem, if_neg hfirst, hsame l (.head _), hlist.mem]
      simp only [Heap.freeVal, Heap.freeList, hget, hatoms, Heap.modList, hleft, crash_bind]
      refine congrArg Except.ok (Heap.ext_mem (fun a => ?_) rfl)
      by_cases ha : a = l
      · simp [ha]
      · simp [ha]

/-- The memory shows the store, and what is in use are the nodes that belong to the values, each to
one of them. -/
structure Tree (h : Heap) (st : Store) (vs : List ValPtr) (as : List Addr) : Prop where
  shows : Shows h st
  owns : Owns st vs as
  nodup : as.Nodup
  used : ∀ a, h.mem a ≠ none ↔ a ∈ as
  few : as.length ≤ h.calls + 1

variable {h h' : Heap} {st : Store} {vs ws : List ValPtr} {as bs : List Addr} {a l s : Addr}
  {items xs ys : List Entry} {segs : List (Addr × Str)} {body : Body} {mm : Mmgr}

/-! ## Values that belong to nothing -/

section

variable (ht : Tree h st vs as)
include ht

theorem Tree.perm (hperm : vs.Perm ws) : ∃ as', Tree h st ws as' := by
  obtain ⟨as', howns, hperm'⟩ := ht.owns.perm hperm
  refine ⟨as', ht.shows, howns, hperm'.nodup_iff.2 ht.nodup, fun a => ?_, ?_⟩
  · rw [ht.used a, hperm'.mem_iff]
  · rw [hperm'.length_eq]
    exact ht.few

theorem Tree.const {v : ValPtr} (hv : v.IsConst) : Tree h st (v :: vs) as :=
  ⟨ht.shows, .const hv ht.owns, ht.nodup, ht.used, ht.few⟩

theorem Tree.of_mem (hmem : h'.mem = h.mem) (hcalls : h.calls ≤ h'.calls) : Tree h' st vs as where
  shows :=
    { lists := fun l items hl => (ht.shows.lists l items hl).congr (by rw [hmem]) (by simp [hmem])
      strs := fun s segs hs => (ht.shows.strs s segs hs).congr (by simp [hmem])
      disjoint := ht.shows.disjoint }
  owns := ht.owns
  nodup := ht.nodup
  used := by
    rw [hmem]
    exact ht.used
  few := ht.few.trans (Nat.succ_le_succ hcalls)

theorem Tree.list_mem (hl : st.lists l = some items) : l ∈ as :=
  (ht.used l).1 (by rw [(ht.shows.lists l items hl).mem]; exact some_ne_none _)

theorem Tree.apart (hl : st.lists l = some items) : st.Apart l :=
  ht.shows.apart (ht.shows.lists l items hl).mem

theorem Tree.list_atoms (hl : st.lists l = some items) : (l :: addrs items).Sublist as :=
  ht.owns.atoms hl (ht.list_mem hl) (ht.apart hl)

theorem Tree.list_nodup (hl : st.lists l = some items) : (addrs items).Nodup :=
  (nodup_cons.1 (ht.nodup.sublist (ht.list_atoms hl))).2

end

theorem Shows.segments (hshows : Shows h st) (howns : Owns st vs as) (hs : st.strs s = some segs)
    (hin : s ∈ as) : (addrs segs).Sublist as := by
  have hsegs := hshows.strs s segs hs
  obtain ⟨str, next, hmem⟩ := hsegs.seg hsegs.head_mem
  refine howns.segments hs hin ?_ fun s' segs' hs' hin =>
    hshows.disjoint s segs s' segs' s hs hs' hsegs.head_mem hin
  intro l items hl
  refine ⟨?_, fun hin => ?_⟩
  · rintro rfl
    rw [(hshows.lists s items hl).mem] at hmem
    cases hmem
  · obtain ⟨prev, next, body, hatom⟩ := (hshows.lists l items hl).node hin
    rw [hatom] at hmem
    cases hmem

theorem Tree.str_mem (ht : Tree h st vs as) (hs : st.strs s = some segs) : s ∈ as := by
  have hsegs := ht.shows.strs s segs hs
  obtain ⟨str, next, hmem⟩ := hsegs.seg hsegs.head_mem
  refine (ht.used s).1 ?_
  rw [hmem]
  exact some_ne_none _

theorem Tree.str_segs (ht : Tree h st vs as) (hs : st.strs s = some segs) :
    (addrs segs).Sublist as :=
  ht.shows.segments ht.owns hs (ht.str_mem hs)

variable {items' : List Entry}

theorem Shows.atoms_ne {l' : Addr} (hshows : Shows h st) (hl : st.lists l = some items)
    (hl' : st.lists l' = some items') (hne : l ≠ l') (ha : a ∈ addrs items) : a ∉ addrs items' := by
  intro ha'
  obtain ⟨prev, next, body, hmem⟩ := (hshows.lists l items hl).node ha
  obtain ⟨prev', next', body', hmem'⟩ := (hshows.lists l' items' hl').node ha'
  rw [hmem] at hmem'
  injection hmem' with hcell
  injection hcell with hnode
  injection hnode with _ _ hsuper
  exact hne (Option.some.inj hsuper)

theorem Shows.lists_apart {l' : Addr} (hshows : Shows h st) (hl : st.lists l = some items)
    (hl' : st.lists l' = some items') (hne : l' ≠ l)
    (ha : a ∈ l' :: addrs items') : a ∉ l :: addrs items := by
  have hapart := hshows.apart (hshows.lists l items hl).mem
  have hapart' := hshows.apart (hshows.lists l' items' hl').mem
  intro hin
  rcases mem_cons.1 ha with rfl | ha
  · rcases mem_cons.1 hin with heq | hin
    · exact hne heq
    · exact hapart'.1 l items hl hin
  · rcases mem_cons.1 hin with rfl | hin
    · exact hapart.1 l' items' hl' ha
    · exact hshows.atoms_ne hl' hl hne ha hin

theorem Shows.strs_apart (hshows : Shows h st) (hl : st.lists l = some items)
    (hs : st.strs s = some segs) (ha : a ∈ addrs segs) : a ∉ l :: addrs items := by
  obtain ⟨str, next, hmem⟩ := (hshows.strs s segs hs).seg ha
  intro hin
  rcases mem_cons.1 hin with rfl | hin
  · rw [(hshows.lists a items hl).mem] at hmem
    cases hmem
  · obtain ⟨prev, next, body, hatom⟩ := (hshows.lists l items hl).node hin
    rw [hatom] at hmem
    cases hmem

theorem Shows.relist (hshows : Shows h st) (hl : st.lists l = some items)
    (hlist : ListAt h' l items')
    (hold : ∀ b, h.mem b ≠ none → b ∉ l :: addrs items → h'.mem b = h.mem b) :
    Shows h' (st.setList l (some items')) where
  lists l' items₁ hl' := by
    rw [Store.setList_lists] at hl'
    by_cases hne : l' = l
    · rw [if_pos hne] at hl'
      subst hne
      cases hl'
      exact hlist
    rw [if_neg hne] at hl'
    have hlist' := hshows.lists l' items₁ hl'
    refine hlist'.congr (hold l' ?_ ?_) fun b hb => hold b ?_ ?_
    · rw [hlist'.mem]
      exact some_ne_none _
    · exact hshows.lists_apart hl hl' hne (.head _)
    · obtain ⟨prev, next, body, hmem⟩ := hlist'.node hb
      rw [hmem]
      exact some_ne_none _
    · exact hshows.lists_apart hl hl' hne (.tail _ hb)
  strs s segs hs := by
    have hsegs := hshows.strs s segs hs
    refine hsegs.congr fun b hb => hold b ?_ (hshows.strs_apart hl hs hb)
    obtain ⟨str, next, hmem⟩ := hsegs.seg hb
    rw [hmem]
    exact some_ne_none _
  disjoint := hshows.disjoint

theorem Shows.freeAll (hshows : Shows h st)
    (hlists : ∀ l items, l ∉ bs → st.lists l = some items → ∀ a ∈ addrs items, a ∉ bs)
    (hstrs : ∀ s segs, s ∉ bs → st.strs s = some segs → ∀ a ∈ addrs segs, a ∉ bs) :
    Shows (h.freeAll bs) (st.drop bs) where
  lists l items hl := by
    by_cases hin : l ∈ bs
    · rw [Store.drop_lists, if_pos hin] at hl
      cases hl
    · rw [Store.drop_lists, if_neg hin] at hl
      exact (hshows.lists l items hl).congr (if_neg hin) fun a ha => if_neg
        (hlists l items hin hl a ha)
  strs s segs hs := by
    by_cases hin : s ∈ bs
    · rw [Store.drop_strs, if_pos hin] at hs
      cases hs
    · rw [Store.drop_strs, if_neg hin] at hs
      exact (hshows.strs s segs hs).congr fun a ha => if_neg (hstrs s segs hin hs a ha)
  disjoint s segs s' segs' a hs hs' ha ha' := by
    rw [Store.drop_strs] at hs hs'
    by_cases hin : s ∈ bs
    · rw [if_pos hin] at hs
      cases hs
    by_cases hin' : s' ∈ bs
    · rw [if_pos hin'] at hs'
      cases hs'
    · rw [if_neg hin] at hs
      rw [if_neg hin'] at hs'
      exact hshows.disjoint s segs s' segs' a hs hs' ha ha'

/-! ## New nodes -/

theorem callocmem_spec (ht : Tree h st vs as) (hgrant : mm.grant h.calls = true) (cell : Cell) :
    ∃ a, h.mem a = none ∧ h.callocmem mm cell = (h.called.put a cell, some a) := by
  refine ⟨mm.place h.calls h.used, ?_, by rw [Heap.callocmem, if_pos hgrant]⟩
  obtain ⟨b, hb⟩ := Infinite.exists_notMem_finset as.toFinset
  have hfree : h.used b = false := by
    have hnone : ¬h.mem b ≠ none := fun hused => hb (mem_toFinset.2 ((ht.used b).1 hused))
    rw [Heap.used, not_not.1 hnone]
    rfl
  have hunused := mm.unused h.calls h.used ⟨b, hfree⟩
  rwa [Heap.used, isSome_eq_false_iff, isNone_iff_eq_none] at hunused

theorem callocmem_refused (hgrant : mm.grant h.calls = false) (cell : Cell) :
    h.callocmem mm cell = (h.called, none) := by
  rw [Heap.callocmem, hgrant]
  rfl

theorem Shows.put (hshows : Shows h st) (ha : h.mem a = none) (cell : Cell) :
    Shows (h.called.put a cell) st where
  lists l items hl := by
    have hlist := hshows.lists l items hl
    refine hlist.congr ?_ fun b hb => ?_
    · rw [Heap.put_mem, if_neg]
      · rfl
      · rintro rfl
        rw [hlist.mem] at ha
        cases ha
    · rw [Heap.put_mem, if_neg]
      · rfl
      · rintro rfl
        obtain ⟨prev, next, body, hmem⟩ := hlist.node hb
        rw [hmem] at ha
        cases ha
  strs s segs hs := by
    have hsegs := hshows.strs s segs hs
    refine hsegs.congr fun b hb => ?_
    rw [Heap.put_mem, if_neg]
    · rfl
    · rintro rfl
      obtain ⟨str, next, hmem⟩ := hsegs.seg hb
      rw [hmem] at ha
      cases ha
  disjoint := hshows.disjoint

theorem Tree.fresh (ht : Tree h st vs as) (ha : h.mem a = none) : a ∉ as :=
  fun hin => (ht.used a).2 hin ha

theorem Tree.used_put (ht : Tree h st vs as) (cell : Cell) (b : Addr) :
    (h.called.put a cell).mem b ≠ none ↔ b ∈ a :: as := by
  rw [Heap.put_mem, mem_cons, ← ht.used b]
  by_cases hba : b = a <;> simp [hba, Heap.called]

theorem Tree.makelist (ht : Tree h st vs as) (ha : h.mem a = none) :
    Tree (h.called.put a (.list .empty)) (st.setList a (some [])) (.list a :: vs) (a :: as) where
  shows :=
    { lists := fun l items hl => by
        rw [Store.setList_lists] at hl
        by_cases hla : l = a
        · rw [if_pos hla] at hl
          subst hla
          cases hl
          exact ⟨by simp [ListRec.empty], trivial, fun e he => nomatch he⟩
        · rw [if_neg hla] at hl
          exact (ht.shows.put ha _).lists l items hl
      strs := (ht.shows.put ha _).strs
      disjoint := ht.shows.disjoint }
  owns := by
    have howns := ht.owns.setList (ht.fresh ha) (some [])
    exact @Owns.list _ a [] vs as (by simp) howns
  nodup := nodup_cons.2 ⟨ht.fresh ha, ht.nodup⟩
  used := ht.used_put _
  few := Nat.succ_le_succ ht.few

theorem Tree.makestr (ht : Tree h st vs as) (ha : h.mem a = none) (str : Str) :
    Tree (h.called.put a (.str str none)) (st.setStr a (some [(a, str)])) (.str a :: vs)
      (a :: as) where
  shows :=
    { lists := (ht.shows.put ha _).lists
      strs := fun s segs hs => by
        rw [Store.setStr_strs] at hs
        by_cases hsa : s = a
        · rw [if_pos hsa] at hs
          subst hsa
          cases hs
          exact ⟨rfl, none, by simp, rfl⟩
        · rw [if_neg hsa] at hs
          exact (ht.shows.put ha _).strs s segs hs
      disjoint := fun s segs s' segs' b hs hs' hb hb' => by
        rw [Store.setStr_strs] at hs hs'
        have hnot : ∀ s segs, st.strs s = some segs → a ∉ addrs segs := fun s segs hs hin =>
          ht.fresh ha ((ht.str_segs hs).subset hin)
        by_cases hsa : s = a
        · by_cases hsa' : s' = a
          · exact hsa.trans hsa'.symm
          · rw [if_pos hsa] at hs
            rw [if_neg hsa'] at hs'
            cases hs
            rw [mem_singleton.1 hb] at hb'
            exact absurd hb' (hnot s' segs' hs')
        · rw [if_neg hsa] at hs
          by_cases hsa' : s' = a
          · rw [if_pos hsa'] at hs'
            cases hs'
            rw [mem_singleton.1 hb'] at hb
            exact absurd hb (hnot s segs hs)
          · rw [if_neg hsa'] at hs'
            exact ht.shows.disjoint s segs s' segs' b hs hs' hb hb' }
  owns := by
    have hsame : ∀ b ∈ as, (st.setStr a (some [(a, str)])).strs b = st.strs b := fun b hb => by
      rw [Store.setStr_strs, if_neg]
      rintro rfl
      exact ht.fresh ha hb
    exact @Owns.str _ a str [] vs as (by simp) (ht.owns.congr (fun _ _ => rfl) hsame)
  nodup := nodup_cons.2 ⟨ht.fresh ha, ht.nodup⟩
  used := ht.used_put _
  few := Nat.succ_le_succ ht.few

theorem insertNew_spec {parent : Option Addr} (ht : Tree h st (body.val?.toList ++ vs) as)
    (hl : st.lists l = some (xs ++ ys)) (hparent : parent.getD root = l)
    (hout : ∀ bs, Owns st body.val?.toList bs → l ∉ bs) (hgrant : mm.grant h.calls = true) :
    ∃ h' a as', h.insertNew mm parent (first (addrs ys) none) body = .ok (h', .ok a) ∧ a ∉ as ∧
      Tree h' (st.setList l (some (xs ++ (a, body) :: ys))) vs as' ∧ as'.length = as.length + 1 ∧
      h'.calls = h.calls + 1 := by
  obtain ⟨a, ha, halloc⟩ := callocmem_spec ht hgrant (.atom ⟨none, none, none, body⟩)
  have hfresh := ht.fresh ha
  have hput := ht.shows.put ha (.atom ⟨none, none, none, body⟩)
  have hnot : a ∉ addrs (xs ++ ys) :=
    fun hin => hfresh ((ht.list_atoms hl).subset (.tail _ hin))
  have hcell : (h.called.put a (.atom ⟨none, none, none, body⟩)).mem a =
      some (.atom ⟨none, none, none, body⟩) := by simp
  obtain ⟨h', hinsert, hlist', hframe, hcalls⟩ :=
    insertAtom_spec (hput.lists l _ hl) (ht.list_nodup hl) hcell hnot hparent
  -- what belongs to the new value and what belongs to the others
  obtain ⟨bs, as₀, hval, hrest, rfl⟩ := owns_append ht.owns
  have hlb := hout bs hval
  have hlin : l ∈ as₀ := (mem_append.1 (ht.list_mem hl)).resolve_left hlb
  have hnodup₀ := (nodup_append.1 ht.nodup).2.1
  obtain ⟨as', howns, hperm⟩ := hrest.insert hl hlin hnodup₀ (ht.apart hl)
    (by rw [vals_singleton a body]; exact hval) hlb
  have hsame : ∀ b, b ∉ a :: l :: addrs (xs ++ ys) → h'.mem b = h.mem b := by
    intro b hb
    simp only [mem_cons, not_or] at hb
    rw [hframe b hb.1 hb.2.1 hb.2.2, Heap.put_mem, if_neg hb.1]
    rfl
  have hold : ∀ b, h.mem b ≠ none → b ∉ l :: addrs (xs ++ ys) → h'.mem b = h.mem b :=
    fun b hb hnotin => hsame b fun hin => (mem_cons.1 hin).elim (fun heq => hb (heq ▸ ha)) hnotin
  have hlength := hperm.length_eq
  rw [length_cons] at hlength
  refine ⟨h', a, as', ?_, hfresh, ⟨ht.shows.relist hl hlist' hold, howns, ?_, ?_, ?_⟩, hlength,
    hcalls⟩
  · rw [Heap.insertNew, halloc]
    simp only [hinsert, crash_bind]
  · rw [hperm.nodup_iff]
    exact nodup_cons.2 ⟨hfresh, ht.nodup⟩
  · intro b
    rw [hperm.mem_iff]
    by_cases hb : b ∈ a :: l :: addrs (xs ++ ys)
    · rcases mem_cons.1 hb with rfl | hb
      · simp [hlist'.links]
      · have hbas := (ht.list_atoms hl).subset hb
        refine ⟨fun _ => .tail _ hbas, fun _ => ?_⟩
        rcases mem_cons.1 hb with rfl | hb
        · simp [hlist'.mem]
        · have hin : b ∈ addrs (xs ++ (a, body) :: ys) := by
            simp only [addrs_append, addrs_cons, mem_append, mem_cons] at hb ⊢
            exact hb.imp_right .inr
          obtain ⟨prev, next, body', hmem⟩ := hlist'.node hin
          simp [hmem]
    · rw [hsame b hb, ht.used b, mem_cons]
      exact ⟨.inr, fun h => h.resolve_left fun heq => hb (heq ▸ mem_cons_self)⟩
  · have hfew := ht.few
    have hcalls' : h'.calls = h.calls + 1 := hcalls
    omega

/-! ## Deleting -/

theorem deletepair_spec {n : ℕ} {p : Addr} {key : WString} {ali tag : Option WString} {val : ValPtr}
    (ht : Tree h st vs as) (hl : st.lists l = some (xs ++ (p, .pair key ali tag val) :: ys))
    (hfuel : 4 * as.length + 1 ≤ n) :
    ∃ h' as' bs, h.deletepair n p = .ok h' ∧ Owns st [val] bs ∧
      Tree h' ((st.setList l (some (xs ++ ys))).drop (bs ++ [p])) vs as' ∧
      l ∉ bs ++ [p] ∧ as'.length ≤ as.length ∧ h'.calls = h.calls := by
  have hlist := ht.shows.lists l _ hl
  have hlinks := hlist.links
  obtain ⟨h₁, hunlink, hlist₁, hframe, hcalls⟩ := unlink_spec hlist (ht.list_nodup hl)
  have hlin := ht.list_mem hl
  obtain ⟨as', bs, howns, hval, hlb, hperm⟩ :=
    ht.owns.remove hl hlin ht.nodup (ht.apart hl)
  rw [vals_singleton] at hval
  obtain ⟨hp, hnodup⟩ := nodup_cons.1 (hperm.nodup_iff.1 ht.nodup)
  obtain ⟨hnodupb, hnodupa, hdisjoint⟩ := nodup_append.1 hnodup
  have hlength := hperm.length_eq
  rw [length_cons, length_append] at hlength
  have hsame : ∀ b, b ∉ l :: addrs (xs ++ ys) → h₁.mem b = h.mem b := by
    intro b hb
    simp only [mem_cons, not_or] at hb
    exact hframe b hb.1 hb.2
  have hshows : Shows h₁ (st.setList l (some (xs ++ ys))) := by
    refine ht.shows.relist hl hlist₁ fun b _ hb => hsame b fun hin => hb ?_
    simp only [addrs_append, addrs_cons, mem_cons, mem_append] at hin ⊢
    tauto
  -- what goes and what stays
  have hmem : ∀ b, h₁.mem b ≠ none ↔ b ∈ as := by
    intro b
    by_cases hb : b ∈ l :: addrs (xs ++ ys)
    · have hin : b ∈ as := by
        refine (ht.list_atoms hl).subset ?_
        simp only [addrs_append, addrs_cons, mem_cons, mem_append] at hb ⊢
        tauto
      refine ⟨fun _ => hin, fun _ => ?_⟩
      rcases mem_cons.1 hb with rfl | hb
      · rw [hlist₁.mem]
        exact some_ne_none _
      · obtain ⟨prev, next, body, hatom⟩ := hlist₁.node hb
        rw [hatom]
        exact some_ne_none _
    · rw [hsame b hb, ht.used b]
  have hstays : ∀ b ∈ as', b ∉ bs ++ [p] := fun b hb hin => by
    rcases mem_append.1 hin with hin | hin
    · exact hdisjoint b hin b hb rfl
    · rw [mem_singleton.1 hin] at hb
      exact hp (mem_append_right _ hb)
  have hparts : ∀ b, b ∈ as ↔ b ∈ bs ++ [p] ∨ b ∈ as' := fun b => by
    rw [hperm.mem_iff]
    simp only [mem_cons, mem_append, not_mem_nil]
    tauto
  have hleft : ∀ l' items, l' ∉ bs ++ [p] →
      (st.setList l (some (xs ++ ys))).lists l' = some items → (l' :: addrs items).Sublist as' := by
    intro l' items hnot hl'
    have hcell := (hshows.lists l' items hl').mem
    refine howns.atoms hl' (((hparts l').1 ((hmem l').1 ?_)).resolve_left hnot) (hshows.apart hcell)
    rw [hcell]
    exact some_ne_none _
  have hlout : l ∉ bs ++ [p] := fun hin => by
    rcases mem_append.1 hin with hin | hin
    · exact hlb hin
    · have hpl : p ≠ l := hlist.atom_ne (by simp)
      exact hpl (mem_singleton.1 hin).symm
  have hlas' : (l :: addrs (xs ++ ys)).Sublist as' := hleft l _ hlout (by simp)
  have hfree : h₁.freeVal n val = .ok (h₁.freeAll bs) := by
    refine freeVal_spec ht.shows n h₁ val bs hval hnodupb (fun b hb => hsame b fun hin => ?_)
      (by omega)
    exact hstays b (hlas'.subset hin) (mem_append_left _ hb)
  have hget : h₁.getNode p = .ok ⟨last none (addrs xs), first (addrs ys) none, some l,
      .pair key ali tag val⟩ := by
    rw [Heap.getNode, hsame p fun hin => hstays p (hlas'.subset hin) (by simp), hlinks]
  refine ⟨h₁.freeAll (bs ++ [p]), as', bs, ?_, hval, ⟨hshows.freeAll ?_ ?_, ?_, hnodupa, ?_, ?_⟩,
    hlout, by omega, hcalls⟩
  · simp only [Heap.deletepair, hunlink, crash_bind, hget, hfree]
    rw [Heap.free_eq, Heap.freeAll_freeAll]
  · intro l' items hnot hl' a ha
    exact hstays a ((hleft l' items hnot hl').subset (.tail _ ha))
  · intro s segs hnot hs a ha
    have hsegs := hshows.strs s segs hs
    obtain ⟨str, next, hcell⟩ := hsegs.seg hsegs.head_mem
    refine hstays a ((hshows.segments howns hs ?_).subset ha)
    refine ((hparts s).1 ((hmem s).1 ?_)).resolve_left hnot
    rw [hcell]
    exact some_ne_none _
  · exact howns.drop hstays
  · intro b
    rw [Heap.freeAll_mem]
    by_cases hb : b ∈ bs ++ [p]
    · rw [if_pos hb]
      exact ⟨fun h => absurd rfl h, fun hin => absurd hb (hstays b hin)⟩
    · rw [if_neg hb, hmem b, hparts b]
      exact ⟨fun h => h.resolve_left hb, .inr⟩
  · have hfew := ht.few
    have hcalls' : (h₁.freeAll (bs ++ [p])).calls = h.calls := hcalls
    omega

end Qse.Xli
