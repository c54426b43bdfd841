import Qse.Xli.Trees

/-!
# Pairs with values

A pair is inserted together with a list or a string that is made for it, or what has been made is
freed.
-/

open List

namespace Qse.Xli

open TwoWayChain

variable {h h' : Heap} {st : Store} {vs : List ValPtr} {as : List Addr} {a c l s : Addr}
  {xs ys : List Entry} {segs : List (Addr × Str)} {str : Str} {mm : Mmgr} {cur : Option Addr}
  {parent : Option Addr} {key : WString} {ali tag : Option WString}

def Unchanged (h h' : Heap) : Prop := h'.mem = h.mem ∧ h.calls ≤ h'.calls

theorem insertNew_refused {peer : Option Addr} {body : Body} (hgrant : mm.grant h.calls = false) :
    h.insertNew mm parent peer body = .ok (h.called, .error .enomem) := by
  rw [Heap.insertNew, callocmem_refused hgrant]

theorem unchanged_free (hs : h.mem s = none) (cell : Cell) :
    Unchanged h ((h.called.put s cell).called.free s) := by
  refine ⟨funext fun b => ?_, ?_⟩
  · rw [Heap.free_mem]
    by_cases hbs : b = s
    · rw [if_pos hbs, hbs, hs]
    · rw [if_neg hbs]
      exact (Heap.put_mem cell).trans (if_neg hbs)
  · exact (Nat.le_succ _).trans (Nat.le_succ _)

theorem insertpairwithemptylist_spec (ht : Tree h st vs as) (hl : st.lists l = some (xs ++ ys))
    (hparent : parent.getD root = l) :
    (∃ h', h.insertpairwithemptylist mm parent (first (addrs ys) none) key ali tag =
        .ok (h', .error .enomem) ∧ Unchanged h h') ∨
    ∃ h' a v as', h.insertpairwithemptylist mm parent (first (addrs ys) none) key ali tag =
        .ok (h', .ok a) ∧ h.mem v = none ∧ Tree h' ((st.setList v (some [])).setList l
          (some (xs ++ (a, .pair key ali tag (.list v)) :: ys))) vs as' := by
  cases hgrant : mm.grant h.calls with
  | false =>
    refine .inl ⟨h.called, ?_, rfl, Nat.le_succ _⟩
    rw [Heap.insertpairwithemptylist, Heap.makelistval, callocmem_refused hgrant]
  | true =>
    obtain ⟨v, hv, halloc⟩ := callocmem_spec ht hgrant (.list .empty)
    have htv := ht.makelist hv
    have hvl : l ≠ v := by
      rintro rfl
      exact ht.fresh hv (ht.list_mem hl)
    have hlv : (st.setList v (some [])).lists l = some (xs ++ ys) := by
      rw [Store.setList_lists, if_neg hvl, hl]
    cases hgrant' : mm.grant (h.calls + 1) with
    | false =>
      refine .inl ⟨_, ?_, unchanged_free hv (.list .empty)⟩
      rw [Heap.insertpairwithemptylist, Heap.makelistval, halloc]
      simp only [Heap.insertpair]
      rw [insertNew_refused hgrant', crash_bind]
    | true =>
      have hout : ∀ bs, Owns (st.setList v (some []))
          (Body.val? (.pair key ali tag (.list v))).toList bs → l ∉ bs := by
        intro bs hbs
        have hown : Owns (st.setList v (some [])) [.list v] [v] :=
          @Owns.list _ v [] [] [] (by simp) .nil
        rw [hbs.unique hown, mem_singleton]
        exact hvl
      obtain ⟨h', a, as', hinsert, -, ht', -⟩ :=
        insertNew_spec htv hlv hparent hout hgrant'
      refine .inr ⟨h', a, v, as', ?_, hv, ht'⟩
      rw [Heap.insertpairwithemptylist, Heap.makelistval, halloc]
      simp only [Heap.insertpair]
      rw [hinsert, crash_bind]

theorem insertpairwithstr_spec {value : List ℕ} {strtag : Option WString} (ht : Tree h st vs as)
    (hl : st.lists l = some (xs ++ ys)) (hparent : parent.getD root = l) :
    (∃ h', h.insertpairwithstr mm parent (first (addrs ys) none) key ali tag value strtag =
        .ok (h', .error .enomem) ∧ Unchanged h h' ∧
        (mm.grant h.calls = false ∨ mm.grant (h.calls + 1) = false)) ∨
    ∃ h' a v as', h.insertpairwithstr mm parent (first (addrs ys) none) key ali tag value strtag =
        .ok (h', .ok a) ∧ h.mem v = none ∧
        Tree h' ((st.setStr v (some [(v, ⟨value, strtag, false⟩)])).setList l
          (some (xs ++ (a, .pair key ali tag (.str v)) :: ys))) vs as' ∧
        as'.length = as.length + 2 ∧ h'.calls = h.calls + 2 ∧ mm.grant h.calls = true ∧
        mm.grant (h.calls + 1) = true := by
  cases hgrant : mm.grant h.calls with
  | false =>
    refine .inl ⟨h.called, ?_, ⟨rfl, Nat.le_succ _⟩, .inl rfl⟩
    rw [Heap.insertpairwithstr, Heap.makestrval, callocmem_refused hgrant]
  | true =>
    obtain ⟨v, hv, halloc⟩ := callocmem_spec ht hgrant (.str ⟨value, strtag, false⟩ none)
    have htv := ht.makestr hv ⟨value, strtag, false⟩
    have hvl : l ≠ v := by
      rintro rfl
      exact ht.fresh hv (ht.list_mem hl)
    have hlv : (st.setStr v (some [(v, ⟨value, strtag, false⟩)])).lists l = some (xs ++ ys) := hl
    cases hgrant' : mm.grant (h.calls + 1) with
    | false =>
      refine .inl ⟨_, ?_, unchanged_free hv (.str ⟨value, strtag, false⟩ none), .inr rfl⟩
      rw [Heap.insertpairwithstr, Heap.makestrval, halloc]
      simp only [Heap.insertpair]
      rw [insertNew_refused hgrant', crash_bind]
    | true =>
      have hout : ∀ bs, Owns (st.setStr v (some [(v, ⟨value, strtag, false⟩)]))
          (Body.val? (.pair key ali tag (.str v))).toList bs → l ∉ bs := by
        intro bs hbs
        have hown : Owns (st.setStr v (some [(v, ⟨value, strtag, false⟩)])) [.str v] [v] :=
          @Owns.str _ v ⟨value, strtag, false⟩ [] [] [] (by simp) .nil
        rw [hbs.unique hown, mem_singleton]
        exact hvl
      obtain ⟨h', a, as', hinsert, -, ht', hlength, hcalls⟩ :=
        insertNew_spec htv hlv hparent hout hgrant'
      refine .inr ⟨h', a, v, as', ?_, hv, ht', hlength, hcalls, rfl, rfl⟩
      rw [Heap.insertpairwithstr, Heap.makestrval, halloc]
      simp only [Heap.insertpair]
      rw [hinsert, crash_bind]

theorem SegsAt.addseg {str' : Str} (hsegs : SegsAt h cur (segs ++ [(c, str)]))
    (hc : h'.mem c = some (.str str (some a))) (ha : h'.mem a = some (.str str' none))
    (hsame : ∀ b ∈ addrs segs, h'.mem b = h.mem b) :
    SegsAt h' cur (segs ++ [(c, str), (a, str')]) := by
  induction segs generalizing cur with
  | nil =>
    obtain ⟨rfl, -⟩ := hsegs
    exact ⟨rfl, some a, hc, rfl, none, ha, rfl⟩
  | cons seg segs ih =>
    obtain ⟨rfl, next, hmem, hrest⟩ := hsegs
    refine ⟨rfl, next, (hsame _ (.head _)).trans hmem, ih hrest fun b hb => ?_⟩
    exact hsame b (.tail _ hb)

theorem SegsAt.end (hsegs : SegsAt h cur (segs ++ [(c, str)])) :
    h.mem c = some (.str str none) := by
  induction segs generalizing cur with
  | nil =>
    obtain ⟨-, next, hmem, hnext⟩ := hsegs
    obtain rfl : next = none := hnext
    exact hmem
  | cons seg segs ih =>
    obtain ⟨-, next, -, hrest⟩ := hsegs
    exact ih hrest

theorem Tree.addseg {str' : Str} (ht : Tree h st vs as)
    (hs : st.strs s = some (segs ++ [(c, str)])) (ha : h.mem a = none) :
    ∃ as', Tree ((h.called.put a (.str str' none)).put c (.str str (some a)))
      (st.setStr s (some (segs ++ [(c, str), (a, str')]))) vs as' ∧
      as'.length = as.length + 1 := by
  have hsegs := ht.shows.strs s _ hs
  have hend := hsegs.end
  have hcin : c ∈ addrs (segs ++ [(c, str)]) := by simp
  have hca : c ≠ a := by
    rintro rfl
    rw [hend] at ha
    cases ha
  have hnodup := (ht.str_segs hs).nodup ht.nodup
  have hput := ht.shows.put ha (.str str' none)
  have hnot : ∀ s segs, st.strs s = some segs → a ∉ addrs segs := fun s segs hs hin =>
    ht.fresh ha ((ht.str_segs hs).subset hin)
  have hkept : ∀ b, b ≠ c → ((h.called.put a (.str str' none)).put c (.str str (some a))).mem b =
      (h.called.put a (.str str' none)).mem b := fun b hb => by
    rw [Heap.put_mem, if_neg hb]
  have hlistc : ∀ l items, st.lists l = some items → l ≠ c ∧ c ∉ addrs items := by
    intro l items hl
    have hnotin := ht.shows.strs_apart hl hs hcin
    rw [mem_cons, not_or] at hnotin
    exact ⟨fun heq => hnotin.1 heq.symm, hnotin.2⟩
  have hsin := ht.str_mem hs
  obtain ⟨str₀, rest, hhead⟩ := hsegs.head
  have hsmem := hsegs.head_mem
  obtain ⟨as', howns, hperm⟩ := @Owns.addseg st vs as s a str' _ ht.owns hs hsin ht.nodup
    (fun l items hl => by
      have hnotin := ht.shows.strs_apart hl hs hsmem
      rw [mem_cons, not_or] at hnotin
      exact hnotin)
    fun s' segs' hs' hin => ht.shows.disjoint s _ s' segs' s hs hs' hsmem hin
  rw [append_assoc, singleton_append] at howns
  refine ⟨as', ⟨⟨?_, ?_, ?_⟩, howns, ?_, ?_, ?_⟩, by rw [hperm.length_eq, length_cons]⟩
  · intro l items hl
    obtain ⟨hlc, hatoms⟩ := hlistc l items hl
    refine (hput.lists l items hl).congr (hkept l hlc) fun b hb => hkept b ?_
    rintro rfl
    exact hatoms hb
  · intro s' segs' hs'
    rw [Store.setStr_strs] at hs'
    by_cases hne : s' = s
    · rw [if_pos hne] at hs'
      cases hs'
      rw [hne]
      refine hsegs.addseg (by simp) (by simp [hca.symm]) fun b hb => ?_
      have hbc : b ≠ c := by
        rintro rfl
        rw [addrs_append] at hnodup
        exact (nodup_append.1 hnodup).2.2 b hb b (by simp) rfl
      have hba : b ≠ a := by
        rintro rfl
        exact hnot s _ hs (by simp [hb])
      rw [hkept b hbc, Heap.put_mem, if_neg hba]
      rfl
    · rw [if_neg hne] at hs'
      refine (hput.strs s' segs' hs').congr fun b hb => hkept b ?_
      rintro rfl
      exact hne (ht.shows.disjoint s' segs' s _ b hs' hs hb hcin)
  · intro s₁ segs₁ s₂ segs₂ b h₁ h₂ hb₁ hb₂
    rw [Store.setStr_strs] at h₁ h₂
    have hold : ∀ s' segs', st.strs s' = some segs' → b ∈ addrs segs' →
        b ∈ addrs (segs ++ [(c, str), (a, str')]) → s' = s := by
      intro s' segs' hs' hb hin
      refine ht.shows.disjoint s' segs' s _ b hs' hs hb ?_
      have hba : b ≠ a := by
        rintro rfl
        exact hnot s' segs' hs' hb
      simpa [hba] using hin
    by_cases hs₁ : s₁ = s
    · by_cases hs₂ : s₂ = s
      · exact hs₁.trans hs₂.symm
      · rw [if_pos hs₁] at h₁
        rw [if_neg hs₂] at h₂
        cases h₁
        exact hs₁.trans (hold s₂ segs₂ h₂ hb₂ hb₁).symm
    · rw [if_neg hs₁] at h₁
      by_cases hs₂ : s₂ = s
      · rw [if_pos hs₂] at h₂
        cases h₂
        exact (hold s₁ segs₁ h₁ hb₁ hb₂).trans hs₂.symm
      · rw [if_neg hs₂] at h₂
        exact ht.shows.disjoint s₁ segs₁ s₂ segs₂ b h₁ h₂ hb₁ hb₂
  · exact hperm.nodup_iff.2 (nodup_cons.2 ⟨ht.fresh ha, ht.nodup⟩)
  · intro b
    rw [hperm.mem_iff, ← ht.used_put (.str str' none) b, Heap.put_mem]
    by_cases hbc : b = c
    · simp [hbc, hca, Heap.called, hend]
    · rw [if_neg hbc]
  · have hfew := ht.few
    rw [hperm.length_eq, length_cons]
    exact Nat.succ_le_succ hfew

theorem addSegs_spec {values : List (List ℕ)} (ht : Tree h st vs as)
    (hs : st.strs s = some (segs ++ [(c, str)]))
    (hgrant : ∀ i < values.length, mm.grant (h.calls + i) = true) :
    ∃ h' segs' as', Heap.addSegs mm h c values = .ok (h', true) ∧
      Tree h' (st.setStr s (some (segs ++ (c, str) :: segs'))) vs as' ∧
      segs'.map Prod.snd = values.map (fun value => ⟨value, none, false⟩) := by
  induction values generalizing h st as segs c str with
  | nil =>
    refine ⟨h, [], as, rfl, ?_, rfl⟩
    have hsame : st.setStr s (some (segs ++ [(c, str)])) = st := by
      rw [Store.setStr, ← hs, Function.update_eq_self]
    rwa [hsame]
  | cons value values ih =>
    have hget : h.getStr c = .ok (str, none) := by
      rw [Heap.getStr, (ht.shows.strs s _ hs).end]
    obtain ⟨a, ha, halloc⟩ := callocmem_spec ht (hgrant 0 (Nat.succ_pos _))
      (.str ⟨value, none, false⟩ none)
    obtain ⟨as₁, ht₁, -⟩ := @Tree.addseg _ _ _ _ a _ _ _ _ ⟨value, none, false⟩ ht hs ha
    have hs₁ : (st.setStr s (some (segs ++ [(c, str), (a, ⟨value, none, false⟩)]))).strs s =
        some ((segs ++ [(c, str)]) ++ [(a, ⟨value, none, false⟩)]) := by simp
    obtain ⟨h', segs', as', hrun, ht', htexts⟩ := ih ht₁ hs₁ fun i hi => by
      have := hgrant (i + 1) (Nat.succ_lt_succ hi)
      rwa [← add_assoc, add_right_comm] at this
    refine ⟨h', (a, ⟨value, none, false⟩) :: segs', as', ?_, ?_, ?_⟩
    · simp only [Heap.addSegs, Heap.addsegtostr, hget, halloc, crash_bind]
      exact hrun
    · have hsame : (st.setStr s (some (segs ++ [(c, str), (a, ⟨value, none, false⟩)]))).setStr s
          (some ((segs ++ [(c, str)]) ++ (a, ⟨value, none, false⟩) :: segs')) =
          st.setStr s (some (segs ++ (c, str) :: (a, ⟨value, none, false⟩) :: segs')) := by
        rw [Store.setStr, Store.setStr, Store.setStr, Function.update_idem, append_assoc,
          singleton_append]
      rwa [hsame] at ht'
    · rw [map_cons, map_cons, htexts]

end Qse.Xli
