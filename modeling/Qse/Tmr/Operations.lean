import Qse.Tmr.Queue
import Mathlib.Data.Multiset.ZeroCons

/-!
# The operations of a timer

What each operation does to the events, which are a heap before and after it.
-/

open List

namespace Qse.Tmr

open BinaryHeap StateProgram

/-- The timer holds the events `l` in a heap. -/
def Queue (ok : NTime → Prop) (t : Tmr) (l : List Entry) : Prop :=
  ∃ l', l'.Perm l ∧ Holds ok t l' ∧ IsHeap Entry.Before l'

section Operations

variable {ok : NTime → Prop} {t : Tmr} {l : List Entry} {i k : ℕ} {x y : Entry}

theorem Seated.answered (h : Seated ok t l x k) {id : ℕ} (hid : id = x.id) :
    Queue ok { t with news := t.news ++ [.answer id k] } l := by
  obtain ⟨l', hperm, hx, hholds, hheap, hslot⟩ := h
  exact ⟨l', hperm, hholds.learn hx hslot (n := .answer id k) hid rfl, hheap⟩

theorem Seated.queue (h : Seated ok t l x k) (hknown : known t.news x.id = k) : Queue ok t l := by
  obtain ⟨l', hperm, hx, hholds, hheap, hslot⟩ := h
  refine ⟨l', hperm, ⟨hholds.wellFormed, hholds.size, ?_, hholds.times, hholds.nodup,
    hholds.accounted, ?_⟩, hheap⟩
  · intro j z _ hz
    by_cases hj : j = k
    · subst hj
      rw [hx] at hz
      cases hz
      exact hslot
    · exact hholds.slots j z hj hz
  · intro j z _ hz
    by_cases hj : j = k
    · subst hj
      rw [hx] at hz
      cases hz
      exact hknown
    · exact hholds.tracks j z hj hz

theorem Holds.leave {l' : List Entry} (h : Holds ok t l) (hperm : (x :: l').Perm l)
    (hback : ∀ (j : ℕ) (z : Entry), j ≠ i → l'[j]? = some z → l[j]? = some z) (old : ℕ) :
    HoldsBut ok { t with size := l'.length, news := t.news ++ [.report x old invalidIndex] }
      l' i := by
  have hnodup := (hperm.map Entry.id).nodup_iff.mpr h.nodup
  obtain ⟨hnot, hnd⟩ := nodup_cons.mp hnodup
  have hlen := hperm.length_eq
  have hsize := h.size
  have hcapa := h.wellFormed.size_le
  rw [length_cons] at hlen
  refine ⟨⟨h.wellFormed.capa_pos, ?_, h.wellFormed.block, h.wellFormed.small⟩, rfl, ?_, ?_, hnd,
    (h.accounted.perm (hperm.map Entry.id)).leave hnot old, ?_⟩
  · change l'.length ≤ t.capa
    omega
  · exact fun j z hj hz => h.slot (hback j z hj hz)
  · exact fun z hz => h.times z (hperm.mem_iff.mp (mem_cons_of_mem x hz))
  · intro j z hj hz
    have hne : z.id ≠ x.id := by
      intro hid
      exact hnot (hid ▸ mem_map_of_mem (mem_of_getElem? hz))
    rw [known_snoc]
    exact (Function.update_of_ne hne _ _).trans (h.position j z (hback j z hj hz))

variable (hok : ∀ a b, ok a → ok b → a.Comparable b)
include hok

theorem refill_returns {n : ℕ} (hheap : IsHeap Entry.Before l) (hn : l.length = n + 1)
    (hi : i < n) (hx : l[i]? = some x) (hcmp : ok x.event.when)
    (h : HoldsBut ok t ((l.take n).set i y) i) (hlast : t.event[n]? = some y) :
    Returns (refill i x) t fun _ t' =>
      Queue ok t' ((l.take n).set i y) ∧ t'.next = t.next := by
  have hlen : (l.take n).length = n := by
    rw [length_take]
    omega
  have hsize : t.size = n := by rw [h.size, length_set, hlen]
  have hxt : (l.take n)[i]? = some x := by rw [getElem?_take_of_lt hi, hx]
  have hyt : ((l.take n).set i y)[i]? = some y := getElem?_set_self (by omega)
  have hlt := h.lt_event hyt
  have hslot : (t.event.set i y)[i]? = some y := getElem?_set_self hlt
  have hholds := (h.fill y).learn hyt hslot (n := .report y n i) rfl rfl
  have hcmp' : y.event.when.Comparable x.event.when :=
    hok _ _ (h.times y (mem_of_getElem? hyt)) hcmp
  rw [refill, returns_bind, returns_get, hsize, returns_bind, returns_load hlast, returns_bind,
    returns_store hlt, returns_bind, returns_callUpdater, returns_bind, returns_youngerThan hcmp',
    returns_bind]
  refine (sift_returns hok (hheap.take n) hxt (hholds.but i) hslot true).mono ?_
  rintro k t' ⟨hnext, hseated, hknown⟩
  exact returns_pure.mpr ⟨hseated.queue (hknown rfl (hholds.position i y hyt)), hnext⟩

theorem delete_returns (h : Holds ok t l) (hheap : IsHeap Entry.Before l) (hx : l[i]? = some x) :
    Returns (delete i) t fun _ t' =>
      ∃ l', (x :: l').Perm l ∧ Queue ok t' l' ∧ t'.next = t.next := by
  have hi := (List.getElem?_eq_some_iff.mp hx).1
  have hsize := h.size
  obtain ⟨n, hn⟩ : ∃ n, l.length = n + 1 := ⟨l.length - 1, by omega⟩
  have hpred : t.size - 1 = n := by omega
  have hback : ∀ (j : ℕ) (z : Entry), (l.take n)[j]? = some z → l[j]? = some z := by
    intro j z hz
    have hj := (List.getElem?_eq_some_iff.mp hz).1
    rw [length_take] at hj
    rwa [getElem?_take_of_lt (by omega)] at hz
  have hlen : (l.take n).length = n := by
    rw [length_take]
    omega
  rw [delete, returns_bind, returns_load (h.slot hx), returns_bind, returns_callUpdater,
    returns_bind, returns_get, returns_bind, returns_setSize, hpred]
  refine returns_ite (fun ⟨_, hne⟩ => ?_) fun hend => ?_
  · have hin : i < n := by omega
    have hy : l[n]? = some l[n] := getElem?_eq_getElem (by omega)
    have hperm := take_set_perm hn hin hx hy
    have hleft := h.leave (i := i) hperm (fun j z hj hz => by
      rw [getElem?_set_ne hj.symm] at hz
      exact hback j z hz) i
    rw [length_set, hlen] at hleft
    refine (refill_returns hok hheap hn hin hx (h.times x (mem_of_getElem? hx)) hleft
      (h.slot hy)).mono ?_
    rintro - t' ⟨hqueue, hnext⟩
    exact ⟨_, hperm, hqueue, hnext⟩
  · obtain rfl : i = n := by omega
    have hperm : (x :: l.take i).Perm l := by
      have htake := take_append_drop i l
      rw [drop_eq_getElem_cons hi, drop_of_length_le (by omega)] at htake
      rw [getElem?_eq_getElem hi] at hx
      cases hx
      exact (perm_append_singleton _ _).symm.trans (List.Perm.of_eq htake)
    have hleft := h.leave (i := (l.take i).length) hperm (fun j z _ hz => hback j z hz) i
    rw [hlen] at hleft
    have hholds : Holds ok { t with size := i, news := t.news ++ [.report x i invalidIndex] }
        (l.take i) := by
      rw [Holds, hlen]
      exact hleft
    exact returns_pure.mpr ⟨_, hperm, ⟨_, List.Perm.refl _, hholds, hheap.take i⟩, rfl⟩

omit hok in
theorem newBlock_length (env : TmrEnv) (old : List Entry) {capa : ℕ}
    (hcapa : capa * sizeofEvent < 2 ^ 64) : (newBlock env old capa).length = capa := by
  rw [newBlock, length_map, length_range, blockBytes, Nat.mod_eq_of_lt hcapa]
  exact Nat.mul_div_cancel capa (by decide)

omit hok in
theorem makeRoom_returns (h : Holds ok t l) (env : TmrEnv) :
    Returns (makeRoom env) t fun room t' => t'.next = t.next ∧ t'.size = t.size ∧ Holds ok t' l ∧
      (room = true → t'.size < t'.capa) ∧ (room = false → t' = t ∧ t.capa = t.size ∧
        env.grant (blockBytes (t.capa * 2 % 2 ^ 64)) = false) := by
  have hsize := h.wellFormed.size_le
  have hpos := h.wellFormed.capa_pos
  have hsmall := h.wellFormed.small
  rw [makeRoom, returns_bind, returns_get]
  refine returns_ite (fun hfull => ?_) fun hroom => ?_
  · have hmod : t.capa * 2 % 2 ^ 64 = t.capa * 2 := by
      rw [sizeofEvent] at hsmall
      exact Nat.mod_eq_of_lt (by omega)
    dsimp only
    rw [hmod]
    refine returns_ite (fun hgrant => ?_) fun hrefused => ?_
    · have hbytes : blockBytes (t.capa * 2) = t.capa * 2 * sizeofEvent := by
        rw [blockBytes]
        apply Nat.mod_eq_of_lt
        rw [sizeofEvent] at hsmall ⊢
        omega
      have hlt := env.grant_lt _ hgrant
      rw [hbytes] at hlt
      have hwrap : t.capa * 2 * sizeofEvent < 2 ^ 64 := by omega
      have hlen := newBlock_length env t.event hwrap
      rw [returns_bind]
      refine returns_modify (f := fun _ =>
        { t with event := newBlock env t.event (t.capa * 2), capa := t.capa * 2 }).mpr ?_
      rw [returns_pure]
      refine ⟨rfl, rfl, ⟨⟨?_, ?_, hlen, hlt⟩, h.size, ?_, h.times, h.nodup, h.accounted,
        h.tracks⟩, fun _ => ?_, fun hno => by cases hno⟩
      · change 0 < t.capa * 2
        omega
      · change t.size ≤ t.capa * 2
        omega
      · intro j z _ hz
        have hslot := h.slot hz
        have hj := h.lt_event hz
        rw [h.wellFormed.block] at hj
        change (newBlock env t.event (t.capa * 2))[j]? = some z
        rw [newBlock, getElem?_map, getElem?_range, Option.map_some, hslot, Option.getD_some]
        rw [newBlock, length_map, length_range] at hlen
        omega
      · change t.size < t.capa * 2
        omega
    · refine returns_pure.mpr ⟨rfl, rfl, h, fun hyes => (by cases hyes), fun _ => ?_⟩
      exact ⟨rfl, by omega, Bool.eq_false_iff.mpr hrefused⟩
  · refine returns_pure.mpr ⟨rfl, rfl, h, fun _ => ?_, fun hno => by cases hno⟩
    exact Nat.lt_of_not_le hroom

theorem insert_returns (h : Holds ok t l) (hheap : IsHeap Entry.Before l) (env : TmrEnv)
    {event : Event} (hevent : ok event.when) :
    Returns (insert env event) t fun k t' =>
      (k ≠ invalidIndex ∧ t'.next = t.next + 1 ∧
          Seated ok t' (l ++ [⟨t.next, event⟩]) ⟨t.next, event⟩ k) ∨
        (k = invalidIndex ∧ t' = t ∧ t.capa = t.size ∧
          env.grant (blockBytes (t.capa * 2 % 2 ^ 64)) = false) := by
  rw [insert, returns_bind, returns_get, returns_bind]
  refine (makeRoom_returns h env).mono ?_
  rintro room t1 ⟨hnext, hsize, hholds, hroom, hrefused⟩
  refine returns_ite (fun hyes => ?_) fun hno => ?_
  · have hlt := hroom hyes
    have hl : t.size = l.length := h.size
    have hblock := hholds.wellFormed.block
    have hids : ∀ id ∈ l.map Entry.id, id < t.next := fun id hid => (h.accounted.inside id hid).1
    rw [returns_bind, returns_setSize, returns_bind, returns_store (by dsimp only; omega),
      returns_bind, returns_modify]
    have hx : (l ++ [(⟨t.next, event⟩ : Entry)])[l.length]? = some ⟨t.next, event⟩ := by simp
    have hslot : (t1.event.set t.size ⟨t.next, event⟩)[l.length]? = some ⟨t.next, event⟩ := by
      rw [hl]
      exact getElem?_set_self (by omega)
    have hback : ∀ (j : ℕ) (z : Entry), j ≠ l.length →
        (l ++ [(⟨t.next, event⟩ : Entry)])[j]? = some z → l[j]? = some z := by
      intro j z hj hz
      have hjl := (List.getElem?_eq_some_iff.mp hz).1
      rw [length_append, length_singleton] at hjl
      rwa [getElem?_append_left (by omega)] at hz
    have hbut : HoldsBut ok
        { t1 with size := t.size + 1, event := t1.event.set t.size ⟨t.next, event⟩,
                  next := t1.next + 1 }
        (l ++ [⟨t.next, event⟩]) l.length := by
      refine ⟨⟨hholds.wellFormed.capa_pos, ?_, length_set.trans hblock,
        hholds.wellFormed.small⟩, ?_, ?_, ?_, ?_, ?_, ?_⟩
      · change t.size + 1 ≤ t1.capa
        omega
      · rw [length_append, length_singleton, hl]
      · intro j z hj hz
        rw [hl, getElem?_set_ne hj.symm]
        exact hholds.slot (hback j z hj hz)
      · intro z hz
        rcases mem_append.mp hz with hz | hz
        · exact h.times z hz
        · rw [mem_singleton.mp hz]
          exact hevent
      · rw [map_append, nodup_append]
        refine ⟨h.nodup, by simp, ?_⟩
        rintro a ha b hb rfl
        rw [map_singleton, mem_singleton] at hb
        subst hb
        exact absurd (hids _ ha) (lt_irrefl t.next)
      · rw [map_append, map_singleton]
        exact hholds.accounted.enter hnext
      · exact fun j z hj hz => hholds.position j z (hback j z hj hz)
    rw [hl] at hbut ⊢
    rw [hl] at hslot
    refine (siftUp_returns hok hbut hx hslot (hheap.append _) false).mono ?_
    rintro k t2 ⟨hnext2, hseated, -⟩
    refine .inl ⟨?_, by rw [hnext2, ← hnext], hseated⟩
    obtain ⟨l', -, hx', hholds', -⟩ := hseated
    exact hholds'.ne_invalid hx'
  · rw [returns_pure]
    obtain ⟨rfl, hfull, hgrant⟩ := hrefused (Bool.eq_false_iff.mpr hno)
    exact .inr ⟨rfl, rfl, hfull, hgrant⟩

theorem update_returns (h : Holds ok t l) (hheap : IsHeap Entry.Before l)
    (hx : l[i]? = some x) {event : Event} (hevent : ok event.when) :
    Returns (update i event) t fun k t' =>
      k ≠ invalidIndex ∧ t'.next = t.next ∧
        Seated ok t' (l.set i ⟨x.id, event⟩) ⟨x.id, event⟩ k := by
  have hi := (List.getElem?_eq_some_iff.mp hx).1
  have hlt := h.lt_event hx
  have hids : (l.set i ⟨x.id, event⟩).map Entry.id = l.map Entry.id := by
    rw [getElem?_eq_getElem hi] at hx
    cases hx
    rw [map_set, ← getElem_map Entry.id (h := by rwa [length_map])]
    exact set_getElem_self _
  have hbut : HoldsBut ok { t with event := t.event.set i ⟨x.id, event⟩ }
      (l.set i ⟨x.id, event⟩) i := by
    refine ⟨⟨h.wellFormed.capa_pos, h.wellFormed.size_le,
      length_set.trans h.wellFormed.block, h.wellFormed.small⟩,
      h.size.trans length_set.symm, ?_, ?_, hids ▸ h.nodup, hids ▸ h.accounted, ?_⟩
    · intro j z hj hz
      rw [getElem?_set_ne hj.symm] at hz ⊢
      exact h.slot hz
    · intro z hz
      rcases mem_or_eq_of_mem_set hz with hz | rfl
      · exact h.times z hz
      · exact hevent
    · intro j z hj hz
      rw [getElem?_set_ne hj.symm] at hz
      exact h.position j z hz
  have hslot : (t.event.set i ⟨x.id, event⟩)[i]? = some ⟨x.id, event⟩ :=
    getElem?_set_self hlt
  have hcmp : event.when.Comparable x.event.when :=
    hok _ _ hevent (h.times x (mem_of_getElem? hx))
  rw [update, returns_bind, returns_load (h.slot hx), returns_bind, returns_store hlt,
    returns_bind, returns_youngerThan hcmp]
  refine (sift_returns hok hheap hx hbut hslot false).mono ?_
  rintro k t' ⟨hnext, hseated, -⟩
  refine ⟨?_, hnext, hseated⟩
  obtain ⟨l', -, hx', hholds', -⟩ := hseated
  exact hholds'.ne_invalid hx'

theorem expire_returns (h : Holds ok t l) (hheap : IsHeap Entry.Before l) {now : NTime}
    (hnow : ∀ a, ok a → a.Comparable now) :
    Returns (expire now) t fun due t' =>
      (due = none ∧ t' = t ∧ ∀ e, l[0]? = some e → now.Before e.event.when) ∨
        ∃ e l', due = some e ∧ l[0]? = some e ∧ ¬now.Before e.event.when ∧
          (e :: l').Perm l ∧ Queue ok t' l' ∧ t'.next = t.next := by
  rw [expire, returns_bind, returns_get]
  refine returns_ite (fun hpos => ?_) fun hzero => ?_
  · have hl : 0 < l.length := by rwa [← h.size]
    have hx : l[0]? = some l[0] := getElem?_eq_getElem hl
    rw [returns_bind, returns_load (h.slot hx), returns_bind]
    refine returns_cmpTimes (hnow _ (h.times _ (getElem_mem hl))) fun d _ hpos => ?_
    refine returns_ite (fun hlater => ?_) fun hdue => ?_
    · refine returns_pure.mpr (.inl ⟨rfl, rfl, fun e he => ?_⟩)
      rw [hx] at he
      cases he
      exact hpos.mp hlater
    · rw [returns_bind, returns_load (h.slot hx), returns_bind]
      refine (delete_returns hok h hheap hx).mono ?_
      rintro - t' ⟨l', hperm, hqueue, hnext⟩
      refine returns_pure.mpr (.inr ⟨_, l', rfl, hx, ?_, hperm, hqueue, hnext⟩)
      exact fun hbefore => hdue (hpos.mpr hbefore)
  · refine returns_pure.mpr (.inl ⟨rfl, rfl, fun e he => ?_⟩)
    have hlt := (List.getElem?_eq_some_iff.mp he).1
    exact absurd (h.size ▸ hlt) hzero

end Operations

end Qse.Tmr
