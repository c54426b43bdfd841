import Qse.Arr.Heap
import Mathlib.Data.Multiset.ZeroCons

/-!
# Runs of a heap over an array

The heap functions as one type of calls, what each does to the multiset of the
elements, and the arrays that sequences of calls lead to.
-/

open List Option Option

namespace Qse.Arr

open BinaryHeap StateProgram

variable {ε : Type}

/-! ## Operations -/

section Operations

variable {s t : Arr ε} {apart : Prop} {l : List (Item ε)} {i : ℕ} {d x : Item ε}

theorem Holds.view_eq (h : Holds s apart t l) : t.view = l.map some := by
  apply ext_getElem?
  intro j
  rw [view_getElem?, getElem?_map, h.size]
  split
  · rename_i hj
    have hx : l[j]? = some l[j] := getElem?_eq_getElem hj
    rw [h.slot hx, hx, map_some]
  · rename_i hj
    rw [getElem?_eq_none (by omega), map_none]

theorem Holds.view_item (h : Holds s apart t l) {i : ℕ} {x : Item ε} :
    t.view[i]? = some (some x) ↔ l[i]? = some x := by
  rw [h.view_eq, getElem?_map]
  cases l[i]? with
  | none => simp
  | some y => simp

theorem slot_of_view {t : Arr ε} {i : ℕ} {c : Option (Item ε)} (h : t.view[i]? = some c) :
    t.slot[i]? = some c := by
  rw [view_getElem?] at h
  split at h
  · exact h
  · cases h

theorem Holds.became {t' : Arr ε} {l' : List (Item ε)} (h : Holds s apart t l)
    (hb : Became t t' (l'.map some)) (hsame : ∀ j y, j ≠ i → l'[j]? = some y → l[j]? = some y)
    (hnd : apart → (l'.map Item.ptr).Nodup) : HoldsBut t' apart t' l' i where
  wellFormed := hb.wellFormed
  style := SameStyle.refl t'
  capa := rfl
  size := by rw [← hb.wellFormed.view_length, hb.view, length_map]
  slots := by
    intro j y _ hy
    apply slot_of_view
    rw [hb.view, getElem?_map, hy, map_some]
  offset := fun ha => by
    rw [hb.style.heapPosOffset]
    exact h.offset ha
  nodup := hnd
  tracks := by
    intro ha j y hj hy
    rw [hb.style.posField]
    exact h.position ha j y (hsame j y hj hy)

/-- An array that compares and stores positions like `t` holds the elements `l` in a
heap. -/
def Kept (t : Arr ε) (apart : Prop) (t' : Arr ε) (l : List (Item ε)) : Prop :=
  Heaped t' apart t' l ∧ t'.comper = t.comper ∧ t'.heapPosOffset = t.heapPosOffset

theorem Heaped.kept {u : Arr ε} (h : Heaped s apart u l) (hcomper : s.comper = t.comper)
    (hoffset : s.heapPosOffset = t.heapPosOffset) : Kept t apart u l := by
  obtain ⟨l', hperm, hholds, hheap⟩ := h
  have habove : u.Above = s.Above := by
    funext x y
    rw [Above, Above, hholds.comper]
  refine ⟨⟨l', hperm, ⟨hholds.wellFormed, SameStyle.refl u, rfl, hholds.size, hholds.slots,
    hholds.offset, hholds.nodup, hholds.tracks⟩, habove ▸ hheap⟩, ?_, ?_⟩
  · rw [hholds.comper, hcomper]
  · rw [← hoffset]
    exact hholds.style.heapPosOffset

theorem pushheap_returns (hs : TotalPreorder t.comper) (h : Holds t apart t l)
    (hheap : IsHeap t.Above l) {env : ArrEnv ε} (hok : t.InsertOk env t.size d)
    (hapart : apart → ∀ x, t.allocSlot env d = some x → x.ptr ∉ l.map Item.ptr) :
    Returns (pushheap env d) t fun r t' =>
      (r = t.size + 1 ∧ ∃ x, t.allocSlot env d = some x ∧ Kept t apart t' (l ++ [x])) ∨
        (r = arrNil ∧ Kept t apart t' l ∧ (t.allocSlot env d = none ∨ t.NoRoom env t.size)) := by
  have hsmall := h.wellFormed.small
  have hsize := h.wellFormed.size_le
  rw [pushheap, returns_bind, returns_get, returns_bind]
  refine (insert_returns h.wellFormed hok).mono ?_
  rintro r t1 ⟨l1, hb, ⟨rfl, x, halloc, rfl⟩ | ⟨rfl, rfl, hno⟩⟩
  · rw [if_neg (by rw [arrNil]; omega)]
    have hview : insertList t.view t.size (some x) = (l ++ [x]).map some := by
      rw [insertList, h.view_eq, length_map, h.size, drop_of_length_le (by simp),
        take_of_length_le (by simp)]
      simp
    rw [hview] at hb
    have hnd : apart → ((l ++ [x]).map Item.ptr).Nodup := by
      intro ha
      rw [map_append, nodup_append]
      refine ⟨h.nodup ha, by simp, ?_⟩
      rintro a ha' b hb' rfl
      rw [map_singleton, mem_singleton] at hb'
      exact hapart ha x halloc (hb' ▸ ha')
    have hholds : HoldsBut t1 apart t1 (l ++ [x]) l.length := by
      refine h.became hb (fun j y hj hy => ?_) hnd
      have hlt := (List.getElem?_eq_some_iff.mp hy).1
      rw [length_append, length_singleton] at hlt
      rwa [getElem?_append_left (by omega)] at hy
    have hx : (l ++ [x])[l.length]? = some x := by simp
    have hslot : t1.slot[l.length]? = some (some x) := by
      apply slot_of_view
      rw [hb.view, getElem?_map, hx, map_some]
    rw [h.size, returns_bind, returns_heapUpdatePos hslot, returns_bind]
    have habove : t1.Above = t.Above := by
      funext x y
      rw [Above, Above, hb.style.comper]
    refine (siftUp_returns (hb.style.comper ▸ hs) (hholds.positioned hx hslot)
      (habove ▸ hheap.append x) (by simp)).mono ?_
    intro _ t2 hheaped
    rw [returns_bind, returns_get, returns_pure]
    refine .inl ⟨?_, x, halloc, hheaped.kept hb.style.comper hb.style.heapPosOffset⟩
    obtain ⟨l2, hperm, hholds2, -⟩ := hheaped
    rw [hholds2.size, hperm.length_eq, length_append, length_singleton]
  · rw [if_pos rfl, returns_pure]
    rw [h.view_eq] at hb
    have hheaped : Heaped t1 apart t1 l := by
      have habove : t1.Above = t.Above := by
        funext x y
        rw [Above, Above, hb.style.comper]
      exact ⟨l, List.Perm.refl l, h.became hb (fun _ _ _ hy => hy) h.nodup, habove ▸ hheap⟩
    exact .inr ⟨rfl, hheaped.kept hb.style.comper hb.style.heapPosOffset, hno⟩

theorem refill_returns (hs : TotalPreorder s.comper) (h : Holds s apart t l)
    (hheap : IsHeap s.Above l) {n : ℕ} (hn : l.length = n + 1) (hi : i < n) (hx : l[i]? = some x) :
    Returns (refill i (some x)) { t with size := n } fun _ t' =>
      ∃ l', (x :: l').Perm l ∧ Heaped s apart t' l' := by
  have hw := above_strictWeak hs
  have hy : l[n]? = some l[n] := getElem?_eq_getElem (by omega)
  generalize l[n] = y at hy
  have hperm := take_set_perm hn hi hx hy
  have hsize := h.wellFormed.size_le
  have hil := h.lt_slot hx
  have hnl := h.lt_slot hy
  have hlen : ((l.take n).set i y).length = n := by
    rw [length_set, length_take]
    omega
  have hxt : (l.take n)[i]? = some x := by rw [getElem?_take_of_lt hi, hx]
  have hback : ∀ j z, j ≠ i → ((l.take n).set i y)[j]? = some z → l[j]? = some z := by
    intro j z hj hz
    have hjn := (List.getElem?_eq_some_iff.mp hz).1
    rw [hlen] at hjn
    rwa [getElem?_set_ne hj.symm, getElem?_take_of_lt hjn] at hz
  have hnd : apart → (((l.take n).set i y).map Item.ptr).Nodup := by
    intro ha
    have hall := (hperm.map Item.ptr).nodup_iff.mpr (h.nodup ha)
    exact (nodup_cons.mp hall).2
  have hbut : HoldsBut s apart { t with size := n } ((l.take n).set i y) i := by
    refine ⟨⟨?_, h.wellFormed.block, h.wellFormed.small⟩, ?_, h.capa, hlen.symm, ?_, h.offset,
      hnd, ?_⟩
    · change n ≤ t.capa
      rw [h.size] at hsize
      omega
    · exact ⟨h.style.copier, h.style.freeer, h.style.keeper, h.style.sizer, h.style.comper,
        h.style.heapPosOffset, rfl⟩
    · exact fun j z hj hz => h.slot (hback j z hj hz)
    · exact fun ha j z hj hz => h.position ha j z (hback j z hj hz)
  have hyt : ((l.take n).set i y)[i]? = some y :=
    getElem?_set_self (List.getElem?_eq_some_iff.mp hxt).1
  have hslot : (t.slot.set i (some y))[i]? = some (some y) := getElem?_set_self hil
  have hholds := (hbut.fill y).positioned hyt hslot
  have hfinish : ∀ t', Heaped s apart t' ((l.take n).set i y) →
      ∃ l', (x :: l').Perm l ∧ Heaped s apart t' l' := fun t' h' => ⟨_, hperm, h'⟩
  rw [refill, returns_bind, returns_get, returns_bind, returns_load]
  refine ⟨hnl, ?_⟩
  dsimp only
  rw [getD_eq_getElem?_getD, h.slot hy, getD_some, returns_bind, returns_store]
  refine ⟨hil, ?_⟩
  dsimp only
  rw [returns_bind, returns_heapUpdatePos hslot, returns_bind, returns_element (hholds.slot hyt),
    returns_bind, returns_deref]
  refine ⟨x, rfl, ?_⟩
  rw [returns_bind, returns_compare, hholds.comper]
  refine returns_ite (fun hgt => ?_) fun hle => returns_ite (fun hlt => ?_) fun hge => ?_
  · rw [returns_bind]
    have hrise := (hheap.take n).set_rise hw hxt hgt
    refine (siftUp_returns hs hholds hrise (by omega)).mono fun _ t' h' => ?_
    exact returns_pure.mpr (hfinish t' h')
  · rw [returns_bind]
    have hsink := (hheap.take n).set_sink hw hxt hle
    refine (siftDown_returns hs hholds hsink (by omega)).mono fun _ t' h' => ?_
    exact returns_pure.mpr (hfinish t' h')
  · have hsame : ¬s.Above x y := fun hxy => hge ((hs.swap x y).mp hxy)
    exact returns_pure.mpr (hfinish _ ⟨_, List.Perm.refl _, hholds,
      (hheap.take n).set_same hw hxt hle hsame⟩)

theorem Heaped.release_returns (h : Heaped s apart t l) (hroom : l.length < t.capa) :
    Returns (do destroy (some x); let t ← get; store t.size none) t fun _ t' =>
      Heaped s apart t' l := by
  obtain ⟨l', hperm, hholds, hheap⟩ := h
  have hlog : ∀ cs : List Call, Heaped s apart
      { t with slot := t.slot.set t.size none, calls := cs } l := by
    refine fun cs => ⟨l', hperm, ⟨⟨hholds.wellFormed.size_le,
      length_set.trans hholds.wellFormed.block, hholds.wellFormed.small⟩,
      ⟨hholds.style.copier, hholds.style.freeer, hholds.style.keeper, hholds.style.sizer,
        hholds.style.comper, hholds.style.heapPosOffset, rfl⟩, hholds.capa, hholds.size, ?_,
      hholds.offset, hholds.nodup, hholds.tracks⟩, hheap⟩
    intro j y hj hy
    have hjl := (List.getElem?_eq_some_iff.mp hy).1
    have hsize := hholds.size
    rw [getElem?_set_ne (by omega)]
    exact hholds.slots j y hj hy
  have hslot : t.size < t.slot.length := by
    rw [hholds.size, hholds.wellFormed.block, hperm.length_eq]
    exact hroom
  rw [returns_bind, destroy, returns_bind, returns_get]
  refine returns_ite (fun _ => ?_) fun _ => ?_
  · rw [returns_bind, returns_deref]
    refine ⟨x, rfl, ?_⟩
    rw [returns_freeSlot, returns_bind, returns_get, returns_store]
    exact ⟨hslot, hlog _⟩
  · rw [returns_pure, returns_bind, returns_get, returns_store]
    exact ⟨hslot, hlog t.calls⟩

theorem deleteheap_returns (hs : TotalPreorder t.comper) (h : Holds t apart t l)
    (hheap : IsHeap t.Above l) (hx : l[i]? = some x) :
    Returns (deleteheap i) t fun _ t' => ∃ l', (x :: l').Perm l ∧ Kept t apart t' l' := by
  have hi := (List.getElem?_eq_some_iff.mp hx).1
  have hil := h.lt_slot hx
  have hsize := h.size
  have hcapa := h.wellFormed.size_le
  obtain ⟨n, hn⟩ : ∃ n, l.length = n + 1 := ⟨l.length - 1, by omega⟩
  have hpred : t.size - 1 = n := by omega
  rw [deleteheap, returns_bind, returns_load]
  refine ⟨hil, ?_⟩
  rw [getD_eq_getElem?_getD, h.slot hx, getD_some, returns_bind, returns_get,
    returns_bind, returns_setSize, hpred, returns_bind, onlyIf]
  have hrelease : ∀ t1 l', (x :: l').Perm l → Heaped t apart t1 l' →
      Returns (do destroy (some x); let t ← get; store t.size none) t1 fun _ t' =>
        ∃ l', (x :: l').Perm l ∧ Kept t apart t' l' := by
    intro t1 l' hperm h1
    have hlen := hperm.length_eq
    rw [length_cons] at hlen
    have hroom : l'.length < t1.capa := by
      obtain ⟨_, _, hholds, _⟩ := h1
      rw [hholds.capa]
      omega
    exact (h1.release_returns hroom).mono fun _ t2 h2 => ⟨l', hperm, h2.kept rfl rfl⟩
  refine returns_ite (fun hinner => ?_) fun hlast => ?_
  · have hne := hinner.2
    refine (refill_returns hs h hheap hn (by omega) hx).mono ?_
    rintro - t1 ⟨l', hperm, h1⟩
    exact hrelease t1 l' hperm h1
  · obtain rfl : i = n := by omega
    have hperm : (x :: l.take i).Perm l := by
      have htake := take_append_drop i l
      rw [drop_eq_getElem_cons hi, drop_of_length_le (by omega)] at htake
      rw [getElem?_eq_getElem hi] at hx
      cases hx
      exact (perm_append_singleton _ _).symm.trans (List.Perm.of_eq htake)
    have hback : ∀ (j : ℕ) (z : Item ε), (l.take i)[j]? = some z → l[j]? = some z := by
      intro j z hz
      have hj := (List.getElem?_eq_some_iff.mp hz).1
      rw [length_take] at hj
      rwa [getElem?_take_of_lt (by omega)] at hz
    rw [returns_pure]
    refine hrelease _ (l.take i) hperm ⟨_, List.Perm.refl _, ⟨⟨?_, h.wellFormed.block,
      h.wellFormed.small⟩, ⟨rfl, rfl, rfl, rfl, rfl, rfl, rfl⟩, rfl, ?_, ?_, h.offset, ?_, ?_⟩,
      hheap.take i⟩
    · change i ≤ t.capa
      omega
    · rw [length_take]
      change i = min i l.length
      omega
    · exact fun j z _ hz => h.slot (hback j z hz)
    · intro ha
      have hall := (hperm.map Item.ptr).nodup_iff.mpr (h.nodup ha)
      exact (nodup_cons.mp hall).2
    · exact fun ha j z _ hz => h.position ha j z (hback j z hz)

theorem HoldsBut.sift_returns (hs : TotalPreorder s.comper) (h : HoldsBut s apart t l i)
    (hx : l[i]? = some x) (hslot : t.slot[i]? = some (some x)) {n : ℤ}
    (hrise : 0 < n → RiseAt s.Above l i) (hsink : ¬0 < n → SinkAt s.Above l i) :
    Returns (do heapUpdatePos i; let _ ← sift n i; pure i) t
      fun r t' => r = i ∧ Heaped s apart t' l := by
  have hi := (List.getElem?_eq_some_iff.mp hx).1
  have hholds := h.positioned hx hslot
  rw [returns_bind, returns_heapUpdatePos hslot, returns_bind, sift]
  refine returns_ite (fun hpos => ?_) fun hneg => ?_
  · refine (siftUp_returns hs hholds (hrise hpos) hi).mono fun _ t' h' => ?_
    exact returns_pure.mpr ⟨rfl, h'⟩
  · refine (siftDown_returns hs hholds (hsink hneg) hi).mono fun _ t' h' => ?_
    exact returns_pure.mpr ⟨rfl, h'⟩

theorem above_congr (hs : TotalPreorder t.comper) {z : Item ε} (hz : t.comper z d = 0) :
    t.Above z x ↔ t.Above d x := by
  have hswap := hs.swap d z
  have hswap' := hs.swap z d
  constructor
  · intro hzx
    by_contra hdx
    have hle := hs.trans z d x (by omega) (Int.not_lt.mp hdx)
    exact absurd hzx (Int.not_lt.mpr hle)
  · intro hdx
    by_contra hzx
    have hle := hs.trans d z x (by omega) (Int.not_lt.mp hzx)
    exact absurd hdx (Int.not_lt.mpr hle)

theorem updateheap_returns (hs : TotalPreorder t.comper) (h : Holds t apart t l)
    (hheap : IsHeap t.Above l) (env : ArrEnv ε) (hx : l[i]? = some x)
    (hcopy : ∀ z, t.allocSlot env d = some z → t.comper z d = 0)
    (hapart : apart → ∀ z, t.allocSlot env d = some z →
      ∀ j y, j ≠ i → l[j]? = some y → y.ptr ≠ z.ptr) :
    Returns (updateheap env i d) t fun r t' =>
      (t.comper d x ≠ 0 ∧ r = i ∧ ∃ z l', t.allocSlot env d = some z ∧
          (x :: l').Perm (z :: l) ∧ Kept t apart t' l') ∨
        (Kept t apart t' l ∧ (r = i ∧ (t.comper d x = 0 ∨ d.ptr = x.ptr ∧ d.len = x.len) ∨
          r = arrNil ∧ t.comper d x ≠ 0 ∧ t.allocSlot env d = none)) := by
  have hi := (List.getElem?_eq_some_iff.mp hx).1
  have hw := above_strictWeak hs
  have hsmall := h.wellFormed.small
  have hcapa := h.wellFormed.size_le
  have hsize := h.size
  have hnil : i ≠ arrNil := by
    rw [arrNil]
    omega
  have hkeep : Kept t apart t l := by
    have hheaped : Heaped t apart t l := ⟨l, List.Perm.refl l, h, hheap⟩
    exact hheaped.kept rfl rfl
  rw [updateheap, returns_bind, returns_element (h.slot hx), returns_bind, returns_compare]
  refine returns_ite (fun hzero => ?_) fun hne => ?_
  · exact returns_pure.mpr (.inr ⟨hkeep, .inl ⟨rfl, .inl hzero⟩⟩)
  rw [returns_bind]
  refine (update_returns h.wellFormed env i d).mono ?_
  rintro r t1 ⟨l1, hb, hupdated⟩
  have habove : t1.Above = t.Above := by
    funext a b
    rw [Above, Above, hb.style.comper]
  have hs1 : TotalPreorder t1.comper := hb.style.comper ▸ hs
  rcases hupdated with ⟨-, rfl, z, halloc, rfl⟩ | ⟨-, rfl, rfl, c, hc, hsame⟩ | ⟨rfl, rfl, hno⟩
  · rw [if_neg hnil]
    have hview : t.view.set r (some z) = (l.set r z).map some := by
      rw [h.view_eq, map_set]
    rw [hview] at hb
    have hzl : (l.set r z)[r]? = some z := getElem?_set_self hi
    have hback : ∀ (j : ℕ) (y : Item ε), j ≠ r → (l.set r z)[j]? = some y → l[j]? = some y := by
      intro j y hj hy
      rwa [getElem?_set_ne hj.symm] at hy
    have hperm : (x :: l.set r z).Perm (z :: l) := by
      rw [getElem?_eq_getElem hi] at hx
      cases hx
      exact ((set_perm_cons_eraseIdx hi z).cons _).trans
        ((List.Perm.swap _ _ _).trans ((getElem_cons_eraseIdx_perm hi).cons z))
    have hnd : apart → ((l.set r z).map Item.ptr).Nodup := by
      intro ha
      have hmem : z.ptr ∉ (l.eraseIdx r).map Item.ptr := by
        intro hz
        obtain ⟨y, hy, hptr⟩ := mem_map.mp hz
        obtain ⟨j, hj, hget⟩ := mem_eraseIdx_iff_getElem?.mp hy
        exact hapart ha z halloc j y hj hget hptr
      have hrest := (h.nodup ha).sublist ((eraseIdx_sublist l r).map Item.ptr)
      exact ((set_perm_cons_eraseIdx hi z).map Item.ptr).nodup_iff.mpr
        (nodup_cons.mpr ⟨hmem, hrest⟩)
    have hslot : t1.slot[r]? = some (some z) := by
      apply slot_of_view
      rw [hb.view, getElem?_map, hzl, map_some]
    refine ((h.became hb hback hnd).sift_returns hs1 hzl hslot ?_ ?_).mono ?_
    · intro hpos
      rw [habove]
      exact hheap.set_rise hw hx ((above_congr hs (hcopy z halloc)).mpr hpos)
    · intro hneg
      rw [habove]
      exact hheap.set_sink hw hx fun hzx => hneg ((above_congr hs (hcopy z halloc)).mp hzx)
    · rintro _ t2 ⟨rfl, h2⟩
      exact .inl ⟨hne, rfl, z, _, halloc, hperm, h2.kept hb.style.comper hb.style.heapPosOffset⟩
  · rw [if_neg hnil]
    rw [h.view_eq] at hb
    obtain rfl : x = c := some.inj (hx.symm.trans (h.view_item.mp hc))
    have hslot : t1.slot[r]? = some (some x) := by
      apply slot_of_view
      rw [hb.view, getElem?_map, hx, map_some]
    have hgrand := hheap.grand hw hx
    have hheld := h.became hb (i := r) (fun _ _ _ hy => hy) h.nodup
    refine (hheld.sift_returns hs1 hx hslot ?_ ?_).mono ?_
    · intro _
      rw [habove]
      exact ⟨fun j hj _ => hheap j hj, hgrand⟩
    · intro _
      rw [habove]
      exact ⟨fun j hj _ => hheap j hj, hgrand⟩
    · rintro _ t2 ⟨rfl, h2⟩
      exact .inr ⟨h2.kept hb.style.comper hb.style.heapPosOffset, .inl ⟨rfl, .inr hsame⟩⟩
  · rw [if_pos rfl, returns_pure]
    rw [h.view_eq] at hb
    have hheaped : Heaped t1 apart t1 l :=
      ⟨l, List.Perm.refl l, h.became hb (fun _ _ _ hy => hy) h.nodup, habove ▸ hheap⟩
    exact .inr ⟨hheaped.kept hb.style.comper hb.style.heapPosOffset,
      .inr ⟨rfl, hne, hno.resolve_left (by omega)⟩⟩

end Operations

/-! ## Calls -/

inductive HeapOp (ε : Type) where
  | push (env : ArrEnv ε) (d : Item ε)
  | pop
  | delete (index : ℕ)
  | update (env : ArrEnv ε) (index : ℕ) (d : Item ε)

def HeapOp.exec : HeapOp ε → ArrM ε (Option ℕ)
  | .push env d => do
    let r ← pushheap env d
    pure (some r)
  | .pop => do
    popheap
    pure none
  | .delete index => do
    deleteheap index
    pure none
  | .update env index d => do
    let r ← updateheap env index d
    pure (some r)

/-- The index lies in the array, a copy compares like what it is copied from, and a
capacity can be found for a new element. -/
def HeapOp.Ok (t : Arr ε) : HeapOp ε → Prop
  | .push env d => t.InsertOk env t.size d
  | .pop => 0 < t.size
  | .delete index => index < t.size
  | .update env index d =>
    index < t.size ∧ ∀ x, t.allocSlot env d = some x → t.comper x d = 0

/-- No element that stays in the array has the address of the new one. -/
def HeapOp.Apart (t : Arr ε) : HeapOp ε → Prop
  | .push env d => ∀ x, t.allocSlot env d = some x → ∀ y, some y ∈ t.view → y.ptr ≠ x.ptr
  | .pop => True
  | .delete _ => True
  | .update env index d => ∀ x, t.allocSlot env d = some x →
      ∀ j y, j ≠ index → t.view[j]? = some (some y) → y.ptr ≠ x.ptr

inductive HeapStep (t : Arr ε) : HeapOp ε → Option ℕ → Multiset (Item ε) → Multiset (Item ε) →
    Prop where
  | pushed {env : ArrEnv ε} {d x : Item ε} {c : Multiset (Item ε)}
      (halloc : t.allocSlot env d = some x) :
      HeapStep t (.push env d) (some (t.size + 1)) c (x ::ₘ c)
  | refused {env : ArrEnv ε} {d : Item ε} {c : Multiset (Item ε)}
      (hno : t.allocSlot env d = none ∨ t.NoRoom env t.size) :
      HeapStep t (.push env d) (some arrNil) c c
  | popped {x : Item ε} {c : Multiset (Item ε)} (hx : t.view[0]? = some (some x))
      (hgreatest : ∀ y ∈ c, ¬t.Above y x) : HeapStep t .pop none (x ::ₘ c) c
  | deleted {index : ℕ} {x : Item ε} {c : Multiset (Item ε)}
      (hx : t.view[index]? = some (some x)) : HeapStep t (.delete index) none (x ::ₘ c) c
  | updated {env : ArrEnv ε} {index : ℕ} {d x y : Item ε} {c : Multiset (Item ε)}
      (hx : t.view[index]? = some (some x)) (hne : t.comper d x ≠ 0)
      (halloc : t.allocSlot env d = some y) :
      HeapStep t (.update env index d) (some index) (x ::ₘ c) (y ::ₘ c)
  | kept {env : ArrEnv ε} {index : ℕ} {d x : Item ε} {c : Multiset (Item ε)}
      (hx : t.view[index]? = some (some x))
      (hsame : t.comper d x = 0 ∨ d.ptr = x.ptr ∧ d.len = x.len) :
      HeapStep t (.update env index d) (some index) c c
  | failed {env : ArrEnv ε} {index : ℕ} {d x : Item ε} {c : Multiset (Item ε)}
      (hx : t.view[index]? = some (some x)) (hne : t.comper d x ≠ 0)
      (halloc : t.allocSlot env d = none) :
      HeapStep t (.update env index d) (some arrNil) c c

/-- The array holds the elements `c` in a heap. -/
def HeapOf (apart : Prop) (t : Arr ε) (c : Multiset (Item ε)) : Prop :=
  ∃ l : List (Item ε), (l : Multiset (Item ε)) = c ∧ Holds t apart t l ∧ IsHeap t.Above l

variable {t : Arr ε} {apart : Prop}

theorem Kept.heapOf {t' : Arr ε} {l : List (Item ε)} (h : Kept t apart t' l) :
    HeapOf apart t' l := by
  obtain ⟨⟨l', hperm, hholds, hheap⟩, -⟩ := h
  exact ⟨l', Multiset.coe_eq_coe.mpr hperm, hholds, hheap⟩

theorem HeapOp.exec_returns {c : Multiset (Item ε)} (hs : TotalPreorder t.comper)
    (h : HeapOf apart t c) {op : HeapOp ε} (hop : op.Ok t) (hapart : apart → op.Apart t) :
    Returns op.exec t fun r t' => ∃ c', HeapStep t op r c c' ∧ HeapOf apart t' c' ∧
      t'.comper = t.comper ∧ t'.heapPosOffset = t.heapPosOffset := by
  obtain ⟨l, rfl, hholds, hheap⟩ := h
  have hitem : ∀ i, i < t.size → ∃ x, l[i]? = some x := by
    intro i hi
    rw [hholds.size] at hi
    exact ⟨l[i], getElem?_eq_getElem hi⟩
  cases op with
  | push env d =>
    rw [HeapOp.exec, returns_bind]
    have hnew : apart → ∀ x, t.allocSlot env d = some x → x.ptr ∉ l.map Item.ptr := by
      intro ha x halloc hx
      obtain ⟨y, hy, hptr⟩ := mem_map.mp hx
      refine hapart ha x halloc y ?_ hptr
      rw [hholds.view_eq]
      exact mem_map_of_mem hy
    refine (pushheap_returns hs hholds hheap hop hnew).mono ?_
    rintro r t' (⟨rfl, x, halloc, hkept⟩ | ⟨rfl, hkept, hno⟩)
    · have hcoe : ((l ++ [x] : List (Item ε)) : Multiset (Item ε)) = x ::ₘ l := by
        rw [Multiset.cons_coe]
        exact Multiset.coe_eq_coe.mpr (perm_append_singleton x l)
      exact returns_pure.mpr ⟨_, .pushed halloc, hcoe ▸ hkept.heapOf, hkept.2⟩
    · exact returns_pure.mpr ⟨_, .refused hno, hkept.heapOf, hkept.2⟩
  | pop =>
    obtain ⟨x, hx⟩ := hitem 0 hop
    rw [HeapOp.exec, returns_bind, popheap]
    refine (deleteheap_returns hs hholds hheap hx).mono ?_
    rintro - t' ⟨l', hperm, hkept⟩
    rw [← Multiset.coe_eq_coe.mpr hperm, ← Multiset.cons_coe]
    refine returns_pure.mpr ⟨_, .popped (hholds.view_item.mpr hx) fun y hy => ?_,
      hkept.heapOf, hkept.2⟩
    have hmem : y ∈ l := hperm.mem_iff.mp (mem_cons_of_mem x (Multiset.mem_coe.mp hy))
    obtain ⟨j, hj⟩ := getElem?_of_mem hmem
    exact hheap.root (above_strictWeak hs) hx hj
  | delete index =>
    obtain ⟨x, hx⟩ := hitem index hop
    rw [HeapOp.exec, returns_bind]
    refine (deleteheap_returns hs hholds hheap hx).mono ?_
    rintro - t' ⟨l', hperm, hkept⟩
    rw [← Multiset.coe_eq_coe.mpr hperm, ← Multiset.cons_coe]
    exact returns_pure.mpr ⟨_, .deleted (hholds.view_item.mpr hx), hkept.heapOf, hkept.2⟩
  | update env index d =>
    obtain ⟨x, hx⟩ := hitem index hop.1
    have hother : apart → ∀ z, t.allocSlot env d = some z →
        ∀ j y, j ≠ index → l[j]? = some y → y.ptr ≠ z.ptr :=
      fun ha z halloc j y hj hy => hapart ha z halloc j y hj (hholds.view_item.mpr hy)
    have hview := hholds.view_item.mpr hx
    rw [HeapOp.exec, returns_bind]
    refine (updateheap_returns hs hholds hheap env hx hop.2 hother).mono ?_
    rintro r t' (⟨hne, rfl, z, l', halloc, hperm, hkept⟩ |
      ⟨hkept, ⟨rfl, hsame⟩ | ⟨rfl, hne, hno⟩⟩)
    · have herase : ∃ c : Multiset (Item ε), (l : Multiset (Item ε)) = x ::ₘ c ∧
          (l' : Multiset (Item ε)) = z ::ₘ c := by
        have hmem : x ∈ (l : Multiset (Item ε)) := mem_of_getElem? hx
        obtain ⟨c, hc⟩ := Multiset.exists_cons_of_mem hmem
        refine ⟨c, hc, ?_⟩
        have hcoe := Multiset.coe_eq_coe.mpr hperm
        rw [← Multiset.cons_coe, ← Multiset.cons_coe, hc, Multiset.cons_swap] at hcoe
        exact (Multiset.cons_inj_right x).mp hcoe
      obtain ⟨c, hl, hl'⟩ := herase
      rw [hl]
      exact returns_pure.mpr ⟨_, .updated hview hne halloc, hl' ▸ hkept.heapOf, hkept.2⟩
    · exact returns_pure.mpr ⟨_, .kept hview hsame, hkept.heapOf, hkept.2⟩
    · exact returns_pure.mpr ⟨_, .failed hview hne hno, hkept.heapOf, hkept.2⟩

/-! ## Runs -/

/-- `HeapRuns s log t`: calls on inputs on which they work lead from `s` to `t`; `log`
lists the array before each call, the call, and what it returned. -/
inductive HeapRuns (s : Arr ε) : List (Arr ε × HeapOp ε × Option ℕ) → Arr ε → Prop where
  | init : HeapRuns s [] s
  | step {log : List (Arr ε × HeapOp ε × Option ℕ)} {t t' : Arr ε} {op : HeapOp ε}
      {r : Option ℕ} (h : HeapRuns s log t) (hop : op.Ok t)
      (hrun : op.exec.run t = some (r, t')) : HeapRuns s (log ++ [(t, op, r)]) t'

/-- The elements that the calls of a log leave in an array that was empty. -/
inductive Contents : List (Arr ε × HeapOp ε × Option ℕ) → Multiset (Item ε) → Prop where
  | nil : Contents [] 0
  | snoc {log : List (Arr ε × HeapOp ε × Option ℕ)} {t : Arr ε} {op : HeapOp ε} {r : Option ℕ}
      {c c' : Multiset (Item ε)} (h : Contents log c) (hstep : HeapStep t op r c c') :
      Contents (log ++ [(t, op, r)]) c'

/-- Positions are stored, and each call of the log puts its element at an address of its
own. -/
def LogApart (s : Arr ε) (log : List (Arr ε × HeapOp ε × Option ℕ)) : Prop :=
  s.heapPosOffset.isSome = true ∧ ∀ e ∈ log, e.2.1.Apart e.1

theorem HeapOf.weaken {apart' : Prop} {c : Multiset (Item ε)} (h : HeapOf apart t c)
    (himp : apart' → apart) : HeapOf apart' t c := by
  obtain ⟨l, hl, hholds, hheap⟩ := h
  exact ⟨l, hl, ⟨hholds.wellFormed, hholds.style, hholds.capa, hholds.size, hholds.slots,
    fun ha => hholds.offset (himp ha), fun ha => hholds.nodup (himp ha),
    fun ha => hholds.tracks (himp ha)⟩, hheap⟩

theorem HeapRuns.heapOf {s : Arr ε} {log : List (Arr ε × HeapOp ε × Option ℕ)}
    (h : HeapRuns s log t) (hs : TotalPreorder s.comper) (hw : s.WellFormed) (hempty : s.size = 0) :
    (∃ c, Contents log c ∧ HeapOf (LogApart s log) t c) ∧ t.comper = s.comper ∧
      t.heapPosOffset = s.heapPosOffset := by
  induction h with
  | init =>
    refine ⟨⟨0, .nil, [], rfl, ⟨hw, SameStyle.refl s, rfl, hempty, ?_, fun ha => ha.1, ?_, ?_⟩,
      ?_⟩, rfl, rfl⟩
    · simp
    · simp
    · simp [TracksBut]
    · simp [IsHeap, Edge]
  | @step log t t' op r _ hop hrun ih =>
    obtain ⟨⟨c, hc, hheap⟩, hcomper, hoffset⟩ := ih
    have himp : LogApart s (log ++ [(t, op, r)]) → LogApart s log :=
      fun ha => ⟨ha.1, fun e he => ha.2 e (mem_append_left _ he)⟩
    have hlast : LogApart s (log ++ [(t, op, r)]) → op.Apart t :=
      fun ha => ha.2 (t, op, r) (by simp)
    obtain ⟨c', hstep, hheap', hcomper', hoffset'⟩ :=
      (HeapOp.exec_returns (hcomper ▸ hs) (hheap.weaken himp) hop hlast).of_run hrun
    exact ⟨⟨c', hc.snoc hstep, hheap'⟩, hcomper'.trans hcomper, hoffset'.trans hoffset⟩

/-- After any calls the array is a heap of the elements that the calls leave in it, each
stored position is right if the elements lie apart, and the next call returns. -/
theorem heap_of_runs {s t : Arr ε} {log : List (Arr ε × HeapOp ε × Option ℕ)}
    (hs : TotalPreorder s.comper) (hw : s.WellFormed) (hempty : s.size = 0) (h : HeapRuns s log t) :
    (∃ (l : List (Item ε)) (c : Multiset (Item ε)), t.view = l.map some ∧ Contents log c ∧
        (l : Multiset (Item ε)) = c ∧ IsHeap s.Above l ∧
        (LogApart s log → ∀ (j : ℕ) (x : Item ε), l[j]? = some x → t.posField x.ptr = j)) ∧
      ∀ op : HeapOp ε, op.Ok t → ∃ r t', op.exec.run t = some (r, t') := by
  obtain ⟨⟨c, hc, hheap⟩, hcomper, -⟩ := h.heapOf hs hw hempty
  have habove : t.Above = s.Above := by
    funext x y
    rw [Above, Above, hcomper]
  constructor
  · obtain ⟨l, hl, hholds, hordered⟩ := hheap
    exact ⟨l, c, hholds.view_eq, hc, hl, habove ▸ hordered, fun ha => hholds.position ha⟩
  · intro op hop
    obtain ⟨r, t', hrun, -⟩ :=
      HeapOp.exec_returns (hcomper ▸ hs) (hheap.weaken False.elim) hop False.elim
    exact ⟨r, t', hrun⟩

def emptyHeap : Arr ℕ where
  copier := .simple
  freeer := true
  keeper := false
  sizer := false
  comper a b := a.dat - b.dat
  heapPosOffset := some 8
  size := 0
  capa := 4
  slot := [none, none, none, none]
  posField _ := 0
  calls := []

theorem emptyHeap_wellFormed : emptyHeap.WellFormed :=
  ⟨by decide, rfl, by decide⟩

theorem emptyHeap_preorder : TotalPreorder emptyHeap.comper := by
  constructor
  · intro x y
    simp only [emptyHeap]
    omega
  · intro x y z
    simp only [emptyHeap]
    omega

/-- Of three elements the greatest is replaced by one that sinks, and that one is deleted. -/
theorem heap_of_runs_deleted : ∃ log t, HeapRuns emptyHeap log t ∧
    t.view = [some ⟨16, 1, 5⟩, some ⟨48, 1, 3⟩] ∧
    ∃ (l : List (Item ℕ)) (c : Multiset (Item ℕ)), t.view = l.map some ∧ Contents log c ∧
      (l : Multiset (Item ℕ)) = c ∧ IsHeap emptyHeap.Above l ∧
      (LogApart emptyHeap log → ∀ (j : ℕ) (x : Item ℕ), l[j]? = some x → t.posField x.ptr = j) := by
  have hcompute : ((HeapOp.push grantAll ⟨16, 1, 5⟩).exec.run emptyHeap).bind (fun p₁ =>
      ((HeapOp.push grantAll ⟨32, 1, 7⟩).exec.run p₁.2).bind fun p₂ =>
        ((HeapOp.push grantAll ⟨48, 1, 3⟩).exec.run p₂.2).bind fun p₃ =>
          ((HeapOp.update grantAll 0 ⟨64, 1, 4⟩).exec.run p₃.2).bind fun p₄ =>
            ((HeapOp.delete 1).exec.run p₄.2).map fun p₅ =>
              (([p₁.2.size, p₁.2.capa, p₂.2.size, p₂.2.capa, p₃.2.size, p₄.2.size],
                p₃.2.allocSlot grantAll ⟨64, 1, 4⟩, p₃.2.comper ⟨64, 1, 4⟩ ⟨64, 1, 4⟩),
                p₅.2.view)) =
      some (([1, 4, 2, 4, 3, 3], some ⟨64, 1, 4⟩, 0), [some ⟨16, 1, 5⟩, some ⟨48, 1, 3⟩]) := by
    decide +kernel
  obtain ⟨⟨r₁, t₁⟩, hrun₁, hrest⟩ := bind_eq_some_iff.mp hcompute
  obtain ⟨⟨r₂, t₂⟩, hrun₂, hrest⟩ := bind_eq_some_iff.mp hrest
  obtain ⟨⟨r₃, t₃⟩, hrun₃, hrest⟩ := bind_eq_some_iff.mp hrest
  obtain ⟨⟨r₄, t₄⟩, hrun₄, hrest⟩ := bind_eq_some_iff.mp hrest
  obtain ⟨⟨r₅, t₅⟩, hrun₅, hout⟩ := map_eq_some_iff.mp hrest
  simp only [Prod.mk.injEq, List.cons.injEq] at hout
  obtain ⟨⟨⟨hsize₁, hcapa₁, hsize₂, hcapa₂, hsize₃, hsize₄, -⟩, halloc, hcmp⟩, hview⟩ := hout
  have hpush {t : Arr ℕ} (d : Item ℕ) (hroom : t.size < t.capa) : (HeapOp.push grantAll d).Ok t :=
    .inr (.inl fun hfull => absurd hfull (by rw [Full]; omega))
  have hupdate : (HeapOp.update grantAll 0 ⟨64, 1, 4⟩).Ok t₃ := by
    refine ⟨by omega, fun x hx => ?_⟩
    obtain rfl := some.inj (hx.symm.trans halloc)
    exact hcmp
  have hdelete : (HeapOp.delete 1).Ok t₄ := by
    rw [HeapOp.Ok]
    omega
  have hpushes := ((HeapRuns.init.step (hpush _ (by decide)) hrun₁).step (hpush _ (by omega))
    hrun₂).step (hpush _ (by omega)) hrun₃
  have hruns := (hpushes.step hupdate hrun₄).step hdelete hrun₅
  exact ⟨_, t₅, hruns, hview, (heap_of_runs emptyHeap_preorder emptyHeap_wellFormed rfl hruns).1⟩

/-- An element that compares equal to the one in the array does not replace it. -/
theorem not_replaced_of_equal : ¬∀ (s t t' : Arr ℕ) (log : List (Arr ℕ × HeapOp ℕ × Option ℕ))
    (env : ArrEnv ℕ) (index : ℕ) (d y : Item ℕ), TotalPreorder s.comper → s.WellFormed →
    s.size = 0 → HeapRuns s log t → (HeapOp.update env index d).Ok t →
    t.allocSlot env d = some y →
    (HeapOp.update env index d).exec.run t = some (some index, t') → some y ∈ t'.view := by
  intro hclaim
  have hcompute : ((HeapOp.push grantAll ⟨16, 1, 5⟩).exec.run emptyHeap).bind (fun p =>
      ((HeapOp.update grantAll 0 ⟨32, 1, 5⟩).exec.run p.2).map fun q =>
        ((p.2.size, p.2.allocSlot grantAll ⟨32, 1, 5⟩, p.2.comper ⟨32, 1, 5⟩ ⟨32, 1, 5⟩),
          q.1, q.2.view)) =
      some ((1, some ⟨32, 1, 5⟩, 0), some 0, [some ⟨16, 1, 5⟩]) := by decide +kernel
  obtain ⟨⟨r₁, t₁⟩, hrun₁, hrest⟩ := bind_eq_some_iff.mp hcompute
  obtain ⟨⟨r₂, t₂⟩, hrun₂, hout⟩ := map_eq_some_iff.mp hrest
  obtain ⟨hfacts, hout⟩ := Prod.mk.inj hout
  obtain ⟨hsize, hfacts⟩ := Prod.mk.inj hfacts
  obtain ⟨halloc, hcmp⟩ := Prod.mk.inj hfacts
  obtain ⟨rfl, hview⟩ := Prod.mk.inj hout
  dsimp only at hsize halloc hcmp hview hrun₂
  have hok₁ : (HeapOp.push grantAll ⟨16, 1, 5⟩).Ok emptyHeap := .inr (.inl (by decide))
  have hok₂ : (HeapOp.update grantAll 0 ⟨32, 1, 5⟩).Ok t₁ := by
    refine ⟨by omega, fun x hx => ?_⟩
    rw [halloc] at hx
    cases hx
    exact hcmp
  have hmem := hclaim emptyHeap t₁ t₂ _ grantAll 0 ⟨32, 1, 5⟩ ⟨32, 1, 5⟩ emptyHeap_preorder
    emptyHeap_wellFormed rfl (HeapRuns.init.step hok₁ hrun₁) hok₂ halloc hrun₂
  rw [hview] at hmem
  revert hmem
  decide

theorem not_positioned_of_shared : ¬∀ (s t : Arr ℕ)
    (log : List (Arr ℕ × HeapOp ℕ × Option ℕ)), TotalPreorder s.comper → s.WellFormed →
    s.size = 0 → s.heapPosOffset.isSome = true → HeapRuns s log t →
    ∀ (j : ℕ) (x : Item ℕ), t.view[j]? = some (some x) → t.posField x.ptr = j := by
  intro hclaim
  have hcompute : ((HeapOp.push grantAll ⟨16, 1, 5⟩).exec.run emptyHeap).bind (fun p =>
      ((HeapOp.push grantAll ⟨16, 1, 5⟩).exec.run p.2).map fun q =>
        ((p.2.size, p.2.capa), q.2.view[0]?, q.2.posField 16)) =
      some ((1, 4), some (some ⟨16, 1, 5⟩), 1) := by decide +kernel
  obtain ⟨⟨r₁, t₁⟩, hrun₁, hrest⟩ := bind_eq_some_iff.mp hcompute
  obtain ⟨⟨r₂, t₂⟩, hrun₂, hout⟩ := map_eq_some_iff.mp hrest
  obtain ⟨hroom, hout⟩ := Prod.mk.inj hout
  obtain ⟨hsize, hcapa⟩ := Prod.mk.inj hroom
  obtain ⟨hview, hpos⟩ := Prod.mk.inj hout
  dsimp only at hsize hcapa hview hpos hrun₂
  have hok₁ : (HeapOp.push grantAll ⟨16, 1, 5⟩).Ok emptyHeap := .inr (.inl (by decide))
  have hok₂ : (HeapOp.push grantAll ⟨16, 1, 5⟩).Ok t₁ := by
    refine .inr (.inl ?_)
    rw [Full]
    omega
  have hzero := hclaim emptyHeap t₂ _ emptyHeap_preorder emptyHeap_wellFormed rfl rfl
    ((HeapRuns.init.step hok₁ hrun₁).step hok₂ hrun₂) 0 ⟨16, 1, 5⟩ hview
  exact absurd (hzero.symm.trans hpos) (by decide)

end Qse.Arr
