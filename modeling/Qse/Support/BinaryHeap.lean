import Mathlib.Data.List.Perm.Basic
import Mathlib.Order.Basic

/-!
# Binary heaps in a list

`before x y` says that `x` belongs nearer to the root than `y`. `RiseAt` and `SinkAt` say that the
list is a heap but for the item at `i`, and `Tracks` that a table of positions, one for each key of
an item, is right.
-/

open Function List

namespace BinaryHeap

variable {α ι : Type}

/-- The position above `i`. -/
def parent (i : ℕ) : ℕ := (i - 1) / 2

theorem parent_lt {i : ℕ} (h : 0 < i) : parent i < i := by
  rw [parent]
  omega

theorem parent_eq_iff {i c : ℕ} (hc : 0 < c) : parent c = i ↔ c = 2 * i + 1 ∨ c = 2 * i + 2 := by
  rw [parent]
  omega

structure StrictWeak (before : α → α → Prop) : Prop where
  asymm : ∀ x y, before x y → ¬before y x
  trans_not : ∀ x y z, ¬before x y → ¬before y z → ¬before x z

def Edge (before : α → α → Prop) (l : List α) (j : ℕ) : Prop :=
  ∀ x y, l[j]? = some x → l[parent j]? = some y → ¬before x y

def IsHeap (before : α → α → Prop) (l : List α) : Prop :=
  ∀ j, 0 < j → Edge before l j

def Grand (before : α → α → Prop) (l : List α) (i : ℕ) : Prop :=
  0 < i → ∀ j, 0 < j → parent j = i → ∀ x y, l[j]? = some x → l[parent i]? = some y → ¬before x y

/-- A heap but for the item at `i`, which may have to rise. -/
structure RiseAt (before : α → α → Prop) (l : List α) (i : ℕ) : Prop where
  others : ∀ j, 0 < j → j ≠ i → Edge before l j
  grand : Grand before l i

/-- A heap but for the item at `i`, which may have to sink. -/
structure SinkAt (before : α → α → Prop) (l : List α) (i : ℕ) : Prop where
  others : ∀ j, 0 < j → parent j ≠ i → Edge before l j
  grand : Grand before l i

/-- No child of `i` is before the child at `c`. -/
structure FirstChild (before : α → α → Prop) (l : List α) (i c : ℕ) : Prop where
  pos : 0 < c
  above : parent c = i
  lt : c < l.length
  first : ∀ y, l[c]? = some y → ∀ j z, 0 < j → parent j = i → l[j]? = some z → ¬before z y

def exchange (l : List α) (i j : ℕ) (x y : α) : List α := (l.set i y).set j x

section Exchange

variable {l : List α} {i j : ℕ} {x y : α}

@[simp] theorem exchange_length : (exchange l i j x y).length = l.length := by
  simp [exchange]

theorem exchange_getElem? (hi : l[i]? = some x) (hj : l[j]? = some y) (k : ℕ) :
    (exchange l i j x y)[k]? = if k = j then some x else if k = i then some y else l[k]? := by
  have hli := (List.getElem?_eq_some_iff.mp hi).1
  have hlj := (List.getElem?_eq_some_iff.mp hj).1
  rw [exchange, getElem?_set, length_set, getElem?_set]
  grind

theorem exchange_perm (hi : l[i]? = some x) (hj : l[j]? = some y) :
    (exchange l i j x y).Perm l := by
  obtain ⟨hli, rfl⟩ := List.getElem?_eq_some_iff.mp hi
  obtain ⟨hlj, rfl⟩ := List.getElem?_eq_some_iff.mp hj
  exact set_set_perm hli hlj

theorem take_set_perm {n : ℕ} (hn : l.length = n + 1) (hin : i < n) (hx : l[i]? = some x)
    (hy : l[n]? = some y) : (x :: (l.take n).set i y).Perm l := by
  have hsplit : l = l.take n ++ [y] := by
    have htake := take_append_drop n l
    rw [drop_eq_getElem_cons (by omega), drop_of_length_le (by omega)] at htake
    have hget : l[n] = y := by
      rw [getElem?_eq_getElem (by omega)] at hy
      exact Option.some.inj hy
    rw [hget] at htake
    exact htake.symm
  have hperm : (exchange l i n x y).Perm l := exchange_perm hx hy
  have hlen : (l.take n).length = n := by
    rw [length_take]
    omega
  rw [exchange, hsplit, set_append_left _ _ (by omega),
    set_append_right _ _ (by rw [length_set]; omega), length_set, hlen,
    Nat.sub_self, set_cons_zero, ← hsplit] at hperm
  exact (perm_append_singleton x _).symm.trans hperm

end Exchange

section Steps

variable {before : α → α → Prop} (hw : StrictWeak before) {l : List α} {i : ℕ} {x y : α}
include hw

theorem RiseAt.step (h : RiseAt before l i) (hi : 0 < i) (hx : l[i]? = some x)
    (hy : l[parent i]? = some y) (hxy : before x y) :
    RiseAt before (exchange l i (parent i) x y) (parent i) := by
  have hp := parent_lt hi
  have hget := exchange_getElem? hx hy
  constructor
  · intro j hj hne a b ha hb
    rw [hget] at ha hb
    by_cases hji : j = i
    · subst hji
      rw [if_neg hne, if_pos rfl] at ha
      rw [if_pos rfl] at hb
      cases ha
      cases hb
      exact hw.asymm _ _ hxy
    rw [if_neg hne, if_neg hji] at ha
    by_cases hpi : parent j = i
    · rw [if_neg (by omega), if_pos hpi] at hb
      cases hb
      exact h.grand hi j hj hpi a y ha hy
    · have hedge := h.others j hj hji
      by_cases hpp : parent j = parent i
      · rw [if_pos hpp] at hb
        cases hb
        have hay := hedge a y ha (hpp ▸ hy)
        exact hw.trans_not a y _ hay (hw.asymm _ _ hxy)
      · rw [if_neg hpp, if_neg hpi] at hb
        exact hedge a b ha hb
  · intro hp0 j hj hjp a b ha hb
    have hpp := parent_lt hp0
    rw [hget] at ha hb
    rw [if_neg (by omega), if_neg (by omega)] at hb
    have hyb := h.others (parent i) hp0 (by omega) y b hy hb
    have hlt := parent_lt hj
    by_cases hji : j = i
    · rw [if_neg (by omega), if_pos hji] at ha
      cases ha
      exact hyb
    · rw [if_neg (by omega), if_neg hji] at ha
      have hay := h.others j hj hji a y ha (hjp ▸ hy)
      exact hw.trans_not a y b hay hyb

theorem FirstChild.left (hx : l[2 * i + 1]? = some x)
    (hright : ∀ z, l[2 * i + 2]? = some z → ¬before z x) :
    FirstChild before l i (2 * i + 1) := by
  refine ⟨Nat.succ_pos _, by rw [parent]; omega, (List.getElem?_eq_some_iff.mp hx).1, ?_⟩
  intro y hy j z hj hji hz
  cases hx.symm.trans hy
  obtain rfl | rfl := (parent_eq_iff hj).mp hji
  · cases hx.symm.trans hz
    exact fun hxx => hw.asymm _ _ hxx hxx
  · exact hright z hz

theorem FirstChild.right (hx : l[2 * i + 1]? = some x) (hy : l[2 * i + 2]? = some y)
    (hyx : before y x) : FirstChild before l i (2 * i + 2) := by
  refine ⟨Nat.succ_pos _, by rw [parent]; omega, (List.getElem?_eq_some_iff.mp hy).1, ?_⟩
  intro y' hy' j z hj hji hz
  cases hy.symm.trans hy'
  obtain rfl | rfl := (parent_eq_iff hj).mp hji
  · cases hx.symm.trans hz
    exact hw.asymm _ _ hyx
  · cases hy.symm.trans hz
    exact fun hyy => hw.asymm _ _ hyy hyy

omit hw in
theorem RiseAt.stop (h : RiseAt before l i) (hstop : 0 < i → Edge before l i) :
    IsHeap before l := by
  intro j hj
  by_cases hji : j = i
  · subst hji
    exact hstop hj
  · exact h.others j hj hji

omit hw in
theorem RiseAt.stop_at (h : RiseAt before l i) (hx : l[i]? = some x)
    (hy : l[parent i]? = some y) (hxy : ¬before x y) : IsHeap before l := by
  refine h.stop fun _ a b ha hb => ?_
  cases hx.symm.trans ha
  cases hy.symm.trans hb
  exact hxy

omit hw in
theorem SinkAt.step {c : ℕ} (h : SinkAt before l i) (hchild : FirstChild before l i c)
    (hx : l[i]? = some x) (hy : l[c]? = some y) (hxy : ¬before x y) :
    SinkAt before (exchange l i c x y) c := by
  obtain ⟨hc, hci, -, hfirst⟩ := hchild
  have hp := parent_lt hc
  have hget := exchange_getElem? hx hy
  constructor
  · intro j hj hne a b ha hb
    have hjp := parent_lt hj
    rw [hget] at ha hb
    rw [if_neg hne] at hb
    by_cases hjc : j = c
    · subst hjc
      rw [if_pos rfl] at ha
      rw [if_pos hci] at hb
      cases ha
      cases hb
      exact hxy
    rw [if_neg hjc] at ha
    by_cases hji : j = i
    · subst hji
      rw [if_pos rfl] at ha
      rw [if_neg (by omega)] at hb
      cases ha
      exact h.grand hj c hc hci _ b hy hb
    · rw [if_neg hji] at ha
      by_cases hpi : parent j = i
      · rw [if_pos hpi] at hb
        cases hb
        exact hfirst _ hy j a hj hpi ha
      · rw [if_neg hpi] at hb
        exact h.others j hj hpi a b ha hb
  · intro _ j hj hjc a b ha hb
    have hjp := parent_lt hj
    rw [hget] at ha hb
    rw [if_neg (by omega), if_neg (by omega)] at ha
    rw [hci, if_neg (by omega), if_pos rfl] at hb
    cases hb
    exact h.others j hj (by omega) a _ ha (hjc ▸ hy)

omit hw in
theorem SinkAt.stop (h : SinkAt before l i)
    (hstop : ∀ j, 0 < j → parent j = i → Edge before l j) : IsHeap before l := by
  intro j hj
  by_cases hji : parent j = i
  · exact hstop j hj hji
  · exact h.others j hj hji

theorem SinkAt.stop_first {c : ℕ} (h : SinkAt before l i) (hchild : FirstChild before l i c)
    (hx : l[i]? = some x) (hy : l[c]? = some y) (hxy : before x y) : IsHeap before l := by
  refine h.stop fun j hj hji a b ha hb => ?_
  cases hx.symm.trans (hji ▸ hb)
  exact hw.trans_not a y _ (hchild.first y hy j a hj hji ha) (hw.asymm _ _ hxy)

omit hw in
theorem SinkAt.stop_leaf (h : SinkAt before l i) (hleaf : l.length ≤ 2 * i + 1) :
    IsHeap before l := by
  refine h.stop fun j hj hji a b ha _ => ?_
  have hlt := (List.getElem?_eq_some_iff.mp ha).1
  have hchild := (parent_eq_iff hj).mp hji
  omega

omit hw in
theorem IsHeap.append (h : IsHeap before l) (x : α) : RiseAt before (l ++ [x]) l.length := by
  constructor
  · intro j hj hne a b ha hb
    have hjl : j < l.length := by
      have hlt := (List.getElem?_eq_some_iff.mp ha).1
      rw [length_append, length_singleton] at hlt
      omega
    have hp := parent_lt hj
    rw [getElem?_append_left hjl] at ha
    rw [getElem?_append_left (by omega)] at hb
    exact h j hj a b ha hb
  · intro _ j hj hjl a b ha _
    have hp := parent_lt hj
    have hlt := (List.getElem?_eq_some_iff.mp ha).1
    rw [length_append, length_singleton] at hlt
    omega

theorem IsHeap.grand (h : IsHeap before l) (hy : l[i]? = some y) : Grand before l i := by
  intro hi j hj hji a b ha hb
  exact hw.trans_not a y b (h j hj a y ha (hji ▸ hy)) (h i hi y b hy hb)

theorem IsHeap.grand_set (h : IsHeap before l) (hy : l[i]? = some y) :
    Grand before (l.set i x) i := by
  intro hi j hj hji a b ha hb
  have hjp := parent_lt hj
  have hip := parent_lt hi
  rw [getElem?_set_ne (by omega)] at ha hb
  exact h.grand hw hy hi j hj hji a b ha hb

theorem IsHeap.set_rise (h : IsHeap before l) (hy : l[i]? = some y) (hxy : before x y) :
    RiseAt before (l.set i x) i := by
  refine ⟨?_, h.grand_set hw hy⟩
  intro j hj hne a b ha hb
  rw [getElem?_set_ne (Ne.symm hne)] at ha
  by_cases hpi : parent j = i
  · rw [hpi, getElem?_set_self (List.getElem?_eq_some_iff.mp hy).1] at hb
    cases hb
    exact hw.trans_not a y _ (h j hj a y ha (hpi ▸ hy)) (hw.asymm _ _ hxy)
  · rw [getElem?_set_ne (Ne.symm hpi)] at hb
    exact h j hj a b ha hb

theorem IsHeap.set_sink (h : IsHeap before l) (hy : l[i]? = some y) (hxy : ¬before x y) :
    SinkAt before (l.set i x) i := by
  refine ⟨?_, h.grand_set hw hy⟩
  intro j hj hpi a b ha hb
  rw [getElem?_set_ne (Ne.symm hpi)] at hb
  by_cases hji : j = i
  · subst hji
    rw [getElem?_set_self (List.getElem?_eq_some_iff.mp hy).1] at ha
    cases ha
    exact hw.trans_not _ y b hxy (h j hj y b hy hb)
  · rw [getElem?_set_ne (Ne.symm hji)] at ha
    exact h j hj a b ha hb

theorem IsHeap.set_same (h : IsHeap before l) (hy : l[i]? = some y) (hxy : ¬before x y)
    (hyx : ¬before y x) : IsHeap before (l.set i x) := by
  refine (h.set_sink hw hy hxy).stop fun j hj hji a b ha hb => ?_
  have hlt := parent_lt hj
  rw [getElem?_set_ne (by omega)] at ha
  rw [hji, getElem?_set_self (List.getElem?_eq_some_iff.mp hy).1] at hb
  cases hb
  exact hw.trans_not a y _ (h j hj a y ha (hji ▸ hy)) hyx

omit hw in
theorem IsHeap.take (h : IsHeap before l) (n : ℕ) : IsHeap before (l.take n) := by
  intro j hj a b ha hb
  have hjn : j < n := by
    have hlt := (List.getElem?_eq_some_iff.mp ha).1
    rw [length_take] at hlt
    omega
  have hp := parent_lt hj
  rw [getElem?_take_of_lt hjn] at ha
  rw [getElem?_take_of_lt (by omega)] at hb
  exact h j hj a b ha hb

theorem IsHeap.root (h : IsHeap before l) {r : α} (hr : l[0]? = some r) {j : ℕ} {a : α}
    (ha : l[j]? = some a) : ¬before a r := by
  induction j using Nat.strongRecOn generalizing a with
  | _ j ih =>
  rcases Nat.eq_zero_or_pos j with rfl | hj
  · rw [hr] at ha
    cases ha
    exact fun hrr => hw.asymm _ _ hrr hrr
  · have hp := parent_lt hj
    have hlt := (List.getElem?_eq_some_iff.mp ha).1
    obtain ⟨b, hb⟩ : ∃ b, l[parent j]? = some b :=
      ⟨l[parent j], getElem?_eq_getElem (by omega)⟩
    exact hw.trans_not a b r (h j hj a b ha hb) (ih (parent j) hp hb)

end Steps

def TracksBut (key : α → ι) (pos : ι → ℕ) (l : List α) (i : ℕ) : Prop :=
  ∀ j x, j ≠ i → l[j]? = some x → pos (key x) = j

def Tracks (key : α → ι) (pos : ι → ℕ) (l : List α) : Prop :=
  ∀ j x, l[j]? = some x → pos (key x) = j

section Tracks

variable [DecidableEq ι] {key : α → ι} {pos : ι → ℕ} {l : List α} {i j : ℕ} {x y : α}

omit [DecidableEq ι] in
theorem key_injective (hnd : (l.map key).Nodup) (hi : l[i]? = some x) (hj : l[j]? = some y)
    (hkey : key x = key y) : i = j := by
  have hi' : (l.map key)[i]? = some (key x) := by rw [getElem?_map, hi]; rfl
  have hj' : (l.map key)[j]? = some (key x) := by rw [getElem?_map, hj, hkey]; rfl
  have hlt := (List.getElem?_eq_some_iff.mp hi').1
  exact (getElem?_inj hlt hnd).mp (hi'.trans hj'.symm)

theorem TracksBut.write (h : TracksBut key pos l i) (hnd : (l.map key).Nodup)
    (hx : l[i]? = some x) : Tracks key (update pos (key x) i) l := by
  intro j y hy
  by_cases hkey : key y = key x
  · rw [hkey, update_self]
    exact key_injective hnd hx hy hkey.symm
  · rw [update_of_ne hkey]
    exact h j y (fun hji => hkey (by rw [hji, hx] at hy; cases hy; rfl)) hy

theorem TracksBut.exchange (h : TracksBut key pos l i) (hnd : (l.map key).Nodup)
    (hx : l[i]? = some x) (hy : l[j]? = some y) :
    TracksBut key (update pos (key y) i) (BinaryHeap.exchange l i j x y) j := by
  intro k z hk hz
  rw [exchange_getElem? hx hy, if_neg hk] at hz
  by_cases hki : k = i
  · rw [if_pos hki] at hz
    cases hz
    rw [update_self, hki]
  · rw [if_neg hki] at hz
    have hne : key z ≠ key y := fun hkey => hk (key_injective hnd hz hy hkey)
    rw [update_of_ne hne]
    exact h k z hki hz

end Tracks

end BinaryHeap
