import Qse.Arr.Refinement
import Qse.Support.BinaryHeap

/-!
# A heap over an array

A translation of the heap functions of `lib/cmn/arr.c`. The elements are objects
that do not overlap, so the field at `heap_pos_offset` in an element belongs to
its address alone. The data pointer of a null slot cannot be read.
-/

open List

namespace Qse.Arr

open BinaryHeap StateProgram

variable {ε : Type}

/-- `HEAP_PARENT(x)` -/
def heapParent (x : ℕ) : ℕ := (x - 1) / 2

/-- `HEAP_LEFT(x)` -/
def heapLeft (x : ℕ) : ℕ := x * 2 + 1

/-- `HEAP_RIGHT(x)` -/
def heapRight (x : ℕ) : ℕ := x * 2 + 2

/-- `DPTR(slot)` and `DLEN(slot)` -/
def deref (slot : Option (Item ε)) : ArrM ε (Item ε) :=
  match slot with
  | none => failure
  | some x => pure x

def element (index : ℕ) : ArrM ε (Item ε) := do
  let c ← load index
  deref c

/-- `HEAP_UPDATE_POS(arr,index)` -/
def heapUpdatePos (index : ℕ) : ArrM ε PUnit := do
  let t ← get
  if t.heapPosOffset.isSome then
    let x ← element index
    modify fun t => { t with posField := Function.update t.posField x.ptr index }
  else pure ⟨⟩

def compare (x y : Item ε) : ArrM ε ℤ := do
  let t ← get
  pure (t.comper x y)

/-- The loop of `sift_up`, for at most `fuel` rounds. -/
def siftUpLoop (tmp : Item ε) : ℕ → ℕ → ArrM ε ℕ
  | 0, _ => failure
  | fuel + 1, index => do
    let c ← load (heapParent index)
    store index c
    heapUpdatePos index
    if heapParent index = 0 then pure (heapParent index)
    else
      let above ← element (heapParent (heapParent index))
      let n ← compare tmp above
      if n ≤ 0 then pure (heapParent index) else siftUpLoop tmp fuel (heapParent index)

def siftUp (index : ℕ) : ArrM ε ℕ := do
  if 0 < index then
    let x ← element index
    let y ← element (heapParent index)
    let n ← compare x y
    if 0 < n then
      let hole ← siftUpLoop x index index
      store hole (some x)
      heapUpdatePos hole
      pure hole
    else pure index
  else pure index

/-- The child that `sift_down` looks at. -/
def siftChild (index : ℕ) : ArrM ε ℕ := do
  let t ← get
  if heapRight index < t.size then
    let r ← element (heapRight index)
    let l ← element (heapLeft index)
    let n ← compare r l
    pure (if 0 < n then heapRight index else heapLeft index)
  else pure (heapLeft index)

/-- The loop of `sift_down`, for at most `fuel` rounds. -/
def siftDownLoop (tmp : Item ε) (base : ℕ) : ℕ → ℕ → ArrM ε ℕ
  | 0, _ => failure
  | fuel + 1, index => do
    let child ← siftChild index
    let x ← element child
    let n ← compare tmp x
    if 0 < n then pure index
    else
      store index (some x)
      heapUpdatePos index
      if child < base then siftDownLoop tmp base fuel child else pure child

def siftDown (index : ℕ) : ArrM ε ℕ := do
  let t ← get
  if index < t.size / 2 then
    let x ← element index
    let hole ← siftDownLoop x (t.size / 2) t.size index
    store hole (some x)
    heapUpdatePos hole
    pure hole
  else pure index

def pushheap (env : ArrEnv ε) (d : Item ε) : ArrM ε ℕ := do
  let t ← get
  let r ← insert env t.size d
  if r = arrNil then pure arrNil
  else
    heapUpdatePos t.size
    let _ ← siftUp t.size
    let t ← get
    pure t.size

/-- "move the last item to the deleting position" and up or down from there. -/
def refill (index : ℕ) (tmp : Option (Item ε)) : ArrM ε PUnit := do
  let t ← get
  let c ← load t.size
  store index c
  heapUpdatePos index
  let x ← element index
  let y ← deref tmp
  let n ← compare x y
  if 0 < n then
    let _ ← siftUp index
    pure ⟨⟩
  else if n < 0 then
    let _ ← siftDown index
    pure ⟨⟩
  else pure ⟨⟩

/-- `if (arr->freeer) arr->freeer (...); QSE_MMGR_FREE (arr->mmgr, tmp);` -/
def destroy (tmp : Option (Item ε)) : ArrM ε PUnit := do
  let t ← get
  if t.freeer then
    let x ← deref tmp
    freeSlot x
  else pure ⟨⟩

def deleteheap (index : ℕ) : ArrM ε PUnit := do
  let tmp ← load index
  let t ← get
  setSize (t.size - 1)
  onlyIf (0 < t.size - 1 ∧ index ≠ t.size - 1) (refill index tmp)
  destroy tmp
  let t ← get
  store t.size none

def popheap : ArrM ε PUnit := deleteheap 0

/-- `if (n > 0) sift_up (arr, index); else sift_down (arr, index);` -/
def sift (n : ℤ) (index : ℕ) : ArrM ε ℕ :=
  if 0 < n then siftUp index else siftDown index

def updateheap (env : ArrEnv ε) (index : ℕ) (d : Item ε) : ArrM ε ℕ := do
  let tmp ← element index
  let n ← compare d tmp
  if n = 0 then pure index
  else
    let r ← update env index d
    if r = arrNil then pure arrNil
    else
      heapUpdatePos index
      let _ ← sift n index
      pure index

def positioned (t : Arr ε) (x : Item ε) (index : ℕ) : Arr ε :=
  { t with posField :=
      if t.heapPosOffset.isSome then Function.update t.posField x.ptr index else t.posField }

variable {t : Arr ε} {x : Item ε}

@[simp] theorem returns_deref {c : Option (Item ε)} {Q : Item ε → Arr ε → Prop} :
    Returns (deref c) t Q ↔ ∃ x, c = some x ∧ Q x t := by
  cases c with
  | none | some x => simp [deref]

theorem returns_element {index : ℕ} {Q : Item ε → Arr ε → Prop}
    (hx : t.slot[index]? = some (some x)) : Returns (element index) t Q ↔ Q x t := by
  obtain ⟨hlt, hget⟩ := List.getElem?_eq_some_iff.mp hx
  rw [element, returns_bind, returns_load, getD_eq_getElem?_getD, hx]
  simp [hlt]

theorem returns_compare {y : Item ε} {Q : ℤ → Arr ε → Prop} :
    Returns (compare x y) t Q ↔ Q (t.comper x y) t := by
  rw [compare, returns_bind, returns_get, returns_pure]

theorem returns_heapUpdatePos {index : ℕ} {Q : PUnit → Arr ε → Prop}
    (hx : t.slot[index]? = some (some x)) :
    Returns (heapUpdatePos index) t Q ↔ Q ⟨⟩ (t.positioned x index) := by
  rw [heapUpdatePos, returns_bind, returns_get, positioned]
  split
  · rw [returns_bind, returns_element hx, returns_modify]
  · rw [returns_pure]

variable {ε : Type}

/-- The comparator answers the same question alike from both sides, and "not
greater" carries over. -/
structure TotalPreorder (comper : Item ε → Item ε → ℤ) : Prop where
  swap : ∀ x y, 0 < comper x y ↔ comper y x < 0
  trans : ∀ x y z, comper x y ≤ 0 → comper y z ≤ 0 → comper x z ≤ 0

/-- `x` belongs above `y`. -/
def Above (t : Arr ε) (x y : Item ε) : Prop := 0 < t.comper x y

theorem above_strictWeak {t : Arr ε} (h : TotalPreorder t.comper) : StrictWeak t.Above := by
  constructor
  · intro x y hxy hyx
    have hneg := (h.swap x y).mp hxy
    rw [Above] at hyx
    omega
  · intro x y z hxy hyz
    rw [Above, Int.not_lt] at *
    exact h.trans x y z hxy hyz

/-- The array holds the elements `l` but at `i`. It works as `s` does, with as many
slots. If the elements lie apart, so that each has a position of
its own, all positions are right but that of the element at `i`. -/
structure HoldsBut (s : Arr ε) (apart : Prop) (t : Arr ε) (l : List (Item ε)) (i : ℕ) : Prop where
  wellFormed : t.WellFormed
  style : SameStyle { s with posField := t.posField } t
  capa : t.capa = s.capa
  size : t.size = l.length
  slots : ∀ (j : ℕ) (x : Item ε), j ≠ i → l[j]? = some x → t.slot[j]? = some (some x)
  offset : apart → t.heapPosOffset.isSome = true
  nodup : apart → (l.map Item.ptr).Nodup
  tracks : apart → TracksBut Item.ptr t.posField l i

def Holds (s : Arr ε) (apart : Prop) (t : Arr ε) (l : List (Item ε)) : Prop :=
  HoldsBut s apart t l l.length

section Steps

variable {s t : Arr ε} {apart : Prop} {l : List (Item ε)} {i j : ℕ} {x y : Item ε}

theorem Holds.slot (h : Holds s apart t l) (hx : l[i]? = some x) : t.slot[i]? = some (some x) :=
  h.slots i x (Nat.ne_of_lt (List.getElem?_eq_some_iff.mp hx).1) hx

theorem Holds.position (h : Holds s apart t l) (ha : apart) : Tracks Item.ptr t.posField l :=
  fun j x hx => h.tracks ha j x (Nat.ne_of_lt (List.getElem?_eq_some_iff.mp hx).1) hx

theorem Holds.but (h : Holds s apart t l) (i : ℕ) : HoldsBut s apart t l i where
  wellFormed := h.wellFormed
  style := h.style
  capa := h.capa
  size := h.size
  slots := fun _ _ _ hx => h.slot hx
  offset := h.offset
  nodup := h.nodup
  tracks := fun ha j x _ hx => h.position ha j x hx

section

variable (h : HoldsBut s apart t l i)
include h

theorem HoldsBut.comper : t.comper = s.comper := h.style.comper

theorem HoldsBut.lt_slot (hx : l[j]? = some x) : j < t.slot.length := by
  have hlt := (List.getElem?_eq_some_iff.mp hx).1
  have hsize := h.wellFormed.size_le
  rw [h.wellFormed.block]
  rw [h.size] at hsize
  omega

theorem HoldsBut.positioned (hx : l[i]? = some x)
    (hslot : t.slot[i]? = some (some x)) : Holds s apart (t.positioned x i) l where
  wellFormed := ⟨h.wellFormed.size_le, h.wellFormed.block, h.wellFormed.small⟩
  style := ⟨h.style.copier, h.style.freeer, h.style.keeper, h.style.sizer, h.style.comper,
    h.style.heapPosOffset, rfl⟩
  capa := h.capa
  size := h.size
  slots := by
    intro j y _ hy
    by_cases hj : j = i
    · subst hj
      rw [hx] at hy
      cases hy
      exact hslot
    · exact h.slots j y hj hy
  offset := h.offset
  nodup := h.nodup
  tracks := by
    intro ha
    simp only [Arr.positioned, h.offset ha, if_true]
    exact fun j y _ hy => (h.tracks ha).write (h.nodup ha) hx j y hy

theorem HoldsBut.fill (x : Item ε) :
    HoldsBut s apart { t with slot := t.slot.set i (some x) } l i where
  wellFormed := ⟨h.wellFormed.size_le, length_set.trans h.wellFormed.block, h.wellFormed.small⟩
  style := ⟨h.style.copier, h.style.freeer, h.style.keeper, h.style.sizer, h.style.comper,
    h.style.heapPosOffset, rfl⟩
  capa := h.capa
  size := h.size
  slots := by
    intro j y hj hy
    rw [getElem?_set_ne hj.symm]
    exact h.slots j y hj hy
  offset := h.offset
  nodup := h.nodup
  tracks := h.tracks

theorem HoldsBut.move (hx : l[i]? = some x) (hy : l[j]? = some y) :
    HoldsBut s apart ({ t with slot := t.slot.set i (some y) }.positioned y i)
      (exchange l i j x y) j where
  wellFormed := ⟨h.wellFormed.size_le, length_set.trans h.wellFormed.block, h.wellFormed.small⟩
  style := ⟨h.style.copier, h.style.freeer, h.style.keeper, h.style.sizer, h.style.comper,
    h.style.heapPosOffset, rfl⟩
  capa := h.capa
  size := h.size.trans exchange_length.symm
  slots := by
    intro k z hk hz
    rw [exchange_getElem? hx hy, if_neg hk] at hz
    change (t.slot.set i (some y))[k]? = some (some z)
    by_cases hki : k = i
    · rw [if_pos hki] at hz
      cases hz
      rw [hki, getElem?_set_self (h.lt_slot hx)]
    · rw [if_neg hki] at hz
      rw [getElem?_set_ne (Ne.symm hki)]
      exact h.slots k z hki hz
  offset := h.offset
  nodup := fun ha => ((exchange_perm hx hy).map Item.ptr).nodup_iff.mpr (h.nodup ha)
  tracks := by
    intro ha
    simp only [Arr.positioned, h.offset ha, if_true]
    exact (h.tracks ha).exchange (h.nodup ha) hx hy

end

end Steps

/-- The array holds the elements `l` in a heap. -/
def Heaped (s : Arr ε) (apart : Prop) (t : Arr ε) (l : List (Item ε)) : Prop :=
  ∃ l', l'.Perm l ∧ Holds s apart t l' ∧ IsHeap s.Above l'

/-- What a loop leaves: the element `x` belongs into the hole at `i`. -/
def Placed (s : Arr ε) (apart : Prop) (t : Arr ε) (l : List (Item ε)) (x : Item ε) (i : ℕ) : Prop :=
  ∃ l', l'.Perm l ∧ l'[i]? = some x ∧ HoldsBut s apart t l' i ∧ IsHeap s.Above l'

section Sift

variable {s t : Arr ε} {apart : Prop} {l : List (Item ε)} {i : ℕ} {x : Item ε}

theorem Placed.settle_returns (h : Placed s apart t l x i) {Q : ℕ → Arr ε → Prop}
    (hQ : ∀ t', Heaped s apart t' l → Q i t') :
    Returns (do store i (some x); heapUpdatePos i; pure i) t Q := by
  obtain ⟨l', hperm, hx, hholds, hheap⟩ := h
  have hlt := hholds.lt_slot hx
  have hslot : (t.slot.set i (some x))[i]? = some (some x) := getElem?_set_self hlt
  rw [returns_bind, returns_store]
  refine ⟨hlt, ?_⟩
  rw [returns_bind, returns_heapUpdatePos hslot, returns_pure]
  exact hQ _ ⟨l', hperm, (hholds.fill x).positioned hx hslot, hheap⟩

variable (hs : TotalPreorder s.comper)
include hs

theorem siftUpLoop_returns {fuel : ℕ} (h : HoldsBut s apart t l i)
    (hrise : RiseAt s.Above l i) (hx : l[i]? = some x) (hi : 0 < i) (hfuel : i ≤ fuel)
    (habove : ∀ y, l[parent i]? = some y → s.Above x y) :
    Returns (siftUpLoop x fuel i) t fun k t' => Placed s apart t' l x k := by
  induction fuel generalizing t l i with
  | zero => omega
  | succ fuel ih =>
    have hp := parent_lt hi
    have hlt := (List.getElem?_eq_some_iff.mp hx).1
    obtain ⟨y, hy⟩ : ∃ y, l[parent i]? = some y :=
      ⟨l[parent i], getElem?_eq_getElem (by omega)⟩
    have hslot := h.slots (parent i) y (by omega) hy
    have hpl := h.lt_slot hy
    have hil := h.lt_slot hx
    have hget := exchange_getElem? hx hy
    have hperm : (exchange l i (parent i) x y).Perm l := exchange_perm hx hy
    have hmoved := h.move hx hy
    have hrise' := hrise.step (above_strictWeak hs) hi hx hy (habove y hy)
    have hx' : (exchange l i (parent i) x y)[parent i]? = some x := by
      rw [hget, if_pos rfl]
    rw [siftUpLoop, show heapParent i = parent i from rfl, returns_bind, returns_load]
    refine ⟨hpl, ?_⟩
    rw [getD_eq_getElem?_getD, hslot, Option.getD_some, returns_bind, returns_store]
    refine ⟨hil, ?_⟩
    have hfilled : (t.slot.set i (some y))[i]? = some (some y) := getElem?_set_self hil
    rw [returns_bind, returns_heapUpdatePos hfilled]
    refine returns_ite (fun hroot => ?_) fun hinner => ?_
    · rw [returns_pure]
      refine ⟨_, hperm, hx', hmoved, hrise'.stop fun hpos => ?_⟩
      omega
    · have hpp := parent_lt (Nat.pos_of_ne_zero hinner)
      obtain ⟨z, hz⟩ : ∃ z, (exchange l i (parent i) x y)[parent (parent i)]? = some z := by
        have hlen : parent (parent i) < (exchange l i (parent i) x y).length := by
          rw [exchange_length]
          omega
        exact ⟨_, getElem?_eq_getElem hlen⟩
      have hzslot := hmoved.slots _ z (by omega) hz
      rw [show heapParent (parent i) = parent (parent i) from rfl, returns_bind,
        returns_element hzslot, returns_bind, returns_compare, hmoved.comper]
      refine returns_ite (fun hle => ?_) fun hgt => ?_
      · have hstop := hrise'.stop_at hx' hz (Int.not_lt.mpr hle)
        exact returns_pure.mpr ⟨_, hperm, hx', hmoved, hstop⟩
      · refine (ih hmoved hrise' hx' (Nat.pos_of_ne_zero hinner) (by omega) ?_).mono ?_
        · intro w hw
          rw [hz] at hw
          cases hw
          exact Int.not_le.mp hgt
        · rintro k t' ⟨l', hperm', hplaced⟩
          exact ⟨l', hperm'.trans hperm, hplaced⟩

theorem siftUp_returns (h : Holds s apart t l) (hrise : RiseAt s.Above l i) (hi : i < l.length) :
    Returns (siftUp i) t fun _ t' => Heaped s apart t' l := by
  have hx : l[i]? = some l[i] := getElem?_eq_getElem hi
  rw [siftUp]
  refine returns_ite (fun hpos => ?_) fun hzero => ?_
  · have hp := parent_lt hpos
    have hy : l[parent i]? = some l[parent i] := getElem?_eq_getElem (by omega)
    rw [returns_bind, returns_element (h.slot hx), returns_bind,
      show heapParent i = parent i from rfl, returns_element (h.slot hy), returns_bind,
      returns_compare, h.comper]
    refine returns_ite (fun hgt => ?_) fun hle => ?_
    · rw [returns_bind]
      refine (siftUpLoop_returns hs (h.but i) hrise hx hpos (Nat.le_refl i) ?_).mono ?_
      · intro y hy'
        rw [hy] at hy'
        cases hy'
        exact hgt
      · exact fun k t' hplaced => hplaced.settle_returns fun t'' h' => h'
    · exact returns_pure.mpr ⟨l, List.Perm.refl l, h, hrise.stop_at hx hy hle⟩
  · exact returns_pure.mpr ⟨l, List.Perm.refl l, h, hrise.stop fun hpos => absurd hpos hzero⟩

omit hs in
theorem siftChild_returns (hs : TotalPreorder s.comper) (h : HoldsBut s apart t l i)
    (hbase : i < l.length / 2) :
    Returns (siftChild i) t fun c t' => t' = t ∧ FirstChild s.Above l i c := by
  have hw := above_strictWeak hs
  have hlchild : heapLeft i = 2 * i + 1 := by rw [heapLeft, mul_comm]
  have hrchild : heapRight i = 2 * i + 2 := by rw [heapRight, mul_comm]
  have hleft : l[2 * i + 1]? = some l[2 * i + 1] := getElem?_eq_getElem (by omega)
  rw [siftChild, hlchild, hrchild, returns_bind, returns_get, h.size]
  refine returns_ite (fun hright => ?_) fun hlast => ?_
  · have hr : l[2 * i + 2]? = some l[2 * i + 2] := getElem?_eq_getElem hright
    rw [returns_bind, returns_element (h.slots _ _ (by omega) hr), returns_bind,
      returns_element (h.slots _ _ (by omega) hleft), returns_bind, returns_compare,
      h.comper, returns_pure]
    split
    · exact ⟨rfl, .right hw hleft hr ‹_›⟩
    · refine ⟨rfl, .left hw hleft fun z hz => ?_⟩
      cases hr.symm.trans hz
      assumption
  · refine returns_pure.mpr ⟨rfl, .left hw hleft fun z hz => ?_⟩
    exact absurd (List.getElem?_eq_some_iff.mp hz).1 hlast

theorem siftDownLoop_returns {fuel : ℕ} (h : HoldsBut s apart t l i)
    (hsink : SinkAt s.Above l i) (hx : l[i]? = some x) (hbase : i < l.length / 2)
    (hfuel : l.length ≤ i + fuel) :
    Returns (siftDownLoop x (l.length / 2) fuel i) t fun k t' => Placed s apart t' l x k := by
  have hw := above_strictWeak hs
  induction fuel generalizing t l i with
  | zero => omega
  | succ fuel ih =>
    rw [siftDownLoop, returns_bind]
    refine (siftChild_returns hs h hbase).mono ?_
    rintro c t1 ⟨hsame, hchild⟩
    obtain rfl : t = t1 := hsame.symm
    have hp := parent_lt hchild.pos
    rw [hchild.above] at hp
    have hil := h.lt_slot hx
    obtain ⟨y, hy⟩ : ∃ y, l[c]? = some y := ⟨_, getElem?_eq_getElem hchild.lt⟩
    rw [returns_bind, returns_element (h.slots c _ (by omega) hy), returns_bind,
      returns_compare, h.comper]
    refine returns_ite (fun hgt => ?_) fun hle => ?_
    · have hstop := hsink.stop_first hw hchild hx hy hgt
      exact returns_pure.mpr ⟨l, List.Perm.refl l, hx, h, hstop⟩
    · have hmoved := h.move hx hy
      have hperm : (exchange l i c x y).Perm l := exchange_perm hx hy
      have hlen : (exchange l i c x y).length = l.length := exchange_length
      have hx' : (exchange l i c x y)[c]? = some x := by
        rw [exchange_getElem? hx hy, if_pos rfl]
      have hsink' := hsink.step hchild hx hy hle
      have hfilled : (t.slot.set i (some y))[i]? = some (some y) :=
        getElem?_set_self hil
      rw [returns_bind, returns_store]
      refine ⟨hil, ?_⟩
      rw [returns_bind, returns_heapUpdatePos hfilled]
      refine returns_ite (fun hagain => ?_) fun hend => ?_
      · rw [← hlen] at hagain ⊢
        refine (ih hmoved hsink' hx' hagain (by omega)).mono ?_
        rintro k t' ⟨l', hperm', hplaced⟩
        exact ⟨l', hperm'.trans hperm, hplaced⟩
      · exact returns_pure.mpr ⟨_, hperm, hx', hmoved, hsink'.stop_leaf (by omega)⟩

theorem siftDown_returns (h : Holds s apart t l) (hsink : SinkAt s.Above l i)
    (hi : i < l.length) : Returns (siftDown i) t fun _ t' => Heaped s apart t' l := by
  have hx : l[i]? = some l[i] := getElem?_eq_getElem hi
  rw [siftDown, returns_bind, returns_get, h.size]
  refine returns_ite (fun hbase => ?_) fun hleaf => ?_
  · rw [returns_bind, returns_element (h.slot hx), returns_bind]
    refine (siftDownLoop_returns hs (h.but i) hsink hx hbase (by omega)).mono ?_
    exact fun k t' hplaced => hplaced.settle_returns fun t'' h' => h'
  · exact returns_pure.mpr ⟨l, List.Perm.refl l, h, hsink.stop_leaf (by omega)⟩

end Sift

end Qse.Arr
