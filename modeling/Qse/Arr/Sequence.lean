import Qse.Arr.Loops

/-!
# An array as a list with holes

`Arr.view` is the list of the slots in use. Deleting, emptying and updating are
read as operations on this list.
-/

open List

namespace Qse.Arr

open StateProgram

variable {ε : Type}

def view (t : Arr ε) : List (Option (Item ε)) := t.slot.take t.size

/-- The block has room for `capa` slots, it is smaller than `2 ^ 63` bytes as every
object is, and the slots in use lie within it. -/
structure WellFormed (t : Arr ε) : Prop where
  size_le : t.size ≤ t.capa
  block : t.slot.length = t.capa
  small : t.capa < 2 ^ 60

structure SameStyle (t t' : Arr ε) : Prop where
  copier : t'.copier = t.copier
  freeer : t'.freeer = t.freeer
  keeper : t'.keeper = t.keeper
  sizer : t'.sizer = t.sizer
  comper : t'.comper = t.comper
  heapPosOffset : t'.heapPosOffset = t.heapPosOffset
  posField : t'.posField = t.posField

theorem SameStyle.refl (t : Arr ε) : SameStyle t t :=
  ⟨rfl, rfl, rfl, rfl, rfl, rfl, rfl⟩

variable {t : Arr ε} {index : ℕ}

theorem SameStyle.trans {u v : Arr ε} (h : SameStyle t u) (h' : SameStyle u v) : SameStyle t v :=
  ⟨h'.copier.trans h.copier, h'.freeer.trans h.freeer, h'.keeper.trans h.keeper,
    h'.sizer.trans h.sizer, h'.comper.trans h.comper, h'.heapPosOffset.trans h.heapPosOffset,
    h'.posField.trans h.posField⟩

structure Became (t t' : Arr ε) (l : List (Option (Item ε))) : Prop where
  wellFormed : t'.WellFormed
  view : t'.view = l
  style : SameStyle t t'

theorem WellFormed.view_length (h : t.WellFormed) : t.view.length = t.size := by
  rw [view, length_take, h.block]
  exact Nat.min_eq_left h.size_le

theorem WellFormed.became (h : t.WellFormed) : Became t t t.view :=
  ⟨h, rfl, SameStyle.refl t⟩

theorem view_getElem? (t : Arr ε) (j : ℕ) :
    t.view[j]? = if j < t.size then t.slot[j]? else none := getElem?_take

theorem clamp_eq (t : Arr ε) (index count : ℕ) :
    t.clamp index count = min count (t.size - index) := by
  rw [clamp]
  split <;> omega

/-- The slot that `qse_arr_delete` clears last. -/
def lastSlot (t : Arr ε) : Option (Item ε) := t.slot.getD (t.size - 1) none

def deleteList (t : Arr ε) (index count : ℕ) : List (Option (Item ε)) :=
  ((movedDown (emptied t.slot index count) count (index + count)
    (t.size - (index + count))).set (t.size - 1) none).take (t.size - count)

theorem delete_returns (h : t.WellFormed) (hindex : index < t.size) (count : ℕ) :
    Returns (delete index count) t fun r t' =>
      r = min count (t.size - index) ∧
        Became t t' (t.deleteList index (min count (t.size - index))) ∧
        t'.size = t.size - min count (t.size - index) ∧ t'.capa = t.capa := by
  have hblock := h.block
  have hsize := h.size_le
  rw [delete, returns_bind, returns_get, if_neg (by omega)]
  dsimp only
  rw [clamp_eq]
  generalize hc : min count (t.size - index) = c
  have hle : c ≤ t.size - index := hc ▸ Nat.min_le_right _ _
  rw [returns_bind]
  refine (freeRange_returns (by omega)).mono ?_
  rintro - _ rfl
  rw [returns_bind]
  refine (shiftDown_returns (by omega) (by simp only [emptied_length]; omega)).mono ?_
  rintro - _ rfl
  rw [returns_bind, returns_store]
  refine ⟨by simp only [movedDown_length, emptied_length]; omega, ?_⟩
  rw [returns_bind, returns_setSize, returns_pure]
  refine ⟨rfl, ⟨⟨?_, ?_, h.small⟩, rfl, ⟨rfl, rfl, rfl, rfl, rfl, rfl, rfl⟩⟩, rfl, rfl⟩
  · change t.size - c ≤ t.capa
    omega
  · simp only [length_set, movedDown_length, emptied_length]
    exact hblock

theorem deleteList_eq (h : t.WellFormed) {c : ℕ} (hindex : index < t.size) (hc : c ≤ t.size - index)
    (hlast : c ≠ 0 ∨ t.lastSlot = none) :
    t.deleteList index c = t.view.take index ++ t.view.drop (index + c) := by
  have hblock := h.block
  have hsize := h.size_le
  apply ext_getElem?
  intro j
  have hlast' : c ≠ 0 ∨ t.slot[t.size - 1]? = some none := by
    refine hlast.imp id fun h0 => ?_
    have hlt : t.size - 1 < t.slot.length := by omega
    rw [lastSlot, getD_eq_getElem?_getD, getElem?_eq_getElem hlt, Option.getD_some] at h0
    rw [getElem?_eq_getElem hlt, h0]
  simp only [deleteList, movedDown, emptied, getElem?_take, getElem?_set,
    getElem?_mapIdx, length_mapIdx, getD_eq_getElem?_getD, getElem?_append,
    length_take, h.view_length, getElem?_drop, view_getElem?]
  grind

theorem deleteList_zero (h : t.WellFormed) (hindex : index < t.size) :
    t.deleteList index 0 = t.view.set (t.size - 1) none := by
  have hblock := h.block
  have hsize := h.size_le
  apply ext_getElem?
  intro j
  simp only [deleteList, movedDown, emptied, getElem?_take, getElem?_set,
    getElem?_mapIdx, length_mapIdx, getD_eq_getElem?_getD, h.view_length,
    view_getElem?]
  grind

def emptyList (l : List (Option (Item ε))) (index count : ℕ) : List (Option (Item ε)) :=
  l.take index ++ List.replicate (min count (l.length - index)) none ++ l.drop (index + count)

theorem uplete_returns (h : t.WellFormed) (index count : ℕ) :
    Returns (uplete index count) t fun r t' =>
      r = min count (t.size - index) ∧ Became t t' (emptyList t.view index count) := by
  have hblock := h.block
  have hsize := h.size_le
  rw [uplete, returns_bind, returns_get]
  refine returns_ite (fun hle => ?_) fun hlt => ?_
  · refine returns_pure.mpr ⟨by omega, h, ?_, SameStyle.refl t⟩
    have hlen := h.view_length
    rw [emptyList, take_of_length_le (by omega), drop_of_length_le (by omega), hlen]
    simp [Nat.sub_eq_zero_of_le hle]
  · dsimp only
    rw [clamp_eq, returns_bind]
    refine (freeRange_returns (by omega)).mono ?_
    rintro - _ rfl
    refine returns_pure.mpr ⟨rfl, ⟨hsize, ?_, h.small⟩, ?_, ⟨rfl, rfl, rfl, rfl, rfl, rfl, rfl⟩⟩
    · rw [← hblock]
      exact emptied_length _ _ _
    · apply ext_getElem?
      intro j
      simp only [view, emptyList, emptied, getElem?_take, getElem?_mapIdx,
        getElem?_append, length_take, getElem?_drop, getElem?_replicate,
        length_append, length_replicate]
      grind

theorem view_set (pos : ℕ) (c : Option (Item ε)) (cs : List Call) :
    view { t with slot := t.slot.set pos c, calls := cs } = t.view.set pos c :=
  take_set

/-- What `qse_arr_update` does to the list: the new item is stored, or the item
there has the same pointer and length and is kept, or the position is not in use
or no slot is granted and nothing changes. -/
def Updated (t : Arr ε) (env : ArrEnv ε) (pos : ℕ) (d : Item ε) (r : ℕ)
    (l : List (Option (Item ε))) : Prop :=
  (pos < t.size ∧ r = pos ∧ ∃ slot, t.allocSlot env d = some slot ∧
      l = t.view.set pos (some slot)) ∨
    (pos < t.size ∧ r = pos ∧ l = t.view ∧
      ∃ c, t.view[pos]? = some (some c) ∧ d.ptr = c.ptr ∧ d.len = c.len) ∨
    (r = arrNil ∧ l = t.view ∧ (t.size ≤ pos ∨ t.allocSlot env d = none))

theorem update_returns (h : t.WellFormed) (env : ArrEnv ε) (pos : ℕ) (d : Item ε) :
    Returns (update env pos d) t fun r t' =>
      ∃ l, Became t t' l ∧ t.Updated env pos d r l := by
  have hblock := h.block
  have hsize := h.size_le
  have hset : ∀ (c : Option (Item ε)) (cs : List Call),
      Became t { t with slot := t.slot.set pos c, calls := cs } (t.view.set pos c) :=
    fun c cs => ⟨⟨hsize, length_set.trans hblock, h.small⟩, view_set pos c cs,
      ⟨rfl, rfl, rfl, rfl, rfl, rfl, rfl⟩⟩
  rw [update, returns_bind, returns_get]
  refine returns_ite (fun hle => ?_) fun hlt => ?_
  · exact returns_pure.mpr ⟨_, h.became, .inr (.inr ⟨rfl, rfl, .inl hle⟩)⟩
  have hpos : pos < t.slot.length := by omega
  have hlt' : pos < t.size := by omega
  rw [returns_bind, returns_load]
  refine ⟨hpos, ?_⟩
  have hview : t.view[pos]? = some (t.slot.getD pos none) := by
    rw [view_getElem?, if_pos hlt', getD_eq_getElem?_getD, getElem?_eq_getElem hpos,
      Option.getD_some]
  cases hc : t.slot.getD pos none with
  | none =>
    rw [hc] at hview
    dsimp only
    rw [returns_bind, returns_store]
    refine ⟨hpos, ?_⟩
    cases halloc : t.allocSlot env d with
    | none =>
      refine returns_pure.mpr ⟨_, hset none t.calls, .inr (.inr ⟨rfl, ?_, .inr halloc⟩)⟩
      apply ext_getElem?
      intro j
      rw [getElem?_set]
      grind
    | some slot =>
      exact returns_pure.mpr ⟨_, hset (some slot) t.calls, .inl ⟨hlt', rfl, slot, halloc, rfl⟩⟩
  | some c =>
    rw [hc] at hview
    dsimp only
    refine returns_ite (fun hsame => ?_) fun _ => ?_
    · rw [returns_bind, returns_log]
      exact returns_pure.mpr ⟨_, ⟨⟨hsize, hblock, h.small⟩, rfl,
        ⟨rfl, rfl, rfl, rfl, rfl, rfl, rfl⟩⟩, .inr (.inl ⟨hlt', rfl, rfl, c, hview, hsame⟩)⟩
    · cases halloc : t.allocSlot env d with
      | none => exact returns_pure.mpr ⟨_, h.became, .inr (.inr ⟨rfl, rfl, .inr halloc⟩)⟩
      | some slot =>
        dsimp only
        rw [returns_bind, returns_freeSlot, returns_bind, returns_store]
        exact ⟨hpos, returns_pure.mpr ⟨_, hset (some slot) _, .inl ⟨hlt', rfl, slot, halloc, rfl⟩⟩⟩

def insertList (l : List (Option (Item ε))) (pos : ℕ) (c : Option (Item ε)) :
    List (Option (Item ε)) :=
  l.take pos ++ List.replicate (pos - l.length) none ++ c :: l.drop pos

theorem linkSlot_returns (h : t.WellFormed) {pos : ℕ} (hroom : ¬t.Full pos) (c : Item ε) :
    Returns (linkSlot pos c) t fun r t' =>
      r = pos ∧ Became t t' (insertList t.view pos (some c)) ∧ t'.capa = t.capa := by
  have hblock := h.block
  rw [Full] at hroom
  rw [linkSlot, returns_bind, returns_get, returns_bind]
  refine (fillGap_returns (by omega)).mono ?_
  rintro - _ rfl
  rw [returns_bind]
  refine (shiftUp_returns (by simp only [emptied_length]; omega)).mono ?_
  rintro - _ rfl
  rw [returns_bind, returns_store]
  refine ⟨by simp only [movedUp_length, emptied_length]; omega, ?_⟩
  rw [returns_bind, returns_setSize, returns_pure]
  refine ⟨rfl, ⟨⟨?_, ?_, h.small⟩, ?_, ⟨rfl, rfl, rfl, rfl, rfl, rfl, rfl⟩⟩, rfl⟩
  · change (if t.size < pos then pos + 1 else t.size + 1) ≤ t.capa
    split <;> omega
  · simp only [length_set, movedUp_length, emptied_length]
    exact hblock
  · apply ext_getElem?
    intro j
    simp only [view, insertList, movedUp, emptied, getElem?_take, getElem?_set,
      getElem?_mapIdx, length_mapIdx, getD_eq_getElem?_getD,
      getElem?_append, length_take, getElem?_drop, getElem?_replicate,
      length_append, length_replicate, getElem?_cons]
    grind

end Qse.Arr
