import Qse.Arr.Model
import Mathlib.Data.List.Basic

/-!
# The loops over the slots of an array

Each loop of `lib/cmn/arr.c` is described by what it leaves in the block, index
by index.
-/

open List

namespace Qse.Arr

open StateProgram

variable {ε : Type}

variable {t : Arr ε} {i n : ℕ} {Q : PUnit → Arr ε → Prop}

theorem returns_load {Q : Option (Item ε) → Arr ε → Prop} :
    Returns (load i) t Q ↔ i < t.slot.length ∧ Q (t.slot.getD i none) t := by
  rw [load, returns_bind, returns_get]
  split
  · rename_i h
    simp [h]
  · rename_i h
    simp [h]

theorem returns_store {c : Option (Item ε)} :
    Returns (store i c) t Q ↔ i < t.slot.length ∧ Q ⟨⟩ { t with slot := t.slot.set i c } := by
  rw [store, returns_bind, returns_get]
  split
  · rename_i h
    simp only [h, true_and]
    exact returns_modify (f := fun _ => { t with slot := t.slot.set i c })
  · rename_i h
    simp [h]

theorem returns_log {cs : List Call} :
    Returns (log cs) t Q ↔ Q ⟨⟩ { t with calls := t.calls ++ cs } :=
  returns_modify

theorem returns_setSize : Returns (setSize n) t Q ↔ Q ⟨⟩ { t with size := n } :=
  returns_modify

/-- The freeers called for the slots `cs`. -/
def freeerCalls (freeer : Bool) (cs : List (Option (Item ε))) : List Call :=
  if freeer then cs.filterMap fun c => c.map fun c => .free c.ptr c.len else []

theorem returns_freeSlot {c : Item ε} :
    Returns (freeSlot c) t Q ↔
      Q ⟨⟩ { t with calls := t.calls ++ freeerCalls t.freeer [some c] } := by
  rw [freeSlot, returns_bind, returns_get, returns_log]
  rfl

theorem freeerCalls_append (freeer : Bool) (cs ds : List (Option (Item ε))) :
    freeerCalls freeer (cs ++ ds) = freeerCalls freeer cs ++ freeerCalls freeer ds := by
  unfold freeerCalls
  split
  · exact filterMap_append
  · rfl

/-- The slots `i`, …, `i + n - 1` are empty. -/
def emptied (l : List (Option (Item ε))) (i n : ℕ) : List (Option (Item ε)) :=
  l.mapIdx fun j c => if i ≤ j ∧ j < i + n then none else c

def movedDown (l : List (Option (Item ε))) (count i n : ℕ) : List (Option (Item ε)) :=
  l.mapIdx fun j c =>
    if i ≤ j + count ∧ j + count < i + n then l.getD (j + count) none else c

def movedUp (l : List (Option (Item ε))) (pos n : ℕ) : List (Option (Item ε)) :=
  l.mapIdx fun j c => if pos < j ∧ j ≤ pos + n then l.getD (j - 1) none else c

section

variable (l : List (Option (Item ε)))
include l

@[simp] theorem emptied_length (i n : ℕ) :
    (emptied l i n).length = l.length := length_mapIdx

@[simp] theorem movedDown_length (count i n : ℕ) :
    (movedDown l count i n).length = l.length := length_mapIdx

@[simp] theorem movedUp_length (pos n : ℕ) :
    (movedUp l pos n).length = l.length := length_mapIdx

theorem emptied_zero (i : ℕ) : emptied l i 0 = l := by
  apply ext_getElem?
  intro j
  simp only [emptied, getElem?_mapIdx]
  grind

theorem emptied_succ (i n : ℕ) : emptied (l.set i none) (i + 1) n = emptied l i (n + 1) := by
  apply ext_getElem?
  intro j
  simp only [emptied, getElem?_mapIdx, getElem?_set]
  grind

theorem movedDown_zero (count i : ℕ) : movedDown l count i 0 = l := by
  apply ext_getElem?
  intro j
  simp only [movedDown, getElem?_mapIdx]
  grind

theorem movedDown_succ {count : ℕ} (h : count ≤ i) (n : ℕ) :
    movedDown (l.set (i - count) (l.getD i none)) count (i + 1) n =
      movedDown l count i (n + 1) := by
  apply ext_getElem?
  intro j
  simp only [movedDown, getElem?_mapIdx, getElem?_set, getD_eq_getElem?_getD]
  grind

theorem movedUp_zero (pos : ℕ) : movedUp l pos 0 = l := by
  apply ext_getElem?
  intro j
  simp only [movedUp, getElem?_mapIdx]
  grind

theorem movedUp_succ (pos n : ℕ) :
    movedUp (l.set (pos + n + 1) (l.getD (pos + n) none)) pos n = movedUp l pos (n + 1) := by
  apply ext_getElem?
  intro j
  simp only [movedUp, getElem?_mapIdx, getElem?_set, getD_eq_getElem?_getD]
  grind

theorem set_getD_self (i : ℕ) : l.set i (l.getD i none) = l := by
  apply ext_getElem?
  intro j
  simp only [getElem?_set, getD_eq_getElem?_getD]
  grind

end

theorem drop_take_succ {l : List (Option (Item ε))} (h : i < l.length) (n : ℕ) :
    (l.drop i).take (n + 1) = l.getD i none :: (l.drop (i + 1)).take n := by
  rw [drop_eq_getElem_cons h, take_succ_cons, getD_eq_getElem?_getD,
    getElem?_eq_getElem h, Option.getD_some]

theorem freeRange_returns (h : i + n ≤ t.slot.length) :
    Returns (freeRange n i) t fun _ t' =>
      t' = { t with
        slot := emptied t.slot i n
        calls := t.calls ++ freeerCalls t.freeer ((t.slot.drop i).take n) } := by
  induction n generalizing t i with
  | zero =>
    refine returns_pure.mpr ?_
    simp [emptied_zero, freeerCalls]
  | succ n ih =>
    have hi : i < t.slot.length := by omega
    have hhead := drop_take_succ hi n
    rw [freeRange, returns_bind, returns_load]
    refine ⟨hi, ?_⟩
    cases hc : t.slot.getD i none with
    | none =>
      refine (ih (by omega)).mono ?_
      rintro - _ rfl
      have hset := set_getD_self t.slot i
      rw [hc] at hset hhead
      rw [← emptied_succ, hset, hhead, ← singleton_append, freeerCalls_append]
      simp [freeerCalls]
    | some c =>
      rw [hc] at hhead
      dsimp only
      rw [returns_bind, returns_freeSlot, returns_bind, returns_store]
      refine ⟨hi, ?_⟩
      refine (ih (by simp only [length_set]; omega)).mono ?_
      rintro - _ rfl
      have hdrop : (t.slot.set i none).drop (i + 1) = t.slot.drop (i + 1) :=
        drop_set_of_lt (by omega)
      dsimp only
      rw [emptied_succ, hdrop, hhead, ← singleton_append (l := (t.slot.drop _).take _),
        freeerCalls_append, append_assoc]

theorem shiftDown_returns {count : ℕ} (hcount : count ≤ i) (h : i + n ≤ t.slot.length) :
    Returns (shiftDown count n i) t fun _ t' =>
      t' = { t with slot := movedDown t.slot count i n } := by
  induction n generalizing t i with
  | zero =>
    refine returns_pure.mpr ?_
    rw [movedDown_zero]
  | succ n ih =>
    rw [shiftDown, returns_bind, returns_load]
    refine ⟨by omega, ?_⟩
    rw [returns_bind, returns_store]
    refine ⟨by omega, ?_⟩
    refine (ih (by omega) (by simp only [length_set]; omega)).mono ?_
    rintro - _ rfl
    dsimp only
    rw [movedDown_succ _ hcount]

theorem shiftUp_returns {pos : ℕ} (h : pos + n < t.slot.length) :
    Returns (shiftUp pos n) t fun _ t' => t' = { t with slot := movedUp t.slot pos n } := by
  induction n generalizing t with
  | zero =>
    refine returns_pure.mpr ?_
    rw [movedUp_zero]
  | succ n ih =>
    rw [shiftUp, returns_bind, returns_load]
    refine ⟨by omega, ?_⟩
    rw [returns_bind, returns_store]
    refine ⟨by omega, ?_⟩
    refine (ih (by simp only [length_set]; omega)).mono ?_
    rintro - _ rfl
    dsimp only
    rw [movedUp_succ]

theorem fillGap_returns (h : i + n ≤ t.slot.length) :
    Returns (fillGap n i) t fun _ t' => t' = { t with slot := emptied t.slot i n } := by
  induction n generalizing t i with
  | zero =>
    refine returns_pure.mpr ?_
    rw [emptied_zero]
  | succ n ih =>
    rw [fillGap, returns_bind, returns_store]
    refine ⟨by omega, ?_⟩
    refine (ih (by simp only [length_set]; omega)).mono ?_
    rintro - _ rfl
    dsimp only
    rw [emptied_succ]

end Qse.Arr
