import Mathlib.Data.Set.Insert

/-!
# Sets keyed by an equivalence

A set in which an element stands for all that are the same as it: an element is present when the
set has one that is the same, and a new element takes the place of those.
-/

namespace KeyedSet

variable {α : Type*} {r : Setoid α} {S : Set α} {d : α}

def Present (r : Setoid α) (S : Set α) (d : α) : Prop := ∃ e ∈ S, r d e

def erase (r : Setoid α) (S : Set α) (d : α) : Set α := {e ∈ S | ¬r d e}

def put (r : Setoid α) (S : Set α) (d : α) : Set α := insert d (erase r S d)

def Distinct (r : Setoid α) (S : Set α) : Prop := ∀ e ∈ S, ∀ f ∈ S, r e f → e = f

open Classical in
noncomputable def kept (r : Setoid α) (S : Set α) (d : α) : Option α :=
  if h : Present r S d then some h.choose else none

theorem kept_of_not_present (h : ¬Present r S d) : kept r S d = none := dif_neg h

theorem kept_eq_some {e : α} (hS : Distinct r S) (he : e ∈ S) (hde : r d e) :
    kept r S d = some e := by
  have h : Present r S d := ⟨e, he, hde⟩
  obtain ⟨hmem, hsame⟩ := h.choose_spec
  rw [kept, dif_pos h, hS _ hmem e he (r.trans (r.symm hsame) hde)]

theorem erase_of_not_present (h : ¬Present r S d) : erase r S d = S := by
  ext e
  constructor
  · exact fun he => he.1
  · exact fun he => ⟨he, fun hde => h ⟨e, he, hde⟩⟩

end KeyedSet
