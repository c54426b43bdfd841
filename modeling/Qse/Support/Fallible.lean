/-!
# Computations that may fail and keep what they have changed

A computation changes a state and has a value, or fails. What it has changed before it fails
stays changed.
-/

def Fallible (S α : Type) : Type := S → Option α × S

namespace Fallible

variable {S T W α β : Type}

instance : Monad (Fallible S) where
  pure a := fun s => (some a, s)
  bind x f := fun s =>
    match x s with
    | (none, s') => (none, s')
    | (some a, s') => f a s'

def fail : Fallible S α := fun s => (none, s)

def ask (f : S → α) : Fallible S α := fun s => (some (f s), s)

def change (f : S → S) : Fallible S PUnit := fun s => (some ⟨⟩, f s)

def attempt (x : Fallible S α) : Fallible S (Option α) := fun s => (some (x s).1, (x s).2)

variable {x : Fallible S α} {f : α → Fallible S β} {s : S}

theorem bind_some {s' : S} {a : α} (h : x s = (some a, s')) : (x >>= f) s = f a s' := by
  show (match x s with | (none, s') => (none, s') | (some a, s') => f a s') = f a s'
  rw [h]

theorem bind_none {s' : S} (h : x s = (none, s')) : (x >>= f) s = (none, s') := by
  show (match x s with | (none, s') => (none, s') | (some a, s') => f a s') = (none, s')
  rw [h]

theorem bind_bind {γ : Type} (x : Fallible S α) (f : α → Fallible S β) (g : β → Fallible S γ) :
    x >>= f >>= g = x >>= fun a => f a >>= g := by
  funext s
  cases hx : x s with
  | mk r s' =>
    cases r with
    | none => rw [bind_none (bind_none hx), bind_none hx]
    | some a =>
      rw [bind_some hx]
      cases hf : f a s' with
      | mk r s'' =>
        have hxf : (x >>= f) s = (r, s'') := (bind_some hx).trans hf
        cases r with
        | none => rw [bind_none hxf, bind_none hf]
        | some b => rw [bind_some hxf, bind_some hf]

theorem bind_eq_some {s'' : S} {b : β} (h : (x >>= f) s = (some b, s'')) :
    ∃ a s', x s = (some a, s') ∧ f a s' = (some b, s'') := by
  cases hx : x s with
  | mk r s' =>
    cases r with
    | none =>
      rw [bind_none hx] at h
      cases h
    | some a =>
      rw [bind_some hx] at h
      exact ⟨a, s', rfl, h⟩

def Steps (R : S → S → Prop) (x : Fallible S α) : Prop := ∀ s, R s (x s).2

variable {R : S → S → Prop}

theorem steps_pure (hrefl : ∀ s, R s s) (a : α) : Steps R (pure a) := fun s => hrefl s

theorem steps_fail (hrefl : ∀ s, R s s) : Steps R (fail : Fallible S α) := fun s => hrefl s

theorem steps_ask (hrefl : ∀ s, R s s) (f : S → α) : Steps R (ask f) := fun s => hrefl s

theorem Steps.bind (htrans : ∀ s t u, R s t → R t u → R s u) (hx : Steps R x)
    (hf : ∀ a, Steps R (f a)) :
    Steps R (x >>= f) := by
  intro s
  have hs := hx s
  cases hrun : x s with
  | mk r s' =>
    rw [hrun] at hs
    cases r with
    | none =>
      rw [bind_none hrun]
      exact hs
    | some a =>
      rw [bind_some hrun]
      exact htrans _ _ _ hs (hf a s')

theorem Steps.attempt (hx : Steps R x) : Steps R (attempt x) := hx

theorem Steps.mono {R' : S → S → Prop} (hx : Steps R x) (h : ∀ s t, R s t → R' s t) : Steps R' x :=
  fun s => h _ _ (hx s)

/-- From states that are related, the computation gives the same value, or fails in both, and
leads to states that are related by `R'`. -/
def Twin (R R' : S → S → Prop) (x : Fallible S α) : Prop :=
  ∀ s t, R s t → (x s).1 = (x t).1 ∧ R' (x s).2 (x t).2

variable {R' R'' : S → S → Prop}

theorem twin_pure (a : α) : Twin R R (pure a) := fun _ _ h => ⟨rfl, h⟩

theorem twin_fail : Twin R R (fail : Fallible S α) := fun _ _ h => ⟨rfl, h⟩

theorem twin_change {f : S → S} (h : ∀ s t, R s t → R' (f s) (f t)) : Twin R R' (change f) :=
  fun s t hst => ⟨rfl, h s t hst⟩

theorem Twin.mono (hx : Twin R R' x) (h : ∀ s t, R' s t → R'' s t) : Twin R R'' x :=
  fun s t hst => ⟨(hx s t hst).1, h _ _ (hx s t hst).2⟩

theorem Twin.bind (hx : Twin R R' x) (hf : ∀ a, Twin R' R'' (f a))
    (hsub : ∀ s t, R' s t → R'' s t) : Twin R R'' (x >>= f) := by
  intro s t hst
  obtain ⟨hvalue, hstate⟩ := hx s t hst
  cases hs : x s with
  | mk a s' =>
    cases ht : x t with
    | mk b t' =>
      rw [hs, ht] at hvalue hstate
      obtain rfl : a = b := hvalue
      cases a with
      | none =>
        rw [bind_none hs, bind_none ht]
        exact ⟨rfl, hsub s' t' hstate⟩
      | some a =>
        rw [bind_some hs, bind_some ht]
        exact hf a s' t' hstate

theorem Twin.next {y : Fallible S β} (hx : Twin R R x) (hy : Twin R R y) :
    Twin R R (x >>= fun _ => y) :=
  hx.bind (fun _ => hy) fun _ _ h => h

theorem Twin.ask {f : S → α} {k : α → Fallible S β} (hf : ∀ s t, R s t → f s = f t)
    (hk : ∀ a, Twin R R' (k a)) : Twin R R' (ask f >>= k) := by
  intro s t hst
  have hs : (Fallible.ask f >>= k) s = k (f s) s := rfl
  have ht : (Fallible.ask f >>= k) t = k (f s) t := by rw [hf s t hst]; rfl
  rw [hs, ht]
  exact hk (f s) s t hst

theorem Twin.attempt (hx : Twin R R' x) : Twin R R' (attempt x) :=
  fun s t hst => ⟨congrArg some (hx s t hst).1, (hx s t hst).2⟩

end Fallible
