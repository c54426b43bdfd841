/-!
# Computations that leave events

A computation changes a state, may fail, and leaves a list of events behind when it does not.
-/

namespace Logged

def Comp (S E Ev α : Type) : Type := S → Except E (α × S × List Ev)

variable {S E Ev α β : Type}

instance : Monad (Comp S E Ev) where
  pure a := fun s => .ok (a, s, [])
  bind x f := fun s =>
    match x s with
    | .error e => .error e
    | .ok (a, s', l) =>
      match f a s' with
      | .error e => .error e
      | .ok (b, s'', l') => .ok (b, s'', l ++ l')

def silent (f : S → Except E (α × S)) : Comp S E Ev α := fun s => (f s).map fun r => (r.1, r.2, [])

def ask (f : S → α) : Comp S E Ev α := fun s => .ok (f s, s, [])

def note (ev : Ev) : Comp S E Ev Unit := fun s => .ok ((), s, [ev])

def fail (e : E) : Comp S E Ev α := fun _ => .error e

def Leaves (x : Comp S E Ev α) (P : α → List Ev → Prop) : Prop :=
  ∀ s a s' l, x s = .ok (a, s', l) → P a l

variable {P : α → List Ev → Prop} {Q : β → List Ev → Prop}

theorem leaves_pure {a : α} (h : P a []) : Leaves (pure a : Comp S E Ev α) P := by
  rintro s b s' l ⟨⟩
  exact h

theorem leaves_silent {f : S → Except E (α × S)} (h : ∀ a, P a []) :
    Leaves (silent f : Comp S E Ev α) P := by
  intro s a s' l hrun
  unfold silent at hrun
  cases hf : f s with
  | error e =>
    rw [hf] at hrun
    cases hrun
  | ok r =>
    rw [hf] at hrun
    cases hrun
    exact h r.1

theorem leaves_ask {f : S → α} (h : ∀ a, P a []) : Leaves (ask f : Comp S E Ev α) P := by
  rintro s a s' l ⟨⟩
  exact h _

theorem leaves_note {ev : Ev} {P : Unit → List Ev → Prop} (h : P () [ev]) :
    Leaves (note ev : Comp S E Ev Unit) P := by
  rintro s a s' l ⟨⟩
  exact h

theorem leaves_fail {e : E} : Leaves (fail e : Comp S E Ev α) P := by
  rintro s a s' l ⟨⟩

variable {x : Comp S E Ev α}

theorem leaves_bind {f : α → Comp S E Ev β} (hx : Leaves x P)
    (hf : ∀ a l, P a l → Leaves (f a) fun b l' => Q b (l ++ l')) : Leaves (x >>= f) Q := by
  intro s b s'' l hrun
  have hdef : (x >>= f) s = match x s with
    | .error e => .error e
    | .ok (a, s', l) =>
      match f a s' with
      | .error e => .error e
      | .ok (b, s'', l') => .ok (b, s'', l ++ l') := rfl
  rw [hdef] at hrun
  cases hxs : x s with
  | error e =>
    rw [hxs] at hrun
    cases hrun
  | ok r =>
    obtain ⟨a, s', l₁⟩ := r
    rw [hxs] at hrun
    simp only at hrun
    cases hfs : f a s' with
    | error e =>
      rw [hfs] at hrun
      cases hrun
    | ok r =>
      obtain ⟨b', t, l₂⟩ := r
      rw [hfs] at hrun
      cases hrun
      exact hf a l₁ (hx s a s' l₁ hxs) s' b s'' l₂ hfs

theorem leaves_mono {P' : α → List Ev → Prop} (hx : Leaves x P)
    (h : ∀ a l, P a l → P' a l) : Leaves x P' := fun s a s' l hrun => h a l (hx s a s' l hrun)

theorem leaves_ite {c : Prop} [Decidable c] {y : Comp S E Ev α} (hx : c → Leaves x P)
    (hy : ¬c → Leaves y P) : Leaves (if c then x else y) P := by
  by_cases hc : c
  · rw [if_pos hc]
    exact hx hc
  · rw [if_neg hc]
    exact hy hc

end Logged
