import Mathlib.Logic.Basic

/-!
# Total correctness for state programs that may fail to return

`Returns c s Q` says that `c`, started in `s`, does return and that its value and final state
satisfy `Q`. The rules are those of a weakest precondition.
-/

namespace StateProgram

variable {σ α β : Type}

/-- `c` started in `s` returns, with a value and a state satisfying `Q`. -/
def Returns (c : StateT σ Option α) (s : σ) (Q : α → σ → Prop) : Prop :=
  ∃ a s', c.run s = some (a, s') ∧ Q a s'

variable {c : StateT σ Option α} {s : σ} {Q R : α → σ → Prop} {a : α} {f : α → StateT σ Option β}

theorem Returns.mono (h : Returns c s Q) (hQR : ∀ a s', Q a s' → R a s') : Returns c s R := by
  obtain ⟨a, s', hrun, hQ⟩ := h
  exact ⟨a, s', hrun, hQR a s' hQ⟩

@[simp] theorem returns_pure : Returns (pure a) s Q ↔ Q a s := by
  constructor
  · rintro ⟨b, s', hrun, hQ⟩
    cases hrun
    exact hQ
  · intro hQ
    exact ⟨a, s, rfl, hQ⟩

@[simp] theorem returns_bind {Q : β → σ → Prop} :
    Returns (c >>= f) s Q ↔ Returns c s fun a s' => Returns (f a) s' Q := by
  constructor
  · rintro ⟨b, t, hrun, hQ⟩
    rw [StateT.run_bind] at hrun
    obtain ⟨⟨a, s'⟩, hc, hf⟩ := Option.bind_eq_some_iff.mp hrun
    exact ⟨a, s', hc, b, t, hf, hQ⟩
  · rintro ⟨a, s', hc, b, t, hf, hQ⟩
    refine ⟨b, t, ?_, hQ⟩
    rw [StateT.run_bind]
    exact Option.bind_eq_some_iff.mpr ⟨(a, s'), hc, hf⟩

@[simp] theorem returns_get {Q : σ → σ → Prop} : Returns (get : StateT σ Option σ) s Q ↔ Q s s := by
  constructor
  · rintro ⟨b, s', hrun, hQ⟩
    cases hrun
    exact hQ
  · intro hQ
    exact ⟨s, s, rfl, hQ⟩

@[simp] theorem returns_modify {f : σ → σ} {Q : PUnit → σ → Prop} :
    Returns (modify f : StateT σ Option PUnit) s Q ↔ Q ⟨⟩ (f s) := by
  constructor
  · rintro ⟨b, s', hrun, hQ⟩
    cases hrun
    exact hQ
  · intro hQ
    exact ⟨⟨⟩, f s, rfl, hQ⟩

@[simp] theorem returns_failure : ¬Returns (failure : StateT σ Option α) s Q := by
  rintro ⟨a, s', hrun, -⟩
  cases hrun

theorem returns_ite {p : Prop} [Decidable p] {d : StateT σ Option α} (hc : p → Returns c s Q)
    (hd : ¬p → Returns d s Q) :
    Returns (if p then c else d) s Q := by
  split
  · exact hc ‹p›
  · exact hd ‹¬p›

theorem Returns.of_run {s' : σ} (h : Returns c s Q) (hrun : c.run s = some (a, s')) : Q a s' := by
  obtain ⟨b, t, hrun', hQ⟩ := h
  rw [hrun] at hrun'
  cases hrun'
  exact hQ

/-- If `c` started in `s` returns, its value and final state satisfy `Q`. -/
def Yields (c : StateT σ Option α) (s : σ) (Q : α → σ → Prop) : Prop :=
  ∀ a s', c.run s = some (a, s') → Q a s'

theorem yields_pure (h : Q a s) : Yields (pure a) s Q := by
  intro b s' hrun
  cases hrun
  exact h

theorem yields_failure : Yields (failure : StateT σ Option α) s Q := by
  rintro a s' ⟨⟩

theorem Yields.bind {Q : β → σ → Prop} (hc : Yields c s R)
    (hf : ∀ a s', R a s' → Yields (f a) s' Q) : Yields (c >>= f) s Q := by
  intro b t hrun
  rw [StateT.run_bind] at hrun
  obtain ⟨⟨a, s'⟩, hrunc, hrunf⟩ := Option.bind_eq_some_iff.mp hrun
  exact hf a s' (hc a s' hrunc) b t hrunf

theorem yields_get {f : σ → StateT σ Option β} {Q : β → σ → Prop}
    (h : Yields (f s) s Q) : Yields (get >>= f) s Q :=
  h

theorem Yields.skip {Q : β → σ → Prop} (hf : ∀ a s', Yields (f a) s' Q) : Yields (c >>= f) s Q :=
  Yields.bind (R := fun _ _ => True) (fun _ _ _ => trivial) fun a s' _ => hf a s'

theorem yields_ite {p : Prop} [Decidable p] {d : StateT σ Option α} (hc : p → Yields c s Q)
    (hd : ¬p → Yields d s Q) :
    Yields (if p then c else d) s Q := by
  split
  · exact hc ‹p›
  · exact hd ‹¬p›

theorem Returns.and (h : Returns c s Q)
    (hy : Yields c s R) : Returns c s fun a s' => Q a s' ∧ R a s' := by
  obtain ⟨a, s', hrun, hQ⟩ := h
  exact ⟨a, s', hrun, hQ, hy a s' hrun⟩

theorem Returns.withRun
    (h : Returns c s Q) : Returns c s fun a s' => c.run s = some (a, s') ∧ Q a s' := by
  obtain ⟨a, s', hrun, hQ⟩ := h
  exact ⟨a, s', hrun, hrun, hQ⟩

theorem Returns.yields (h : Returns c s Q) : Yields c s Q :=
  fun _ _ hrun => h.of_run hrun

end StateProgram
