import Qse.Awk.CallStack

/-!
# Frames of calls

What a part of a program may change is told by the frame that it runs in. `Good` says that the frame
is active, and `Kept` that all is as before but for its variables.
-/

open Function

namespace Qse.Awk.Calls

open StateProgram

variable {V σ : Type}

section Cells

variable {s : CallRtx V σ}

variable {i n : ℕ} {Q : PUnit → CallRtx V σ → Prop}

@[simp] theorem returns_setCell {c : StackCell V} :
    Returns (setCell i c) s Q ↔ Q ⟨⟩ { s with stack := update s.stack i c } := by
  simp [setCell]

@[simp] theorem returns_setStackTop :
    Returns (setStackTop n) s Q ↔ Q ⟨⟩ { s with stackTop := n } := by
  simp [setStackTop]

@[simp] theorem returns_setStackBase :
    Returns (setStackBase n) s Q ↔ Q ⟨⟩ { s with stackBase := n } := by
  simp [setStackBase]

@[simp] theorem returns_rawPop :
    Returns rawPop s Q ↔ Q ⟨⟩ { s with stackTop := s.stackTop - 1 } := by
  simp [rawPop]

@[simp] theorem returns_seterr : Returns seterr s Q ↔ Q ⟨⟩ { s with enoerr := false } := by
  simp [seterr]

theorem returns_valAt {v : V} {Q : V → CallRtx V σ → Prop} (hv : s.stack i = .val v)
    (hQ : Q v s) : Returns (valAt i) s Q := by
  simpa [valAt, hv] using hQ

theorem returns_numAt {Q : ℕ → CallRtx V σ → Prop} (hn : s.stack i = .num n)
    (hQ : Q n s) : Returns (numAt i) s Q := by
  simpa [numAt, hn] using hQ

theorem returns_rawPush {c : StackCell V} {Q : Bool → CallRtx V σ → Prop}
    (hfull : Q false { s with enoerr := false }) (hroom : Q true
      { s with stack := update s.stack s.stackTop c, stackTop := s.stackTop + 1 }) :
    Returns (rawPush c) s Q := by
  unfold rawPush
  rw [returns_bind, returns_get]
  refine returns_ite (fun _ => ?_) (fun _ => ?_)
  · simp only [returns_bind, returns_seterr, returns_pure]
    exact hfull
  · simp only [returns_bind, returns_setCell, returns_setStackTop, returns_pure]
    exact hroom

end Cells

/-! ## Frames -/

/-- A frame as those see it who run in it: its place, the number of its arguments, if it is
the frame of a call, the place of the value that the program returns, the cells that may be
assigned to, and those that an exit assigns to, which is that place once it is there. -/
structure Frame where
  base : ℕ
  floor : ℕ
  nargs : Option ℕ
  gretval : ℕ
  vars : Set ℕ
  exits : Set ℕ
  vars_lt : ∀ i ∈ vars, i < floor
  exits_lt : ∀ i ∈ exits, i < floor
  exits_eq : ∀ i ∈ exits, i = gretval
  slots_lt : nargs.isSome → base + 3 < floor
  nargs_apart : nargs.isSome → base + 3 ∉ vars ∧ base + 3 ∉ exits
  retval_apart : nargs.isSome → base + 2 ∉ vars

/-- A statement may set the return value, but no expression may. -/
inductive Part where
  | expression
  | statement

def Frame.writes (F : Frame) : Part → Set ℕ
  | .expression => F.vars
  | .statement => {i | i ∈ F.vars ∨ F.nargs.isSome ∧ i = F.base + 2}

variable {i a n : ℕ}

theorem Frame.vars_writes (F : Frame) (part : Part) (hi : i ∈ F.vars) : i ∈ F.writes part := by
  cases part with
  | expression => exact hi
  | statement => exact .inl hi

theorem Frame.writes_lt (F : Frame) {part : Part} (hi : i ∈ F.writes part) : i < F.floor := by
  cases part with
  | expression => exact F.vars_lt i hi
  | statement =>
    rcases hi with hi | ⟨hsome, rfl⟩
    · exact F.vars_lt i hi
    · have := F.slots_lt hsome
      omega

def Frame.values (F : Frame) : Set ℕ := {i | i ∈ F.writes .statement ∨ i ∈ F.exits}

theorem Frame.values_lt (F : Frame) (hi : i ∈ F.values) : i < F.floor :=
  hi.elim F.writes_lt (F.exits_lt i)

theorem Frame.values_ne (F : Frame) (hsome : F.nargs.isSome) (hi : i ∈ F.values) :
    F.base + 3 ≠ i := by
  rintro rfl
  rcases hi with (hi | ⟨-, hi⟩) | hi
  · exact (F.nargs_apart hsome).1 hi
  · omega
  · exact (F.nargs_apart hsome).2 hi

def Frame.callee (F : Frame) (top : ℕ) (htop : F.floor ≤ top) (n k : ℕ) : Frame where
  base := top
  floor := top + 4 + n + k
  nargs := some n
  gretval := F.gretval
  vars := {i | i ∈ F.vars ∨ top + 4 ≤ i ∧ i < top + 4 + n + k}
  exits := {i | i ∈ F.exits ∨ i = top + 2 ∧ i = F.gretval}
  vars_lt := by
    rintro i (hi | ⟨-, hi⟩)
    · have := F.vars_lt i hi
      omega
    · exact hi
  exits_lt := by
    rintro i (hi | ⟨rfl, -⟩)
    · have := F.exits_lt i hi
      omega
    · omega
  exits_eq := by
    rintro i (hi | ⟨-, hi⟩)
    · exact F.exits_eq i hi
    · exact hi
  slots_lt := by
    intro _
    omega
  nargs_apart := by
    refine fun _ => ⟨?_, ?_⟩
    · rintro (hi | ⟨hi, -⟩)
      · have := F.vars_lt _ hi
        omega
      · omega
    · rintro (hi | ⟨hi, -⟩)
      · have := F.exits_lt _ hi
        omega
      · omega
  retval_apart := by
    rintro - (hi | ⟨hi, -⟩)
    · have := F.vars_lt _ hi
      omega
    · omega

/-- `F` is the active frame. -/
structure Good (F : Frame) (s : CallRtx V σ) : Prop where
  base : s.stackBase = F.base
  floor : F.floor ≤ s.stackTop
  nargs : ∀ n, F.nargs = some n → s.stack (F.base + 3) = .num n
  values : ∀ i ∈ F.values, ∃ v, s.stack i = .val v

/-- An exit has not been executed, if one assigns to the cell. -/
def Frame.Spares (F : Frame) (s s' : CallRtx V σ) (i : ℕ) : Prop := i ∈ F.exits → s'.exits = s.exits

section Spares

variable {F : Frame} {s s' s'' : CallRtx V σ}

theorem Frame.Spares.first (h : F.Spares s s'' i) (hle : s.exits ≤ s'.exits)
    (hle' : s'.exits ≤ s''.exits) : F.Spares s s' i := by
  intro hi
  have hsame := h hi
  omega

theorem Frame.Spares.rest (h : F.Spares s s'' i) (hle : s.exits ≤ s'.exits)
    (hle' : s'.exits ≤ s''.exits) : F.Spares s' s'' i := by
  intro hi
  have hsame := h hi
  omega

theorem Frame.Spares.congr (h : F.Spares s s'' i) (hsame : s'.exits = s''.exits) :
    F.Spares s s' i := fun hi => hsame.trans (h hi)

end Spares

/-! ## A frame that is set up -/

structure Framed (F : Frame) (k : ℕ) (c : StackCell V) (s t : CallRtx V σ) : Prop where
  top : t.stackTop = s.stackTop + 4 + k
  exits : s.exits ≤ t.exits
  cells : ∀ i < s.stackTop, i ∉ F.vars → F.Spares s t i → t.stack i = s.stack i
  prevBase : t.stack s.stackTop = .num F.base
  prevTop : t.stack (s.stackTop + 1) = .num s.stackTop
  retval : ∃ v, t.stack (s.stackTop + 2) = .val v
  nargs : t.stack (s.stackTop + 3) = c
  args : ∀ j < k, ∃ v, t.stack (s.stackTop + 4 + j) = .val v
  values : ∀ i, i ∈ F.vars ∨ i ∈ F.exits → ∃ v, t.stack i = .val v

section Framed

variable {F : Frame} {k n : ℕ} {c : StackCell V} {s t t' : CallRtx V σ}

theorem Frame.not_vars (hs : Good F s) {i : ℕ} (hi : s.stackTop ≤ i) : i ∉ F.vars := by
  intro hmem
  have hlt := F.vars_lt i hmem
  have hfloor := hs.floor
  omega

theorem Frame.spares_above (hs : Good F s) {i : ℕ} (hi : s.stackTop ≤ i) : F.Spares t t' i := by
  intro hmem
  have hlt := F.exits_lt i hmem
  have hfloor := hs.floor
  omega

theorem Framed.values_lt (hs : Good F s) {i : ℕ} (hi : i ∈ F.vars ∨ i ∈ F.exits) : i < s.stackTop :=
  Nat.lt_of_lt_of_le (hi.elim (F.vars_lt i) (F.exits_lt i)) hs.floor

theorem Framed.resize {k' : ℕ} (h : Framed F k c s t) (hs : Good F s)
    (htop' : t'.stackTop = s.stackTop + 4 + k') (hexits : t'.exits = t.exits)
    (hcells : ∀ i < s.stackTop + 4, t'.stack i = t.stack i)
    (hargs : ∀ j < k', ∃ v, t'.stack (s.stackTop + 4 + j) = .val v) : Framed F k' c s t' := by
  refine ⟨htop', hexits ▸ h.exits, ?_, ?_, ?_, ?_, ?_, hargs, ?_⟩
  · intro i hi hiF hspared
    rw [hcells i (by omega)]
    exact h.cells i hi hiF (hspared.congr hexits.symm)
  · rw [hcells _ (by omega)]
    exact h.prevBase
  · rw [hcells _ (by omega)]
    exact h.prevTop
  · rw [hcells _ (by omega)]
    exact h.retval
  · rw [hcells _ (by omega)]
    exact h.nargs
  · intro i hi
    have hlt := Framed.values_lt hs hi
    rw [hcells i (by omega)]
    exact h.values i hi

theorem Framed.slots {c' : StackCell V} (h : Framed F k c s t) (hs : Good F s)
    (htop : t'.stackTop = t.stackTop) (hexits : t'.exits = t.exits)
    (hcells : ∀ i, i ≠ s.stackTop + 2 → i ≠ s.stackTop + 3 → t'.stack i = t.stack i)
    (hretval : ∃ v, t'.stack (s.stackTop + 2) = .val v)
    (hnargs : t'.stack (s.stackTop + 3) = c') : Framed F k c' s t' := by
  refine ⟨htop.trans h.top, hexits ▸ h.exits, ?_, ?_, ?_, hretval, hnargs, ?_, ?_⟩
  · intro i hi hiF hspared
    rw [hcells i (by omega) (by omega)]
    exact h.cells i hi hiF (hspared.congr hexits.symm)
  · rw [hcells _ (by omega) (by omega)]
    exact h.prevBase
  · rw [hcells _ (by omega) (by omega)]
    exact h.prevTop
  · intro j hj
    rw [hcells _ (by omega) (by omega)]
    exact h.args j hj
  · intro i hi
    have hlt := Framed.values_lt hs hi
    rw [hcells i (by omega) (by omega)]
    exact h.values i hi

theorem Framed.caller (h : Framed F k c s t) (hs : Good F s) (hbase : t.stackBase = F.base) :
    Good F t := by
  have hfloor := hs.floor
  have htop := h.top
  have hcell (i : ℕ) (hi : i < F.floor) (hiF : i ∉ F.vars) (hiE : i ∉ F.exits) :
      t.stack i = s.stack i := h.cells i (by omega) hiF fun hmem => absurd hmem hiE
  refine ⟨hbase, by omega, ?_, ?_⟩
  · intro n hn
    have hsome : F.nargs.isSome := by simp [hn]
    obtain ⟨hvars, hexits⟩ := F.nargs_apart hsome
    rw [hcell _ (F.slots_lt hsome) hvars hexits]
    exact hs.nargs n hn
  · intro i hi
    by_cases hiF : i ∈ F.vars ∨ i ∈ F.exits
    · exact h.values i hiF
    · rw [hcell i (F.values_lt hi) (fun hmem => hiF (.inl hmem)) fun hmem => hiF (.inr hmem)]
      exact hs.values i hi

theorem Framed.callee {m : ℕ} (h : Framed F (n + m) (.num n) s t) (hs : Good F s)
    (hbase : t.stackBase = s.stackTop) : Good (F.callee s.stackTop hs.floor n m) t := by
  have htop := h.top
  refine ⟨hbase, ?_, ?_, ?_⟩
  · show s.stackTop + 4 + n + m ≤ t.stackTop
    omega
  · intro j hj
    cases hj
    exact h.nargs
  · rintro i (((hi | ⟨hle, hlt⟩) | ⟨-, rfl⟩) | (hi | ⟨rfl, -⟩))
    · exact h.values i (.inl hi)
    · obtain ⟨v, hv⟩ := h.args (i - (s.stackTop + 4)) (by omega)
      rw [show s.stackTop + 4 + (i - (s.stackTop + 4)) = i by omega] at hv
      exact ⟨v, hv⟩
    · exact h.retval
    · exact h.values i (.inr hi)
    · exact h.retval

end Framed

variable [DecidableEq V]

/-! ## Counts -/

/-- The references to `v` that a cell holds. -/
def share (v : V) (c : StackCell V) : ℤ := if c = .val v then 1 else 0

def span (stack : ℕ → StackCell V) (v : V) (a : ℕ) : ℕ → ℤ
  | 0 => 0
  | n + 1 => span stack v a n + share v (stack (a + n))

variable {v : V}

theorem span_congr {stack stack' : ℕ → StackCell V}
    (h : ∀ i, a ≤ i → i < a + n → stack' i = stack i) :
    span stack' v a n = span stack v a n := by
  induction n with
  | zero => rfl
  | succ n ih =>
    have hn := ih fun i hi hin => h i hi (by omega)
    simp only [span, hn, h (a + n) (by omega) (by omega)]

theorem span_add (stack : ℕ → StackCell V) (v : V) (a m n : ℕ) :
    span stack v a (m + n) = span stack v a m + span stack v (a + m) n := by
  induction n with
  | zero => simp [span]
  | succ n ih =>
    rw [← Nat.add_assoc, span, span, ih, Nat.add_assoc a m n]
    omega

theorem span_update (stack : ℕ → StackCell V) (v : V) (c : StackCell V) (hi : a ≤ i)
    (hin : i < a + n) :
    span (update stack i c) v a n = span stack v a n - share v (stack i) + share v c := by
  induction n with
  | zero => omega
  | succ n ih =>
    simp only [span]
    by_cases hlast : i = a + n
    · subst hlast
      have hbelow : span (update stack (a + n) c) v a n = span stack v a n :=
        span_congr fun j _ hj => update_of_ne (by omega) _ _
      rw [hbelow, update_self]
      omega
    · rw [ih (by omega), update_of_ne (by omega)]
      omega

theorem span_update_above (stack : ℕ → StackCell V) (v : V) (c : StackCell V)
    (hi : a + n ≤ i) : span (update stack i c) v a n = span stack v a n :=
  span_congr fun _ _ hj => update_of_ne (by omega) _ _

theorem share_nil {vals : Vals V σ} (hv : vals.static v = false) : share v (.val vals.nil) = 0 := by
  have hne : vals.nil ≠ v := by
    rintro rfl
    rw [vals.static_nil] at hv
    cases hv
  simp [share, hne]

@[simp] theorem share_num (v : V) (n : ℕ) : share v (.num n) = 0 := by simp [share]

/-- The references to `v` that are not accounted for: those that are neither in a cell of
the stack nor kept elsewhere. -/
def surplus (s : CallRtx V σ) (v : V) : ℤ := s.ref v - s.held v - span s.stack v 0 s.stackTop

theorem surplus_eq {s t : CallRtx V σ} (v : V) (href : t.ref = s.ref) (hheld : t.held = s.held)
    (htop : t.stackTop = s.stackTop) (hcells : ∀ i < s.stackTop, t.stack i = s.stack i) :
    surplus t v = surplus s v := by
  have hspan : span t.stack v 0 s.stackTop = span s.stack v 0 s.stackTop :=
    span_congr fun i _ hi => hcells i (by omega)
  simp only [surplus, href, hheld, htop, hspan]

variable (vals : Vals V σ)

def bump (v : V) (d : ℤ) (s : CallRtx V σ) : CallRtx V σ :=
  if vals.static v then s else { s with ref := update s.ref v (s.ref v + d) }

section Bump

variable (v : V) (d : ℤ) (s : CallRtx V σ)

@[simp] theorem bump_stack : (bump vals v d s).stack = s.stack := by unfold bump; split <;> rfl
@[simp] theorem bump_stackTop : (bump vals v d s).stackTop = s.stackTop := by
  unfold bump; split <;> rfl
@[simp] theorem bump_stackBase : (bump vals v d s).stackBase = s.stackBase := by
  unfold bump; split <;> rfl
@[simp] theorem bump_exits : (bump vals v d s).exits = s.exits := by unfold bump; split <;> rfl
@[simp] theorem bump_held : (bump vals v d s).held = s.held := by unfold bump; split <;> rfl

theorem bump_ref {w : V} (hw : vals.static w = false) :
    (bump vals v d s).ref w = s.ref w + d * share w (.val v) := by
  by_cases hvw : v = w
  · subst hvw
    simp [bump, hw, share]
  · have hwv : w ≠ v := fun h => hvw h.symm
    by_cases hv : vals.static v = true <;> simp [bump, hv, share, hvw, hwv]

theorem surplus_bump {w : V} (hw : vals.static w = false) :
    surplus (bump vals v d s) w = surplus s w + d * share w (.val v) := by
  have href := bump_ref vals v d s hw
  simp only [surplus, bump_held, bump_stack, bump_stackTop, href]
  omega

theorem bump_bump : bump vals v (-1) (bump vals v 1 s) = s := by
  unfold bump
  by_cases hv : vals.static v = true
  · simp [hv]
  · have hback : s.ref v + 1 + -1 = s.ref v := by omega
    simp [hv, hback]

theorem bump_nil (hv : vals.static v = true) : bump vals v d s = s := by simp [bump, hv]

end Bump

variable {vals} {s : CallRtx V σ}

@[simp] theorem returns_refupval {Q : PUnit → CallRtx V σ → Prop} :
    Returns (refupval vals v) s Q ↔ Q ⟨⟩ (bump vals v 1 s) := by
  unfold refupval bump addRef
  split <;> simp

@[simp] theorem returns_refdownval {Q : PUnit → CallRtx V σ → Prop} :
    Returns (refdownval vals v) s Q ↔ Q ⟨⟩ (bump vals v (-1) s) := by
  unfold refdownval bump addRef
  split <;> simp

/-! ## What is kept -/

/-- All is as before but for the cells in `W`, and for what an exit assigns to if one has been
executed. -/
structure Kept (vals : Vals V σ) (F : Frame) (W : Set ℕ) (s s' : CallRtx V σ) : Prop where
  good : Good F s'
  top : s'.stackTop = s.stackTop
  exits : s.exits ≤ s'.exits
  cells : ∀ i < s.stackTop, i ∉ W → F.Spares s s' i → s'.stack i = s.stack i
  surplus : ∀ v, vals.static v = false → surplus s' v = surplus s v

variable {F : Frame} {W W' : Set ℕ} {s' s'' : CallRtx V σ}

theorem Kept.refl (hs : Good F s) : Kept vals F W s s :=
  ⟨hs, rfl, Nat.le_refl _, fun _ _ _ _ => rfl, fun _ _ => rfl⟩

theorem Kept.trans (h : Kept vals F W s s') (h' : Kept vals F W s' s'') : Kept vals F W s s'' where
  good := h'.good
  top := h'.top.trans h.top
  exits := Nat.le_trans h.exits h'.exits
  cells i hi hiW hspared := (h'.cells i (h.top ▸ hi) hiW (hspared.rest h.exits h'.exits)).trans
    (h.cells i hi hiW (hspared.first h.exits h'.exits))
  surplus v hv := (h'.surplus v hv).trans (h.surplus v hv)

theorem Kept.weaken (h : Kept vals F W s s') (hW : ∀ i ∈ W, i ∈ W') : Kept vals F W' s s' where
  good := h.good
  top := h.top
  exits := h.exits
  cells i hi hiW hspared := h.cells i hi (fun hmem => hiW (hW i hmem)) hspared
  surplus := h.surplus

theorem Kept.of_eq (hs : Good F s) (hbase : s'.stackBase = s.stackBase)
    (htop : s'.stackTop = s.stackTop) (hcells : ∀ i < s.stackTop, s'.stack i = s.stack i)
    (href : s'.ref = s.ref) (hheld : s'.held = s.held) (hexits : s'.exits = s.exits) :
    Kept vals F W s s' where
  good := by
    refine ⟨hbase.trans hs.base, htop ▸ hs.floor, ?_, ?_⟩
    · intro n hn
      have hlt := F.slots_lt (by simp [hn])
      have hfloor := hs.floor
      rw [hcells _ (by omega)]
      exact hs.nargs n hn
    · intro i hi
      rw [hcells i (Nat.lt_of_lt_of_le (F.values_lt hi) hs.floor)]
      exact hs.values i hi
  top := htop
  exits := Nat.le_of_eq hexits.symm
  cells i hi _ _ := hcells i hi
  surplus v _ := surplus_eq v href hheld htop hcells

/-- An exit has been executed, so that the cells that it assigns to need not be listed. -/
theorem Kept.exit (h : Kept vals F W s s') (hW : ∀ i ∈ W, i ∈ W' ∨ i ∈ F.exits)
    (exitLevel : ExitLevel) :
    Kept vals F W' s { s' with exitLevel := exitLevel, exits := s'.exits + 1 } where
  good := ⟨h.good.base, h.good.floor, h.good.nargs, h.good.values⟩
  top := h.top
  exits := Nat.le_succ_of_le h.exits
  cells i hi hiW hspared := by
    have hle := h.exits
    have hiE : i ∉ F.exits := by
      intro hmem
      have hsame : s'.exits + 1 = s.exits := hspared hmem
      omega
    exact h.cells i hi (fun hmem => (hW i hmem).elim hiW hiE) fun hmem => absurd hmem hiE
  surplus := h.surplus

def Tame (vals : Vals V σ) (F : Frame) (W : Set ℕ) {α : Type} (c : RtxM V σ α) : Prop :=
  ∀ s, Good F s → Returns c s fun _ s' => Kept vals F W s s'

variable {α β : Type}

theorem Tame.pure (a : α) : Tame vals F W (Pure.pure a : RtxM V σ α) :=
  fun _ hs => returns_pure.mpr (Kept.refl hs)

theorem Tame.bind {c : RtxM V σ α} {f : α → RtxM V σ β} (hc : Tame vals F W c)
    (hf : ∀ a, Tame vals F W (f a)) : Tame vals F W (c >>= f) := by
  intro s hs
  rw [returns_bind]
  apply (hc s hs).mono
  intro a s' hkept
  exact (hf a s' hkept.good).mono fun _ _ hkept' => hkept.trans hkept'

theorem Tame.look {f : CallRtx V σ → RtxM V σ α} (hf : ∀ s, Good F s → Tame vals F W (f s)) :
    Tame vals F W (get >>= f) := by
  intro s hs
  rw [returns_bind, returns_get]
  exact hf s hs s hs

theorem Tame.weaken {c : RtxM V σ α} (hc : Tame vals F W c) (hW : ∀ i ∈ W, i ∈ W') :
    Tame vals F W' c :=
  fun s hs => (hc s hs).mono fun _ _ h => h.weaken hW

theorem Tame.change {f : CallRtx V σ → CallRtx V σ} (hbase : ∀ s, (f s).stackBase = s.stackBase)
    (htop : ∀ s, (f s).stackTop = s.stackTop) (hstack : ∀ s, (f s).stack = s.stack)
    (href : ∀ s, (f s).ref = s.ref) (hheld : ∀ s, (f s).held = s.held)
    (hexits : ∀ s, (f s).exits = s.exits) :
    Tame vals F W (modify f : RtxM V σ PUnit) := fun s hs =>
  returns_modify.mpr
    (Kept.of_eq hs (hbase s) (htop s) (fun _ _ => by rw [hstack]) (href s) (hheld s) (hexits s))

theorem Tame.seterr : Tame vals F W (seterr : RtxM V σ PUnit) :=
  Tame.change (fun _ => rfl) (fun _ => rfl) (fun _ => rfl) (fun _ => rfl) (fun _ => rfl)
    fun _ => rfl

theorem Tame.makerefval (ref : Ref V σ) : Tame vals F W (makerefval vals ref) := by
  apply Tame.look
  intro s _
  refine Tame.bind ?_ fun _ => Tame.pure _
  exact Tame.change (fun _ => rfl) (fun _ => rfl) (fun _ => rfl) (fun _ => rfl) (fun _ => rfl)
    fun _ => rfl

theorem surplus_held (v : V) (d : ℤ) {w : V} (hw : vals.static w = false) :
    surplus { bump vals v d s with held := update s.held v (s.held v + d) } w = surplus s w := by
  have href := bump_ref vals v d s hw
  by_cases hvw : w = v
  · subst hvw
    simp only [surplus, bump_stack, bump_stackTop, href, share, update_self, if_true]
    omega
  · have hwv : v ≠ w := fun h => hvw h.symm
    simp [surplus, href, share, update_of_ne hvw, hwv]

theorem Tame.hold (v : V) : Tame vals F W (hold vals v) := by
  intro s hs
  simp only [Calls.hold, returns_bind, returns_refupval, returns_modify, bump_held]
  exact ⟨⟨by simpa using hs.base, by simpa using hs.floor, by simpa using hs.nargs,
    by simpa using hs.values⟩, by simp, by simp, by simp, fun _ hw => surplus_held v 1 hw⟩

theorem Tame.drop (v : V) : Tame vals F W (drop vals v) := by
  intro s hs
  simp only [Calls.drop, returns_bind, returns_refdownval, returns_modify, bump_held]
  exact ⟨⟨by simpa using hs.base, by simpa using hs.floor, by simpa using hs.nargs,
    by simpa using hs.values⟩, by simp, by simp, by simp, fun _ hw => surplus_held v (-1) hw⟩

theorem Tame.store (v : V) (hi : i ∈ F.values) (hiW : i ∈ W) :
    Tame vals F W (store vals i v) := by
  intro s hs
  obtain ⟨old, hold⟩ := hs.values i hi
  have hlt : i < s.stackTop := Nat.lt_of_lt_of_le (F.values_lt hi) hs.floor
  unfold Calls.store
  rw [returns_bind]
  apply returns_valAt hold
  simp only [returns_bind, returns_refdownval, returns_setCell, returns_refupval]
  refine ⟨⟨by simpa using hs.base, by simpa using hs.floor, ?_, ?_⟩, by simp, by simp, ?_, ?_⟩
  · intro n hn
    have hne : F.base + 3 ≠ i := F.values_ne (by simp [hn]) hi
    simpa [update_of_ne hne] using hs.nargs n hn
  · intro j hj
    by_cases hji : j = i
    · exact ⟨v, by simp [hji]⟩
    · simpa [update_of_ne hji] using hs.values j hj
  · intro j _ hjW _
    have hji : j ≠ i := by
      rintro rfl
      exact hjW hiW
    simp [update_of_ne hji]
  · intro w hw
    have hspan := span_update s.stack w (.val v) (Nat.zero_le i)
      (by omega : i < 0 + s.stackTop)
    rw [surplus_bump vals _ _ _ hw]
    simp only [surplus, bump_held, bump_stack, bump_stackTop, bump_ref vals _ _ _ hw, hspan, hold]
    omega

end Qse.Awk.Calls
