import Qse.Awk.CallFrames

/-!
# Calls leave the stack as it was

`Simple` is about programs that run no calls, `Prog` about all parts of a program that a call can
evaluate.
-/

open Function Option

namespace Qse.Awk.Calls

open StateProgram

variable {V σ : Type} [DecidableEq V] {vals : Vals V σ} {F : Frame} {W W' : Set ℕ}

/-! ## Programs -/

inductive Simple (vals : Vals V σ) (W : Set ℕ) : {α : Type} → RtxM V σ α → Prop
  | pure {α : Type} (a : α) : Simple vals W (Pure.pure a)
  | bind {α β : Type} {c : RtxM V σ α} {f : α → RtxM V σ β} (hc : Simple vals W c)
      (hf : ∀ a, Simple vals W (f a)) : Simple vals W (c >>= f)
  | look {α : Type} {f : CallRtx V σ → RtxM V σ α} (hf : ∀ s, Simple vals W (f s)) :
      Simple vals W (get >>= f)
  | change (exitLevel : ExitLevel) (enoerr : Bool) (rest : σ) :
      Simple vals W
        (modify fun s => { s with exitLevel := exitLevel, enoerr := enoerr, rest := rest })
  | hold (v : V) : Simple vals W (hold vals v)
  | drop (v : V) : Simple vals W (drop vals v)
  | store {i : ℕ} (v : V) (hi : i ∈ W) : Simple vals W (store vals i v)

/-- A reference to a cell of `W`, or one that is set without a call. -/
def SafeRef (vals : Vals V σ) (W : Set ℕ) : Ref V σ → Prop
  | .cell i => i ∈ W
  | .other set => ∀ v, Simple vals W (set v)

def SafeNode (vals : Vals V σ) (F : Frame) : RefNode V σ → Prop
  | .lcl n => ∃ nargs, F.nargs = some nargs ∧ F.base + (3 + nargs + 1 + n) ∈ F.vars
  | .arg n => F.base + (3 + 1 + n) ∈ F.vars
  | .other _ set => ∀ v, Simple vals F.vars (set v)

inductive Prog (vals : Vals V σ) : Frame → Part → {α : Type} → RtxM V σ α → Prop
  | simple {F : Frame} {part : Part} {α : Type} {c : RtxM V σ α}
      (hc : Simple vals (F.writes part) c) : Prog vals F part c
  | bind {F : Frame} {part : Part} {α β : Type} {c : RtxM V σ α} {f : α → RtxM V σ β}
      (hc : Prog vals F part c) (hf : ∀ a, Prog vals F part (f a)) : Prog vals F part (c >>= f)
  | look {F : Frame} {part : Part} {α : Type} {f : CallRtx V σ → RtxM V σ α}
      (hf : ∀ s, Good F s → Prog vals F part (f s)) : Prog vals F part (get >>= f)
  | setrefval {F : Frame} {part : Part} {ref : Ref V σ} (v : V)
      (href : SafeRef vals F.vars ref) : Prog vals F part (setrefval vals ref v)
  | runReturn {F : Frame} (v : V) (hframe : F.nargs.isSome) :
      Prog vals F .statement (runReturn vals v)
  | runExit {F : Frame} (v : V) (abort : Bool) (hg : F.gretval ∈ F.exits) :
      Prog vals F .statement (runExit vals F.gretval v abort)
  | runBlock {F : Frame} {body : List (RtxM V σ Bool)}
      (hbody : ∀ p ∈ body, Prog vals F .statement p) :
      Prog vals F .statement (runBlock vals 0 body)
  | evalCall {F : Frame} {part : Part} (callee : Callee V σ) (args : CallArgs V σ)
      (errhandler : Bool)
      (hbody : ∀ nargs argspec nlcls body, callee = .fun nargs argspec nlcls body →
        ∀ top htop n, nargs ≤ n → ∀ p ∈ body, Prog vals (F.callee top htop n nlcls) .statement p)
      (himpl : ∀ spec impl, callee = .fnc spec (some impl) → ∀ top htop refs,
        (∀ ref, some ref ∈ refs → SafeRef vals (F.callee top htop refs.length 0).vars ref) →
        Prog vals (F.callee top htop refs.length 0) .statement (impl refs))
      (hvalue : ∀ nodes, args = .nde nodes → ∀ p ∈ nodes, Prog vals F .expression p.value)
      (hvalue0 : ∀ nodes, args = .nde nodes → ∀ p ∈ nodes, Prog vals F .expression p.value0)
      (htake : ∀ nodes, args = .nde nodes → ∀ p ∈ nodes, ∀ take set,
        p.node = .other take set → Prog vals F .expression take)
      (hnode : ∀ nodes, args = .nde nodes → ∀ p ∈ nodes, SafeNode vals F p.node)
      (hvals : ∀ spec vs, args = .vals spec vs → ∀ p ∈ vs, ∀ v, Simple vals F.vars (p.2 v)) :
      Prog vals F part (evalCall vals callee args errhandler)

variable {α : Type} {ref : Ref V σ}

theorem Simple.mono {c : RtxM V σ α} (hc : Simple vals W c)
    (hW : ∀ i ∈ W, i ∈ W') : Simple vals W' c := by
  induction hc with
  | pure a => exact .pure a
  | bind _ _ ihc ihf => exact .bind ihc ihf
  | look _ ih => exact .look ih
  | change exitLevel enoerr rest => exact .change exitLevel enoerr rest
  | hold v => exact .hold v
  | drop v => exact .drop v
  | store v hi => exact .store v (hW _ hi)

theorem SafeRef.mono (href : SafeRef vals W ref) (hW : ∀ i ∈ W, i ∈ W') : SafeRef vals W' ref := by
  cases ref with
  | cell i => exact hW i href
  | other set => exact fun v => (href v).mono hW

theorem Simple.tame {c : RtxM V σ α} (hc : Simple vals W c) (hW : ∀ i ∈ W, i ∈ F.values) :
    Tame vals F W c := by
  induction hc with
  | pure a => exact Tame.pure a
  | bind _ _ ihc ihf => exact Tame.bind ihc ihf
  | look _ ih => exact Tame.look fun s _ => ih s
  | change exitLevel enoerr rest =>
    exact Tame.change (fun _ => rfl) (fun _ => rfl) (fun _ => rfl) (fun _ => rfl) (fun _ => rfl)
      fun _ => rfl
  | hold v => exact Tame.hold v
  | drop v => exact Tame.drop v
  | store v hi => exact Tame.store v (hW _ hi) hi

theorem SafeRef.tame (href : SafeRef vals W ref) (hW : ∀ i ∈ W, i ∈ F.values) (v : V) :
    Tame vals F W (setrefval vals ref v) := by
  cases ref with
  | other set => exact (href v).tame hW
  | cell i =>
    intro s hs
    obtain ⟨old, hold⟩ := hs.values i (hW i href)
    unfold Calls.setrefval
    rw [returns_bind]
    apply returns_valAt hold
    apply returns_ite
    · intro _
      exact (Tame.bind Tame.seterr fun _ => Tame.pure false) s hs
    · intro _
      apply returns_ite
      · intro _
        exact Tame.pure true s hs
      · intro _
        exact (Tame.bind (Tame.store v (hW i href) href) fun _ => Tame.pure true) s hs

/-! ## Arguments -/

def Balanced (vals : Vals V σ) (s t : CallRtx V σ) : Prop :=
  ∀ v, vals.static v = false → surplus t v = surplus s v

variable {k n m : ℕ} {c : StackCell V} {s t t' : CallRtx V σ}

theorem Framed.kept (h : Framed F k c s t) (hs : Good F s) (hkept : Kept vals F F.vars t t') :
    Framed F k c s t' := by
  have htop := h.top
  have hcell (i : ℕ) (hi : s.stackTop ≤ i) (hlt : i < t.stackTop) : t'.stack i = t.stack i :=
    hkept.cells i hlt (Frame.not_vars hs hi) (Frame.spares_above hs hi)
  refine ⟨hkept.top.trans h.top, Nat.le_trans h.exits hkept.exits, ?_, ?_, ?_, ?_, ?_, ?_, ?_⟩
  · intro i hi hiF hspared
    rw [hkept.cells i (by omega) hiF (hspared.rest h.exits hkept.exits)]
    exact h.cells i hi hiF (hspared.first h.exits hkept.exits)
  · rw [hcell _ (by omega) (by omega)]
    exact h.prevBase
  · rw [hcell _ (by omega) (by omega)]
    exact h.prevTop
  · rw [hcell _ (by omega) (by omega)]
    exact h.retval
  · rw [hcell _ (by omega) (by omega)]
    exact h.nargs
  · intro j hj
    rw [hcell _ (by omega) (by omega)]
    exact h.args j hj
  · rintro i (hi | hi)
    · exact hkept.good.values i (.inl (F.vars_writes .statement hi))
    · exact hkept.good.values i (.inr hi)

theorem Framed.ran (h : Framed F (n + m) (.num n) s t) (hs : Good F s)
    (hkept : Kept vals (F.callee s.stackTop hs.floor n m)
      ((F.callee s.stackTop hs.floor n m).writes .statement) t t') :
    Framed F (n + m) (.num n) s t' := by
  have htop := h.top
  have hvalues := hkept.good.values
  have hkeep (i : ℕ) (hi : i < s.stackTop + 4) (hiF : i ∉ F.vars) (hret : i ≠ s.stackTop + 2)
      (hspared : F.Spares t t' i) : t'.stack i = t.stack i := by
    apply hkept.cells i (by omega)
    · rintro ((hmem | ⟨hle, -⟩) | ⟨-, rfl⟩)
      · exact hiF hmem
      · omega
      · exact hret rfl
    · rintro (hmem | ⟨rfl, -⟩)
      · exact hspared hmem
      · exact absurd rfl hret
  have hslot (i : ℕ) (hi : s.stackTop ≤ i) (hlt : i < s.stackTop + 4)
      (hret : i ≠ s.stackTop + 2) : t'.stack i = t.stack i :=
    hkeep i hlt (Frame.not_vars hs hi) hret (Frame.spares_above hs hi)
  refine ⟨hkept.top.trans h.top, Nat.le_trans h.exits hkept.exits, ?_, ?_, ?_, ?_, ?_, ?_, ?_⟩
  · intro i hi hiF hspared
    rw [hkeep i (by omega) hiF (by omega) (hspared.rest h.exits hkept.exits)]
    exact h.cells i hi hiF (hspared.first h.exits hkept.exits)
  · rw [hslot _ (by omega) (by omega) (by omega)]
    exact h.prevBase
  · rw [hslot _ (by omega) (by omega) (by omega)]
    exact h.prevTop
  · exact hvalues _ (.inl (.inr ⟨rfl, rfl⟩))
  · rw [hslot _ (by omega) (by omega) (by omega)]
    exact h.nargs
  · intro j hj
    exact hvalues _ (.inl (.inl (.inr ⟨by omega, by omega⟩)))
  · rintro i (hi | hi)
    · exact hvalues i (.inl (.inl (.inl hi)))
    · exact hvalues i (.inr (.inl hi))

structure Pushed (vals : Vals V σ) (F : Frame) (k : ℕ) (s t : CallRtx V σ) : Prop where
  framed : Framed F k (.val vals.nil) s t
  base : t.stackBase = F.base
  retval : t.stack (s.stackTop + 2) = .val vals.nil
  balanced : Balanced vals s t

theorem Pushed.good (h : Pushed vals F k s t) (hs : Good F s) : Good F t :=
  h.framed.caller hs h.base

theorem Pushed.kept (h : Pushed vals F k s t) (hs : Good F s) (hkept : Kept vals F F.vars t t') :
    Pushed vals F k s t' where
  framed := h.framed.kept hs hkept
  base := hkept.good.base
  retval := by
    have htop := h.framed.top
    rw [hkept.cells _ (by omega) (Frame.not_vars hs (by omega)) (Frame.spares_above hs (by omega))]
    exact h.retval
  balanced v hv := (hkept.surplus v hv).trans (h.balanced v hv)

theorem Pushed.push (h : Pushed vals F k s t) (hs : Good F s) (v : V) :
    Pushed vals F (k + 1) s (bump vals v 1
      { t with stack := update t.stack t.stackTop (.val v), stackTop := t.stackTop + 1 })
    where
  framed := by
    have htop := h.framed.top
    apply h.framed.resize hs
    · simp only [bump_stackTop]
      omega
    · rw [bump_exits]
    · intro i hi
      rw [bump_stack]
      exact update_of_ne (by omega) _ _
    · intro j hj
      rw [bump_stack]
      by_cases hlast : j = k
      · subst hlast
        refine ⟨v, ?_⟩
        rw [← htop]
        exact update_self _ _ _
      · obtain ⟨w, hw⟩ := h.framed.args j (by omega)
        exact ⟨w, (update_of_ne (by omega) _ _).trans hw⟩
  base := by
    rw [bump_stackBase]
    exact h.base
  retval := by
    have htop := h.framed.top
    rw [bump_stack]
    exact (update_of_ne (by omega) _ _).trans h.retval
  balanced w hw := by
    have hspan := span_update_above t.stack w (.val v)
      (by omega : 0 + t.stackTop ≤ t.stackTop)
    rw [← h.balanced w hw, surplus_bump vals _ _ _ hw]
    simp only [surplus, span, Nat.zero_add, update_self, hspan]
    omega

variable {v w : V} {p : Arg V σ} {args : CallArgs V σ} {callee : Callee V σ}

theorem surplus_pop (hw : vals.static w = false) (htop : 0 < t.stackTop)
    (hv : t.stack (t.stackTop - 1) = .val v) :
    surplus { bump vals v (-1) t with stackTop := t.stackTop - 1 } w = surplus t w := by
  have hspan : span t.stack w 0 t.stackTop =
      span t.stack w 0 (t.stackTop - 1) + share w (.val v) := by
    obtain ⟨m, hm⟩ : ∃ m, t.stackTop = m + 1 := ⟨t.stackTop - 1, by omega⟩
    rw [hm, Nat.add_sub_cancel] at hv ⊢
    rw [span, Nat.zero_add, hv]
  simp only [surplus, bump_held, bump_stack, bump_ref vals _ _ _ hw, hspan]
  omega

theorem Pushed.pop (h : Pushed vals F (k + 1) s t) (hs : Good F s)
    (hv : t.stack (t.stackTop - 1) = .val v) :
    Pushed vals F k s { bump vals v (-1) t with stackTop := t.stackTop - 1 } where
  framed := by
    have htop := h.framed.top
    apply h.framed.resize hs
    · simp only []
      omega
    · simp only [bump_exits]
    · intro i _
      rw [bump_stack]
    · intro j hj
      rw [bump_stack]
      exact h.framed.args j (by omega)
  base := by
    rw [bump_stackBase]
    exact h.base
  retval := by
    rw [bump_stack]
    exact h.retval
  balanced w hw := by
    have htop := h.framed.top
    rw [← h.balanced w hw]
    exact surplus_pop hw (by omega) hv

theorem unwindArgs_spec (hs : Good F s) : ∀ (k : ℕ) (t : CallRtx V σ), Pushed vals F k s t →
    Returns (unwindArgs vals k) t fun _ t' => Pushed vals F 0 s t'
  | 0, _, h => returns_pure.mpr h
  | k + 1, t, h => by
    have htop := h.framed.top
    obtain ⟨v, hv⟩ := h.framed.args k (by omega)
    rw [show s.stackTop + 4 + k = t.stackTop - 1 by omega] at hv
    unfold unwindArgs
    rw [returns_bind, returns_get, returns_bind]
    apply returns_valAt hv
    rw [returns_bind, returns_refdownval, returns_bind, returns_rawPop]
    have hpop := h.pop hs hv
    simp only [bump_stackTop] at hpop ⊢
    exact unwindArgs_spec hs k _ hpop

theorem Framed.span_base (h : Framed F k c s t) (hw : t.stack (s.stackTop + 2) = .val w)
    (hc : ∀ v, vals.static v = false → share v c = 0) (hv : vals.static v = false) :
    span t.stack v 0 (s.stackTop + 4) = span t.stack v 0 s.stackTop + share v (.val w) := by
  simp only [span, Nat.zero_add, h.prevBase, h.prevTop, h.nargs, hw, hc v hv, share_num]
  omega

theorem unwindBase_spec (hs : Good F s) (h : Pushed vals F 0 s t) :
    Returns unwindBase t fun _ t' => Kept vals F F.vars s t' := by
  have htop := h.framed.top
  have hgood := h.good hs
  have htop' : t.stackTop - 1 - 1 - 1 - 1 = s.stackTop := by omega
  unfold unwindBase
  simp only [returns_bind, returns_rawPop, htop']
  refine ⟨⟨hgood.base, hs.floor, hgood.nargs, hgood.values⟩, rfl, h.framed.exits,
    h.framed.cells, ?_⟩
  intro v hv
  have hspan := h.framed.span_base h.retval (fun _ => share_nil) hv
  rw [share_nil hv] at hspan
  rw [← h.balanced v hv]
  simp only [surplus, show t.stackTop = s.stackTop + 4 by omega, hspan]
  omega

structure TameArg (vals : Vals V σ) (F : Frame) (p : Arg V σ) : Prop where
  value : Tame vals F F.vars p.value
  value0 : Tame vals F F.vars p.value0
  take : ∀ take set, p.node = .other take set → Tame vals F F.vars take
  node : SafeNode vals F p.node

def Argues (vals : Vals V σ) (F : Frame) (p : RtxM V σ (Option (V × Option (Ref V σ)))) : Prop :=
  ∀ t, Good F t → Returns p t fun r t' => Kept vals F F.vars t t' ∧
    ∀ v ref, r = some (v, some ref) → SafeRef vals F.vars ref

theorem getReference_spec (hp : TameArg vals F p) (ht : Good F t) :
    Returns (getReference p.node) t fun r t' => Kept vals F F.vars t t' ∧
      ∀ ref, r = some ref → SafeRef vals F.vars ref := by
  have hnode := hp.node
  have htake := hp.take
  cases hn : p.node with
  | lcl j =>
    rw [hn] at hnode
    obtain ⟨nargs, hnargs, hvar⟩ := hnode
    simp only [getReference, lclCell, returns_bind, returns_get]
    apply returns_numAt (by rw [ht.base]; exact ht.nargs nargs hnargs)
    simp only [returns_pure]
    refine ⟨Kept.refl ht, ?_⟩
    rintro ref ⟨⟩
    rw [ht.base]
    exact hvar
  | arg j =>
    rw [hn] at hnode
    simp only [getReference, argCell, returns_bind, returns_get, returns_pure]
    refine ⟨Kept.refl ht, ?_⟩
    rintro ref ⟨⟩
    rw [ht.base]
    exact hnode
  | other take set =>
    rw [hn] at hnode
    simp only [getReference, returns_bind]
    apply (htake take set hn t ht).mono
    intro ok t' hkept
    rw [returns_pure]
    refine ⟨hkept, ?_⟩
    intro ref href
    cases ok with
    | false => cases href
    | true =>
      cases href
      exact hnode

theorem Argues.of_tame {c : RtxM V σ (Option V)} {ref : Option (Ref V σ)}
    (hc : Tame vals F F.vars c) (href : ∀ r, ref = some r → SafeRef vals F.vars r) :
    Argues vals F (c >>= fun v => Pure.pure (v.map fun v => (v, ref))) := by
  intro t ht
  rw [returns_bind]
  apply (hc t ht).mono
  intro v t' hkept
  rw [returns_pure]
  refine ⟨hkept, ?_⟩
  intro w ref' href'
  obtain ⟨u, -, hu⟩ := map_eq_some_iff.mp href'
  cases hu
  exact href ref' rfl

theorem Arg.argues (hp : TameArg vals F p) (spec : ArgSpec) : Argues vals F (p.eval vals spec) := by
  cases spec with
  | value => exact Argues.of_tame hp.value (by rintro r ⟨⟩)
  | x => exact Argues.of_tame hp.value0 (by rintro r ⟨⟩)
  | r =>
    intro t ht
    unfold Arg.eval
    rw [returns_bind]
    apply (getReference_spec hp ht).mono
    rintro ref t' ⟨hkept, hsafe⟩
    cases ref with
    | none =>
      simp only [returns_pure]
      refine ⟨hkept, ?_⟩
      rintro v ref ⟨⟩
    | some ref =>
      have hargues : Argues vals F
          (makerefval vals ref >>= fun v => Pure.pure (v.map fun v => (v, some ref))) := by
        refine Argues.of_tame (Tame.makerefval ref) ?_
        rintro r ⟨⟩
        exact hsafe ref rfl
      apply (hargues t' hkept.good).mono
      rintro r t'' ⟨hkept', hr⟩
      exact ⟨hkept.trans hkept', hr⟩

theorem valArg_argues {p : V × (V → RtxM V σ Bool)} (hp : ∀ v, Simple vals F.vars (p.2 v))
    (byRef : Bool) : Argues vals F (valArg vals byRef p) := by
  cases byRef with
  | false =>
    intro t ht
    refine returns_pure.mpr ⟨Kept.refl ht, ?_⟩
    rintro v ref ⟨⟩
  | true =>
    have hmake : Tame vals F F.vars (makeArgref vals (.other p.2)) := by
      refine (Tame.makerefval _).bind fun v => ?_
      split
      · exact Tame.seterr.bind fun _ => Tame.pure none
      · exact Tame.pure v
    refine Argues.of_tame hmake ?_
    rintro r ⟨⟩
    exact hp

def Arrived (vals : Vals V σ) (F : Frame) (k : ℕ) (s : CallRtx V σ) :
    Option (List (Option (Ref V σ))) → CallRtx V σ → Prop
  | none, t => Pushed vals F 0 s t
  | some refs, t => refs.length = k ∧ (∀ ref, some ref ∈ refs → SafeRef vals F.vars ref) ∧
      Pushed vals F k s t

theorem pushArgs_spec (hs : Good F s) :
    ∀ (ps : List (RtxM V σ (Option (V × Option (Ref V σ))))) (k : ℕ)
      (refs : List (Option (Ref V σ))) (t : CallRtx V σ), (∀ p ∈ ps, Argues vals F p) →
      (∀ ref, some ref ∈ refs → SafeRef vals F.vars ref) → refs.length = k →
      Pushed vals F k s t →
      Returns (pushArgs vals ps k refs) t (Arrived vals F (k + ps.length) s)
  | [], k, refs, t, _, hrefs, hk, h => returns_pure.mpr ⟨hk, hrefs, h⟩
  | p :: ps, k, refs, t, hps, hrefs, hk, h => by
    unfold pushArgs
    rw [returns_bind]
    apply (hps p (.head _) t (h.good hs)).mono
    rintro r t' ⟨hkept, hsafe⟩
    have h' := h.kept hs hkept
    cases r with
    | none =>
      simp only [returns_bind, returns_pure]
      exact unwindArgs_spec hs k t' h'
    | some r =>
      obtain ⟨v, ref⟩ := r
      simp only [returns_bind]
      apply returns_rawPush
      · simp only [returns_bind, returns_refupval, returns_refdownval, Bool.false_eq_true,
          if_false, bump_bump, returns_seterr, returns_pure]
        have hcleared : Kept vals F F.vars t' { t' with enoerr := false } :=
          Kept.of_eq (h'.good hs) rfl rfl (fun _ _ => rfl) rfl rfl rfl
        have hfull := h'.kept hs hcleared
        apply (unwindArgs_spec hs k _ hfull).mono
        intro _ t'' h''
        exact h''.kept hs (Kept.of_eq (h''.good hs) rfl rfl (fun _ _ => rfl) rfl rfl rfl)
      · simp only [if_true, returns_bind, returns_refupval]
        have hrefs' : ∀ r, some r ∈ refs ++ [ref] → SafeRef vals F.vars r := by
          intro r hr
          rcases List.mem_append.mp hr with hr | hr
          · exact hrefs r hr
          · rw [List.mem_singleton] at hr
            exact hsafe v r (by rw [hr])
        have hrest := pushArgs_spec hs ps (k + 1) (refs ++ [ref]) _
          (fun p hp => hps p (.tail _ hp)) hrefs' (by simp [hk])
          (h'.push hs v)
        rw [List.length_cons, show k + (ps.length + 1) = k + 1 + ps.length by omega]
        exact hrest

/-- What `TameArg` is for nodes, `Simple` is for the places of values. -/
def TameArgs (vals : Vals V σ) (F : Frame) : CallArgs V σ → Prop
  | .nde nodes => ∀ p ∈ nodes, TameArg vals F p
  | .vals _ vs => ∀ p ∈ vs, ∀ v, Simple vals F.vars (p.2 v)

def CallArgs.length : CallArgs V σ → ℕ
  | .nde nodes => nodes.length
  | .vals _ vs => vs.length

theorem CallArgs.push_spec (callee : Callee V σ) (hs : Good F s) (hargs : TameArgs vals F args)
    (h : Pushed vals F 0 s t) :
    Returns (args.push vals callee) t (Arrived vals F args.length s) := by
  have hnil : ∀ ref : Ref V σ, some ref ∈ ([] : List (Option (Ref V σ))) →
      SafeRef vals F.vars ref := by
    rintro ref ⟨⟩
  cases args with
  | nde nodes =>
    have hpush (spec : ℕ → ArgSpec) :
        Returns (pushArgFromNde vals spec nodes) t (Arrived vals F nodes.length s) := by
      have hps : ∀ p ∈ nodes.mapIdx fun i p => p.eval vals (spec i), Argues vals F p := by
        intro p hp
        obtain ⟨i, hi, rfl⟩ := List.mem_mapIdx.mp hp
        exact Arg.argues (hargs _ (List.getElem_mem hi)) _
      have hrun := pushArgs_spec hs _ 0 [] t hps hnil rfl h
      rwa [List.length_mapIdx, Nat.zero_add] at hrun
    cases callee with
    | «fun» nargs argspec nlcls body => exact hpush _
    | fnc spec impl => exact hpush spec
  | vals spec vs =>
    have hps : ∀ p ∈ vs.mapIdx fun i p => valArg vals (spec i) p, Argues vals F p := by
      intro p hp
      obtain ⟨i, hi, rfl⟩ := List.mem_mapIdx.mp hp
      exact valArg_argues (hargs _ (List.getElem_mem hi)) _
    have hrun := pushArgs_spec hs _ 0 [] t hps hnil rfl h
    rwa [List.length_mapIdx, Nat.zero_add] at hrun

theorem checkRefs_tame (argspec : ℕ → Bool) : ∀ (nodes : List (Arg V σ)) (i : ℕ),
    (∀ p ∈ nodes, TameArg vals F p) → Tame vals F F.vars (checkRefs argspec i nodes)
  | [], _, _ => Tame.pure true
  | p :: ps, i, hnodes => by
    have hrest := checkRefs_tame argspec ps (i + 1)
      fun p hp => hnodes p (.tail _ hp)
    unfold checkRefs
    split
    · have href : Tame vals F F.vars (getReference p.node) := fun t ht =>
        (getReference_spec (hnodes p (.head _)) ht).mono fun _ _ h => h.1
      refine href.bind fun ref => ?_
      split
      · exact hrest
      · exact Tame.pure false
    · exact hrest

theorem Pushed.pushNil (h : Pushed vals F k s t) (hs : Good F s) :
    Pushed vals F (k + 1) s { t with
      stack := update t.stack t.stackTop (.val vals.nil), stackTop := t.stackTop + 1 } := by
  have hpush := h.push hs vals.nil
  rwa [bump_nil _ _ _ _ vals.static_nil] at hpush

theorem pushMissing_spec (hs : Good F s) : ∀ (missing k : ℕ) (t : CallRtx V σ),
    Pushed vals F k s t → Returns (pushMissing vals missing k) t fun ok t' =>
      if ok then Pushed vals F (k + missing) s t' else Kept vals F F.vars s t'
  | 0, _, _, h => returns_pure.mpr h
  | missing + 1, k, t, h => by
    unfold pushMissing
    rw [returns_bind]
    apply returns_rawPush
    · simp only [Bool.false_eq_true, if_false, returns_bind]
      have hcleared : Kept vals F F.vars t { t with enoerr := false } :=
        Kept.of_eq (h.good hs) rfl rfl (fun _ _ => rfl) rfl rfl rfl
      have hfull := h.kept hs hcleared
      apply (unwindArgs_spec hs k _ hfull).mono
      intro _ t' h'
      apply (unwindBase_spec hs h').mono
      intro _ t'' hkept
      rw [returns_seterr, returns_pure]
      exact hkept.trans (Kept.of_eq hkept.good rfl rfl (fun _ _ => rfl) rfl rfl rfl)
    · rw [if_pos rfl, show k + (missing + 1) = k + 1 + missing by omega]
      exact pushMissing_spec hs missing (k + 1) _ (h.pushNil hs)

def Callee.Takes (callee : Callee V σ) (k n : ℕ) : Prop :=
  match callee with
  | .fun nargs _ _ _ => k ≤ n ∧ nargs ≤ n
  | .fnc _ _ => k = n

omit [DecidableEq V] in
theorem Callee.Takes.le (h : callee.Takes k n) : k ≤ n := by
  cases callee with
  | «fun» nargs argspec nlcls body => exact h.1
  | fnc spec impl => exact Nat.le_of_eq h

def Completed (vals : Vals V σ) (F : Frame) (callee : Callee V σ) (k : ℕ) (s : CallRtx V σ) :
    Option ℕ → CallRtx V σ → Prop
  | none, t => Kept vals F F.vars s t
  | some n, t => callee.Takes k n ∧ Pushed vals F n s t

theorem completeArgs_spec (hs : Good F s) (hargs : TameArgs vals F args) (h : Pushed vals F k s t) :
    Returns (completeArgs vals callee args k) t (Completed vals F callee k s) := by
  cases callee with
  | fnc spec impl => exact returns_pure.mpr ⟨rfl, h⟩
  | «fun» funNargs argspec nlcls body =>
    have hcheck : Tame vals F F.vars ((Callee.fun funNargs argspec nlcls body).checkArgs args) := by
      cases args with
      | vals spec vs => cases argspec <;> exact Tame.pure true
      | nde nodes =>
        cases argspec with
        | none => exact Tame.pure true
        | some argspec => exact checkRefs_tame argspec nodes 0 hargs
    simp only [completeArgs, returns_bind]
    apply (hcheck t (h.good hs)).mono
    intro ok t' hkept
    have h' := h.kept hs hkept
    cases ok with
    | false =>
      simp only [Bool.false_eq_true, if_false, returns_bind, returns_pure]
      apply (unwindArgs_spec hs k t' h').mono
      intro _ t'' h''
      exact unwindBase_spec hs h''
    | true =>
      simp only [if_true, returns_bind, returns_pure]
      apply (pushMissing_spec hs (funNargs - k) k t' h').mono
      intro ok t'' hpushed
      cases ok with
      | false => exact hpushed
      | true =>
        rw [if_pos rfl] at hpushed ⊢
        refine ⟨⟨Nat.le_max_left k funNargs, Nat.le_max_right k funNargs⟩, ?_⟩
        rwa [show max k funNargs = k + (funNargs - k) by omega]

/-! ## The call itself -/

structure Running (vals : Vals V σ) (F : Frame) (n m : ℕ) (s t : CallRtx V σ) : Prop where
  framed : Framed F (n + m) (.num n) s t
  base : t.stackBase = s.stackTop
  balanced : Balanced vals s t

section

variable (h : Running vals F n m s t) (hs : Good F s)
include h hs

theorem Running.good : Good (F.callee s.stackTop hs.floor n m) t :=
  h.framed.callee hs h.base

theorem Running.ran
    (hkept : Kept vals (F.callee s.stackTop hs.floor n m)
      ((F.callee s.stackTop hs.floor n m).writes .statement) t t') :
    Running vals F n m s t' where
  framed := h.framed.ran hs hkept
  base := hkept.good.base
  balanced v hv := (hkept.surplus v hv).trans (h.balanced v hv)

theorem Running.of_eq
    (hbase : t'.stackBase = t.stackBase) (htop : t'.stackTop = t.stackTop)
    (hcells : ∀ i < t.stackTop, t'.stack i = t.stack i) (href : t'.ref = t.ref)
    (hheld : t'.held = t.held) (hexits : t'.exits = t.exits) : Running vals F n m s t' :=
  h.ran hs (Kept.of_eq (h.good hs) hbase htop hcells href hheld hexits)

theorem Running.pushNil :
    Running vals F n (m + 1) s { t with
      stack := update t.stack t.stackTop (.val vals.nil), stackTop := t.stackTop + 1 }
    where
  framed := by
    have htop := h.framed.top
    apply h.framed.resize hs
    · simp only []
      omega
    · rfl
    · intro i hi
      exact update_of_ne (by omega) _ _
    · intro j hj
      by_cases hlast : j = n + m
      · subst hlast
        refine ⟨vals.nil, ?_⟩
        rw [← htop]
        exact update_self _ _ _
      · obtain ⟨w, hw⟩ := h.framed.args j (by omega)
        exact ⟨w, (update_of_ne (by omega) _ _).trans hw⟩
  base := h.base
  balanced w hw := by
    have hspan := span_update_above t.stack w (.val vals.nil)
      (by omega : 0 + t.stackTop ≤ t.stackTop)
    rw [← h.balanced w hw]
    simp only [surplus, span, Nat.zero_add, update_self, hspan, share_nil hw]
    omega

end

theorem Running.pop (h : Running vals F n (m + 1) s t) (hs : Good F s)
    (hv : t.stack (t.stackTop - 1) = .val v) :
    Running vals F n m s { bump vals v (-1) t with stackTop := t.stackTop - 1 } where
  framed := by
    have htop := h.framed.top
    apply h.framed.resize hs
    · simp only []
      omega
    · simp only [bump_exits]
    · intro i _
      rw [bump_stack]
    · intro j hj
      rw [bump_stack]
      exact h.framed.args j (by omega)
  base := by
    rw [bump_stackBase]
    exact h.base
  balanced w hw := by
    have htop := h.framed.top
    rw [← h.balanced w hw]
    exact surplus_pop hw (by omega) hv

theorem pushNils_spec (hs : Good F s) : ∀ (k m : ℕ) (t : CallRtx V σ), Running vals F n m s t →
    Running vals F n 0 s { t with stackTop := s.stackTop + 4 + n } →
    Returns (pushNils vals k) t fun ok t' =>
      if ok then Running vals F n (m + k) s t'
      else Running vals F n 0 s { t' with stackTop := s.stackTop + 4 + n }
  | 0, m, t, h, _ => returns_pure.mpr h
  | k + 1, m, t, h, hlow => by
    have htop := h.framed.top
    unfold pushNils
    rw [returns_bind]
    apply returns_rawPush
    · simp only [Bool.false_eq_true, if_false, returns_pure]
      exact hlow.of_eq hs rfl rfl (fun _ _ => rfl) rfl rfl rfl
    · rw [if_pos rfl, show m + (k + 1) = m + 1 + k by omega]
      apply pushNils_spec hs k (m + 1) _ (h.pushNil hs)
      refine hlow.of_eq hs rfl rfl (fun i hi => ?_) rfl rfl rfl
      have hi : i < s.stackTop + 4 + n := hi
      exact update_of_ne (by omega) _ _

theorem popLcls_spec (hs : Good F s) : ∀ (m : ℕ) (t : CallRtx V σ), Running vals F n m s t →
    Returns (popLcls vals m) t fun _ t' => Running vals F n 0 s t'
  | 0, _, h => returns_pure.mpr h
  | m + 1, t, h => by
    have htop := h.framed.top
    obtain ⟨v, hv⟩ := h.framed.args (n + m) (by omega)
    have hplace : s.stackTop + (3 + n + 1 + m) = t.stackTop - 1 := by omega
    rw [show s.stackTop + 4 + (n + m) = t.stackTop - 1 by omega] at hv
    unfold popLcls lclCell
    simp only [returns_bind, returns_get, h.base]
    apply returns_numAt h.framed.nargs
    rw [returns_pure, hplace]
    apply returns_valAt hv
    rw [returns_refdownval, returns_rawPop, bump_stackTop]
    exact popLcls_spec hs m _ (h.pop hs hv)

theorem runStatements_tame : ∀ (body : List (RtxM V σ Bool)), (∀ p ∈ body, Tame vals F W p) →
    Tame vals F W (runStatements body)
  | [], _ => Tame.pure true
  | p :: ps, hbody => by
    have hrest := runStatements_tame ps fun q hq => hbody q (.tail _ hq)
    unfold runStatements
    apply Tame.look
    intro s _
    split
    · refine (hbody p (.head _)).bind fun ok => ?_
      split
      · exact hrest
      · exact Tame.pure false
    · exact Tame.pure true

theorem runBlock_spec {body : List (RtxM V σ Bool)} (hs : Good F s)
    (hbody : ∀ p ∈ body, Tame vals (F.callee s.stackTop hs.floor n k)
      ((F.callee s.stackTop hs.floor n k).writes .statement) p)
    (h : Running vals F n 0 s t) :
    Returns (runBlock vals k body) t fun _ t' => Running vals F n 0 s t' := by
  have htop := h.framed.top
  simp only [runBlock, returns_bind, returns_get]
  apply returns_ite
  · intro _
    simp only [returns_bind, returns_seterr, returns_pure]
    exact h.of_eq hs rfl rfl (fun _ _ => rfl) rfl rfl rfl
  · intro _
    simp only [runBlock0, returns_bind, returns_modify, returns_get]
    have hdeep : Running vals F n 0 s { t with depth := t.depth + 1 } :=
      h.of_eq hs rfl rfl (fun _ _ => rfl) rfl rfl rfl
    have hlow : Running vals F n 0 s
        { t with depth := t.depth + 1, stackTop := s.stackTop + 4 + n } :=
      h.of_eq hs rfl htop.symm (fun _ _ => rfl) rfl rfl rfl
    apply (pushNils_spec hs k 0 _ hdeep hlow).mono
    intro ok t1 hpushed
    cases ok with
    | false =>
      simp only [Bool.false_eq_true, if_false, returns_bind, returns_setStackTop, returns_pure,
        htop] at hpushed ⊢
      exact hpushed.of_eq hs rfl rfl (fun _ _ => rfl) rfl rfl rfl
    | true =>
      simp only [if_true, Nat.zero_add] at hpushed
      simp only [if_true, returns_bind, returns_pure]
      apply (runStatements_tame body hbody t1 (hpushed.good hs)).mono
      intro r t2 hkept
      apply (popLcls_spec hs k t2 (hpushed.ran hs hkept)).mono
      intro _ t3 hpopped
      exact hpopped.of_eq hs rfl rfl (fun _ _ => rfl) rfl rfl rfl

/-- What is called, in the frame that it gets when the stack is so high: with all of its
arguments, and an intrinsic function with those that have been passed. -/
def TameCallee (vals : Vals V σ) (F : Frame) (top : ℕ) (htop : F.floor ≤ top) :
    Callee V σ → Prop
  | .fun nargs _ nlcls body => ∀ n, nargs ≤ n → ∀ p ∈ body,
      Tame vals (F.callee top htop n nlcls) ((F.callee top htop n nlcls).writes .statement) p
  | .fnc _ none => True
  | .fnc _ (some impl) => ∀ refs,
      (∀ ref, some ref ∈ refs → SafeRef vals (F.callee top htop refs.length 0).vars ref) →
      Tame vals (F.callee top htop refs.length 0)
        ((F.callee top htop refs.length 0).writes .statement) (impl refs)

theorem Callee.run_spec {refs : List (Option (Ref V σ))} (hs : Good F s)
    (hcallee : TameCallee vals F s.stackTop hs.floor callee)
    (hrefs : ∀ ref, some ref ∈ refs → SafeRef vals F.vars ref) (hn : callee.Takes refs.length n)
    (h : Running vals F n 0 s t) :
    Returns (callee.run vals refs) t fun _ t' => Running vals F n 0 s t' := by
  cases callee with
  | «fun» nargs argspec nlcls body => exact runBlock_spec hs (hcallee n hn.2) h
  | fnc spec impl =>
    cases impl with
    | none => exact returns_pure.mpr h
    | some impl =>
      cases hn
      have hsafe : ∀ ref, some ref ∈ refs →
          SafeRef vals (F.callee s.stackTop hs.floor refs.length 0).vars ref :=
        fun ref href => (hrefs ref href).mono fun _ hi => .inl hi
      have hfresh : Running vals F refs.length 0 s { t with enoerr := true } :=
        h.of_eq hs rfl rfl (fun _ _ => rfl) rfl rfl rfl
      simp only [Callee.run, returns_bind, returns_modify]
      apply (hcallee refs hsafe _ (hfresh.good hs)).mono
      intro ok t' hkept
      have hran := hfresh.ran hs hkept
      apply returns_ite
      · intro _
        exact returns_pure.mpr hran
      · intro _
        simp only [returns_bind, returns_seterr, returns_pure]
        exact hran.of_eq hs rfl rfl (fun _ _ => rfl) rfl rfl rfl

/-! ## Leaving a call -/

structure Released (vals : Vals V σ) (F : Frame) (n i : ℕ) (s t : CallRtx V σ) : Prop where
  framed : Framed F n (.num n) s t
  base : t.stackBase = s.stackTop
  balanced : ∀ v, vals.static v = false →
    surplus t v + span t.stack v (s.stackTop + 4) i = surplus s v

theorem Running.released (h : Running vals F n 0 s t) : Released vals F n 0 s t where
  framed := h.framed
  base := h.base
  balanced v hv := by
    rw [span, h.balanced v hv]
    omega

variable {i : ℕ}

theorem Released.balanced_kept (h : Released vals F n i s t) (hin : i ≤ n)
    (hcells : ∀ j < t.stackTop, s.stackTop + 4 ≤ j → t'.stack j = t.stack j)
    (hsurplus : Balanced vals t t') (hv : vals.static v = false) :
    surplus t' v + span t'.stack v (s.stackTop + 4) i = surplus s v := by
  have htop := h.framed.top
  have hspan : span t'.stack v (s.stackTop + 4) i = span t.stack v (s.stackTop + 4) i :=
    span_congr fun j hj hji => hcells j (by omega) hj
  rw [hsurplus v hv, hspan]
  exact h.balanced v hv

theorem releaseArgs_spec (hs : Good F s) : ∀ (k i : ℕ) (t : CallRtx V σ), i + k ≤ n →
    Released vals F n i s t →
    Returns (releaseArgs vals k i) t fun _ t' => Released vals F n (i + k) s t'
  | 0, _, _, _, h => returns_pure.mpr h
  | k + 1, i, t, hin, h => by
    obtain ⟨v, hv⟩ := h.framed.args i (by omega)
    simp only [releaseArgs, argCell, returns_bind, returns_get, returns_pure, h.base]
    rw [show s.stackTop + (3 + 1 + i) = s.stackTop + 4 + i by omega]
    apply returns_valAt hv
    rw [returns_refdownval, show i + (k + 1) = i + 1 + k by omega]
    apply releaseArgs_spec hs k (i + 1) _ (by omega)
    refine ⟨?_, by rw [bump_stackBase]; exact h.base, ?_⟩
    · apply h.framed.resize hs
      · rw [bump_stackTop]
        exact h.framed.top
      · rw [bump_exits]
      · intro j _
        rw [bump_stack]
      · intro j hj
        rw [bump_stack]
        exact h.framed.args j hj
    · intro w hw
      rw [← h.balanced w hw, surplus_bump vals _ _ _ hw, bump_stack, span, hv]
      omega

theorem writeBack_spec (hs : Good F s) (hp : TameArg vals F p) (hin : i < n)
    (h : Released vals F n i s t) :
    Returns (writeBack vals p i) t fun _ t' => Released vals F n i s t' := by
  simp only [writeBack, returns_bind, returns_get, h.base, Nat.add_zero]
  apply returns_numAt h.framed.prevBase
  simp only [returns_setStackBase]
  have hcaller : Good F { t with stackBase := F.base } :=
    Framed.caller (h.framed.resize hs h.framed.top rfl (fun _ _ => rfl) h.framed.args) hs rfl
  apply (getReference_spec hp hcaller).mono
  rintro ref t1 ⟨hkept, hsafe⟩
  have hback : Released vals F n i s { t1 with stackBase := s.stackTop } := by
    refine ⟨?_, rfl, ?_⟩
    · have hframed := Framed.kept (t := { t with stackBase := F.base })
        (h.framed.resize hs h.framed.top rfl (fun _ _ => rfl) h.framed.args) hs hkept
      exact hframed.resize hs hframed.top rfl (fun _ _ => rfl) hframed.args
    · intro v hv
      have hcells (j : ℕ) (hj : j < t.stackTop) (hargs : s.stackTop + 4 ≤ j) :
          t1.stack j = t.stack j :=
        hkept.cells j hj (Frame.not_vars hs (by omega)) (Frame.spares_above hs (by omega))
      exact h.balanced_kept (Nat.le_of_lt hin) hcells hkept.surplus hv
  cases ref with
  | none =>
    simp only [returns_modify]
    exact ⟨hback.framed.resize hs hback.framed.top rfl (fun _ _ => rfl) hback.framed.args,
      hback.base, hback.balanced⟩
  | some ref =>
    obtain ⟨v, hv⟩ := hback.framed.args i hin
    simp only [returns_bind, argCell, returns_get, returns_pure]
    rw [show s.stackTop + (3 + 1 + i) = s.stackTop + 4 + i by omega]
    apply returns_valAt hv
    have hwrites : ∀ j ∈ F.vars, j ∈ (F.callee s.stackTop hs.floor n 0).writes .statement :=
      fun j hj => .inl (.inl hj)
    have hgood := Framed.callee (m := 0) hback.framed hs hback.base
    apply ((hsafe ref rfl).tame (fun j hj => .inl (hwrites j hj)) v _ hgood).mono
    intro _ t2 hkept2
    have hbroad := hkept2.weaken hwrites
    have hcells (j : ℕ) (hj : j < t1.stackTop) (hargs : s.stackTop + 4 ≤ j) :
        t2.stack j = t1.stack j := by
      apply hkept2.cells j hj (Frame.not_vars hs (by omega))
      rintro (hmem | ⟨hmem, -⟩)
      · exact Frame.spares_above hs (by omega) hmem
      · omega
    exact ⟨hback.framed.ran (m := 0) hs hbroad, hkept2.good.base, fun v hv =>
      hback.balanced_kept (Nat.le_of_lt hin) hcells hkept2.surplus hv⟩

theorem releaseRefs_spec (hs : Good F s) (argspec : ℕ → Bool) :
    ∀ (nodes : List (Arg V σ)) (i : ℕ) (t : CallRtx V σ), (∀ p ∈ nodes, TameArg vals F p) →
      i + nodes.length ≤ n → Released vals F n i s t →
      Returns (releaseRefs vals argspec i nodes) t fun _ t' =>
        Released vals F n (i + nodes.length) s t'
  | [], _, _, _, _, h => returns_pure.mpr h
  | p :: ps, i, t, hnodes, hin, h => by
    rw [List.length_cons] at hin ⊢
    have hset : Returns (setBack vals argspec p i) t fun _ t' => Released vals F n i s t' := by
      unfold setBack
      apply returns_ite
      · intro _
        exact writeBack_spec hs (hnodes p (.head _)) (by omega) h
      · intro _
        exact returns_pure.mpr h
    unfold releaseRefs
    rw [returns_bind]
    apply hset.mono
    intro _ t1 h1
    rw [returns_bind]
    apply (releaseArgs_spec hs 1 i t1 (by omega) h1).mono
    intro _ t2 h2
    rw [show i + (ps.length + 1) = i + 1 + ps.length by omega]
    exact releaseRefs_spec hs argspec ps (i + 1) t2
      (fun q hq => hnodes q (.tail _ hq)) (by omega) h2

theorem releaseAll_spec (hs : Good F s) (hargs : TameArgs vals F args) (hlen : args.length ≤ n)
    (h : Released vals F n 0 s t) :
    Returns (releaseAll vals callee args n) t fun _ t' => Released vals F n n s t' := by
  have hplain : Returns (releaseArgs vals n 0) t fun _ t' => Released vals F n n s t' := by
    have hall := releaseArgs_spec hs n 0 t (by omega) h
    rwa [Nat.zero_add] at hall
  unfold releaseAll
  split
  · rename_i argspec nodes hbyref
    have hnodes : args = .nde nodes := by
      unfold Callee.byRef at hbyref
      split at hbyref
      · cases hbyref
        rfl
      · cases hbyref
    subst hnodes
    have hlen : nodes.length ≤ n := hlen
    rw [returns_bind]
    apply (releaseRefs_spec hs argspec nodes 0 t hargs (by omega) h).mono
    intro _ t1 h1
    rw [Nat.zero_add] at h1
    have hrest := releaseArgs_spec hs (n - nodes.length) nodes.length t1 (by omega) h1
    rwa [show nodes.length + (n - nodes.length) = n by omega] at hrest
  · exact hplain

/-- The arguments and the return value have been given up, and the frame is still there. -/
structure Settled (vals : Vals V σ) (F : Frame) (n : ℕ) (s t : CallRtx V σ) : Prop where
  framed : Framed F n (.num n) s t
  base : t.stackBase = s.stackTop
  balanced : ∀ v, vals.static v = false →
    t.ref v - t.held v - span t.stack v 0 s.stackTop = surplus s v

theorem Released.retval (h : Released vals F n n s t) (hv : t.stack (s.stackTop + 2) = .val v)
    (hw : vals.static w = false) :
    t.ref w - t.held w - span t.stack w 0 s.stackTop = surplus s w + share w (.val v) := by
  have hall := span_add t.stack w 0 (s.stackTop + 4) n
  have hbase := h.framed.span_base hv (fun _ _ => share_num _ n) hw
  have hbalanced := h.balanced w hw
  simp only [surplus, h.framed.top, hall, hbase, Nat.zero_add] at hbalanced ⊢
  omega

theorem captureRetval_spec {errhandler : Bool} :
    Returns (captureRetval vals errhandler v) t fun _ t' => t'.stack = t.stack ∧
      t'.stackTop = t.stackTop ∧ t'.stackBase = t.stackBase ∧ t'.exits = t.exits ∧
        Balanced vals t t' := by
  simp only [captureRetval, returns_bind, returns_get]
  apply returns_ite
  · intro _
    simp only [hold, returns_bind, returns_refupval, returns_modify, bump_held]
    exact ⟨by simp, by simp, by simp, by simp, fun _ hw => surplus_held v 1 hw⟩
  · intro _
    exact returns_pure.mpr ⟨rfl, rfl, rfl, rfl, fun _ _ => rfl⟩

theorem settleRetval_spec (hs : Good F s) (ok errhandler : Bool)
    (hv : t.stack (s.stackTop + 2) = .val v) (h : Released vals F n n s t) :
    Returns (settleRetval vals ok errhandler (s.stackTop + 2) v) t fun _ t' =>
      Settled vals F n s t' := by
  have htop := h.framed.top
  cases ok with
  | true =>
    simp only [settleRetval, if_true, refdownvalNofree, returns_refdownval]
    refine ⟨?_, by rw [bump_stackBase]; exact h.base, ?_⟩
    · apply h.framed.resize hs
      · rw [bump_stackTop]
        exact htop
      · rw [bump_exits]
      · intro j _
        rw [bump_stack]
      · intro j hj
        rw [bump_stack]
        exact h.framed.args j hj
    · intro w hw
      have hret := h.retval hv hw
      rw [bump_ref vals _ _ _ hw, bump_held, bump_stack]
      omega
  | false =>
    simp only [settleRetval, Bool.false_eq_true, if_false, returns_bind, returns_refdownval,
      returns_setCell]
    apply captureRetval_spec.mono
    rintro _ t1 ⟨hstack, htop1, hbase, hexits, hsurplus⟩
    have hcells (j : ℕ) : t1.stack j = t.stack j := congrFun hstack j
    have h1 : Released vals F n n s t1 := by
      refine ⟨?_, hbase.trans h.base, ?_⟩
      · apply h.framed.resize hs (htop1.trans htop) hexits fun j _ => hcells j
        intro j hj
        rw [hcells]
        exact h.framed.args j hj
      · intro w hw
        exact h.balanced_kept (Nat.le_refl n) (fun j _ _ => hcells j) hsurplus hw
    have hv1 : t1.stack (s.stackTop + 2) = .val v := (hcells _).trans hv
    refine ⟨?_, by rw [bump_stackBase]; exact h1.base, ?_⟩
    · apply h1.framed.slots hs
      · rw [bump_stackTop]
      · rw [bump_exits]
      · intro j hj _
        rw [bump_stack]
        exact update_of_ne hj _ _
      · exact ⟨vals.nil, update_self _ _ _⟩
      · rw [bump_stack]
        exact (update_of_ne (by omega) _ _).trans h1.framed.nargs
    · intro w hw
      have hret := h1.retval hv1 hw
      have hspan := span_update_above t1.stack w (.val vals.nil)
        (by omega : 0 + s.stackTop ≤ s.stackTop + 2)
      rw [bump_ref vals _ _ _ hw, bump_held, bump_stack, hspan]
      omega

theorem leaveCall_spec (hs : Good F s) (ok errhandler : Bool) (h : Released vals F n n s t) :
    Returns (leaveCall vals ok errhandler) t fun _ t' => Kept vals F F.vars s t' := by
  obtain ⟨v, hv⟩ := h.framed.retval
  simp only [leaveCall, retvalCell, returns_bind, returns_get, returns_pure, h.base]
  apply returns_valAt hv
  apply (settleRetval_spec hs ok errhandler hv h).mono
  intro _ t1 h1
  rw [h1.base]
  apply returns_numAt h1.framed.prevTop
  simp only [returns_setStackTop, h1.base, Nat.add_zero]
  refine returns_numAt (n := F.base) h1.framed.prevBase ?_
  simp only [returns_setStackBase, returns_modify]
  have hcaller : Good F { t1 with stackBase := F.base } :=
    Framed.caller (h1.framed.resize hs h1.framed.top rfl (fun _ _ => rfl) h1.framed.args) hs rfl
  have hkept : Kept vals F F.vars s { t1 with stackTop := s.stackTop, stackBase := F.base } :=
    ⟨⟨rfl, hs.floor, hcaller.nargs, hcaller.values⟩, rfl, h1.framed.exits, h1.framed.cells,
      h1.balanced⟩
  apply hkept.trans
  split
  · exact Kept.of_eq hkept.good rfl rfl (fun _ _ => rfl) rfl rfl rfl
  · exact Kept.refl hkept.good

theorem Pushed.running (hs : Good F s) (h : Pushed vals F n s t) :
    Running vals F n 0 s { t with
      stackBase := s.stackTop, stack := update t.stack (s.stackTop + 3) (.num n) } := by
  have htop := h.framed.top
  refine ⟨h.framed.slots hs rfl rfl ?_ ?_ ?_, rfl, ?_⟩
  · intro j _ hj
    exact update_of_ne hj _ _
  · exact ⟨vals.nil, (update_of_ne (by omega) _ _).trans h.retval⟩
  · exact update_self _ _ _
  · intro v hv
    have hspan := span_update t.stack v (.num n)
      (Nat.zero_le (s.stackTop + 3)) (by omega : s.stackTop + 3 < 0 + t.stackTop)
    rw [← h.balanced v hv]
    simp only [surplus, hspan, h.framed.nargs, share_nil hv, share_num]
    omega

theorem callBody_spec {errhandler : Bool} {refs : List (Option (Ref V σ))} (hs : Good F s)
    (hcallee : TameCallee vals F s.stackTop hs.floor callee) (hargs : TameArgs vals F args)
    (hlen : args.length ≤ n) (hrefs : ∀ ref, some ref ∈ refs → SafeRef vals F.vars ref)
    (hn : callee.Takes refs.length n) (h : Pushed vals F n s t) :
    Returns (callBody vals callee args errhandler s.stackTop refs n) t fun _ t' =>
      Kept vals F F.vars s t' := by
  simp only [callBody, returns_bind, returns_setStackBase, returns_setCell, returns_get]
  have hrunning := h.running hs
  apply (Callee.run_spec hs hcallee hrefs hn hrunning).mono
  intro ok t1 h1
  rw [h1.base]
  apply returns_numAt h1.framed.nargs
  apply (releaseAll_spec hs hargs hlen h1.released).mono
  intro _ t2 h2
  exact leaveCall_spec hs ok errhandler h2

variable (vals) in
theorem Pushed.slots (hs : Good F s) : Pushed vals F 0 s { s with
    stack := update (update (update (update s.stack
      s.stackTop (.num s.stackBase)) (s.stackTop + 1) (.num s.stackTop)) (s.stackTop + 1 + 1)
      (.val vals.nil)) (s.stackTop + 1 + 1 + 1) (.val vals.nil),
    stackTop := s.stackTop + 1 + 1 + 1 + 1 } := by
  have hbelow (i : ℕ) (hi : i < s.stackTop) :
      update (update (update (update s.stack
        s.stackTop (.num s.stackBase)) (s.stackTop + 1) (.num s.stackTop)) (s.stackTop + 1 + 1)
        (.val vals.nil)) (s.stackTop + 1 + 1 + 1) (.val vals.nil) i = s.stack i := by
    rw [update_of_ne (by omega), update_of_ne (by omega),
      update_of_ne (by omega), update_of_ne (by omega)]
  have hprevBase : update (update (update (update s.stack
      s.stackTop (.num s.stackBase)) (s.stackTop + 1) (.num s.stackTop)) (s.stackTop + 1 + 1)
      (.val vals.nil)) (s.stackTop + 1 + 1 + 1) (.val vals.nil) s.stackTop =
      .num s.stackBase := by
    rw [update_of_ne (by omega), update_of_ne (by omega), update_of_ne (by omega), update_self]
  refine ⟨⟨rfl, Nat.le_refl _, fun i hi _ _ => hbelow i hi, ?_, ?_, ?_, ?_, ?_, ?_⟩, hs.base,
    ?_, ?_⟩
  · rw [← hs.base]
    exact hprevBase
  · simp
  · exact ⟨vals.nil, by simp⟩
  · simp
  · intro j hj
    omega
  · intro i hi
    obtain ⟨v, hv⟩ := hs.values i (hi.imp_left .inl)
    exact ⟨v, (hbelow i (Framed.values_lt hs hi)).trans hv⟩
  · simp
  · intro v hv
    have hspan := span_congr (v := v) fun i (_ : 0 ≤ i) (hi : i < 0 + s.stackTop) =>
      hbelow i (by omega)
    simp only [surplus, span, Nat.zero_add, hspan, hprevBase]
    simp [share_nil hv]

theorem evalCall_spec (hs : Good F s) (hcallee : TameCallee vals F s.stackTop hs.floor callee)
    (hargs : TameArgs vals F args) (errhandler : Bool) :
    Returns (evalCall vals callee args errhandler) s fun _ s' => Kept vals F F.vars s s' := by
  have hslots := Pushed.slots vals hs
  simp only [evalCall, returns_bind, returns_get]
  apply returns_rawPush
  · simp only [Bool.false_eq_true, not_false_eq_true, if_true, returns_pure]
    exact Kept.of_eq hs rfl rfl (fun _ _ => rfl) rfl rfl rfl
  simp only [not_true_eq_false, if_false, returns_bind]
  apply returns_rawPush
  · simp only [Bool.false_eq_true, not_false_eq_true, if_true, returns_bind, returns_rawPop,
      returns_pure]
    refine Kept.of_eq hs rfl rfl (fun i hi => ?_) rfl rfl rfl
    exact update_of_ne (by omega) _ _
  simp only [not_true_eq_false, if_false, returns_bind]
  apply returns_rawPush
  · simp only [Bool.false_eq_true, not_false_eq_true, if_true, returns_bind, returns_rawPop,
      returns_pure]
    refine Kept.of_eq hs rfl rfl (fun i hi => ?_) rfl rfl rfl
    exact (update_of_ne (by omega) _ _).trans (update_of_ne (by omega) _ _)
  simp only [not_true_eq_false, if_false, returns_bind]
  apply returns_rawPush
  · simp only [Bool.false_eq_true, not_false_eq_true, if_true, returns_bind, returns_rawPop,
      returns_pure]
    refine Kept.of_eq hs rfl rfl (fun i hi => ?_) rfl rfl rfl
    exact (update_of_ne (by omega) _ _).trans
      ((update_of_ne (by omega) _ _).trans (update_of_ne (by omega) _ _))
  simp only [not_true_eq_false, if_false, returns_bind]
  apply (CallArgs.push_spec callee hs hargs hslots).mono
  intro refs t1 harrived
  cases refs with
  | none =>
    simp only [returns_bind, returns_pure]
    exact unwindBase_spec hs harrived
  | some refs =>
    obtain ⟨hlen, hrefs, hpushed⟩ := harrived
    simp only [returns_bind]
    rw [hlen]
    apply (completeArgs_spec hs hargs hpushed).mono
    intro nargs t2 hcompleted
    cases nargs with
    | none => exact returns_pure.mpr hcompleted
    | some nargs =>
      obtain ⟨hn, hpushed⟩ := hcompleted
      exact callBody_spec hs hcallee hargs hn.le hrefs (hlen ▸ hn) hpushed

/-! ## Runs -/

theorem setrefval_tame (part : Part) (href : SafeRef vals F.vars ref) (v : V) :
    Tame vals F (F.writes part) (setrefval vals ref v) :=
  (href.tame (fun _ hi => .inl (F.vars_writes .statement hi)) v).weaken
    fun _ hi => F.vars_writes part hi

theorem runReturn_tame (v : V) (hframe : F.nargs.isSome) :
    Tame vals F (F.writes .statement) (runReturn vals v) := by
  apply Tame.look
  intro s hs
  rw [hs.base]
  have hslot : F.base + 2 ∈ F.writes .statement := .inr ⟨hframe, rfl⟩
  refine Tame.bind (Tame.store v (.inl hslot) hslot) fun _ => ?_
  refine Tame.bind ?_ fun _ => Tame.pure true
  exact Tame.change (fun _ => rfl) (fun _ => rfl) (fun _ => rfl) (fun _ => rfl) (fun _ => rfl)
    fun _ => rfl

theorem runExit_tame (v : V) (abort : Bool) (hg : F.gretval ∈ F.exits) :
    Tame vals F (F.writes .statement) (runExit vals F.gretval v abort) := by
  intro s hs
  have hstore : Tame vals F (fun i => i = F.gretval) (store vals F.gretval v) :=
    Tame.store v (.inr hg) rfl
  simp only [runExit, returns_bind]
  apply (hstore s hs).mono
  intro _ s' hkept
  simp only [returns_modify, returns_pure]
  refine hkept.exit ?_ _
  rintro i rfl
  exact .inr hg

theorem runBlock_tame {body : List (RtxM V σ Bool)} (hbody : ∀ p ∈ body, Tame vals F W p) :
    Tame vals F W (runBlock vals 0 body) := by
  have hdepth (f : ℕ → ℕ) :
      Tame vals F W (modify fun s => { s with depth := f s.depth } : RtxM V σ PUnit) :=
    Tame.change (fun _ => rfl) (fun _ => rfl) (fun _ => rfl) (fun _ => rfl) (fun _ => rfl)
      fun _ => rfl
  apply Tame.look
  intro s _
  split
  · exact Tame.seterr.bind fun _ => Tame.pure false
  · refine (hdepth (· + 1)).bind fun _ => ?_
    refine Tame.bind ?_ fun n => (hdepth (· - 1)).bind fun _ => Tame.pure n
    apply Tame.look
    intro t _
    exact (runStatements_tame body hbody).bind fun n => Tame.pure n

theorem Prog.tame {part : Part} {c : RtxM V σ α} (h : Prog vals F part c) :
    Tame vals F (F.writes part) c := by
  induction h with
  | @simple F part α c hc =>
    refine hc.tame fun i hi => ?_
    cases part with
    | expression => exact .inl (F.vars_writes .statement hi)
    | statement => exact .inl hi
  | bind _ _ ihc ihf => exact ihc.bind ihf
  | look _ ih => exact Tame.look ih
  | setrefval v href => exact setrefval_tame _ href v
  | runReturn v hframe => exact runReturn_tame v hframe
  | runExit v abort hg => exact runExit_tame v abort hg
  | runBlock _ ih => exact runBlock_tame ih
  | @evalCall F part callee args errhandler _ _ _ _ _ hnode hvals ihbody ihimpl ihvalue ihvalue0
      ihtake =>
    have hcallee (top : ℕ) (htop : F.floor ≤ top) : TameCallee vals F top htop callee := by
      cases callee with
      | «fun» nargs argspec nlcls body => exact ihbody nargs argspec nlcls body rfl top htop
      | fnc spec impl =>
        cases impl with
        | none => exact trivial
        | some impl => exact ihimpl spec impl rfl top htop
    have hargs : TameArgs vals F args := by
      cases args with
      | vals spec vs => exact hvals spec vs rfl
      | nde nodes =>
        intro p hp
        exact ⟨ihvalue nodes rfl p hp, ihvalue0 nodes rfl p hp, ihtake nodes rfl p hp,
          hnode nodes rfl p hp⟩
    have hcall : Tame vals F F.vars (Calls.evalCall vals callee args errhandler) :=
      fun s hs => evalCall_spec hs (hcallee _ hs.floor) hargs errhandler
    exact hcall.weaken fun _ hi => F.vars_writes part hi

/-- A call in `F` when the stack is so high: the arguments are expressions in `F`, and what is
called is a part of the program in the frame that the call sets up. -/
structure IsCall (vals : Vals V σ) (F : Frame) (top : ℕ) (htop : F.floor ≤ top)
    (callee : Callee V σ) (args : CallArgs V σ) : Prop where
  body : ∀ nargs argspec nlcls body, callee = .fun nargs argspec nlcls body →
    ∀ n, nargs ≤ n → ∀ p ∈ body, Prog vals (F.callee top htop n nlcls) .statement p
  impl : ∀ spec impl, callee = .fnc spec (some impl) → ∀ refs,
    (∀ ref, some ref ∈ refs → SafeRef vals (F.callee top htop refs.length 0).vars ref) →
    Prog vals (F.callee top htop refs.length 0) .statement (impl refs)
  value : ∀ nodes, args = .nde nodes → ∀ p ∈ nodes, Prog vals F .expression p.value
  value0 : ∀ nodes, args = .nde nodes → ∀ p ∈ nodes, Prog vals F .expression p.value0
  take : ∀ nodes, args = .nde nodes → ∀ p ∈ nodes, ∀ take set, p.node = .other take set →
    Prog vals F .expression take
  node : ∀ nodes, args = .nde nodes → ∀ p ∈ nodes, SafeNode vals F p.node
  vals : ∀ spec vs, args = .vals spec vs → ∀ p ∈ vs, ∀ v, Simple vals F.vars (p.2 v)

/-- The call returns, with the stack and the references as they were, and with the return
value of the caller as it was, unless `excused`. -/
def Restores (vals : Vals V σ) (F : Frame) (callee : Callee V σ) (args : CallArgs V σ)
    (errhandler : Bool) (excused : CallRtx V σ → Prop) (s : CallRtx V σ) : Prop :=
  Returns (evalCall vals callee args errhandler) s fun _ s' => s'.wild = false →
    s'.stackTop = s.stackTop ∧ s'.stackBase = s.stackBase ∧ Balanced vals s s' ∧
      (F.nargs.isSome → ¬excused s' → s'.stack (F.base + 2) = s.stack (F.base + 2))

theorem IsCall.tameCallee {top : ℕ} {htop : F.floor ≤ top}
    (h : IsCall vals F top htop callee args) : TameCallee vals F top htop callee := by
  cases callee with
  | «fun» nargs argspec nlcls body =>
    exact fun n hn p hp => (h.body nargs argspec nlcls body rfl n hn p hp).tame
  | fnc spec impl =>
    cases impl with
    | none => exact trivial
    | some impl => exact fun refs hrefs => (h.impl spec impl rfl refs hrefs).tame

theorem IsCall.tameArgs {top : ℕ} {htop : F.floor ≤ top}
    (h : IsCall vals F top htop callee args) : TameArgs vals F args := by
  cases args with
  | vals spec vs => exact h.vals spec vs rfl
  | nde nodes =>
    exact fun p hp => ⟨(h.value nodes rfl p hp).tame, (h.value0 nodes rfl p hp).tame,
      fun take set hother => (h.take nodes rfl p hp take set hother).tame, h.node nodes rfl p hp⟩

/-- After any call, the top and the base of the stack are as before, each argument and each
local variable has been released once, and the return value of the caller is as it was, unless
it is the program's and an exit has been executed. -/
theorem evalCall_restores {callee : Callee V σ} {args : CallArgs V σ} {s : CallRtx V σ}
    (hs : Good F s) (hcall : IsCall vals F s.stackTop hs.floor callee args) (errhandler : Bool) :
    Restores vals F callee args errhandler
      (fun s' => F.base + 2 = F.gretval ∧ s'.exits ≠ s.exits) s := by
  apply (evalCall_spec hs hcall.tameCallee hcall.tameArgs errhandler).mono
  intro _ s' hkept _
  refine ⟨hkept.top, hkept.good.base.trans hs.base.symm, hkept.surplus, ?_⟩
  intro hsome hexcused
  have hlt := F.slots_lt hsome
  have hfloor := hs.floor
  apply hkept.cells _ (by omega) (F.retval_apart hsome)
  intro hmem
  by_contra hexit
  exact hexcused ⟨F.exits_eq _ hmem, hexit⟩

/-! ## The outermost frame -/

def Frame.globals (n : ℕ) : Frame where
  base := 0
  floor := n
  nargs := none
  gretval := n + 2
  vars := {i | i < n}
  exits := ∅
  vars_lt := fun _ hi => hi
  exits_lt := by rintro _ ⟨⟩
  exits_eq := by rintro _ ⟨⟩
  slots_lt := by rintro ⟨⟩
  nargs_apart := by rintro ⟨⟩
  retval_apart := by rintro ⟨⟩

def Frame.program (n : ℕ) : Frame := (Frame.globals n).callee n (Nat.le_refl n) 0 0

/-- `BEGIN { f() } function f() { exit 7 }`, with values that are numbers and of which 0 is nil. -/
def exitVals : Vals ℕ Unit where
  nil := 0
  static v := v = 0
  static_nil := rfl
  makeref _ rest := (none, rest)
  refuses _ _ := false

def exitFun : Callee ℕ Unit := .fun 0 none 0 [runExit exitVals 2 7 false]

def beginRtx : CallRtx ℕ Unit where
  stack i := if i = 2 then .val 0 else .num 0
  stackTop := 4
  stackBase := 0
  stackLimit := 512
  exitLevel := .exitNone
  enoerr := true
  depth := 1
  blockRun := 0
  ref _ := 0
  held _ := 0
  wild := false
  exits := 0
  rest := ()

theorem beginRtx_good : Good (Frame.program 0) beginRtx := by
  refine ⟨rfl, Nat.le_refl 4, ?_, ?_⟩
  · rintro n ⟨⟩
    rfl
  · rintro i (((hi | ⟨hle, hlt⟩) | ⟨-, rfl⟩) | (⟨⟨⟩⟩ | ⟨rfl, -⟩))
    · exact absurd hi (Nat.not_lt_zero i)
    · have hle : 4 ≤ i := hle
      have hlt : i < 4 := hlt
      omega
    · exact ⟨0, rfl⟩
    · exact ⟨0, rfl⟩

theorem exitFun_isCall : IsCall exitVals (Frame.program 0) 4 (Nat.le_refl 4) exitFun (.nde []) := by
  refine ⟨?_, ?_, ?_, ?_, ?_, ?_, ?_⟩
  · rintro _ _ _ _ ⟨⟩ n - p hp
    rw [List.mem_singleton] at hp
    subst hp
    exact Prog.runExit (F := (Frame.program 0).callee 4 (Nat.le_refl 4) n 0) 7 false
      (.inl (.inr ⟨rfl, rfl⟩))
  · rintro _ _ ⟨⟩
  · rintro _ ⟨⟩ p ⟨⟩
  · rintro _ ⟨⟩ p ⟨⟩
  · rintro _ ⟨⟩ p ⟨⟩
  · rintro _ ⟨⟩ p ⟨⟩
  · rintro _ _ ⟨⟩

/-- The frame of `g` in `BEGIN { g(3) } function g(a) { f(a) }` and
`function f(&x) { @local y; y = x; x = 5; return 9 }`. -/
def Frame.inner : Frame := (Frame.program 0).callee 4 (Nat.le_refl 4) 1 0

def innerRtx : CallRtx ℕ Unit := { beginRtx with
  stack := fun i => if i = 2 ∨ i = 6 then .val 0 else if i = 8 then .val 3
    else if i = 5 then .num 4 else if i = 7 then .num 1 else .num 0
  stackTop := 9
  stackBase := 4
  ref := fun v => if v = 3 then 1 else 0 }

def copyArg : RtxM ℕ Unit Bool := do
  let s ← get
  match s.stack (s.stackBase + 3), s.stack (s.stackBase + 4) with
  | .num nargs, .val v => do
    store exitVals (s.stackBase + 4 + nargs) v
    pure true
  | _, _ => pure false

def assignArg : RtxM ℕ Unit Bool := do
  let s ← get
  store exitVals (s.stackBase + 4) 5
  pure true

def innerFun : Callee ℕ Unit :=
  .fun 1 (some fun _ => true) 1 [copyArg, assignArg, runReturn exitVals 9]

def innerArg : Arg ℕ Unit where
  value := do
    let s ← get
    match s.stack (s.stackBase + 4) with
    | .val v => pure (some v)
    | .num _ => pure none
  value0 := pure none
  node := .arg 0

theorem innerRtx_good : Good Frame.inner innerRtx := by
  refine ⟨rfl, Nat.le_refl 9, ?_, ?_⟩
  · rintro n ⟨⟩
    rfl
  · rintro i ((((hi | ⟨hle, hlt⟩) | ⟨hle, hlt⟩) | ⟨-, rfl⟩) | ((⟨⟨⟩⟩ | ⟨rfl, -⟩) | ⟨rfl, -⟩))
    · exact absurd hi (Nat.not_lt_zero i)
    · have hle : 4 ≤ i := hle
      have hlt : i < 4 := hlt
      omega
    · have hle : 8 ≤ i := hle
      have hlt : i < 9 := hlt
      obtain rfl : i = 8 := by omega
      exact ⟨3, rfl⟩
    · exact ⟨0, rfl⟩
    · exact ⟨0, rfl⟩
    · exact ⟨0, rfl⟩

theorem copyArg_prog {G : Frame} {n : ℕ} (hn : G.nargs = some n) (hvar : G.base + 4 + n ∈ G.vars) :
    Prog exitVals G .statement copyArg := by
  refine .look fun s hs => ?_
  rw [hs.base, hs.nargs n hn]
  split
  · rename_i nargs v hnargs _
    cases hnargs
    exact .bind (.simple (.store v (.inl hvar))) fun _ => .simple (.pure true)
  · exact .simple (.pure false)

theorem assignArg_prog {G : Frame} (hvar : G.base + 4 ∈ G.vars) :
    Prog exitVals G .statement assignArg := by
  refine .look fun s hs => ?_
  rw [hs.base]
  exact .bind (.simple (.store 5 (.inl hvar))) fun _ => .simple (.pure true)

theorem innerFun_isCall :
    IsCall exitVals Frame.inner 9 (Nat.le_refl 9) innerFun (.nde [innerArg]) := by
  refine ⟨?_, ?_, ?_, ?_, ?_, ?_, ?_⟩
  · rintro _ _ _ _ ⟨⟩ n hn p hp
    simp only [List.mem_cons, List.not_mem_nil, or_false] at hp
    rcases hp with rfl | rfl | rfl
    · exact copyArg_prog rfl (.inr ⟨by simp [Frame.callee], by simp [Frame.callee]⟩)
    · exact assignArg_prog (.inr ⟨by simp [Frame.callee], by simp only [Frame.callee]; omega⟩)
    · exact .runReturn 9 rfl
  · rintro _ _ ⟨⟩
  · rintro _ ⟨⟩ p hp
    rw [List.mem_singleton] at hp
    subst hp
    refine .look fun s _ => ?_
    split
    · exact .simple (.pure _)
    · exact .simple (.pure none)
  · rintro _ ⟨⟩ p hp
    rw [List.mem_singleton] at hp
    subst hp
    exact .simple (.pure none)
  · rintro _ ⟨⟩ p hp take set hother
    rw [List.mem_singleton] at hp
    subst hp
    cases hother
  · rintro _ ⟨⟩ p hp
    rw [List.mem_singleton] at hp
    subst hp
    exact .inr ⟨Nat.le_refl 8, Nat.lt_succ_self 8⟩
  · rintro _ _ ⟨⟩

theorem evalCall_restores_inner : ∃ s',
    (evalCall exitVals innerFun (.nde [innerArg]) false).run innerRtx = some (some 9, s') ∧
      s'.stackTop = 9 ∧ s'.stackBase = 4 ∧ Balanced exitVals innerRtx s' ∧
        s'.stack 6 = .val 0 ∧ s'.stack 8 = .val 5 := by
  have hrun : ((evalCall exitVals innerFun (.nde [innerArg]) false).run innerRtx).map
      (fun r => (r.1, r.2.wild, r.2.stack 8)) = some (some 9, false, .val 5) := by
    decide
  obtain ⟨v, s', hrun', hafter⟩ := evalCall_restores innerRtx_good innerFun_isCall false
  rw [hrun', map_some, some.injEq, Prod.mk.injEq, Prod.mk.injEq] at hrun
  obtain ⟨rfl, hwild, harg⟩ := hrun
  obtain ⟨htop, hbase, hbalanced, hret⟩ := hafter hwild
  have hslot : Frame.inner.base + 2 ≠ Frame.inner.gretval := by decide
  exact ⟨s', hrun', htop, hbase, hbalanced, hret rfl fun h => hslot h.1, harg⟩

/-- `exit 7` in a function that `BEGIN` has called sets the return value of the caller, which
is the one of the program. -/
theorem not_restores_exit : ∃ hs : Good (Frame.program 0) beginRtx,
    IsCall exitVals (Frame.program 0) beginRtx.stackTop hs.floor exitFun (.nde []) ∧
      ¬Restores exitVals (Frame.program 0) exitFun (.nde []) false (fun _ => False) beginRtx := by
  refine ⟨beginRtx_good, exitFun_isCall, ?_⟩
  intro h
  have hrun : ((evalCall exitVals exitFun (.nde []) false).run beginRtx).map
      (fun r => (r.2.wild, r.2.stack 2)) = some (false, .val 7) := by
    decide
  obtain ⟨v, s', hrun', hafter⟩ := h
  rw [hrun', map_some, some.injEq, Prod.mk.injEq] at hrun
  obtain ⟨-, -, -, hret⟩ := hafter hrun.1
  have hsame : s'.stack 2 = .val 0 := hret rfl id
  rw [hrun.2] at hsame
  cases hsame

end Qse.Awk.Calls
