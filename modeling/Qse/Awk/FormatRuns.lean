import Qse.Awk.Format

/-!
# What a `printf` puts out

The text that is handed on is that of the same formatting done apart, unless another formatting with
the same buffers begins while an argument is evaluated, or an integer is padded to the size of the
scratch buffer.
-/

open Function List Option

namespace Qse.Awk.Format

open Fallible

variable {F O σ : Type} {env : Env F O σ}

def spare (env : Env F O σ) : Env F O σ := { env with room := fun _ => true }

def fresh (rest : σ) : FormatRtx (Val F O) σ where
  area _ := ⟨[], []⟩
  tmpLen _ := 4096
  next := 1
  clock := 0
  rest := rest
  nested _ := false
  loose := false
  outcomes := []
  log := []

def replay (o : Val F O × σ) : FormatM F O σ (Val F O) := fun s =>
  (some o.1, { s with rest := o.2 })

def formatted (env : Env F O σ) (kind : Kind) (fmt : List ℕ) (rest : σ)
    (outcomes : List (Val F O × σ)) : Option (List ℕ) :=
  (format (spare env) kind (.own 0) fmt (outcomes.map replay) false (fresh rest)).1

def Applied (env : Env F O σ) (e : Printed (Val F O) σ) : Prop :=
  formatted env e.kind e.fmt e.rest e.outcomes = some e.text

def Sound (env : Env F O σ) (e : Printed (Val F O) σ) : Prop :=
  e.nested = false → e.loose = false → Applied env e

variable {s s' s'' : FormatRtx (Val F O) σ} {p q : Place}

structure Within (env : Env F O σ) (p : Place) (s s' : FormatRtx (Val F O) σ) : Prop where
  nested : ∀ kind, s.nested kind = true → s'.nested kind = true
  area : ∀ kind, .shared kind ≠ p → s'.nested kind = false →
    s'.area (.shared kind) = s.area (.shared kind)
  loose : s.loose = true → s'.loose = true
  log : (∀ e ∈ s.log, Sound env e) → ∀ e ∈ s'.log, Sound env e

structure Aside (env : Env F O σ) (s s' : FormatRtx (Val F O) σ) : Prop where
  nested : ∀ kind, s.nested kind = true → s'.nested kind = true
  area : ∀ kind, s'.nested kind = false → s'.area (.shared kind) = s.area (.shared kind)
  loose : s'.loose = s.loose
  outcomes : s'.outcomes = s.outcomes
  log : (∀ e ∈ s.log, Sound env e) → ∀ e ∈ s'.log, Sound env e

structure Local (p : Place) (s s' : FormatRtx (Val F O) σ) : Prop where
  nested : s'.nested = s.nested
  area : ∀ p', p' ≠ p → s'.area p' = s.area p'
  loose : s.loose = true → s'.loose = true
  outcomes : s'.outcomes = s.outcomes
  log : s'.log = s.log

theorem Within.refl (s : FormatRtx (Val F O) σ) : Within env p s s :=
  ⟨fun _ h => h, fun _ _ _ => rfl, fun h => h, fun h => h⟩

theorem Within.trans (h : Within env p s s') (h' : Within env p s' s'') : Within env p s s'' where
  nested kind hk := h'.nested kind (h.nested kind hk)
  area kind hp hk := by
    have hfalse : s'.nested kind = false := by
      cases hn : s'.nested kind with
      | false => rfl
      | true =>
        rw [h'.nested kind hn] at hk
        cases hk
    rw [h'.area kind hp hk, h.area kind hp hfalse]
  loose hs := h'.loose (h.loose hs)
  log hs := h'.log (h.log hs)

theorem Aside.refl (s : FormatRtx (Val F O) σ) : Aside env s s :=
  ⟨fun _ h => h, fun _ _ => rfl, rfl, rfl, fun h => h⟩

theorem Aside.within (h : Aside env s s') (p : Place) : Within env p s s' where
  nested := h.nested
  area kind _ hk := h.area kind hk
  loose hs := h.loose.trans hs
  log := h.log

theorem Aside.trans (h : Aside env s s') (h' : Aside env s' s'') : Aside env s s'' where
  nested kind hk := h'.nested kind (h.nested kind hk)
  area kind hk := by
    have hfalse : s'.nested kind = false := by
      cases hn : s'.nested kind with
      | false => rfl
      | true =>
        rw [h'.nested kind hn] at hk
        cases hk
    rw [h'.area kind hk, h.area kind hfalse]
  loose := h'.loose.trans h.loose
  outcomes := h'.outcomes.trans h.outcomes
  log hs := h'.log (h.log hs)

theorem Local.refl (s : FormatRtx (Val F O) σ) : Local p s s :=
  ⟨rfl, fun _ _ => rfl, fun h => h, rfl, rfl⟩

theorem Local.trans (h : Local p s s') (h' : Local p s' s'') : Local p s s'' where
  nested := h'.nested.trans h.nested
  area p' hp := (h'.area p' hp).trans (h.area p' hp)
  loose hs := h'.loose (h.loose hs)
  outcomes := h'.outcomes.trans h.outcomes
  log := h'.log.trans h.log

theorem Local.within (h : Local p s s') : Within env p s s' where
  nested kind hk := by rw [h.nested, hk]
  area kind hp _ := h.area _ hp
  loose := h.loose
  log hs := by rwa [h.log]

/-! ## Operations on the buffers -/

/-- What a formatting at `p` sees of the state. -/
def view (p : Place) (s : FormatRtx (Val F O) σ) : Area × σ := (s.area p, s.rest)

variable {α β γ δ : Type}

/-- `x` at `p` and `y` at `q` do the same to what they see, as long as `x` succeeds, and
their values are related. -/
structure Op (p q : Place) (R : α → β → Prop) (x : FormatM F O σ α) (y : FormatM F O σ β) :
    Prop where
  steps : Steps (Local p) x
  agrees : ∀ s a s', x s = (some a, s') → s'.loose = false → ∀ t, view p s = view q t →
    ∃ b t', y t = (some b, t') ∧ R a b ∧ view p s' = view q t'

variable {R : α → β → Prop} {R' : γ → δ → Prop}

theorem Op.pure {a : α} {b : β} (h : R a b) :
    Op p q R (Pure.pure a : FormatM F O σ α) (Pure.pure b) where
  steps := steps_pure Local.refl a
  agrees := by
    rintro s a' s' ⟨⟩ - t hview
    exact ⟨b, t, rfl, h, hview⟩

variable {x : FormatM F O σ α} {y : FormatM F O σ β} {args : Args F O σ}

theorem Op.bind {f : α → FormatM F O σ γ} {g : β → FormatM F O σ δ} (hxy : Op p q R x y)
    (hfg : ∀ a b, R a b → Op p q R' (f a) (g b))
    (hf : ∀ a, Steps (Local p) (f a)) : Op p q R' (x >>= f) (y >>= g) where
  steps := hxy.steps.bind (fun _ _ _ => Local.trans) hf
  agrees := by
    intro s c s'' hrun hloose t hview
    obtain ⟨a, s', hx, hfa⟩ := bind_eq_some hrun
    have hsecond := hf a s'
    rw [hfa] at hsecond
    have hloose' : s'.loose = false := by
      cases hl : s'.loose with
      | false => rfl
      | true =>
        rw [hsecond.loose hl] at hloose
        cases hloose
    obtain ⟨b, t', hy, hab, hview'⟩ := hxy.agrees s a s' hx hloose' t hview
    obtain ⟨d, t'', hg, hcd, hview''⟩ := (hfg a b hab).agrees s' c s'' hfa hloose t' hview'
    exact ⟨d, t'', (bind_some hy).trans hg, hcd, hview''⟩

theorem Op.then {y : FormatM F O σ α} {f g : α → FormatM F O σ γ} {S : γ → γ → Prop}
    (hxy : Op p q Eq x y) (hfg : ∀ a, Op p q S (f a) (g a)) : Op p q S (x >>= f) (y >>= g) :=
  hxy.bind (by rintro a b rfl; exact hfg a) fun a => (hfg a).steps

theorem Op.failWith (e : Errnum) (y : FormatM F O σ β) :
    Op p q R (failWith env e : FormatM F O σ α) y where
  steps s := ⟨rfl, fun _ _ => rfl, fun h => h, rfl, rfl⟩
  agrees := by
    rintro s a s' ⟨⟩

theorem Op.getArea : Op p q Eq (getArea p : FormatM F O σ Area) (getArea q) where
  steps s := Local.refl s
  agrees := by
    rintro s a s' ⟨⟩ - t hview
    exact ⟨t.area q, t, rfl, congrArg Prod.fst hview, hview⟩

theorem Op.setArea (f : Area → Area) :
    Op p q Eq (setArea p f : FormatM F O σ PUnit) (setArea q f) where
  steps s := ⟨rfl, fun p' hp => update_of_ne hp _ _, fun h => h, rfl, rfl⟩
  agrees := by
    rintro s a s' ⟨⟩ - t hview
    refine ⟨⟨⟩, _, rfl, rfl, ?_⟩
    have harea : s.area p = t.area q := congrArg Prod.fst hview
    have hrest : s.rest = t.rest := congrArg Prod.snd hview
    simp only [view, update_self, harea, hrest]

theorem Op.convert {ρ : Type} (f : σ → Option ρ × σ) :
    Op p q Eq (convert f : FormatM F O σ ρ) (convert f) where
  steps s := ⟨rfl, fun _ _ => rfl, fun h => h, rfl, rfl⟩
  agrees := by
    intro s a s' hrun _ t hview
    have harea : s.area p = t.area q := congrArg Prod.fst hview
    have hrest : s.rest = t.rest := congrArg Prod.snd hview
    have hvalue : (f s.rest).1 = some a := congrArg Prod.fst hrun
    have hstate : { s with rest := (f s.rest).2 } = s' := congrArg Prod.snd hrun
    refine ⟨a, { t with rest := (f t.rest).2 }, ?_, rfl, ?_⟩
    · rw [← hrest, ← hvalue]
      unfold Format.convert
      rw [hrest]
    · rw [← hstate]
      simp only [view, harea, hrest]

theorem Op.unseen {x y : FormatM F O σ PUnit} (hx : Steps (Local p) x)
    (hview : ∀ s s', x s = (some ⟨⟩, s') → view p s' = view p s)
    (hy : ∀ t, ∃ t', y t = (some ⟨⟩, t') ∧ view q t' = view q t) : Op p q Eq x y where
  steps := hx
  agrees := by
    intro s a s' hrun _ t hst
    obtain ⟨t', hyt, hview'⟩ := hy t
    exact ⟨⟨⟩, t', hyt, rfl, (hview s s' hrun).trans (hst.trans hview'.symm)⟩

theorem Op.alloc : Op p q (fun _ ok => ok = true) (alloc env : FormatM F O σ Bool)
    (alloc (spare env)) where
  steps s := ⟨rfl, fun _ _ => rfl, fun h => h, rfl, rfl⟩
  agrees := by
    rintro s a s' ⟨⟩ - t hview
    exact ⟨true, _, rfl, rfl, hview⟩

theorem Op.whenRoom {y : FormatM F O σ α} {z : FormatM F O σ α} {S : α → α → Prop}
    (hxy : Op p q S x y) :
    Op p q S (Format.alloc env >>= fun a => if a then x else Format.failWith env .enomem)
      (Format.alloc (spare env) >>= fun b => if b then y else z) := by
  have hsecond (ok : Bool) : Op p q S (if ok then x else Format.failWith env .enomem) y := by
    cases ok with
    | true => exact hxy
    | false => exact Op.failWith _ _
  refine Op.alloc.bind ?_ fun ok => (hsecond ok).steps
  rintro ok ok' rfl
  exact hsecond ok

theorem Op.outStr (t : List ℕ) :
    Op p q Eq (outStr env p t : FormatM F O σ PUnit) (outStr (spare env) q t) :=
  Op.whenRoom (Op.setArea _)

theorem Op.fmtStr (t : List ℕ) :
    Op p q Eq (fmtStr env p t : FormatM F O σ PUnit) (fmtStr (spare env) q t) :=
  Op.whenRoom (Op.setArea _)

theorem Op.outChars : ∀ cs : List ℕ,
    Op p q Eq (outChars env p cs : FormatM F O σ PUnit) (outChars (spare env) q cs)
  | [] => Op.pure rfl
  | c :: cs => (Op.outStr [c]).then fun _ => Op.outChars cs

theorem Op.fmtChars : ∀ cs : List ℕ,
    Op p q Eq (fmtChars env p cs : FormatM F O σ PUnit) (fmtChars (spare env) q cs)
  | [] => Op.pure rfl
  | c :: cs => (Op.fmtStr [c]).then fun _ => Op.fmtChars cs

theorem Op.outPieces : ∀ ts : List (List ℕ),
    Op p q Eq (outPieces env p ts : FormatM F O σ PUnit) (outPieces (spare env) q ts)
  | [] => Op.pure rfl
  | t :: ts => (Op.outStr t).then fun _ => Op.outPieces ts

theorem Op.mono {S : α → β → Prop} (h : Op p q R x y)
    (hRS : ∀ a b, R a b → S a b) : Op p q S x y where
  steps := h.steps
  agrees := by
    intro s a s' hrun hloose t hview
    obtain ⟨b, t', hy, hab, hview'⟩ := h.agrees s a s' hrun hloose t hview
    exact ⟨b, t', hy, hRS a b hab, hview'⟩

/-! ## The scratch buffer -/

theorem alloc_steps : Steps (Local p) (alloc env : FormatM F O σ Bool) :=
  fun _ => ⟨rfl, fun _ _ => rfl, fun h => h, rfl, rfl⟩

theorem failWith_steps (e : Errnum) : Steps (Local p) (failWith env e : FormatM F O σ α) :=
  fun _ => ⟨rfl, fun _ _ => rfl, fun h => h, rfl, rfl⟩

theorem grow_steps (kind : Kind) (n : ℕ) :
    Steps (Local p) (grow env kind n : FormatM F O σ PUnit) := by
  refine alloc_steps.bind (fun _ _ _ => Local.trans) fun ok => ?_
  have hchange (f : (Kind → ℕ) → Kind → ℕ) :
      Steps (Local p) (change fun s => { s with tmpLen := f s.tmpLen } : FormatM F O σ PUnit) :=
    fun _ => ⟨rfl, fun _ _ => rfl, fun h => h, rfl, rfl⟩
  cases ok with
  | true => exact hchange fun l => update l kind (l kind + max n (4096 * 2))
  | false =>
    exact (hchange fun l => update l kind 0).bind (fun _ _ _ => Local.trans) fun _ =>
      failWith_steps .enomem

theorem grow_view {kind : Kind} {n : ℕ} {a : PUnit}
    (hrun : (grow env kind n : FormatM F O σ PUnit) s = (some a, s')) :
    view p s' = view p s := by
  obtain ⟨ok, t, halloc, hrest⟩ := bind_eq_some hrun
  have ht : t = { s with clock := s.clock + 1 } := (congrArg Prod.snd halloc).symm
  subst ht
  cases ok with
  | true =>
    rw [if_pos rfl] at hrest
    cases hrest
    rfl
  | false =>
    rw [if_neg Bool.false_ne_true] at hrest
    cases hrest

def fmtText (size : ℤ) (value : ℕ) (f : IntFormat) (prec : ℤ) : List ℕ :=
  (fmtUintmax size value f prec).getD
    (if f.need value prec = 0 then []
      else (fmtUintmax (f.need value prec) value f prec).getD [])

theorem fmtText_eq {f : IntFormat} (hfill : f.fill = none) (size : ℤ) (value : ℕ) (prec : ℤ) :
    fmtText size value f prec = f.sign ++ f.pfx ++ f.body value prec := by
  have henough (n : ℤ) (hn : ¬(n ≤ 0 ∨ n < f.need value prec)) :
      fmtUintmax n value f prec = some (f.sign ++ f.pfx ++ f.body value prec) := by
    simp only [fmtUintmax, if_neg hn, hfill]
  have hshort (n : ℤ) (hn : n ≤ 0 ∨ n < f.need value prec) : fmtUintmax n value f prec = none := by
    simp only [fmtUintmax, if_pos hn]
  unfold fmtText
  by_cases hsize : size ≤ 0 ∨ size < f.need value prec
  · rw [hshort size hsize, getD_none]
    split
    · rename_i hneed
      exact (eq_nil_of_length_eq_zero hneed).symm
    · rw [henough _ (by omega), getD_some]
  · rw [henough size hsize, getD_some]

variable (env) in
theorem fmtTmp_cases (kind : Kind) (size : ℤ) (value : ℕ) (f : IntFormat) (prec : ℤ) :
    (fmtTmp env kind size value f prec : FormatM F O σ (List ℕ)) =
        Pure.pure (fmtText size value f prec) ∨
      (fmtTmp env kind size value f prec : FormatM F O σ (List ℕ)) = (do
        grow env kind (f.need value prec)
        Pure.pure (fmtText size value f prec)) := by
  unfold fmtTmp fmtText
  cases fmtUintmax size value f prec with
  | some text => exact .inl rfl
  | none =>
    by_cases hneed : f.need value prec = 0
    · exact .inl (by simp only [if_pos hneed, getD_none])
    · exact .inr (by simp only [if_neg hneed, getD_none])

theorem Op.fmtTmp (kind : Kind) (size size' : ℤ) (value : ℕ) (f : IntFormat) (prec : ℤ) :
    Op p q (fun a b => a = fmtText size value f prec ∧ b = fmtText size' value f prec)
      (fmtTmp env kind size value f prec : FormatM F O σ (List ℕ))
      (fmtTmp (spare env) kind size' value f prec) where
  steps := by
    rcases fmtTmp_cases env kind size value f prec with h | h
    · rw [h]
      exact steps_pure Local.refl _
    · rw [h]
      exact (grow_steps kind _).bind (fun _ _ _ => Local.trans) fun _ => steps_pure Local.refl _
  agrees := by
    intro s a s' hrun _ t hview
    have hhere : a = fmtText size value f prec ∧ view p s' = view p s := by
      rcases fmtTmp_cases env kind size value f prec with h | h
      · rw [h] at hrun
        cases hrun
        exact ⟨rfl, rfl⟩
      · rw [h] at hrun
        obtain ⟨_, u, hgrow, hpure⟩ := bind_eq_some hrun
        cases hpure
        exact ⟨rfl, grow_view hgrow⟩
    have hthere : ∃ t', (Format.fmtTmp (spare env) kind size' value f prec :
        FormatM F O σ (List ℕ)) t = (some (fmtText size' value f prec), t') ∧
        view q t' = view q t := by
      rcases fmtTmp_cases (spare env) kind size' value f prec with h | h
      · rw [h]
        exact ⟨t, rfl, rfl⟩
      · rw [h]
        exact ⟨_, rfl, rfl⟩
    obtain ⟨t', hrun', hview'⟩ := hthere
    exact ⟨_, t', hrun', ⟨hhere.1, rfl⟩, hhere.2.trans (hview.trans hview'.symm)⟩

theorem Op.starText (kind : Kind) (w : ℤ) :
    Op p q Eq (starText env kind w : FormatM F O σ (List ℕ)) (starText (spare env) kind w) where
  steps := fun s => (Op.fmtTmp (q := p) kind _ 0 _ _ _).steps s
  agrees := by
    intro s a s' hrun hloose t hview
    obtain ⟨b, t', hrun', ⟨ha, hb⟩, hview'⟩ :=
      (Op.fmtTmp (p := p) (q := q) kind (s.tmpLen kind) (t.tmpLen kind) _ _ _).agrees s a s' hrun
        hloose t hview
    refine ⟨b, t', hrun', ?_, hview'⟩
    rw [ha, hb, fmtText_eq rfl, fmtText_eq rfl]

theorem Op.widen (kind : Kind) (width : ℤ) :
    Op p q Eq (widen env kind width : FormatM F O σ PUnit) (widen (spare env) kind width) := by
  apply Op.unseen
  · refine (steps_ask Local.refl _).bind (fun _ _ _ => Local.trans) fun n => ?_
    split
    · exact grow_steps kind _
    · exact steps_pure Local.refl _
  · intro s s' hrun
    obtain ⟨n, t, hask, hrest⟩ := bind_eq_some hrun
    cases hask
    split at hrest
    · exact grow_view hrest
    · cases hrest
      rfl
  · intro t
    have hrun : (Format.widen (spare env) kind width : FormatM F O σ PUnit) t =
        (if width > t.tmpLen kind then grow (spare env) kind (width.toNat - t.tmpLen kind)
          else Pure.pure ⟨⟩ : FormatM F O σ PUnit) t := rfl
    by_cases hwidth : width > t.tmpLen kind
    · rw [if_pos hwidth] at hrun
      exact ⟨_, hrun, rfl⟩
    · rw [if_neg hwidth] at hrun
      exact ⟨t, hrun, rfl⟩

theorem Op.fmtWidth (kind : Kind) (width : ℤ) :
    Op p q (fun a b => a = b ∨ width = -1) (fmtWidth env kind width : FormatM F O σ ℤ)
      (fmtWidth (spare env) kind width) := by
  unfold Format.fmtWidth
  split
  · exact (Op.widen kind width).then fun _ => Op.pure (.inl rfl)
  have hsteps : Steps (Local p) (change fun s => { s with loose := s.loose || width ≠ -1 } :
      FormatM F O σ PUnit) := by
    refine fun s => ⟨rfl, fun _ _ => rfl, fun h => ?_, rfl, rfl⟩
    show (s.loose || decide (width ≠ -1)) = true
    rw [h, Bool.true_or]
  refine ⟨hsteps.bind (fun _ _ _ => Local.trans) fun _ => steps_ask Local.refl _, ?_⟩
  rintro s a s' ⟨⟩ hloose t hview
  have hwidth : width = -1 := by
    have hor : (s.loose || decide (width ≠ -1)) = false := hloose
    rw [Bool.or_eq_false_iff, decide_eq_false_iff_not, not_not] at hor
    exact hor.2
  exact ⟨t.tmpLen kind, _, rfl, .inr hwidth, hview⟩

theorem intFormat_fill (c : ℕ) (fl : Flags) (l prec : ℤ) :
    (intFormat env c fl l (-1) prec).1.fill = none := by
  unfold intFormat
  simp only [if_true]
  split
  · rfl
  · split
    · rfl
    · split
      · rfl
      · split <;> rfl

/-! ## Conversions -/

theorem Op.outInt (kind : Kind) (c : ℕ) (fl : Flags) (width prec l : ℤ) :
    Op p q Eq (outInt env kind p c fl width prec l : FormatM F O σ PUnit)
      (outInt (spare env) kind q c fl width prec l) := by
  have htail (size size' : ℤ) (hsize : size = size' ∨ width = -1) :
      Op p q Eq
        (Format.fmtTmp env kind size (intFormat env c fl l width prec).2
          (intFormat env c fl l width prec).1 (toInt prec) >>= fun text =>
          Format.outStr env p text : FormatM F O σ PUnit)
        (Format.fmtTmp (spare env) kind size' (intFormat env c fl l width prec).2
          (intFormat env c fl l width prec).1 (toInt prec) >>= fun text =>
          Format.outStr (spare env) q text) := by
    have heq : Op p q Eq
        (Format.fmtTmp env kind size (intFormat env c fl l width prec).2
          (intFormat env c fl l width prec).1 (toInt prec) : FormatM F O σ (List ℕ))
        (Format.fmtTmp (spare env) kind size' (intFormat env c fl l width prec).2
          (intFormat env c fl l width prec).1 (toInt prec)) := by
      apply (Op.fmtTmp kind size size' _ _ _).mono
      rintro a b ⟨rfl, rfl⟩
      rcases hsize with rfl | rfl
      · rfl
      · rw [fmtText_eq (intFormat_fill c fl l prec), fmtText_eq (intFormat_fill c fl l prec)]
    exact heq.then fun text => Op.outStr text
  refine (Op.fmtWidth kind width).bind htail fun size => ?_
  exact (htail size size (.inl rfl)).steps

theorem Op.pad (here : Bool) (width prec : ℤ) :
    Op p q Eq (pad env p here width prec : FormatM F O σ PUnit)
      (pad (spare env) q here width prec) := by
  unfold Format.pad
  split
  · exact Op.outChars _
  · exact Op.pure rfl

theorem Op.outChar (kind : Kind) (fl : Flags) (width prec : ℤ) (v : Val F O) :
    Op p q Eq (outChar env kind p fl width prec v : FormatM F O σ PUnit)
      (outChar (spare env) kind q fl width prec v) := by
  have hchar : charOf (spare env) kind v = charOf env kind v := by
    cases v with
    | str s => cases s <;> rfl
    | mbs b => cases b <;> rfl
    | _ => rfl
  unfold Format.outChar
  rw [hchar]
  split
  · exact Op.failWith _ _
  · exact (Op.pad _ _ _).then fun _ => (Op.outChars _).then fun _ => Op.pad _ _ _

theorem Op.valtostrdup (kind : Kind) (v : Val F O) :
    Op p q Eq (valtostrdup env kind v : FormatM F O σ (List ℕ))
      (valtostrdup (spare env) kind v) := by
  have hchange : Op p q Eq
      (change fun s => { s with tmpLen := env.regrow v s.rest s.tmpLen } : FormatM F O σ PUnit)
      (change fun s => { s with tmpLen := env.regrow v s.rest s.tmpLen }) := by
    refine Op.unseen (fun _ => ⟨rfl, fun _ _ => rfl, fun h => h, rfl, rfl⟩) ?_ ?_
    · rintro s s' ⟨⟩
      rfl
    · exact fun t => ⟨_, rfl, rfl⟩
  exact hchange.then fun _ => Op.convert _

theorem Op.strOf (kind : Kind) (single : Bool) (c : ℕ) (v : Val F O) :
    Op p q Eq (strOf env kind single c v : FormatM F O σ (List ℕ))
      (strOf (spare env) kind single c v) := by
  have hdup : Op p q Eq
      (if single then Format.failWith env .efmtcnv else Format.valtostrdup env kind v :
        FormatM F O σ (List ℕ))
      (if single then Format.failWith (spare env) .efmtcnv
        else Format.valtostrdup (spare env) kind v) := by
    split
    · exact Op.failWith _ _
    · exact Op.valtostrdup kind v
  have hchoice (s : List ℕ) : Op p q Eq
      (if c ≠ T 's' then Pure.pure s
        else if single then Format.failWith env .efmtcnv else Format.valtostrdup env kind v :
        FormatM F O σ (List ℕ))
      (if c ≠ T 's' then Pure.pure s
        else if single then Format.failWith (spare env) .efmtcnv
        else Format.valtostrdup (spare env) kind v) := by
    split
    · exact Op.pure rfl
    · exact hdup
  cases kind with
  | wide =>
    cases v with
    | nil | str s => exact Op.pure rfl
    | mbs b => exact hchoice b
    | _ => exact hdup
  | bytes =>
    cases v with
    | nil | mbs b => exact Op.pure rfl
    | str s => exact hchoice _
    | _ => exact hdup

theorem Op.outString (kind : Kind) (single : Bool) (c : ℕ) (fl : Flags) (width prec : ℤ)
    (v : Val F O) :
    Op p q Eq (outString env kind p single c fl width prec v : FormatM F O σ PUnit)
      (outString (spare env) kind q single c fl width prec v) := by
  refine (Op.strOf kind single c v).then fun str => ?_
  exact (Op.pad _ _ _).then fun _ => (Op.outPieces _).then fun _ => Op.pad _ _ _

theorem Op.outUnknown (c : ℕ) :
    Op p q Eq (outUnknown env p c : FormatM F O σ PUnit) (outUnknown (spare env) q c) := by
  refine Op.getArea.then fun a => ?_
  split
  · exact (Op.outStr _).then fun _ => Op.outStr _
  · exact Op.outStr _

theorem Op.outLiteral (c : ℕ) :
    Op p q Eq (outLiteral env p c : FormatM F O σ PUnit) (outLiteral (spare env) q c) := by
  unfold Format.outLiteral
  split
  · exact Op.fmtStr _
  · exact Op.outStr _

/-! ## Arguments -/

/-- Nothing has disturbed the formatting that is under way at `p`, which is a place of the
run. -/
def Quiet (p : Place) (s : FormatRtx (Val F O) σ) : Prop :=
  s.loose = false ∧ ∃ kind, p = .shared kind ∧ s.nested kind = false

theorem Within.quiet (h : Within env p s s') (hquiet : Quiet p s') : Quiet p s := by
  obtain ⟨hloose, kind, hp, hnested⟩ := hquiet
  refine ⟨?_, kind, hp, ?_⟩
  · cases hl : s.loose with
    | false => rfl
    | true => exact (h.loose hl).symm.trans hloose
  · cases hn : s.nested kind with
    | false => rfl
    | true => exact (h.nested kind hn).symm.trans hnested

/-- Arguments whose evaluation leaves the buffers alone unless it is noted. -/
def Tidy (env : Env F O σ) (args : Args F O σ) : Prop := ∀ x ∈ args, Steps (Aside env) x

/-- `c` at `p`, with arguments that are evaluated, and `d` at `q`, with what has been noted of
them, do the same to what they see. -/
structure Mirrors (env : Env F O σ) (p q : Place) (c d : Args F O σ →
    FormatM F O σ (α × Args F O σ)) :
    Prop where
  steps : ∀ args, Tidy env args → Steps (Within env p) (c args)
  mirrors : ∀ args, Tidy env args → ∀ s a rest s', c args s = (some (a, rest), s') →
    Tidy env rest ∧ ∃ os, s'.outcomes = s.outcomes ++ os ∧
      (Quiet p s' → ∀ t more, view p s = view q t →
        ∃ t', d (os.map replay ++ more) t = (some (a, more), t') ∧ view p s' = view q t')

theorem Mirrors.pure (a : α) :
    Mirrors env p q (fun args => Pure.pure (a, args)) fun args => Pure.pure (a, args) where
  steps _ _ := steps_pure Within.refl _
  mirrors := by
    rintro args hargs s a' rest s' ⟨⟩
    refine ⟨hargs, [], (append_nil _).symm, ?_⟩
    intro _ t more hview
    exact ⟨t, rfl, hview⟩

theorem Mirrors.bind {c d : Args F O σ → FormatM F O σ (α × Args F O σ)}
    {k k' : α × Args F O σ → FormatM F O σ (β × Args F O σ)} (hcd : Mirrors env p q c d)
    (hk : ∀ a, Mirrors env p q (fun args => k (a, args)) fun args => k' (a, args)) :
    Mirrors env p q (fun args => c args >>= k) fun args => d args >>= k' where
  steps := by
    intro args hargs s
    have hfirst := hcd.steps args hargs s
    cases hrun : c args s with
    | mk r s' =>
      rw [hrun] at hfirst
      cases r with
      | none =>
        rw [bind_none hrun]
        exact hfirst
      | some r =>
        rw [bind_some hrun]
        have hrest := (hcd.mirrors args hargs s r.1 r.2 s' hrun).1
        exact hfirst.trans ((hk r.1).steps r.2 hrest s')
  mirrors := by
    intro args hargs s b rest s'' hrun
    obtain ⟨⟨a, mid⟩, s', hc, hkrun⟩ := bind_eq_some hrun
    obtain ⟨hmid, os, hos, hmirror⟩ := hcd.mirrors args hargs s a mid s' hc
    obtain ⟨hrest, os', hos', hmirror'⟩ := (hk a).mirrors mid hmid s' b rest s'' hkrun
    have hsecond := (hk a).steps mid hmid s'
    rw [hkrun] at hsecond
    refine ⟨hrest, os ++ os', by rw [hos', hos, append_assoc], ?_⟩
    intro hquiet t more hview
    obtain ⟨t', hd, hview'⟩ :=
      hmirror (hsecond.quiet hquiet) t (os'.map replay ++ more) hview
    obtain ⟨t'', hd', hview''⟩ := hmirror' hquiet t' more hview'
    refine ⟨t'', ?_, hview''⟩
    rw [map_append, append_assoc]
    exact (bind_some hd).trans hd'

theorem Mirrors.op {x : FormatM F O σ β} {c d : β → Args F O σ → FormatM F O σ (α × Args F O σ)}
    (hxy : Op p q Eq x y) (hcd : ∀ b, Mirrors env p q (c b) (d b)) :
    Mirrors env p q (fun args => x >>= fun b => c b args) fun args => y >>= fun b => d b args where
  steps args hargs :=
    (hxy.steps.mono fun _ _ => Local.within).bind (fun _ _ _ => Within.trans)
      fun b => (hcd b).steps args hargs
  mirrors := by
    intro args hargs s a rest s'' hrun
    obtain ⟨b, s', hx, hc⟩ := bind_eq_some hrun
    have hlocal := hxy.steps s
    rw [hx] at hlocal
    obtain ⟨hrest, os, hos, hmirror⟩ := (hcd b).mirrors args hargs s' a rest s'' hc
    have hsecond := (hcd b).steps args hargs s'
    rw [hc] at hsecond
    refine ⟨hrest, os, by rw [hos, hlocal.outcomes], ?_⟩
    intro hquiet t more hview
    obtain ⟨b', t', hy, rfl, hview'⟩ :=
      hxy.agrees s b s' hx (hsecond.quiet hquiet).1 t hview
    obtain ⟨t'', hd, hview''⟩ := hmirror hquiet t' more hview'
    exact ⟨t'', (bind_some hy).trans hd, hview''⟩

theorem Mirrors.takeArg : Mirrors env p q (takeArg env) (takeArg (spare env)) where
  steps := by
    intro args hargs
    cases args with
    | nil => exact (failWith_steps .efmtarg).mono fun _ _ => Local.within
    | cons x xs =>
      have hx : Steps (Within env p) x :=
        (hargs x (.head _)).mono fun _ _ h => h.within p
      have hnote (v : Val F O) : Steps (Within env p)
          (change fun s => { s with outcomes := s.outcomes ++ [(v, s.rest)] } :
            FormatM F O σ PUnit) :=
        fun _ => ⟨fun _ h => h, fun _ _ _ => rfl, fun h => h, fun h => h⟩
      refine Steps.bind (fun _ _ _ => Within.trans) ?_ fun v => steps_pure Within.refl _
      refine hx.bind (fun _ _ _ => Within.trans) fun v => ?_
      exact (hnote v).bind (fun _ _ _ => Within.trans) fun _ => steps_pure Within.refl _
  mirrors := by
    intro args hargs s v rest s'' hrun
    cases args with
    | nil => cases hrun
    | cons x xs =>
      obtain ⟨v', s', hrecord, hpure⟩ := bind_eq_some hrun
      cases hpure
      obtain ⟨v', s1, hx, hnote⟩ := bind_eq_some hrecord
      cases hnote
      have haside := hargs x (.head _) s
      rw [hx] at haside
      refine ⟨fun y hy => hargs y (.tail _ hy), [(v, s1.rest)], ?_, ?_⟩
      · show s1.outcomes ++ [(v, s1.rest)] = s.outcomes ++ [(v, s1.rest)]
        rw [haside.outcomes]
      · intro hquiet t more hview
        obtain ⟨-, kind, rfl, hnested⟩ := hquiet
        have harea : s1.area (.shared kind) = t.area q :=
          (haside.area kind hnested).trans (congrArg Prod.fst hview)
        refine ⟨_, rfl, ?_⟩
        show (s1.area (.shared kind), s1.rest) = (t.area q, s1.rest)
        rw [harea]

/-! ## The format -/

theorem Mirrors.takeModifier (kind : Kind) (dfl : ℤ) (m : Modifier) :
    Mirrors env p q (takeModifier env kind p dfl m) (takeModifier (spare env) kind q dfl m) := by
  cases m with
  | digits ds => exact Mirrors.op (Op.fmtChars ds) fun _ => Mirrors.pure _
  | star =>
    unfold Format.takeModifier
    refine Mirrors.takeArg.bind fun v => ?_
    refine Mirrors.op (Op.convert _) fun w => ?_
    refine Mirrors.op (Op.starText kind w) fun text => ?_
    exact Mirrors.op (Op.fmtStr text) fun _ => Mirrors.pure w

theorem Mirrors.takePrecision (kind : Kind) (m : Option Modifier) :
    Mirrors env p q (takePrecision env kind p m) (takePrecision (spare env) kind q m) := by
  cases m with
  | none => exact Mirrors.pure _
  | some m => exact Mirrors.op (Op.fmtStr _) fun _ => Mirrors.takeModifier kind 0 m

theorem Mirrors.convertArg (kind : Kind) (single : Bool) (c : ℕ) (fl : Flags) (width prec : ℤ) :
    Mirrors env p q (convertArg env kind p single c fl width prec)
      (convertArg (spare env) kind q single c fl width prec) := by
  unfold Format.convertArg
  split
  · refine Mirrors.takeArg.bind fun v => ?_
    refine Mirrors.op (Op.convert _) fun l => ?_
    exact Mirrors.op (Op.outInt kind c fl width prec l) fun _ => Mirrors.pure _
  split
  · refine Mirrors.op (Op.fmtStr _) fun _ => ?_
    refine Mirrors.op (Op.fmtStr _) fun _ => ?_
    refine Mirrors.takeArg.bind fun v => ?_
    refine Mirrors.op (Op.convert _) fun r => ?_
    refine Mirrors.op Op.getArea fun a => ?_
    exact Mirrors.op (Op.outStr _) fun _ => Mirrors.pure _
  · split
    · refine Mirrors.takeArg.bind fun v => ?_
      exact Mirrors.op (Op.outChar kind fl width prec v) fun _ => Mirrors.pure _
    · split
      · refine Mirrors.takeArg.bind fun v => ?_
        exact Mirrors.op (Op.outString kind single c fl width prec v) fun _ => Mirrors.pure _
      · exact Mirrors.op (Op.outUnknown c) fun _ => Mirrors.pure _

theorem Mirrors.formatLoop (kind : Kind) (single : Bool) : ∀ (n : ℕ) (cs : List ℕ),
    Mirrors env p q (formatLoop env kind p single n cs) (formatLoop (spare env) kind q single n cs)
  | 0, [] => Mirrors.pure _
  | _ + 1, [] => Mirrors.pure _
  | 0, _ :: _ => Mirrors.pure _
  | n + 1, c :: cs => by
    have hturn (rest : List ℕ) := Mirrors.formatLoop kind single n rest
    refine Mirrors.op Op.getArea fun a => ?_
    split
    · exact Mirrors.op (Op.outLiteral c) fun _ => hturn cs
    refine Mirrors.op (Op.fmtChars _) fun _ => ?_
    refine (Mirrors.takeModifier kind _ _).bind fun width => ?_
    refine (Mirrors.takePrecision kind _).bind fun prec => ?_
    dsimp only
    split
    · exact Mirrors.pure _
    · refine (Mirrors.convertArg kind single _ _ _ _).bind fun _ => ?_
      exact Mirrors.op (Op.setArea _) fun _ => hturn _

theorem Mirrors.formatInto (kind : Kind) (single : Bool) (fmt : List ℕ) :
    Mirrors env p q (formatInto env kind p single fmt)
      (formatInto (spare env) kind q single fmt) := by
  refine (Mirrors.formatLoop kind single fmt.length fmt).bind fun _ => ?_
  refine Mirrors.op Op.getArea fun a => ?_
  refine Mirrors.op (Op.outStr _) fun _ => ?_
  exact Mirrors.op Op.getArea fun a => Mirrors.pure a.out

theorem format_steps (kind : Kind) (p : Place) (single : Bool) (fmt : List ℕ)
    (hargs : Tidy env args) :
    Steps (Within env p) (format env kind p fmt args single) := by
  have hclear : Steps (Within env p)
      (setArea p fun _ => ⟨[], []⟩ : FormatM F O σ PUnit) :=
    ((Op.setArea (q := p) _).steps).mono fun _ _ => Local.within
  refine hclear.bind (fun _ _ _ => Within.trans) fun _ => ?_
  have hinto := (Mirrors.formatInto (p := p) (q := p) kind single fmt).steps args hargs
  exact hinto.bind (fun _ _ _ => Within.trans) fun _ => steps_pure Within.refl _

theorem format_applied {kind : Kind} {fmt : List ℕ} {text : List ℕ} (hargs : Tidy env args)
    (houtcomes : s.outcomes = [])
    (hrun : format env kind (.shared kind) fmt args false s = (some text, s'))
    (hquiet : Quiet (.shared kind) s') :
    formatted env kind fmt s.rest s'.outcomes = some text := by
  obtain ⟨_, s1, hclear, hrun⟩ := bind_eq_some hrun
  obtain ⟨⟨text', rest⟩, s2, hinto, hpure⟩ := bind_eq_some hrun
  cases hclear
  cases hpure
  obtain ⟨-, os, hos, hmirror⟩ := (Mirrors.formatInto (p := .shared kind) (q := .own 0) kind
    false fmt).mirrors args hargs _ text rest s' hinto
  have hos : s'.outcomes = os := by
    rw [hos]
    show s.outcomes ++ os = os
    rw [houtcomes, nil_append]
  have hview : view (.shared kind) { s with
      area := update s.area (.shared kind) ⟨[], []⟩ } =
      view (.own 0) { (fresh s.rest : FormatRtx (Val F O) σ) with
        area := update (fresh s.rest : FormatRtx (Val F O) σ).area (.own 0) ⟨[], []⟩ } := by
    simp only [view, update_self, fresh]
  obtain ⟨t', hrun', -⟩ := hmirror hquiet _ [] hview
  rw [append_nil] at hrun'
  have hformat : format (spare env) kind (.own 0) fmt (os.map replay) false (fresh s.rest) =
      (some text, t') :=
    (bind_some rfl).trans ((bind_some hrun').trans rfl)
  unfold formatted
  rw [hos, hformat]

/-! ## Programs -/

theorem Aside.steps_convert (f : σ → Option α × σ) :
    Steps (Aside env) (convert f : FormatM F O σ α) :=
  fun _ => ⟨fun _ h => h, fun _ _ => rfl, rfl, rfl, fun h => h⟩

theorem Aside.steps_failWith (e : Errnum) : Steps (Aside env) (failWith env e : FormatM F O σ α) :=
  fun _ => ⟨fun _ h => h, fun _ _ => rfl, rfl, rfl, fun h => h⟩

theorem formatOwn_steps (kind : Kind) (fmt : List ℕ) (vs : List (Val F O)) (single : Bool) :
    Steps (Aside env) (formatOwn env kind fmt vs single) := by
  intro s
  have hargs : Tidy env (vs.map fun v => (Pure.pure v : FormatM F O σ (Val F O))) := by
    intro x hx
    obtain ⟨v, -, rfl⟩ := mem_map.mp hx
    exact steps_pure Aside.refl v
  have hwithin := format_steps kind (.own s.next) single fmt hargs { s with next := s.next + 1 }
  refine ⟨hwithin.nested, ?_, rfl, rfl, hwithin.log⟩
  intro kind' hk
  exact hwithin.area kind' (by rintro ⟨⟩) hk

theorem formatShared_steps (kind : Kind) (fmt : List ℕ)
    (hargs : Tidy env args) : Steps (Aside env) (formatShared env kind fmt args) := by
  intro s
  let s0 : FormatRtx (Val F O) σ :=
    { s with nested := update s.nested kind false, loose := false, outcomes := [] }
  have hwithin := format_steps kind (.shared kind) false fmt hargs s0
  refine ⟨?_, ?_, rfl, rfl, ?_⟩
  · intro kind' hk
    by_cases hkind : kind' = kind
    · subst hkind
      exact update_self _ _ _
    · have hs0 : s0.nested kind' = true := (update_of_ne hkind _ _).trans hk
      exact (update_of_ne hkind _ _).trans (hwithin.nested kind' hs0)
  · intro kind' hk
    have hmarked : update
        (format env kind (.shared kind) fmt args false s0).2.nested kind true kind' = false := hk
    by_cases hkind : kind' = kind
    · rw [hkind, update_self] at hmarked
      cases hmarked
    · rw [update_of_ne hkind] at hmarked
      refine hwithin.area kind' ?_ hmarked
      rintro ⟨⟩
      exact hkind rfl
  · intro hlog e he
    rcases mem_append.mp he with he | he
    · exact hwithin.log hlog e he
    rw [mem_toList] at he
    obtain ⟨text, htext, rfl⟩ := map_eq_some_iff.mp he
    intro hnested hloose
    have happlied : formatted env kind fmt s0.rest
        (format env kind (.shared kind) fmt args false s0).2.outcomes = some text :=
      format_applied hargs rfl (Prod.ext htext rfl) ⟨hloose, kind, rfl, hnested⟩
    exact happlied

inductive Prog (env : Env F O σ) : {α : Type} → FormatM F O σ α → Prop
  | pure {α : Type} (a : α) : Prog env (Pure.pure a)
  | fail {α : Type} : Prog env (fail : FormatM F O σ α)
  | bind {α β : Type} {c : FormatM F O σ α} {f : α → FormatM F O σ β} (hc : Prog env c)
      (hf : ∀ a, Prog env (f a)) : Prog env (c >>= f)
  | attempt {α : Type} {c : FormatM F O σ α} (hc : Prog env c) : Prog env (attempt c)
  | convert {α : Type} (f : σ → Option α × σ) : Prog env (convert f)
  | formatOwn (kind : Kind) (fmt : List ℕ) (vs : List (Val F O)) (single : Bool) :
      Prog env (formatOwn env kind fmt vs single)
  | runPrintf {out : Option (FormatM F O σ (Val F O))} {head : FormatM F O σ (Val F O)}
      {args : Args F O σ} (hout : ∀ x ∈ out, Prog env x) (hhead : Prog env head)
      (hargs : ∀ x ∈ args, Prog env x) : Prog env (runPrintf env out head args)

theorem destination_steps {out : Option (FormatM F O σ (Val F O))}
    (hout : ∀ x ∈ out, Steps (Aside env) x) : Steps (Aside env) (destination env out) := by
  cases out with
  | none => exact steps_pure Aside.refl _
  | some x =>
    refine (hout x rfl).bind (fun _ _ _ => Aside.trans) fun v => ?_
    refine (Aside.steps_convert _).bind (fun _ _ _ => Aside.trans) fun name => ?_
    split
    · exact Aside.steps_failWith _
    · split
      · exact Aside.steps_failWith _
      · exact steps_pure Aside.refl _

theorem runPrintf_steps {out : Option (FormatM F O σ (Val F O))} {head : FormatM F O σ (Val F O)}
    (hout : ∀ x ∈ out, Steps (Aside env) x) (hhead : Steps (Aside env) head)
    (hargs : Tidy env args) : Steps (Aside env) (runPrintf env out head args) := by
  have hformatted (kind : Kind) (dst fmt : List ℕ) :
      Steps (Aside env) (outputFormatted env kind dst fmt args) :=
    (formatShared_steps kind fmt hargs).bind (fun _ _ _ => Aside.trans) fun _ =>
      Aside.steps_convert _
  refine (destination_steps hout).bind (fun _ _ _ => Aside.trans) fun dst => ?_
  refine hhead.bind (fun _ _ _ => Aside.trans) fun v => ?_
  have hend (written : Bool) : Steps (Aside env) (do
      let flushed ← convert (env.flushio dst)
      pure (written && flushed)) :=
    (Aside.steps_convert _).bind (fun _ _ _ => Aside.trans) fun _ => steps_pure Aside.refl _
  cases v with
  | str fmt => exact (hformatted .wide dst fmt).bind (fun _ _ _ => Aside.trans) hend
  | mbs fmt => exact (hformatted .bytes dst fmt).bind (fun _ _ _ => Aside.trans) hend
  | nil | int l | flt r | other x =>
    exact (Aside.steps_convert _).bind (fun _ _ _ => Aside.trans) hend

theorem Prog.steps {c : FormatM F O σ α} (hc : Prog env c) : Steps (Aside env) c := by
  induction hc with
  | pure a => exact steps_pure Aside.refl a
  | fail => exact steps_fail Aside.refl
  | bind _ _ ihc ihf => exact ihc.bind (fun _ _ _ => Aside.trans) ihf
  | attempt _ ih => exact ih.attempt
  | convert f => exact Aside.steps_convert f
  | formatOwn kind fmt vs single => exact formatOwn_steps kind fmt vs single
  | runPrintf _ _ _ ihout ihhead ihargs => exact runPrintf_steps ihout ihhead ihargs

/-! ## Runs -/

def textOf (s : String) : List ℕ := s.toList.map T

/-- An interpreter that has integers and strings, and keeps what has been written. -/
def plainEnv : Env Unit Unit (List ℕ) where
  room _ := true
  seterr _ s := s
  valtoint v s := (match v with | .int l => some l | _ => some 0, s)
  valtoflt _ s := (some (), s)
  valtostrdup _ v s := (match v with | .str t => some t | .mbs b => some b | _ => some [], s)
  regrow _ _ f := f
  getvalstr v s := (match v with | .str t => some t | .mbs b => some b | _ => some [], s)
  intToChar _ l := l.toNat
  fltToChar _ _ := 0
  fltModifier := T 'j'
  fcat _ _ _ := []
  isPrint _ := true
  rawBytes s := s
  intBits := 64
  writeio _ _ text s := (some true, s ++ text)
  writeioval _ v s := (some true, match v with | .str t => s ++ t | .mbs b => s ++ b | _ => s)
  flushio _ s := (some true, s)

/-- `printf "a%d", 1` -/
def plainPrintf : FormatM Unit Unit (List ℕ) Bool :=
  runPrintf plainEnv none (pure (.str (textOf "a%d"))) [pure (.int 1)]

/-- `function f() { printf "b"; return 1 }` -/
def callF : FormatM Unit Unit (List ℕ) (Val Unit Unit) := do
  let _ ← runPrintf plainEnv none (pure (.str (textOf "b"))) []
  pure (.int 1)

/-- `printf "a%d", f()` -/
def nestedPrintf : FormatM Unit Unit (List ℕ) Bool :=
  runPrintf plainEnv none (pure (.str (textOf "a%d"))) [callF]

theorem plainPrintf_prog : Prog plainEnv plainPrintf := by
  refine Prog.runPrintf (by rintro x ⟨⟩) (Prog.pure _) ?_
  intro x hx
  rw [mem_singleton] at hx
  rw [hx]
  exact Prog.pure _

theorem callF_prog : Prog plainEnv callF :=
  Prog.bind (Prog.runPrintf (by rintro x ⟨⟩) (Prog.pure _) (by rintro x ⟨⟩)) fun _ => Prog.pure _

theorem nestedPrintf_prog : Prog plainEnv nestedPrintf := by
  refine Prog.runPrintf (by rintro x ⟨⟩) (Prog.pure _) ?_
  intro x hx
  rw [mem_singleton] at hx
  rw [hx]
  exact callF_prog

/-- In every run of a program, each text that a `printf` hands on is the format applied to
the values of its arguments, unless another `printf` with the same buffers has begun while
they were evaluated, or an integer has been given a width that is none. -/
theorem printf_applied {c : FormatM F O σ α} (hc : Prog env c) (rest : σ) :
    ∀ e ∈ (c (fresh rest)).2.log, e.nested = false → e.loose = false → Applied env e :=
  (hc.steps (fresh rest)).log (by rintro e ⟨⟩)

theorem printf_applied_plain :
    ∃ e ∈ (plainPrintf (fresh [])).2.log, e.text = textOf "a1" ∧ Applied plainEnv e := by
  have hlog : ∃ e ∈ (plainPrintf (fresh [])).2.log,
      e.text = textOf "a1" ∧ e.nested = false ∧ e.loose = false := by
    decide +kernel
  obtain ⟨e, he, htext, hnested, hloose⟩ := hlog
  exact ⟨e, he, htext, printf_applied plainPrintf_prog [] e he hnested hloose⟩

/-- The nested formatting takes away what the outer one has put out: `b1` is written in the
place of `a1`. -/
theorem not_printf_applied :
    Prog plainEnv nestedPrintf ∧ (nestedPrintf (fresh [])).2.rest = textOf "bb1" ∧
      ∃ e ∈ (nestedPrintf (fresh [])).2.log, e.fmt = textOf "a%d" ∧ e.text = textOf "b1" ∧
        formatted plainEnv e.kind e.fmt e.rest e.outcomes = some (textOf "a1") ∧
        ¬Applied plainEnv e := by
  have happlied : ∃ e ∈ (nestedPrintf (fresh [])).2.log, e.fmt = textOf "a%d" ∧
      e.text = textOf "b1" ∧
      formatted plainEnv e.kind e.fmt e.rest e.outcomes = some (textOf "a1") := by
    decide +kernel
  obtain ⟨e, he, hfmt, htext, hformatted⟩ := happlied
  refine ⟨nestedPrintf_prog, by decide +kernel, e, he, hfmt, htext, hformatted, ?_⟩
  intro hsame
  have htexts : textOf "a1" = textOf "b1" :=
    some.inj (hformatted.symm.trans (hsame.trans (congrArg some htext)))
  exact absurd htexts (by decide)

end Qse.Awk.Format
