import Qse.Awk.Sound

/-!
# Letting go of values

A value that no one refers to is put into a pool or given back, and no other value changes.
-/

open List

namespace Qse.Awk

namespace Rtx

variable {F : Type} {s s' s'' : Rtx F} {a b : Addr} {cell : Cell F} {p : Pool}

def SameBut (P : Addr → Prop) (s s' : Rtx F) : Prop :=
  ∀ b, ¬P b → s'.mem b = s.mem b ∧ (s'.Cached b ↔ s.Cached b)

theorem SameBut.refl (P : Addr → Prop) (s : Rtx F) : SameBut P s s := fun _ _ => ⟨rfl, Iff.rfl⟩

variable {P : Addr → Prop} {v : Vtr}

theorem SameBut.trans (h : SameBut P s s') (h' : SameBut P s' s'') : SameBut P s s'' := by
  intro b hb
  obtain ⟨hmem, hcached⟩ := h b hb
  obtain ⟨hmem', hcached'⟩ := h' b hb
  exact ⟨hmem'.trans hmem, hcached'.trans hcached⟩

theorem SameBut.mono {Q : Addr → Prop} (h : SameBut P s s') (hsub : ∀ b, P b → Q b) :
    SameBut Q s s' := fun b hb => h b fun hp => hb (hsub b hp)

theorem Keeps.sameBut (h : Keeps s s') (hsame : SameBut P s' s'')
    (hP : ∀ b, P b → ¬s.Live (.pointer b)) : Keeps s s'' := by
  intro b hb
  obtain ⟨hlive, hmem⟩ := h b hb
  obtain ⟨hmem', hcached⟩ := hsame b fun hPb => hP b hPb hb
  refine ⟨?_, hmem'.trans hmem⟩
  rwa [Live, used, hmem', hcached]

theorem SameBut.live (h : SameBut P s s') (hb : ¬P b) :
    (s'.Live (.pointer b) ↔ s.Live (.pointer b)) ∧ s'.view (.pointer b) = s.view (.pointer b) := by
  obtain ⟨hmem, hcached⟩ := h b hb
  refine ⟨?_, ?_⟩
  · rw [Live, Live, used, used, hmem, hcached]
  · rw [view, view, hmem]

theorem sameBut_put (s : Rtx F) (a : Addr) (cell : Cell F) : SameBut (· = a) s (s.put a cell) :=
  fun _ hb => ⟨put_mem_of_ne _ _ _ _ hb, Iff.rfl⟩

theorem sameBut_freemem (s : Rtx F) (a : Addr) : SameBut (· = a) s (s.freemem a) :=
  fun _ hb => ⟨freemem_mem_of_ne _ _ _ hb, Iff.rfl⟩

theorem mem_keep (s : Rtx F) (p q : Pool) (a b : Addr) :
    b ∈ (s.keep p a).pool q ↔ (q = p ∧ b = a) ∨ b ∈ s.pool q := by
  by_cases hq : q = p
  · subst hq
    rw [Rtx.keep, setPool_pool_self, mem_cons]
    simp
  · rw [Rtx.keep, setPool_pool_of_ne _ _ _ _ hq]
    simp [hq]

theorem cached_keep (s : Rtx F) (p : Pool) (a b : Addr) :
    (s.keep p a).Cached b ↔ b = a ∨ s.Cached b := by
  constructor
  · rintro ⟨q, hq⟩
    rcases (mem_keep s p q a b).1 hq with ⟨-, rfl⟩ | hb
    · exact .inl rfl
    · exact .inr ⟨q, hb⟩
  · rintro (rfl | ⟨q, hb⟩)
    · exact ⟨p, (mem_keep s p p b b).2 (.inl ⟨rfl, rfl⟩)⟩
    · exact ⟨q, (mem_keep s p q a b).2 (.inr hb)⟩

theorem sameBut_keep (s : Rtx F) (p : Pool) (a : Addr) : SameBut (· = a) s (s.keep p a) :=
  fun b hb => ⟨rfl, (cached_keep s p a b).trans (or_iff_right hb)⟩

theorem Sound.freeCell (h : Sound s) (hmem : s.mem a = some cell) (hstat : cell.stat = false)
    (href : cell.ref = 0) (hcached : ¬s.Cached a) :
    Sound (s.freeCell a cell).1 ∧ SameBut (· = a) s (s.freeCell a cell).1 ∧
      ¬(s.freeCell a cell).1.Live (.pointer a) ∧
      ((∀ pairs, cell.body ≠ .map pairs) → (s.freeCell a cell).2 = []) := by
  have hkeep (p : Pool) (hfits : Fits p cell.body) : Sound (s.keep p a) ∧
      SameBut (· = a) s (s.keep p a) ∧ ¬(s.keep p a).Live (.pointer a) :=
    ⟨h.keep hmem hstat href hfits hcached, sameBut_keep s p a,
      fun hlive => hlive.2 ((cached_keep s p a a).2 (.inl rfl))⟩
  have hfree : Sound (s.freemem a) ∧ SameBut (· = a) s (s.freemem a) ∧
      ¬(s.freemem a).Live (.pointer a) := by
    refine ⟨h.freemem hmem hstat hcached, sameBut_freemem s a, ?_⟩
    rintro ⟨hused, -⟩
    rw [used, freemem_mem_self] at hused
    cases hused
  obtain ⟨ref, stat, nstr, body⟩ := cell
  cases body with
  | raw | nil | mbs text | fn f | rex text code =>
    exact ⟨hfree.1, hfree.2.1, hfree.2.2, fun _ => rfl⟩
  | int i =>
    have hint := hkeep .ifree trivial
    exact ⟨hint.1, hint.2.1, hint.2.2, fun _ => rfl⟩
  | flt f =>
    have hflt := hkeep .rfree trivial
    exact ⟨hflt.1, hflt.2.1, hflt.2.2, fun _ => rfl⟩
  | map pairs => exact ⟨hfree.1, hfree.2.1, hfree.2.2, fun hmap => absurd rfl (hmap pairs)⟩
  | ref id adr =>
    simp only [Rtx.freeCell]
    split
    · have href := hkeep .rcache trivial
      exact ⟨href.1, href.2.1, href.2.2, fun _ => rfl⟩
    · exact ⟨hfree.1, hfree.2.1, hfree.2.2, fun _ => rfl⟩
  | str len block =>
    simp only [Rtx.freeCell]
    split
    · rename_i hclass
      have hroom := h.room a _ hmem hstat
      have hfits : Fits (.scache (intClass len)) (.str len block : Body F) :=
        ⟨len, block, rfl, hroom len block rfl hclass.1⟩
      obtain ⟨-, hsame, hnot⟩ := hkeep (.scache (intClass len)) hfits
      -- the marker is cleared in front of the value's way into the pool
      have hput : Sound (s.put a ⟨ref, stat, 0, .str len block⟩) :=
        h.put hmem hstat hcached hroom
      have hsound := hput.keep (put_mem_self ..) hstat href hfits hcached
      refine ⟨hsound, hsame.trans (sameBut_put _ _ _), ?_, fun _ => rfl⟩
      exact fun hlive => hlive.2 ((cached_keep s _ a a).2 (.inl rfl))
    · exact ⟨hfree.1, hfree.2.1, hfree.2.2, fun _ => rfl⟩

theorem Sound.put_ref (h : Sound s) (hmem : s.mem a = some cell) (hstat : cell.stat = false)
    (hcached : ¬s.Cached a) (r : ℕ) :
    Sound (s.put a { cell with ref := r }) ∧ LetsGo s (s.put a { cell with ref := r }) ∧
      Shows s (s.put a { cell with ref := r }) := by
  have hsound : Sound (s.put a { cell with ref := r }) := h.put hmem hstat hcached
    fun len block hbody => h.room a cell hmem hstat len block hbody
  have hboth : ∀ v, ((s.put a { cell with ref := r }).Live v ↔ s.Live v) ∧
      (s.put a { cell with ref := r }).view v = s.view v := by
    rintro (q | b)
    · exact ⟨Iff.rfl, rfl⟩
    · by_cases hba : b = a
      · subst hba
        refine ⟨?_, ?_⟩
        · rw [Live, Live, used, used, put_mem_self, hmem]
          rfl
        · rw [view, view, put_mem_self, hmem]
          rfl
      · exact (sameBut_put s a _).live hba
  exact ⟨hsound, fun v hv => ⟨(hboth v).1.1 hv, (hboth v).2⟩,
    fun v hv => ⟨(hboth v).1.2 hv, (hboth v).2⟩⟩

theorem letsGo_of_sameBut (hsame : SameBut (· = a) s s') (hnot : ¬s'.Live (.pointer a)) :
    LetsGo s s' := by
  rintro (q | b) hv
  · exact ⟨trivial, rfl⟩
  · have hba : b ≠ a := by
      rintro rfl
      exact hnot hv
    exact ⟨(hsame.live hba).1.1 hv, (hsame.live hba).2⟩

theorem Sound.not_cached (h : Sound s) (hmem : s.mem a = some cell) (href : cell.ref ≠ 0) :
    ¬s.Cached a := by
  rintro ⟨p, hp⟩
  obtain ⟨c, hc, -, hzero, -⟩ := h.spare p a hp
  rw [hmem] at hc
  cases hc
  exact href hzero

theorem Sound.refdown_step {n : ℕ} {vs : List Vtr} (h : Sound s)
    (hdown : refdownvals (n + 1) s (v :: vs) = .ok s') :
    ∃ s₁ inner, refdownvals n s₁ (inner ++ vs) = .ok s' ∧ Sound s₁ ∧ LetsGo s s₁ := by
  cases v with
  | quickint q => exact ⟨s, [], hdown, h, .refl s⟩
  | pointer a =>
    cases hmem : s.mem a with
    | none =>
      simp only [Rtx.refdownvals, hmem] at hdown
      cases hdown
    | some cell =>
      simp only [Rtx.refdownvals, hmem] at hdown
      by_cases hstat : cell.stat = true
      · rw [if_pos hstat] at hdown
        exact ⟨s, [], hdown, h, .refl s⟩
      rw [if_neg hstat] at hdown
      by_cases href : cell.ref = 0
      · rw [if_pos href] at hdown
        cases hdown
      rw [if_neg href] at hdown
      have hstat' : cell.stat = false := by simpa using hstat
      have hcached := h.not_cached hmem href
      obtain ⟨hput, hputgo, -⟩ := h.put_ref hmem hstat' hcached (cell.ref - 1)
      by_cases hzero : cell.ref - 1 = 0
      · rw [if_pos hzero] at hdown
        obtain ⟨hfree, hsame, hnot, -⟩ :=
          hput.freeCell (put_mem_self ..) hstat' hzero hcached
        exact ⟨_, _, hdown, hfree, hputgo.trans (letsGo_of_sameBut hsame hnot)⟩
      · rw [if_neg hzero] at hdown
        exact ⟨_, [], hdown, hput, hputgo⟩

theorem Sound.refdownvals {n : ℕ} : ∀ {s : Rtx F} {vs : List Vtr}, Sound s →
    refdownvals n s vs = .ok s' → Sound s' ∧ LetsGo s s' := by
  induction n with
  | zero =>
    intro s vs h hdown
    cases vs with
    | nil =>
      cases hdown
      exact ⟨h, .refl _⟩
    | cons v vs => cases hdown
  | succ n ih =>
    intro s vs h hdown
    cases vs with
    | nil =>
      cases hdown
      exact ⟨h, .refl _⟩
    | cons v vs =>
      obtain ⟨s₁, inner, hrest, hsound₁, hgo₁⟩ := h.refdown_step hdown
      obtain ⟨hsound, hgo⟩ := ih hsound₁ hrest
      exact ⟨hsound, hgo₁.trans hgo⟩

/-! ## Values of one reference -/

/-- The value is referred to once, from a place that is left, and is no map. -/
def Owned (s : Rtx F) (b : Addr) : Prop :=
  s.Live (.pointer b) ∧ ∃ body, s.mem b = some ⟨1, false, 0, body⟩ ∧ ∀ pairs, body ≠ .map pairs

def Held (s : Rtx F) : Vtr → Prop
  | .quickint _ => True
  | .pointer b => b = valZls ∨ Owned s b

def Distinct (v w : Vtr) : Prop := ∀ b, v = .pointer b → w = .pointer b → b = valZls

instance : Std.Symm Distinct := ⟨fun _ _ h b hw hv => h b hv hw⟩

instance {α : Type} : Std.Symm fun p q : α × Vtr => Distinct p.2 q.2 :=
  ⟨fun _ _ h => Std.Symm.symm _ _ h⟩

theorem SameBut.owned (h : SameBut (· = a) s s') (hba : b ≠ a) (hb : Owned s b) : Owned s' b := by
  obtain ⟨hlive, body, hmem, hmap⟩ := hb
  exact ⟨(h.live hba).1.2 hlive, body, (h b hba).1.trans hmem, hmap⟩

theorem SameBut.held (h : SameBut (· = a) s s') (hv : v = .pointer a → a = valZls)
    (hheld : Held s v) : Held s' v := by
  cases v with
  | quickint q => trivial
  | pointer b =>
    by_cases hzls : b = valZls
    · exact .inl hzls
    · have hba : b ≠ a := by
        rintro rfl
        exact hzls (hv rfl)
      exact .inr (h.owned hba (hheld.resolve_left hzls))

theorem Sound.refdown_owned (h : Sound s) (n : ℕ) (vs : List Vtr) (hb : Owned s b) :
    ∃ s₁, Rtx.refdownvals (n + 1) s (.pointer b :: vs) = Rtx.refdownvals n s₁ vs ∧ Sound s₁ ∧
      SameBut (· = b) s s₁ := by
  obtain ⟨hlive, body, hmem, hmap⟩ := hb
  obtain ⟨hput, -, -⟩ := h.put_ref hmem rfl hlive.2 0
  obtain ⟨hfree, hsame, -, hinner⟩ := hput.freeCell (put_mem_self ..) rfl rfl hlive.2
  refine ⟨_, ?_, hfree, (sameBut_put s b _).trans hsame⟩
  simp only [Rtx.refdownvals, hmem, Bool.false_eq_true, if_false, Nat.one_ne_zero, Nat.sub_self,
    if_true, hinner hmap, nil_append]

theorem Sound.refdown_held : ∀ {vs : List Vtr} {s : Rtx F}, Sound s → (∀ v ∈ vs, Held s v) →
    vs.Pairwise Distinct → ∃ s', Rtx.refdownvals vs.length s vs = .ok s' ∧ Sound s' ∧
      SameBut (fun b => .pointer b ∈ vs ∧ b ≠ valZls) s s' := by
  intro vs
  induction vs with
  | nil => exact fun h _ _ => ⟨_, rfl, h, .refl _ _⟩
  | cons v vs ih =>
    intro s h hheld hdistinct
    obtain ⟨hv, hvs⟩ := forall_mem_cons.1 hheld
    obtain ⟨hfirst, hrest⟩ := pairwise_cons.1 hdistinct
    have hskip (hv : Rtx.refdownvals (vs.length + 1) s (v :: vs) = Rtx.refdownvals vs.length s vs) :
        ∃ s', Rtx.refdownvals (v :: vs).length s (v :: vs) = .ok s' ∧ Sound s' ∧
          SameBut (fun b => .pointer b ∈ v :: vs ∧ b ≠ valZls) s s' := by
      obtain ⟨s', hdown, hsound, hsame⟩ := ih h hvs hrest
      exact ⟨s', hv.trans hdown, hsound, hsame.mono fun b hb => ⟨.tail _ hb.1, hb.2⟩⟩
    cases v with
    | quickint q => exact hskip rfl
    | pointer b =>
      by_cases hzls : b = valZls
      · refine hskip ?_
        rw [hzls]
        simp only [Rtx.refdownvals, h.zls, if_true]
      · obtain ⟨s₁, hstep, hsound₁, hsame₁⟩ :=
          h.refdown_owned vs.length vs (hv.resolve_left hzls)
        have hheld₁ : ∀ w ∈ vs, Held s₁ w := fun w hw =>
          hsame₁.held (fun hwb => hfirst w hw b rfl hwb) (hvs w hw)
        obtain ⟨s', hdown, hsound, hsame⟩ := ih hsound₁ hheld₁ hrest
        refine ⟨s', hstep.trans hdown, hsound, (hsame₁.mono ?_).trans (hsame.mono ?_)⟩
        · rintro _ rfl
          exact ⟨.head _, hzls⟩
        · exact fun c hc => ⟨.tail _ hc.1, hc.2⟩

def PointsTo (v : Vtr) (b : Addr) : Prop := v = .pointer b ∧ b ≠ valZls

/-- The value is referred to by no one yet and is no map, or needs no reference. -/
def Unheld (s : Rtx F) : Vtr → Prop
  | .quickint _ => True
  | .pointer b => b = valZls ∨
      (s.Live (.pointer b) ∧ ∃ body, s.mem b = some ⟨0, false, 0, body⟩ ∧
        ∀ pairs, body ≠ .map pairs)

theorem Sound.refdown_one (h : Sound s) (hv : Held s v) :
    ∃ s', Rtx.refdownvals 1 s [v] = .ok s' ∧ Sound s' ∧ SameBut (PointsTo v) s s' := by
  have hone : ∀ w ∈ [v], Held s w := by simpa using hv
  obtain ⟨s', hdown, hsound, hsame⟩ := h.refdown_held hone (pairwise_singleton ..)
  exact ⟨s', hdown, hsound, hsame.mono fun b hb => ⟨(mem_singleton.1 hb.1).symm, hb.2⟩⟩

theorem Sound.refup_one (h : Sound s) (hv : Unheld s v) :
    ∃ s', s.refupval v = .ok s' ∧ Sound s' ∧ SameBut (PointsTo v) s s' ∧ Held s' v := by
  cases v with
  | quickint q => exact ⟨s, rfl, h, .refl _ s, trivial⟩
  | pointer b =>
    by_cases hzls : b = valZls
    · refine ⟨s, ?_, h, .refl _ s, .inl hzls⟩
      rw [hzls]
      simp only [refupval, h.zls, if_true]
    · obtain ⟨hlive, body, hmem, hmap⟩ := hv.resolve_left hzls
      obtain ⟨hput, -, hshows⟩ := h.put_ref hmem rfl hlive.2 1
      refine ⟨_, ?_, hput, (sameBut_put s b _).mono ?_, .inr ⟨(hshows _ hlive).1, body,
        put_mem_self .., hmap⟩⟩
      · simp only [refupval, hmem, Bool.false_eq_true, if_false]
      · rintro _ rfl
        exact ⟨rfl, hzls⟩

theorem Sound.freeval_one (h : Sound s) (hv : Unheld s v) :
    ∃ s', s.freeval 0 v = .ok s' ∧ Sound s' ∧ SameBut (PointsTo v) s s' := by
  cases v with
  | quickint q => exact ⟨s, rfl, h, .refl _ s⟩
  | pointer b =>
    by_cases hzls : b = valZls
    · refine ⟨s, ?_, h, .refl _ s⟩
      rw [hzls]
      simp only [freeval, h.zls, if_true]
    · obtain ⟨hlive, body, hmem, hmap⟩ := hv.resolve_left hzls
      obtain ⟨hfree, hsame, -, hinner⟩ := h.freeCell hmem rfl rfl hlive.2
      refine ⟨_, ?_, hfree, hsame.mono ?_⟩
      · simp only [freeval, hmem, Bool.false_eq_true, if_false, hinner hmap]
        rfl
      · rintro _ rfl
        exact ⟨rfl, hzls⟩

end Rtx

end Qse.Awk
