import Qse.Arr.Sequence

/-!
# Making room in an array

When `qse_arr_setcapa` and the loop of `qse_arr_insert` keep the list and leave a block that is not
too large for an object.
-/

open List

namespace Qse.Arr

open StateProgram

variable {ε : Type}

variable {t : Arr ε} {c m a : ℕ}

theorem truncate_returns (h : t.WellFormed) (c : ℕ) :
    Returns (truncate c) t fun _ t' =>
      Became t t' (t.view.take c) ∧ t'.size = min t.size c ∧ t'.capa = t.capa ∧
        (t.size ≤ c → t' = t) := by
  rw [truncate, returns_bind, returns_get, onlyIf]
  refine returns_ite (fun hlt => ?_) fun hge => ?_
  · rw [returns_bind]
    refine (delete_returns h hlt (t.size - c)).mono ?_
    rintro r t' ⟨-, hbecame, hsize, hcapa⟩
    have hmin : min (t.size - c) (t.size - c) = t.size - c := Nat.min_self _
    have hall : c + (t.size - c) = t.size := by omega
    rw [hmin] at hbecame hsize
    rw [deleteList_eq h hlt (Nat.le_refl _) (.inl (by omega)), hall, ← h.view_length,
      drop_length, append_nil] at hbecame
    exact returns_pure.mpr ⟨hbecame, by omega, hcapa, fun hle => absurd hlt (by omega)⟩
  · have hlen := h.view_length
    refine returns_pure.mpr ⟨?_, by omega, rfl, fun _ => rfl⟩
    rw [take_of_length_le (by omega)]
    exact h.became

theorem newBlock_length (env : ArrEnv ε) (old : List (Option (Item ε))) (capa n : ℕ) :
    (newBlock env old capa n).length = capa % 2 ^ 61 := by
  rw [newBlock, length_map, length_range]

theorem setBlock_returns (h : t.WellFormed) (env : ArrEnv ε) {n : ℕ} (hc : c < 2 ^ 60)
    (hfit : t.size ≤ c) (hn : t.size ≤ n) :
    Returns (setBlock (newBlock env t.slot c n) c) t fun _ t' =>
      Became t t' t.view ∧ t'.size = t.size ∧ t'.capa = c := by
  have hblock := h.block
  have hsize := h.size_le
  have hmod : c % 2 ^ 61 = c := Nat.mod_eq_of_lt (by omega)
  refine returns_modify.mpr ⟨⟨⟨hfit, ?_, hc⟩, ?_, ⟨rfl, rfl, rfl, rfl, rfl, rfl, rfl⟩⟩, rfl, rfl⟩
  · change (newBlock env t.slot c n).length = c
    rw [newBlock_length, hmod]
  · apply ext_getElem?
    intro j
    simp only [view, newBlock, hmod, getElem?_take, getElem?_map, getD_eq_getElem?_getD]
    grind

theorem resize_returns (h : t.WellFormed) (env : ArrEnv ε) (hgrant : env.grant c) (hpos : 0 < c)
    (hc : c < 2 ^ 60) (hfit : t.size ≤ c) :
    Returns (resize env c) t fun ok t' =>
      ok = true ∧ Became t t' t.view ∧ t'.size = t.size ∧ t'.capa = c := by
  have hblock := h.block
  have hsize := h.size_le
  rw [resize, returns_bind, returns_get, if_pos hpos, if_pos hgrant]
  refine returns_ite (fun _ => ?_) fun _ => ?_
  · rw [returns_bind]
    refine (setBlock_returns h env hc hfit (by omega)).mono fun _ t' h' => ?_
    exact returns_pure.mpr ⟨rfl, h'⟩
  · refine returns_ite (fun _ => ?_) fun hover => ?_
    · rw [returns_bind]
      refine (setBlock_returns h env hc hfit (by split <;> omega)).mono fun _ t' h' => ?_
      exact returns_pure.mpr ⟨rfl, h'⟩
    · rw [Nat.mod_eq_of_lt (by omega : c < 2 ^ 61)] at hover
      exact absurd (by split <;> omega) hover

theorem resize_zero_returns (h : t.WellFormed) (env : ArrEnv ε) (hempty : t.size = 0) :
    Returns (resize env 0) t fun ok t' =>
      ok = true ∧ Became t t' [] ∧ t'.size = 0 ∧ t'.capa = 0 := by
  have hfree : Returns (onlyIf (0 < t.capa) clear) t fun _ t' =>
      t'.size = 0 ∧ SameStyle t t' := by
    refine returns_ite (fun _ => ?_) fun _ => returns_pure.mpr ⟨hempty, SameStyle.refl t⟩
    rw [clear, returns_bind, returns_get, returns_bind]
    refine (freeRange_returns (by have := h.size_le; have := h.block; omega)).mono ?_
    rintro - _ rfl
    exact returns_setSize.mpr ⟨rfl, ⟨rfl, rfl, rfl, rfl, rfl, rfl, rfl⟩⟩
  rw [resize, returns_bind, returns_get, if_neg (Nat.lt_irrefl 0), returns_bind]
  refine hfree.mono fun _ t1 ⟨hsize, hstyle⟩ => ?_
  rw [returns_bind]
  refine returns_modify.mpr (returns_pure.mpr ⟨rfl, ⟨⟨?_, rfl, Nat.two_pow_pos 60⟩,
    take_nil, ?_⟩, hsize, rfl⟩)
  · exact Nat.le_of_eq hsize
  · exact ⟨hstyle.copier, hstyle.freeer, hstyle.keeper, hstyle.sizer, hstyle.comper,
      hstyle.heapPosOffset, hstyle.posField⟩

/-- `qse_arr_setcapa` succeeds with this capacity. -/
def Granted (t : Arr ε) (env : ArrEnv ε) (c : ℕ) : Prop :=
  c = t.capa ∨ c = 0 ∨ env.grant c = true

theorem setcapa_returns (h : t.WellFormed) (env : ArrEnv ε)
    (hc : 2 ^ 60 ≤ c → env.grant c = false) :
    Returns (setcapa env c) t fun ok t' =>
      Became t t' (t.view.take c) ∧ t'.size = min t.size c ∧
        (ok = true ↔ Granted t env c) ∧ (ok = true → t'.capa = c) ∧
        (ok = false → t'.capa = t.capa ∧ (t.size ≤ c → t' = t)) := by
  have hlen := h.view_length
  have hsize := h.size_le
  rw [setcapa, returns_bind, returns_get]
  refine returns_ite (fun heq => ?_) fun hne => ?_
  · refine returns_pure.mpr ⟨?_, by omega, by simp [Granted, heq], fun _ => heq.symm, by simp⟩
    rw [take_of_length_le (by omega)]
    exact h.became
  · rw [returns_bind]
    refine (truncate_returns h c).mono fun _ t1 ⟨hb1, hsize1, hcapa1, hsame1⟩ => ?_
    by_cases h0 : c = 0
    · subst h0
      refine (resize_zero_returns hb1.wellFormed env (by omega)).mono ?_
      rintro ok t2 ⟨rfl, hb2, hsize2, hcapa2⟩
      refine ⟨⟨hb2.wellFormed, by simpa using hb2.view, hb1.style.trans hb2.style⟩, by omega,
        by simp [Granted], fun _ => hcapa2, by simp⟩
    cases hgrant : env.grant c with
    | true =>
      have hsmall : c < 2 ^ 60 := by
        by_contra hbig
        rw [hc (by omega)] at hgrant
        cases hgrant
      refine (resize_returns hb1.wellFormed env hgrant (by omega) hsmall (by omega)).mono ?_
      rintro ok t2 ⟨rfl, hb2, hsize2, hcapa2⟩
      exact ⟨⟨hb2.wellFormed, hb2.view.trans hb1.view, hb1.style.trans hb2.style⟩, by omega,
        by simp [Granted, hgrant], fun _ => hcapa2, by simp⟩
    | false =>
      rw [resize, returns_bind, returns_get, if_pos (by omega), if_neg (by simp [hgrant])]
      exact returns_pure.mpr ⟨hb1, hsize1, by simp [Granted, hne, h0, hgrant], by simp,
        fun _ => ⟨hcapa1, hsame1⟩⟩

def NoHuge (env : ArrEnv ε) (lo hi : ℕ) : Prop :=
  ∀ c, 2 ^ 60 ≤ c → lo ≤ c → c ≤ hi → env.grant c = false

section

variable (h : t.WellFormed) (env : ArrEnv ε)
include h env

theorem retry_returns (hno : NoHuge env (min a m) a)
    (hfit : t.size ≤ a) (hkeep : t.size ≤ m ∨ ∃ c, t.size ≤ c ∧ c ≤ a ∧ Granted t env c) :
    Returns (retry env m a) t fun ok t' => Became t t' t.view ∧ t'.size = t.size ∧
      (ok = true → min a m ≤ t'.capa) ∧ (ok = false → env.grant (min a m) = false) := by
  have hlen := h.view_length
  induction a with
  | zero =>
    refine (setcapa_returns h env (by simp)).mono ?_
    rintro ok t' ⟨hb, hsize, hok, hcapa, -⟩
    have htrue : ok = true := hok.mpr (.inr (.inl rfl))
    rw [take_of_length_le (by omega)] at hb
    exact ⟨hb, by omega, fun _ => by omega, fun hfalse => by simp [htrue] at hfalse⟩
  | succ a ih =>
    rw [retry, returns_bind]
    refine (setcapa_returns h env fun hbig => hno _ hbig (by omega) (by omega)).mono ?_
    rintro ok t' ⟨hb, hsize, hok, hcapa, hsame⟩
    rw [take_of_length_le (by omega)] at hb
    cases ok with
    | true => exact returns_pure.mpr ⟨hb, by omega, fun _ => by rw [hcapa rfl]; omega, by simp⟩
    | false =>
      have hrefused : ¬Granted t env (a + 1) := fun hg => by simpa using hok.mpr hg
      obtain rfl := (hsame rfl).2 hfit
      rw [if_neg (by simp)]
      refine returns_ite (fun hle => ?_) fun hgt => ?_
      · refine returns_pure.mpr ⟨hb, rfl, by simp, fun _ => ?_⟩
        rw [Nat.min_eq_left hle]
        simpa [Granted] using fun hg => hrefused (.inr (.inr hg))
      · have hmin : min (a + 1) m = min a m := by omega
        rw [hmin] at hno ⊢
        have hkeep' : t'.size ≤ m ∨ ∃ c, t'.size ≤ c ∧ c ≤ a ∧ Granted t' env c := by
          refine hkeep.imp id fun ⟨c, hlo, hhi, hg⟩ => ⟨c, hlo, ?_, hg⟩
          have hne : c ≠ a + 1 := fun heq => hrefused (heq ▸ hg)
          omega
        have hfit' : t'.size ≤ a := by
          rcases hkeep' with hm | ⟨c, hlo, hhi, -⟩ <;> omega
        exact ih (fun c hbig hlo hhi => hno c hbig hlo (by omega)) hfit' hkeep'

theorem retry_small (ha : a < t.size) :
    Returns (retry env m a) t fun ok t' =>
      t'.size ≤ a ∧ (ok = true → t'.capa ≤ t'.size) := by
  have hsmall := h.small
  have hle := h.size_le
  induction a generalizing t with
  | zero =>
    refine (setcapa_returns h env (by simp)).mono ?_
    rintro ok t' ⟨-, hsize, -, hcapa, -⟩
    exact ⟨by omega, fun hok => by have := hcapa hok; omega⟩
  | succ a ih =>
    rw [retry, returns_bind]
    refine (setcapa_returns h env (by omega)).mono ?_
    rintro ok t' ⟨hb, hsize, -, hcapa, -⟩
    cases ok with
    | true => exact returns_pure.mpr ⟨by omega, fun _ => by have := hcapa rfl; omega⟩
    | false =>
      rw [if_neg (by simp)]
      refine returns_ite (fun _ => returns_pure.mpr ⟨by omega, by simp⟩) fun _ => ?_
      have hwf := hb.wellFormed
      refine (ih hwf (by omega) hwf.small hwf.size_le).mono fun ok t'' ⟨h1, h2⟩ => ?_
      exact ⟨by omega, h2⟩

theorem retry_cuts (hno : NoHuge env (min a m) a)
    (hcut : a < t.size ∨ (m < t.size ∧ ∀ c, t.size ≤ c → c ≤ a → ¬Granted t env c)) :
    Returns (retry env m a) t fun ok t' =>
      t'.size < t.size ∧ (ok = true → t'.capa ≤ t'.size) := by
  induction a with
  | zero =>
    have ha : 0 < t.size := by omega
    refine (retry_small h env ha).mono fun ok t' ⟨h1, h2⟩ => ⟨by omega, h2⟩
  | succ a ih =>
    by_cases ha : a + 1 < t.size
    · exact (retry_small h env ha).mono fun ok t' ⟨h1, h2⟩ => ⟨by omega, h2⟩
    obtain ⟨hm, hrefused⟩ := hcut.resolve_left ha
    rw [retry, returns_bind]
    refine (setcapa_returns h env fun hbig => hno _ hbig (by omega) (by omega)).mono ?_
    rintro ok t' ⟨-, -, hok, -, hsame⟩
    cases ok with
    | true => exact absurd (hok.mp rfl) (hrefused _ (by omega) (by omega))
    | false =>
      obtain rfl := (hsame rfl).2 (by omega)
      rw [if_neg (by simp), if_neg (by omega)]
      refine ih (fun c hbig hlo hhi => hno c hbig (by omega) (by omega)) (.inr ⟨hm, ?_⟩)
      exact fun c hlo hhi => hrefused c hlo (by omega)

theorem setcapa_huge (hc : 2 ^ 60 ≤ c) (hgrant : env.grant c = true) :
    Yields (setcapa env c) t fun ok t' => ok = true ∧ t'.capa = c := by
  have hsmall := h.small
  have hle := h.size_le
  have hset : ∀ slot, Returns (do setBlock slot c; pure true) t fun ok t' =>
      ok = true ∧ t'.capa = c := by
    intro slot
    rw [returns_bind]
    exact returns_modify.mpr (returns_pure.mpr ⟨rfl, rfl⟩)
  have htruncate : Yields (truncate c) t fun _ t' => t' = t :=
    ((truncate_returns h c).mono fun _ _ h' => h'.2.2.2 (by omega)).yields
  refine yields_get (yields_ite (fun heq => by omega) fun _ => ?_)
  refine Yields.bind htruncate ?_
  rintro - _ rfl
  refine yields_get ?_
  rw [if_pos (by omega), if_pos hgrant]
  refine yields_ite (fun _ => (hset _).yields) fun _ => ?_
  exact yields_ite (fun _ => (hset _).yields) fun _ => yields_failure

theorem retry_huge (hc : 2 ^ 60 ≤ c) (hlo : min a m ≤ c)
    (hhi : c ≤ a) (hgrant : env.grant c = true) :
    Yields (retry env m a) t fun _ t' => 2 ^ 60 ≤ t'.capa := by
  have hsmall := h.small
  have hle := h.size_le
  induction a with
  | zero => omega
  | succ a ih =>
    cases hg : env.grant (a + 1) with
    | true =>
      refine Yields.bind (setcapa_huge h env (by omega) hg) ?_
      rintro _ t' ⟨rfl, hcapa⟩
      rw [if_pos rfl]
      exact yields_pure (by omega)
    | false =>
      have hne : c ≠ a + 1 := fun heq => by simp [heq, hg] at hgrant
      have hrefused : ¬Granted t env (a + 1) := by
        rintro (heq | heq | heq)
        · omega
        · omega
        · simp [hg] at heq
      refine Yields.bind (setcapa_returns h env fun _ => hg).yields ?_
      rintro ok t' ⟨-, -, hok, -, hsame⟩
      cases ok with
      | true => exact absurd (hok.mp rfl) hrefused
      | false =>
        obtain rfl := (hsame rfl).2 (by omega)
        rw [if_neg (by simp), if_neg (by omega)]
        exact ih (by omega) (by omega)

end

end Qse.Arr
