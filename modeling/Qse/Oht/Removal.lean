import Qse.Oht.Model

/-!
# Deleting an element

A deletion leaves a hole, which moves on as elements are moved into it. Seen from the slot behind
the last one the loop of `qse_oht_delete` runs along a line.
-/

namespace Qse.Oht

open Rotation

variable {δ : Type*} {h : Hashing δ} {t : Oht δ} {d e : δ} {a b s x y n start : ℕ} {rest : Set δ}

/-- The elements but the one in the hole `x` hold `rest` and lie in line from `b` on; those up to
`y` leave out the hole on their way. -/
structure Hollow (h : Hashing δ) (t : Oht δ) (b x y : ℕ) (rest : Set δ) : Prop where
  base : b < t.hard
  hole : x ∈ t.occupied
  hole_le : offset t.hard b x ≤ offset t.hard b y
  here : y < t.hard
  holds : t.data '' (t.occupied.erase x) = rest
  distinct : ∀ s ∈ t.occupied, ∀ s' ∈ t.occupied, s ≠ x → s' ≠ x →
    h.comper (t.data s) (t.data s') = 0 → s = s'
  inLine : ∀ s ∈ t.occupied, s ≠ x → offset t.hard b (natural h t s) ≤ offset t.hard b s
  path : ∀ s ∈ t.occupied, s ≠ x → ∀ w < t.hard,
    offset t.hard b (natural h t s) ≤ offset t.hard b w →
    offset t.hard b w ≤ offset t.hard b s → w ∈ t.occupied
  done : ∀ s ∈ t.occupied, s ≠ x → offset t.hard b s ≤ offset t.hard b y →
    offset t.hard b s < offset t.hard b x ∨ offset t.hard b x < offset t.hard b (natural h t s)
  straight : ∀ s ∈ t.occupied, s ≠ x → t.Straight (h.hasher (t.data s)) (steps h t s s)

def Closed (h : Hashing δ) (t : Oht δ) (b x : ℕ) : Prop :=
  ∀ s ∈ t.occupied, s ≠ x →
    offset t.hard b s < offset t.hard b x ∨ offset t.hard b x < offset t.hard b (natural h t s)

theorem data_store_of_ne {w : ℕ} (hw : w ≠ s) : (t.store s d).data w = t.data w := by
  simp [store, hw]

theorem data_store_self : (t.store s d).data s = d := by
  simp [store]

theorem natural_store_of_ne {w : ℕ} (hw : w ≠ s) : natural h (t.store s d) w = natural h t w := by
  rw [natural, data_store_of_ne hw]
  rfl

theorem natural_store_self : natural h (t.store s d) s = h.hasher d % t.hard := by
  rw [natural, data_store_self]
  rfl

theorem lt_of_mem (hs : s ∈ t.occupied) : s < t.hard := (mem_occupied.mp hs).1

variable {y' : ℕ}

section

variable (ho : Hollow h t b x y rest)
include ho

theorem Hollow.move (hy' : y' ∈ t.occupied) (hnext : offset t.hard b y' = offset t.hard b y + 1)
    (hfills : offset t.hard b (natural h t y') ≤ offset t.hard b x) :
    Hollow h (t.store x (t.data y')) b y' y' rest := by
  have hlt := lt_of_mem hy'
  have hxlt := lt_of_mem ho.hole
  have hzlt : natural h t y' < t.hard := natural_lt hlt
  have hxy := ho.hole_le
  have hyx : y' ≠ x := by
    rintro rfl
    omega
  have hline := ho.inLine y' hy' hyx
  have hpath := ho.path y' hy' hyx
  constructor
  · exact ho.base
  · exact hy'
  · exact le_rfl
  · exact hlt
  · rw [← ho.holds]
    ext e
    constructor
    · rintro ⟨s, hs, rfl⟩
      obtain ⟨hsy, hocc⟩ := Finset.mem_erase.mp hs
      by_cases hsx : s = x
      · subst hsx
        rw [data_store_self]
        exact ⟨y', Finset.mem_erase.mpr ⟨hyx, hy'⟩, rfl⟩
      · rw [data_store_of_ne hsx]
        exact ⟨s, Finset.mem_erase.mpr ⟨hsx, hocc⟩, rfl⟩
    · rintro ⟨s, hs, rfl⟩
      obtain ⟨hsx, hocc⟩ := Finset.mem_erase.mp hs
      by_cases hsy : s = y'
      · subst hsy
        exact ⟨x, Finset.mem_erase.mpr ⟨hyx.symm, ho.hole⟩, data_store_self⟩
      · exact ⟨s, Finset.mem_erase.mpr ⟨hsy, hocc⟩, data_store_of_ne hsx⟩
  · intro s hs s' hs' hsy hsy' heq
    by_cases hsx : s = x <;> by_cases hsx' : s' = x
    · rw [hsx, hsx']
    · rw [hsx, data_store_self, data_store_of_ne hsx'] at heq
      exact absurd (ho.distinct y' hy' s' hs' hyx hsx' heq).symm hsy'
    · rw [hsx', data_store_self, data_store_of_ne hsx] at heq
      exact absurd (ho.distinct s hs y' hy' hsx hyx heq) hsy
    · rw [data_store_of_ne hsx, data_store_of_ne hsx'] at heq
      exact ho.distinct s hs s' hs' hsx hsx' heq
  · intro s hs hsy
    by_cases hsx : s = x
    · subst hsx
      rw [natural_store_self]
      exact hfills
    · rw [natural_store_of_ne hsx]
      exact ho.inLine s hs hsx
  · intro s hs hsy w hw hfrom hto
    by_cases hsx : s = x
    · subst hsx
      rw [natural_store_self] at hfrom
      change offset t.hard b w ≤ offset t.hard b s at hto
      exact hpath w hw hfrom (by omega)
    · rw [natural_store_of_ne hsx] at hfrom
      exact ho.path s hs hsx w hw hfrom hto
  · intro s hs hsy hle
    refine .inl (lt_of_le_of_ne hle fun heq => ?_)
    exact hsy (offset_inj ho.base (lt_of_mem hs) hlt heq)
  · intro s hs hsy
    by_cases hsx : s = x
    · subst hsx
      rw [steps, natural_store_self, data_store_self]
      apply (ho.straight y' hy' hyx).mono
      apply (offset_le_iff ho.base hzlt hlt hxlt hline).mpr
      exact ⟨hfills, by omega⟩
    · rw [steps, natural_store_of_ne hsx, data_store_of_ne hsx]
      exact ho.straight s hs hsx

theorem Hollow.stay (hy' : y' < t.hard) (hnext : offset t.hard b y' = offset t.hard b y + 1)
    (hbehind : offset t.hard b x < offset t.hard b (natural h t y')) :
    Hollow h t b x y' rest where
  base := ho.base
  hole := ho.hole
  hole_le := by
    have hxy := ho.hole_le
    omega
  here := hy'
  holds := ho.holds
  distinct := ho.distinct
  inLine := ho.inLine
  path := ho.path
  done := by
    intro s hs hsx hle
    by_cases hsy : s = y'
    · rw [hsy]
      exact .inr hbehind
    · have hne : offset t.hard b s ≠ offset t.hard b y' := by
        intro heq
        exact hsy (offset_inj ho.base (lt_of_mem hs) hy' heq)
      exact ho.done s hs hsx (by omega)
  straight := ho.straight

theorem Hollow.closed_of_empty (hy' : y' < t.hard)
    (hempty : y' ∉ t.occupied) (hnext : offset t.hard b y' = offset t.hard b y + 1) :
    Closed h t b x := by
  intro s hs hsx
  rcases lt_or_ge (offset t.hard b y) (offset t.hard b s) with hlt | hle
  · refine .inr ?_
    by_contra hback
    have hxy := ho.hole_le
    exact hempty (ho.path s hs hsx y' hy' (by omega) (by omega))
  · exact ho.done s hs hsx hle

theorem Hollow.closed_of_end
    (hend : ¬offset t.hard b y + 1 < t.hard) : Closed h t b x := by
  intro s hs hsx
  have hlt := offset_lt ho.base (lt_of_mem hs)
  exact ho.done s hs hsx (by omega)

theorem compact_around (hy' : y' < t.hard)
    (hn : offset t.hard b y' + 1 = t.hard ∧ n ≤ offset t.hard b x + 1 ∨
      offset t.hard b y' + n ≤ offset t.hard b x) :
    compact h n t x y' = (t, x) := by
  have hpos : 0 < t.hard := Nat.zero_lt_of_lt hy'
  have hxlt := lt_of_mem ho.hole
  have hxoff := offset_lt ho.base hxlt
  induction n generalizing y' with
  | zero => rfl
  | succ n ih =>
    have hnext := offset_succ ho.base hy'
    have hlt : (y' + 1) % t.hard < t.hard := Nat.mod_lt _ hpos
    rw [compact]
    generalize (y' + 1) % t.hard = y'' at hnext hlt
    have hback : offset t.hard b y'' + n ≤ offset t.hard b x := by
      split at hnext <;> omega
    split
    · rfl
    rename_i hmark
    have hocc : y'' ∈ t.occupied :=
      mem_occupied.mpr ⟨hlt, (mark_eq_empty_or t y'').resolve_left hmark⟩
    have hstay : ¬Fills x y'' (h.hasher (t.data y'') % t.hard) := by
      by_cases hyx : y'' = x
      · subst hyx
        rw [Fills]
        omega
      · exact not_passes ho.base hxlt hlt (natural_lt hlt) (by omega) (ho.inLine y'' hocc hyx)
    rw [if_neg hstay]
    exact ih hlt (.inr hback)

/-- The loop ends with every element leaving out the hole. -/
theorem compact_closed (hstart : start < t.hard)
    (hcard : t.occupied.card = t.size) (hle : offset t.hard b start ≤ offset t.hard b x)
    (hrow : ∀ w < t.hard, offset t.hard b start ≤ offset t.hard b w →
      offset t.hard b w ≤ offset t.hard b y → w ∈ t.occupied)
    (hn : offset t.hard b y + n = offset t.hard b start + t.size) :
    ∃ t' x' y', compact h n t x y = (t', x') ∧ Hollow h t' b x' y' rest ∧ Closed h t' b x' ∧
      t'.hard = t.hard ∧ t'.soft = t.soft ∧ t'.size = t.size ∧ t'.mark = t.mark := by
  have hpos : 0 < t.hard := Nat.zero_lt_of_lt hstart
  have hsoff := offset_lt ho.base hstart
  have hyoff := offset_lt ho.base ho.here
  induction n generalizing t x y with
  | zero =>
    -- so many slots in a row cannot all be occupied
    exfalso
    have hmany : t.size + 1 ≤ t.occupied.card := by
      apply le_card_of_places hstart (by omega)
      intro i hi
      have hoff := offset_place_add (k := i) ho.base hstart (by omega)
      exact hrow _ (place_lt hstart (by omega)) (by omega) (by omega)
    omega
  | succ n ih =>
    have hnext := offset_succ ho.base ho.here
    have hlt : (y + 1) % t.hard < t.hard := Nat.mod_lt _ hpos
    by_cases hend : offset t.hard b y + 1 < t.hard
    · rw [if_pos hend] at hnext
      rw [compact]
      generalize (y + 1) % t.hard = y' at hnext hlt
      split
      · rename_i hmark
        have hempty : y' ∉ t.occupied := by
          intro hocc
          rw [(mem_occupied.mp hocc).2] at hmark
          cases hmark
        exact ⟨t, x, y, rfl, ho, ho.closed_of_empty hlt hempty hnext, rfl, rfl, rfl, rfl⟩
      rename_i hmark
      have hocc : y' ∈ t.occupied :=
        mem_occupied.mpr ⟨hlt, (mark_eq_empty_or t y').resolve_left hmark⟩
      have hrow' : ∀ w < t.hard, offset t.hard b start ≤ offset t.hard b w →
          offset t.hard b w ≤ offset t.hard b y' → w ∈ t.occupied := by
        intro w hw hfrom hto
        by_cases hwy : w = y'
        · exact hwy ▸ hocc
        · have hne : offset t.hard b w ≠ offset t.hard b y' := by
            intro heq
            exact hwy (offset_inj ho.base hw hlt heq)
          exact hrow w hw hfrom (by omega)
      have hxy := ho.hole_le
      have hyx : y' ≠ x := by
        rintro rfl
        omega
      have hfills := passes_iff ho.base (lt_of_mem ho.hole) hlt (natural_lt hlt) (by omega)
        (ho.inLine y' hocc hyx)
      split
      · rename_i hmove
        have hmoved := ho.move hocc hnext (hfills.mp hmove)
        have hle' : offset t.hard b start ≤ offset t.hard b y' := by omega
        have hn' : offset t.hard b y' + n = offset t.hard b start + t.size := by omega
        exact ih hmoved hstart hcard hle' hrow' hn' hpos hsoff (offset_lt ho.base hlt)
      · rename_i hstay
        have hbehind := Nat.lt_of_not_le (fun hle => hstay (hfills.mpr hle))
        exact ih (ho.stay hlt hnext hbehind) hstart hcard hle hrow' (by omega) hpos hsoff
          (offset_lt ho.base hlt)
    · have hsize : t.size ≤ t.hard := by
        rw [← hcard, ← Finset.card_range t.hard]
        exact Finset.card_filter_le _ _
      have haround := compact_around (n := n + 1) ho ho.here (.inl ⟨by omega, by omega⟩)
      exact ⟨t, x, y, haround, ho, ho.closed_of_end hend, rfl, rfl, rfl, rfl⟩

theorem Hollow.close (hclosed : Closed h t b x)
    (hcard : t.occupied.card = t.size) (hlimit : t.size ≤ t.soft) (hroom : t.soft ≤ t.hard) :
    let t' : Oht δ :=
      { t with mark := Function.update t.mark x .empty, size := t.size - 1 }
    Probed h t' ∧ t'.contents = rest := by
  intro t'
  have hocc : t'.occupied = t.occupied.erase x := by
    ext w
    rw [Finset.mem_erase, mem_occupied, mem_occupied]
    by_cases hw : w = x
    · subst hw
      simp [t']
    · simp [t', hw]
  have hpath {s w : ℕ} (hs : s ∈ t.occupied.erase x) (hw : w < t.hard)
      (hle : steps h t s w ≤ steps h t s s) : w ∈ t.occupied.erase x := by
    obtain ⟨hsx, hin⟩ := Finset.mem_erase.mp hs
    have hslt := lt_of_mem hin
    obtain ⟨hfrom, hto⟩ :=
      (offset_le_iff ho.base (natural_lt hslt) hslt hw (ho.inLine s hin hsx)).mp hle
    refine Finset.mem_erase.mpr ⟨?_, ho.path s hin hsx w hw hfrom hto⟩
    rintro rfl
    rcases hclosed s hin hsx with hlt | hlt <;> omega
  constructor
  · constructor
    · exact (Nat.sub_le _ _).trans hlimit
    · exact hroom
    · rw [hocc, Finset.card_erase_of_mem ho.hole, hcard]
    · intro s hs s' hs' heq
      rw [hocc] at hs hs'
      obtain ⟨hsx, hs⟩ := Finset.mem_erase.mp hs
      obtain ⟨hsx', hs'⟩ := Finset.mem_erase.mp hs'
      exact ho.distinct s hs s' hs' hsx hsx' heq
    · intro s hs w hw hle
      rw [hocc] at hs ⊢
      exact hpath hs hw hle
    · intro _
      have hxlt : x < t.hard := lt_of_mem ho.hole
      refine ⟨x, hxlt, fun s hs _ hle => ?_⟩
      rw [hocc] at hs
      exact (Finset.mem_erase.mp (hpath hs hxlt hle)).1 rfl
    · intro s hs
      rw [hocc] at hs
      obtain ⟨hsx, hs⟩ := Finset.mem_erase.mp hs
      exact ho.straight s hs hsx
  · rw [contents, hocc]
    exact ho.holds

end

theorem Probed.hollow (hp : Probed h t) (hx : x ∈ t.occupied) :
    ∃ b, Hollow h t b x x (t.data '' (t.occupied.erase x)) := by
  have hxlt := lt_of_mem hx
  have hpos : 0 < t.hard := Nat.zero_lt_of_lt hxlt
  obtain ⟨a, ha, hlast⟩ := hp.last hpos
  have hbase : (a + 1) % t.hard < t.hard := Nat.mod_lt _ hpos
  have hline : ∀ s ∈ t.occupied, s ≠ x →
      offset t.hard ((a + 1) % t.hard) (natural h t s) ≤ offset t.hard ((a + 1) % t.hard) s :=
    fun s hs _ => offset_le_of_last ha (natural_lt (lt_of_mem hs)) (hlast s hs)
  refine ⟨(a + 1) % t.hard, hbase, hx, le_rfl, hxlt, rfl, ?_, hline, ?_, ?_, ?_⟩
  · intro s hs s' hs' _ _
    exact hp.distinct s hs s' hs'
  · intro s hs hsx w hw hfrom hto
    have hslt := lt_of_mem hs
    apply hp.path s hs w hw
    exact (offset_le_iff hbase (natural_lt hslt) hslt hw (hline s hs hsx)).mpr ⟨hfrom, hto⟩
  · intro s hs hsx hle
    refine .inl (lt_of_le_of_ne hle fun heq => ?_)
    exact hsx (offset_inj hbase (lt_of_mem hs) hxlt heq)
  · intro s hs _
    exact hp.straight s hs

theorem Probed.image_erase (hp : Probed h t) (hs : s ∈ t.occupied)
    (heq : h.comper d (t.data s) = 0) :
    t.data '' (t.occupied.erase s) = {e ∈ t.contents | h.comper d e ≠ 0} := by
  ext e
  constructor
  · rintro ⟨w, hw, rfl⟩
    obtain ⟨hws, hw⟩ := Finset.mem_erase.mp hw
    refine ⟨⟨w, hw, rfl⟩, fun heq' => hws ?_⟩
    exact hp.distinct w hw s hs (h.comper_trans (h.comper_symm heq') heq)
  · rintro ⟨⟨w, hw, rfl⟩, hne⟩
    refine ⟨w, Finset.mem_erase.mpr ⟨?_, hw⟩, rfl⟩
    rintro rfl
    exact hne heq

theorem Probed.delete (hp : Probed h t) (d : δ) :
    Probed h (delete h t d).2 ∧ (delete h t d).2.contents = {e ∈ t.contents | h.comper d e ≠ 0} ∧
      (delete h t d).2.hard = t.hard ∧ (delete h t d).2.soft = t.soft ∧
      ((delete h t d).1.isSome = true ↔ ∃ e ∈ t.contents, h.comper d e = 0) := by
  rw [← hp.search_isSome_iff]
  have hkept (hnone : search h t d (h.hasher d) = none) :
      t.contents = {e ∈ t.contents | h.comper d e ≠ 0} := by
    ext e
    refine ⟨fun he => ⟨he, ?_⟩, fun he => he.1⟩
    obtain ⟨s, hs, rfl⟩ := he
    exact hp.search_none hnone hs
  cases hfound : search h t d (h.hasher d) with
  | none =>
    have hsame : Oht.delete h t d = (none, t) := by
      rw [Oht.delete, hfound]
      exact ite_self _
    rw [hsame]
    exact ⟨hp, hkept hfound, rfl, rfl, Iff.rfl⟩
  | some s =>
    obtain ⟨hs, heq⟩ := search_some hfound
    have hsize : t.size ≠ 0 := by
      rw [← hp.count]
      exact Finset.card_ne_zero_of_mem hs
    obtain ⟨b, hhollow⟩ := hp.hollow hs
    have hslt := lt_of_mem hs
    obtain ⟨t', x, y, hrun, ho, hclosed, hhard, hsoft, hsz, hmark⟩ :=
      compact_closed (n := t.size) hhollow hslt hp.count le_rfl
        (fun w hw hfrom hto => by
          rwa [offset_inj hhollow.base hw hslt (le_antisymm hto hfrom)]) rfl
    have hcard : t'.occupied.card = t'.size := by
      rw [hsz, ← hp.count, occupied, occupied, hmark, hhard]
    have hlimit : t'.size ≤ t'.soft := by
      rw [hsz, hsoft]
      exact hp.limit
    have hroom : t'.soft ≤ t'.hard := by
      rw [hsoft, hhard]
      exact hp.room
    obtain ⟨hprobed, hcontents⟩ := ho.close hclosed hcard hlimit hroom
    have hresult : Oht.delete h t d =
        (some s, { t' with mark := Function.update t'.mark x .empty, size := t'.size - 1 }) := by
      rw [Oht.delete, if_neg hsize, hfound]
      simp only [hrun]
    rw [hresult]
    exact ⟨hprobed, hcontents.trans (hp.image_erase hs heq), hhard, hsoft, Iff.rfl⟩

end Qse.Oht
