import Qse.Arr.Resize

/-!
# The sequence operations refine a list with holes

For each operation the exact inputs on which `lib/cmn/arr.c` does to the block
what the operation means for the list.
-/

open Option

namespace Qse.Arr

open StateProgram

variable {ε : Type}

/-- A capacity can be found that keeps the list. Without a sizer the capacity is
doubled once, so the position must lie below twice the capacity; with a sizer
its answers must not send the retries below the size. -/
def CapacityOk (t : Arr ε) (env : ArrEnv ε) (pos : ℕ) : Prop :=
  if t.sizer then
    t.size ≤ env.sized ∧
      (t.size ≤ t.mincapa pos ∨ ∃ c, t.size ≤ c ∧ c ≤ env.sized ∧ Granted t env c) ∧
      NoHuge env (min env.sized (t.mincapa pos)) env.sized
  else if t.capa = 0 then NoHuge env ((pos + 1) % 2 ^ 64) ((pos + 1) % 2 ^ 64)
  else pos < t.capa * 2 ∧ NoHuge env (t.mincapa pos) (t.capa * 2)

def WantedOk (t : Arr ε) (env : ArrEnv ε) (pos a : ℕ) : Prop :=
  t.size ≤ a ∧ (t.size ≤ t.mincapa pos ∨ ∃ c, t.size ≤ c ∧ c ≤ a ∧ Granted t env c) ∧
    NoHuge env (min a (t.mincapa pos)) a

variable {t : Arr ε} {pos i : ℕ} {env : ArrEnv ε}

theorem capacityOk_iff (h : t.WellFormed) (env : ArrEnv ε) (pos : ℕ) :
    t.CapacityOk env pos ↔ ∃ a, t.wantedCapa env pos = some a ∧ t.WantedOk env pos a := by
  have hsize := h.size_le
  have hsmall := h.small
  rw [CapacityOk, wantedCapa]
  split
  · simp [WantedOk]
  split
  · rename_i h0
    have hempty : t.size = 0 := by omega
    have hmin : t.mincapa pos = (pos + 1) % 2 ^ 64 := by rw [mincapa, if_pos (by omega)]
    simp only [WantedOk, some.injEq, exists_eq_left', hempty, Nat.zero_le, true_or,
      true_and, hmin, NoHuge]
    refine forall_congr' fun c => forall_congr' fun hc => ?_
    split
    · rename_i hpos
      refine ⟨fun _ _ _ => by omega, fun _ _ _ => by omega⟩
    · rw [Nat.min_self]
  rename_i h0
  dsimp only
  have hbound : t.capa * 2 ≤ (if t.size ≤ pos then pos else t.size) ↔ t.capa * 2 ≤ pos := by
    split <;> omega
  simp only [hbound]
  split
  · rename_i hfar
    simp only [reduceCtorEq, false_and, exists_const, iff_false, not_and]
    omega
  rename_i hnear
  have hmin : min (t.capa * 2) (t.mincapa pos) = t.mincapa pos := by
    rw [mincapa]
    split <;> omega
  have hkeep : t.size ≤ t.mincapa pos := by
    rw [mincapa]
    split
    · rename_i hpos
      rw [Nat.mod_eq_of_lt (by omega)]
      omega
    · omega
  simp only [WantedOk, some.injEq, exists_eq_left', hmin, hkeep, true_or, true_and]
  constructor
  · rintro ⟨-, hno⟩
    exact ⟨by omega, hno⟩
  · rintro ⟨-, hno⟩
    exact ⟨by omega, hno⟩

def NoRoom (t : Arr ε) (env : ArrEnv ε) (pos : ℕ) : Prop :=
  t.Full pos ∧ (arrNil ≤ pos ∨ (t.sizer = true ∧ env.sized < t.mincapa pos) ∨
    env.grant (t.mincapa pos) = false)

/-- What `qse_arr_insert` does to the list: the new item is inserted, or no slot
or no room is granted and nothing changes. -/
def Inserted (t : Arr ε) (env : ArrEnv ε) (pos : ℕ) (d : Item ε) (r : ℕ)
    (l : List (Option (Item ε))) : Prop :=
  (r = pos ∧ ∃ slot, t.allocSlot env d = some slot ∧ l = insertList t.view pos (some slot)) ∨
    (r = arrNil ∧ l = t.view ∧ (t.allocSlot env d = none ∨ t.NoRoom env pos))

/-- The inputs on which `qse_arr_insert` works. -/
def InsertOk (t : Arr ε) (env : ArrEnv ε) (pos : ℕ) (d : Item ε) : Prop :=
  t.allocSlot env d = none ∨ ¬t.Full pos ∨ t.CapacityOk env pos

theorem not_full_of_mincapa_le {t' : Arr ε} (hsize : t'.size = t.size) (hpos : pos < arrNil)
    (h : t.mincapa pos ≤ t'.capa) : ¬t'.Full pos := by
  rw [arrNil] at hpos
  rw [mincapa] at h
  rw [Full]
  split at h
  · rw [Nat.mod_eq_of_lt (by omega)] at h
    omega
  · omega

theorem mincapa_le_of_wantedCapa (h : t.WellFormed) (env : ArrEnv ε) (a : ℕ)
    (hsizer : ¬t.sizer = true) (ha : t.wantedCapa env pos = some a) :
    t.mincapa pos ≤ a := by
  have hsize := h.size_le
  rw [wantedCapa, if_neg hsizer] at ha
  rw [mincapa]
  split at ha
  · cases ha
    split <;> split <;> omega
  by_cases hbound : t.capa * 2 ≤ if t.size ≤ pos then pos else t.size
  · rw [if_pos hbound] at ha
    cases ha
  · rw [if_neg hbound] at ha
    cases ha
    split at hbound <;> split <;> omega

theorem makeRoom_returns (h : t.WellFormed) (hok : ¬t.Full pos ∨ t.CapacityOk env pos) :
    Returns (makeRoom env pos) t fun ok t' => Became t t' t.view ∧ t'.size = t.size ∧
      (¬(ok = true ∧ ¬t'.Full pos) → t.NoRoom env pos) := by
  rw [makeRoom, returns_bind, returns_get]
  refine returns_ite (fun hfull => ?_) fun hroom => ?_
  · obtain ⟨a, ha, hfit, hkeep, hno⟩ :=
      (capacityOk_iff h env pos).mp (hok.resolve_left (not_not.mpr hfull))
    rw [ha]
    refine (retry_returns h env hno hfit hkeep).mono ?_
    rintro ok t' ⟨hb, hsize, hcapa, hrefused⟩
    refine ⟨hb, hsize, fun hnot => ⟨hfull, ?_⟩⟩
    by_cases hnil : arrNil ≤ pos
    · exact .inl hnil
    by_cases hlow : a < t.mincapa pos
    · refine .inr (.inl ⟨?_, ?_⟩)
      · by_contra hsizer
        exact absurd (mincapa_le_of_wantedCapa h _ _ hsizer ha) (by omega)
      · rw [wantedCapa] at ha
        split at ha
        · cases ha
          exact hlow
        · rename_i hsizer
          have hle := mincapa_le_of_wantedCapa h env a hsizer
            (by rw [wantedCapa, if_neg hsizer, ha])
          omega
    · have hmin : min a (t.mincapa pos) = t.mincapa pos := Nat.min_eq_right (by omega)
      rw [hmin] at hcapa hrefused
      cases ok with
      | false => exact .inr (.inr (hrefused rfl))
      | true =>
        have hroom := not_full_of_mincapa_le hsize (by omega) (hcapa rfl)
        exact absurd ⟨rfl, hroom⟩ hnot
  · exact returns_pure.mpr ⟨h.became, rfl, fun hnot => absurd ⟨rfl, hroom⟩ hnot⟩

theorem insert_returns (h : t.WellFormed) {d : Item ε} (hok : t.InsertOk env pos d) :
    Returns (insert env pos d) t fun r t' =>
      ∃ l, Became t t' l ∧ t.Inserted env pos d r l := by
  rw [insert, returns_bind, returns_get]
  cases halloc : t.allocSlot env d with
  | none => exact returns_pure.mpr ⟨_, h.became, .inr ⟨rfl, rfl, .inl halloc⟩⟩
  | some slot =>
    have hroom : ¬t.Full pos ∨ t.CapacityOk env pos :=
      hok.resolve_left (by simp [halloc])
    dsimp only
    rw [returns_bind]
    refine (makeRoom_returns h hroom).mono ?_
    rintro ok t1 ⟨hb, hsize, hnone⟩
    rw [returns_bind, returns_get]
    refine returns_ite (fun ⟨_, hfree⟩ => ?_) fun hnot => ?_
    · refine (linkSlot_returns hb.wellFormed hfree slot).mono ?_
      rintro r t2 ⟨rfl, hb2, -⟩
      rw [hb.view] at hb2
      exact ⟨_, ⟨hb2.wellFormed, hb2.view, hb.style.trans hb2.style⟩, .inl ⟨rfl, slot, halloc, rfl⟩⟩
    · rw [returns_bind, returns_freeSlot]
      refine returns_pure.mpr ⟨t.view, ⟨⟨hb.wellFormed.size_le, hb.wellFormed.block,
        hb.wellFormed.small⟩, hb.view, ?_⟩, .inr ⟨rfl, rfl, .inr (hnone hnot)⟩⟩
      exact hb.style.trans ⟨rfl, rfl, rfl, rfl, rfl, rfl, rfl⟩

theorem yields_store {c : Option (Item ε)} : Yields (store i c) t fun _ t' => t'.capa = t.capa := by
  refine yields_get (yields_ite (fun _ => ?_) fun _ => yields_failure)
  rintro _ t' ⟨⟩
  rfl

theorem yields_load : Yields (load i) t fun _ t' => t'.capa = t.capa :=
  yields_get (yields_ite (fun _ => yields_pure rfl) fun _ => yields_failure)

theorem yields_fillGap {n : ℕ} : Yields (fillGap n i) t fun _ t' => t'.capa = t.capa := by
  induction n generalizing t i with
  | zero => exact yields_pure rfl
  | succ n ih =>
    refine Yields.bind yields_store fun _ t1 h1 => ?_
    rw [← h1]
    exact ih

theorem yields_shiftUp {n : ℕ} : Yields (shiftUp pos n) t fun _ t' => t'.capa = t.capa := by
  induction n generalizing t with
  | zero => exact yields_pure rfl
  | succ n ih =>
    refine Yields.bind yields_load fun c t1 h1 => Yields.bind yields_store fun _ t2 h2 => ?_
    rw [← h1, ← h2]
    exact ih

theorem yields_linkSlot {c : Item ε} : Yields (linkSlot pos c) t fun _ t' => t'.capa = t.capa := by
  refine yields_get (Yields.bind yields_fillGap fun _ t1 h1 => ?_)
  refine Yields.bind yields_shiftUp fun _ t2 h2 => ?_
  refine Yields.bind yields_store fun _ t3 h3 => ?_
  refine Yields.bind (R := fun _ t4 => t4.capa = t3.capa)
    (returns_setSize.mpr rfl).yields fun _ t4 h4 => ?_
  exact yields_pure (h4.trans (h3.trans (h2.trans h1)))

theorem yields_makeRoom (h : t.WellFormed) (hfull : t.Full pos) (hbad : ¬t.CapacityOk env pos) :
    Yields (makeRoom env pos) t fun ok t' =>
      2 ^ 60 ≤ t'.capa ∨ (t'.size < t.size ∧ (ok = true → t'.capa ≤ t'.size)) := by
  refine yields_get ?_
  rw [if_pos hfull]
  cases ha : t.wantedCapa env pos with
  | none => exact yields_failure
  | some a =>
    have hwanted : ¬t.WantedOk env pos a :=
      fun hok => hbad ((capacityOk_iff h env pos).mpr ⟨a, ha, hok⟩)
    by_cases hno : NoHuge env (min a (t.mincapa pos)) a
    · have hcut : a < t.size ∨
          (t.mincapa pos < t.size ∧ ∀ c, t.size ≤ c → c ≤ a → ¬Granted t env c) := by
        by_contra hcut
        simp only [not_or, Nat.not_lt, not_and, not_forall, not_not] at hcut
        obtain ⟨hfit, hkeep⟩ := hcut
        refine hwanted ⟨hfit, ?_, hno⟩
        by_cases hm : t.size ≤ t.mincapa pos
        · exact .inl hm
        · obtain ⟨c, hlo, hhi, hg⟩ := hkeep (by omega)
          exact .inr ⟨c, hlo, hhi, hg⟩
      exact fun ok t' hrun => .inr ((retry_cuts h env hno hcut).of_run hrun)
    · simp only [NoHuge, not_forall, Bool.not_eq_false] at hno
      obtain ⟨c, hc, hlo, hhi, hg⟩ := hno
      exact fun ok t' hrun => .inl (retry_huge h env hc hlo hhi hg ok t' hrun)

theorem not_returns_insert (h : t.WellFormed) {d : Item ε} (hbad : ¬t.InsertOk env pos d) :
    ¬Returns (insert env pos d) t fun r t' =>
      ∃ l, Became t t' l ∧ t.Inserted env pos d r l := by
  simp only [InsertOk, not_or, not_not] at hbad
  obtain ⟨halloc, hfull, hcapa⟩ := hbad
  obtain ⟨slot, hslot⟩ := ne_none_iff_exists'.mp halloc
  have hyields : Yields (insert env pos d) t fun r t' =>
      2 ^ 60 ≤ t'.capa ∨ (r = arrNil ∧ t'.size < t.size) := by
    refine yields_get ?_
    rw [hslot]
    refine Yields.bind (yields_makeRoom h hfull hcapa) fun ok t1 hroom => yields_get ?_
    refine yields_ite (fun ⟨hok, hfree⟩ => ?_) fun _ => ?_
    · refine fun r t' hrun => .inl ?_
      rw [yields_linkSlot r t' hrun]
      refine hroom.resolve_right fun ⟨_, hle⟩ => hfree ?_
      exact .inr (hle hok)
    · refine Yields.bind (R := fun _ t2 => t2.capa = t1.capa ∧ t2.size = t1.size)
        (returns_freeSlot.mpr ⟨rfl, rfl⟩).yields fun _ t2 ⟨h1, h2⟩ => ?_
      exact yields_pure (hroom.imp (fun h0 => h1 ▸ h0) fun h0 => ⟨rfl, h2 ▸ h0.1⟩)
  rintro ⟨r, t', hrun, l, hb, hins⟩
  have hlen := hb.wellFormed.view_length
  have hlen0 := h.view_length
  rcases hyields r t' hrun with hhuge | ⟨-, hcut⟩
  · have hsmall := hb.wellFormed.small
    omega
  rw [hb.view] at hlen
  rcases hins with ⟨-, _, -, rfl⟩ | ⟨-, rfl, -⟩
  · simp only [insertList, List.length_append, List.length_take, List.length_replicate,
      List.length_cons, List.length_drop] at hlen
    omega
  · omega

inductive Op (ε : Type) where
  | insert (pos : ℕ) (d : Item ε)
  | update (pos : ℕ) (d : Item ε)
  | delete (index count : ℕ)
  | uplete (index count : ℕ)

def Op.run (env : ArrEnv ε) : Op ε → ArrM ε ℕ
  | .insert pos d => Arr.insert env pos d
  | .update pos d => Arr.update env pos d
  | .delete index count => Arr.delete index count
  | .uplete index count => Arr.uplete index count

/-- What the result `r` and the list `l` after an operation have to be. -/
def Op.Means (t : Arr ε) (env : ArrEnv ε) : Op ε → ℕ → List (Option (Item ε)) → Prop
  | .insert pos d, r, l => t.Inserted env pos d r l
  | .update pos d, r, l => t.Updated env pos d r l
  | .delete index count, r, l =>
    r = min count (t.size - index) ∧ l = t.view.take index ++ t.view.drop (index + r)
  | .uplete index count, r, l =>
    r = min count (t.size - index) ∧ l = emptyList t.view index count

/-- The inputs on which an operation works: an insertion finds a suitable
capacity, and a deletion of no slot from within the array finds its last slot
empty. -/
def Op.Ok (t : Arr ε) (env : ArrEnv ε) : Op ε → Prop
  | .insert pos d => t.InsertOk env pos d
  | .update _ _ => True
  | .delete index count => count = 0 → index < t.size → t.lastSlot = none
  | .uplete _ _ => True

/-- The operation returns, and it does to the block what it means for the list. -/
def Op.Refines (t : Arr ε) (env : ArrEnv ε) (op : Op ε) : Prop :=
  Returns (op.run env) t fun r t' => ∃ l, Became t t' l ∧ op.Means t env r l

theorem delete_refines_iff (h : t.WellFormed) (env : ArrEnv ε) (index count : ℕ) :
    (Op.delete index count).Refines t env ↔ (Op.delete index count).Ok t env := by
  have hlen := h.view_length
  by_cases hindex : index < t.size
  · have hrun := delete_returns h hindex count
    constructor
    · rintro ⟨r, t', hr, l, hb, rfl, hmeans⟩ rfl -
      obtain ⟨-, hb', -, -⟩ := hrun.of_run hr
      rw [Nat.zero_min, deleteList_zero h hindex] at hb'
      rw [Nat.zero_min, Nat.add_zero, List.take_append_drop, ← hb.view, hb'.view] at hmeans
      have hget := congrArg (fun l => l[t.size - 1]?) hmeans
      rw [List.getElem?_set_self (by omega), view_getElem?, if_pos (by omega)] at hget
      rw [lastSlot, List.getD_eq_getElem?_getD, ← hget, getD_some]
    · intro hok
      refine hrun.mono ?_
      rintro r t' ⟨rfl, hb, -, -⟩
      refine ⟨_, hb, rfl, deleteList_eq h hindex (Nat.min_le_right _ _) ?_⟩
      by_cases hc : count = 0
      · exact .inr (hok hc hindex)
      · exact .inl (by omega)
  · refine iff_of_true ?_ fun _ hlt => absurd hlt hindex
    have hzero : min count (t.size - index) = 0 := by omega
    refine Returns.mono (Q := fun r t' => r = 0 ∧ t' = t) ?_ ?_
    · rw [Op.run, delete, returns_bind, returns_get, if_pos (by omega)]
      exact returns_pure.mpr ⟨rfl, rfl⟩
    · rintro r t' ⟨rfl, rfl⟩
      refine ⟨_, h.became, hzero.symm, ?_⟩
      rw [Nat.add_zero, List.take_append_drop]

theorem Op.refines_of_ok (h : t.WellFormed) {op : Op ε} (hok : op.Ok t env) : op.Refines t env := by
  cases op with
  | insert pos d => exact insert_returns h hok
  | update pos d => exact update_returns h env pos d
  | delete index count => exact (delete_refines_iff h env index count).mpr hok
  | uplete index count =>
    refine (uplete_returns h index count).mono ?_
    rintro r t' ⟨rfl, hb⟩
    exact ⟨_, hb, rfl, rfl⟩

/-- An operation refines its meaning for the list exactly on the inputs
described by `Op.Ok`. -/
theorem Op.refines_iff {t : Arr ε} (h : t.WellFormed) (env : ArrEnv ε) (op : Op ε) :
    op.Refines t env ↔ op.Ok t env := by
  refine ⟨fun hrefines => ?_, refines_of_ok h⟩
  cases op with
  | insert pos d =>
    by_contra hbad
    exact not_returns_insert h hbad hrefines
  | update pos d | uplete index count => trivial
  | delete index count => exact (delete_refines_iff h env index count).mp hrefines

def oneItem : Arr ℕ where
  copier := .simple
  freeer := true
  keeper := false
  sizer := false
  comper a b := a.dat - b.dat
  heapPosOffset := none
  size := 1
  capa := 2
  slot := [some ⟨8, 1, 5⟩, none]
  posField _ := 0
  calls := []

def grantAll : ArrEnv ℕ := ⟨true, 0, none, 0, fun _ => true, true, fun _ => none⟩

theorem oneItem_wellFormed : oneItem.WellFormed :=
  ⟨by decide, rfl, by decide⟩

theorem Op.refines_iff_oneItem : (Op.insert 3 ⟨16, 1, 7⟩).Refines oneItem grantAll ↔
    (Op.insert 3 ⟨16, 1, 7⟩).Ok oneItem grantAll :=
  Op.refines_iff oneItem_wellFormed grantAll (.insert 3 ⟨16, 1, 7⟩)

/-- Deleting nothing empties the only slot. -/
theorem not_refines_delete_none :
    ¬∀ (t : Arr ℕ) (env : ArrEnv ℕ) (op : Op ℕ), t.WellFormed → op.Refines t env := by
  intro h
  have hok := (delete_refines_iff oneItem_wellFormed grantAll 0 0).mp
    (h oneItem grantAll (.delete 0 0) oneItem_wellFormed)
  have hlast : oneItem.lastSlot = none := hok rfl (by decide)
  cases hlast

end Qse.Arr
