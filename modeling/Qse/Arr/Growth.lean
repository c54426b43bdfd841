import Qse.Arr.Refinement

/-!
# The loops of an insertion

The two loops of `qse_arr_insert` round by round. `insertWithin` cuts both after a number of rounds
and answers `none` if one would go on.
-/

namespace Qse.Arr

open StateProgram

variable {ε : Type}

/-- `(pos >= arr->size)? pos: arr->size` -/
def bound (t : Arr ε) (pos : ℕ) : ℕ := if t.size ≤ pos then pos else t.size

/-- `do { capa = arr->capa * 2; } while (capa <= bound);` for at most `fuel` rounds. -/
def growLoop (t : Arr ε) (bound : ℕ) : ℕ → Option ℕ
  | 0 => none
  | fuel + 1 =>
    let capa := t.capa * 2 % 2 ^ 64
    if capa ≤ bound then growLoop t bound fuel else some capa

def newCapa (t : Arr ε) (env : ArrEnv ε) (pos fuel : ℕ) : Option ℕ :=
  if t.sizer then some env.sized
  else if t.capa = 0 then some (if pos < 16 then 16 else (pos + 1) % 2 ^ 64)
  else growLoop t (t.bound pos) fuel

def retryLoop (env : ArrEnv ε) (mincapa : ℕ) : ℕ → ℕ → ArrM ε (Option Bool)
  | 0, _ => pure none
  | fuel + 1, capa => do
    let ok ← setcapa env capa
    if ok then pure (some true)
    else if capa ≤ mincapa then pure (some false)
    else retryLoop env mincapa fuel (capa - 1)

/-- "do resizing if necessary", with at most `fuel` rounds for each loop. -/
def makeRoomWithin (env : ArrEnv ε) (pos fuel : ℕ) : ArrM ε (Option Bool) := do
  let t ← get
  if t.Full pos then
    match t.newCapa env pos fuel with
    | none => pure none
    | some capa => retryLoop env (t.mincapa pos) fuel capa
  else pure (some true)

/-- `qse_arr_insert` with at most `fuel` rounds for each of the two loops. -/
def insertWithin (env : ArrEnv ε) (pos : ℕ) (d : Item ε) (fuel : ℕ) : ArrM ε (Option ℕ) := do
  let t ← get
  match t.allocSlot env d with
  | none => pure (some arrNil)
  | some slot =>
    let room ← makeRoomWithin env pos fuel
    match room with
    | none => pure none
    | some ok =>
      let t ← get
      if ok ∧ ¬t.Full pos then some <$> linkSlot pos slot
      else
        freeSlot slot
        pure (some arrNil)

def Grows (t : Arr ε) (env : ArrEnv ε) (pos : ℕ) (d : Item ε) : Prop :=
  (t.allocSlot env d).isSome ∧ t.Full pos ∧ t.sizer = false ∧ t.capa ≠ 0

/-- The insertion ends: the loop that doubles the capacity with one above both the position
and the size, the loop that lowers it whatever is granted, and the call as a whole. -/
structure InsertEnds (t : Arr ε) (env : ArrEnv ε) (pos : ℕ) (d : Item ε) : Prop where
  grows : t.Grows env pos d →
    ∃ fuel capa, t.growLoop (t.bound pos) fuel = some capa ∧ pos < capa ∧ t.size < capa
  retries : ∀ mincapa capa, ∃ fuel, ∀ s : Arr ε,
    Yields (retryLoop env mincapa fuel capa) s fun r _ => r ≠ none
  returns : ∃ fuel, Yields (insertWithin env pos d fuel) t fun r _ => r ≠ none

variable {t : Arr ε} {bound fuel capa pos : ℕ} {env : ArrEnv ε}

theorem growLoop_eq_some
    (h : t.growLoop bound fuel = some capa) : capa = t.capa * 2 % 2 ^ 64 ∧ bound < capa := by
  induction fuel with
  | zero => cases h
  | succ fuel ih =>
    rw [growLoop] at h
    split at h
    · exact ih h
    · rename_i hlt
      cases h
      exact ⟨rfl, Nat.lt_of_not_le hlt⟩

/-- The body does not read `capa`, so a round that does not end the loop is like all later
ones. -/
theorem growLoop_eq_none (h : t.capa * 2 % 2 ^ 64 ≤ bound) (fuel : ℕ) :
    t.growLoop bound fuel = none := by
  induction fuel with
  | zero => rfl
  | succ fuel ih =>
    rw [growLoop]
    simpa only [if_pos h] using ih

theorem growLoop_succ (h : bound < t.capa * 2 % 2 ^ 64) (fuel : ℕ) :
    t.growLoop bound (fuel + 1) = some (t.capa * 2 % 2 ^ 64) := by
  rw [growLoop]
  exact if_neg (Nat.not_le_of_lt h)

theorem retryLoop_eq (env : ArrEnv ε) (mincapa : ℕ) (h : capa < fuel) :
    retryLoop env mincapa fuel capa = some <$> retry env mincapa capa := by
  induction capa generalizing fuel with
  | zero =>
    obtain ⟨fuel, rfl⟩ := Nat.exists_eq_succ_of_ne_zero (Nat.ne_of_gt h)
    rw [retryLoop, retry, map_eq_pure_bind]
    congr 1
    funext ok
    cases ok <;> simp
  | succ capa ih =>
    obtain ⟨fuel, rfl⟩ := Nat.exists_eq_succ_of_ne_zero (Nat.ne_of_gt (Nat.zero_lt_of_lt h))
    rw [retryLoop, retry, map_bind]
    congr 1
    funext ok
    cases ok with
    | true => simp
    | false =>
      by_cases hmin : capa + 1 ≤ mincapa
      · simp [hmin]
      · have hrest := @ih fuel (Nat.lt_of_succ_lt_succ h)
        simpa [hmin] using hrest

theorem yields_map_some {α : Type} (c : ArrM ε α) (s : Arr ε) :
    Yields (some <$> c) s fun r _ => r ≠ none := by
  intro r s' hrun
  rw [StateT.run_map] at hrun
  obtain ⟨p, -, hp⟩ := Option.map_eq_some_iff.mp hrun
  cases hp
  exact Option.some_ne_none _

theorem retryLoop_ends (env : ArrEnv ε) (mincapa : ℕ) (h : capa < fuel)
    (s : Arr ε) : Yields (retryLoop env mincapa fuel capa) s fun r _ => r ≠ none := by
  rw [retryLoop_eq env mincapa h]
  exact yields_map_some _ s

theorem insertWithin_ends (d : Item ε)
    (hroom : Yields (makeRoomWithin env pos fuel) t fun r _ => r ≠ none) :
    Yields (insertWithin env pos d fuel) t fun r _ => r ≠ none := by
  rw [insertWithin]
  refine yields_get ?_
  cases t.allocSlot env d with
  | none => exact yields_pure (Option.some_ne_none _)
  | some slot =>
    refine hroom.bind fun room t1 hne => ?_
    obtain ⟨ok, rfl⟩ := Option.ne_none_iff_exists'.mp hne
    refine yields_get ?_
    split
    · exact yields_map_some _ t1
    · exact Yields.bind (R := fun _ _ => True) (fun _ _ _ => trivial)
        fun _ _ _ => yields_pure (Option.some_ne_none _)

theorem makeRoomWithin_ends (hcapa : t.newCapa env pos fuel = some capa) (hfuel : capa < fuel) :
    Yields (makeRoomWithin env pos fuel) t fun r _ => r ≠ none := by
  rw [makeRoomWithin]
  refine yields_get ?_
  split
  · rw [hcapa]
    exact retryLoop_ends env _ hfuel t
  · exact yields_pure (Option.some_ne_none _)

theorem ends_of_not_grows (hsizer : t.sizer = false) (d : Item ε) (h : ¬t.Grows env pos d) :
    ∃ fuel, Yields (insertWithin env pos d fuel) t fun r _ => r ≠ none := by
  by_cases hzero : t.capa = 0
  · have hnew (fuel : ℕ) : t.newCapa env pos fuel =
        some (if pos < 16 then 16 else (pos + 1) % 2 ^ 64) := by
      rw [newCapa, hsizer, if_neg Bool.false_ne_true, if_pos hzero]
    exact ⟨_, insertWithin_ends d (makeRoomWithin_ends (hnew _) (Nat.lt_succ_self _))⟩
  by_cases hfull : t.Full pos
  · have halloc : t.allocSlot env d = none := by
      apply Option.not_isSome_iff_eq_none.mp
      exact fun hsome => h ⟨hsome, hfull, hsizer, hzero⟩
    refine ⟨0, ?_⟩
    rw [insertWithin]
    apply yields_get
    rw [halloc]
    exact yields_pure (Option.some_ne_none _)
  · refine ⟨0, insertWithin_ends d ?_⟩
    rw [makeRoomWithin]
    apply yields_get
    rw [if_neg hfull]
    exact yields_pure (Option.some_ne_none _)

theorem insertWithin_goes_on {d : Item ε} (h : t.Grows env pos d)
    (hcapa : t.capa * 2 % 2 ^ 64 ≤ t.bound pos) (fuel : ℕ) :
    Returns (insertWithin env pos d fuel) t fun r t' => r = none ∧ t' = t := by
  obtain ⟨halloc, hfull, hsizer, hzero⟩ := h
  obtain ⟨slot, hslot⟩ := Option.isSome_iff_exists.mp halloc
  have hnew : t.newCapa env pos fuel = none := by
    rw [newCapa, hsizer, if_neg Bool.false_ne_true, if_neg hzero]
    exact growLoop_eq_none hcapa fuel
  have hroom : Returns (makeRoomWithin env pos fuel) t fun r t' => r = none ∧ t' = t := by
    rw [makeRoomWithin, returns_bind, returns_get, if_pos hfull, hnew]
    exact returns_pure.mpr ⟨rfl, rfl⟩
  rw [insertWithin, returns_bind, returns_get, hslot]
  refine returns_bind.mpr (hroom.mono ?_)
  rintro room t' ⟨rfl, rfl⟩
  exact returns_pure.mpr ⟨rfl, rfl⟩

/-- Without a sizer an insertion ends exactly if the doubled capacity, in the arithmetic of
`qse_size_t`, is above the position and the size where they are compared; otherwise the loop
computes the same capacity in each round. -/
theorem insertEnds_iff {t : Arr ε} (hsizer : t.sizer = false) (env : ArrEnv ε) (pos : ℕ)
    (d : Item ε) :
    (InsertEnds t env pos d ↔ (t.Grows env pos d → t.bound pos < t.capa * 2 % 2 ^ 64)) ∧
      (¬InsertEnds t env pos d → ∀ fuel, (insertWithin env pos d fuel).run t = some (none, t)) := by
  have hiff : InsertEnds t env pos d ↔ (t.Grows env pos d → t.bound pos < t.capa * 2 % 2 ^ 64) := by
    constructor
    · intro hends hgrows
      obtain ⟨fuel, capa, hloop, -, -⟩ := hends.grows hgrows
      obtain ⟨rfl, hlt⟩ := growLoop_eq_some hloop
      exact hlt
    · intro hcapa
      constructor
      · intro hgrows
        have hlt := hcapa hgrows
        have hbound : pos ≤ t.bound pos ∧ t.size ≤ t.bound pos := by
          rw [bound]
          split <;> omega
        exact ⟨1, _, growLoop_succ hlt 0, by omega, by omega⟩
      · exact fun mincapa capa => ⟨capa + 1, retryLoop_ends env mincapa (Nat.lt_succ_self capa)⟩
      · by_cases hgrows : t.Grows env pos d
        · have hnew : t.newCapa env pos (t.capa * 2 % 2 ^ 64 + 1) = some (t.capa * 2 % 2 ^ 64) := by
            rw [newCapa, hsizer, if_neg Bool.false_ne_true, if_neg hgrows.2.2.2]
            exact growLoop_succ (hcapa hgrows) _
          exact ⟨_, insertWithin_ends d (makeRoomWithin_ends hnew (Nat.lt_succ_self _))⟩
        · exact ends_of_not_grows hsizer d hgrows
  refine ⟨hiff, fun hnot fuel => ?_⟩
  rw [hiff] at hnot
  obtain ⟨hgrows, hcapa⟩ := Classical.not_imp.mp hnot
  obtain ⟨r, t', hrun, rfl, rfl⟩ := insertWithin_goes_on hgrows (Nat.le_of_not_lt hcapa) fuel
  exact hrun

theorem insertEnds_iff_oneItem :
    (InsertEnds oneItem grantAll 3 ⟨16, 1, 7⟩ ↔
        (oneItem.Grows grantAll 3 ⟨16, 1, 7⟩ → oneItem.bound 3 < oneItem.capa * 2 % 2 ^ 64)) ∧
      (¬InsertEnds oneItem grantAll 3 ⟨16, 1, 7⟩ →
        ∀ fuel, (insertWithin grantAll 3 ⟨16, 1, 7⟩ fuel).run oneItem = some (none, oneItem)) :=
  insertEnds_iff rfl grantAll 3 ⟨16, 1, 7⟩

/-- An array with room for two elements cannot take one at the position four. -/
theorem not_insertEnds : ¬InsertEnds oneItem grantAll 4 ⟨16, 1, 7⟩ := by
  intro h
  obtain ⟨fuel, capa, hloop, -, -⟩ := h.grows ⟨rfl, by decide, rfl, by decide⟩
  obtain ⟨rfl, hlt⟩ := growLoop_eq_some hloop
  revert hlt
  decide

end Qse.Arr
