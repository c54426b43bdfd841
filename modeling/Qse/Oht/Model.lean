import Qse.Support.Rotation
import Mathlib.Data.Set.Card

/-!
# The `qse_oht_t` open-addressing hash table

A translation of `lib/cmn/oht.c`. The blocks of marks and of data are functions of the slot; what
lies in a slot that has never been filled is arbitrary. A copier copies the datum as it is.
-/

namespace Qse

namespace Oht

/-- `qse_oht_mark_t` -/
inductive Mark where
  | empty
  | occupied
deriving DecidableEq

structure Hashing (δ : Type*) where
  hasher : δ → ℕ
  comper : δ → δ → ℤ
  hasher_lt : ∀ d, hasher d < 2 ^ 64
  comper_self : ∀ d, comper d d = 0
  comper_symm : ∀ {d e}, comper d e = 0 → comper e d = 0
  comper_trans : ∀ {d e f}, comper d e = 0 → comper e f = 0 → comper d f = 0
  agree : ∀ {d e}, comper d e = 0 → hasher d = hasher e

def Hashing.same {δ : Type*} (h : Hashing δ) : Setoid δ where
  r d e := h.comper d e = 0
  iseqv := ⟨h.comper_self, h.comper_symm, h.comper_trans⟩

end Oht

/-- `qse_oht_t`. -/
structure Oht (δ : Type*) where
  hard : ℕ
  soft : ℕ
  size : ℕ
  mark : ℕ → Oht.Mark
  data : ℕ → δ

namespace Oht

variable {δ : Type*}

/-- `QSE_OHT_NIL`, which the functions return for no slot. -/
def nil : ℕ := 2 ^ 64 - 1

/-- `qse_oht_init`. `grants` tells whether the memory manager hands out a block of so many
bytes, and `junk` what lies in the new slots. `none` is a failure, and also the case that the
size of a block is more than a word holds: it wraps, and the slots do not all lie in the block. -/
def init (grants : ℕ → Bool) (scale : ℤ) (capa limit : ℕ) (junk : ℕ → δ) : Option (Oht δ) :=
  let scale := if scale ≤ 0 then 1 else scale.toNat
  let capa := if nil - 1 ≤ capa then nil - 1 else capa
  let limit := if capa < limit ∨ limit = 0 then capa else limit
  if 4 * capa < 2 ^ 64 ∧ scale * capa < 2 ^ 64 then
    if grants (4 * capa) ∧ grants (scale * capa) then
      some ⟨capa, limit, 0, fun _ => .empty, junk⟩
    else none
  else none

/-- `(hash + i) % oht->capa.hard`, where the sum is a `qse_size_t`. -/
def probe (t : Oht δ) (hash i : ℕ) : ℕ := (hash + i) % 2 ^ 64 % t.hard

def searchFrom (h : Hashing δ) (t : Oht δ) (d : δ) (hash : ℕ) : ℕ → ℕ → Option ℕ
  | 0, _ => none
  | n + 1, i =>
    if t.mark (t.probe hash i) = .empty then none
    else if t.mark (t.probe hash i) = .occupied ∧ h.comper d (t.data (t.probe hash i)) = 0 then
      some (t.probe hash i)
    else searchFrom h t d hash n (i + 1)

def search (h : Hashing δ) (t : Oht δ) (d : δ) (hash : ℕ) : Option ℕ :=
  searchFrom h t d hash t.hard 0

/-- `COPY_DATA` into a slot. -/
def store (t : Oht δ) (s : ℕ) (d : δ) : Oht δ := { t with data := Function.update t.data s d }

def find (h : Hashing δ) (t : Oht δ) (d : δ) : Option (ℕ × δ) :=
  (search h t d (h.hasher d)).map fun i => (i, t.data i)

def update (h : Hashing δ) (t : Oht δ) (d : δ) : Option ℕ × Oht δ :=
  match search h t d (h.hasher d) with
  | some i => (some i, t.store i d)
  | none => (none, t)

def fill (t : Oht δ) (s : ℕ) (d : δ) : Oht δ :=
  { t with
    mark := Function.update t.mark s .occupied
    data := Function.update t.data s d
    size := t.size + 1 }

/-- The loop of `qse_oht_insert` and of `qse_oht_upsert` that looks for a slot. -/
def insertFrom (t : Oht δ) (d : δ) (hash : ℕ) : ℕ → ℕ → Option ℕ × Oht δ
  | 0, _ => (none, t)
  | n + 1, i =>
    let index := t.probe hash i
    if t.mark index ≠ .occupied then
      (some index, t.fill index d)
    else insertFrom t d hash n (i + 1)

def upsert (h : Hashing δ) (t : Oht δ) (d : δ) : Option ℕ × Oht δ :=
  let hash := h.hasher d
  match search h t d hash with
  | some i => (some i, t.store i d)
  | none =>
    if t.soft ≤ t.size then (none, t)
    else insertFrom t d hash (t.size + 1) 0

def insert (h : Hashing δ) (t : Oht δ) (d : δ) : Option ℕ × Oht δ :=
  if t.soft ≤ t.size then (none, t)
  else
    let hash := h.hasher d
    match search h t d hash with
    | some _ => (none, t)
    | none => insertFrom t d hash (t.size + 1) 0

/-- The test of `qse_oht_delete` whether the element in slot `y`, of natural slot `z`, fills the
free slot `x`. -/
def Fills (x y z : ℕ) : Prop := y > x ∧ (z ≤ x ∨ z > y) ∨ y < x ∧ z ≤ x ∧ z > y

instance (x y z : ℕ) : Decidable (Fills x y z) :=
  inferInstanceAs (Decidable (_ ∨ _))

/-- The loop of `qse_oht_delete`: the table, and the slot to be marked empty. -/
def compact (h : Hashing δ) : ℕ → Oht δ → ℕ → ℕ → Oht δ × ℕ
  | 0, t, x, _ => (t, x)
  | n + 1, t, x, y =>
    let y := (y + 1) % t.hard
    if t.mark y = .empty then (t, x)
    else if Fills x y (h.hasher (t.data y) % t.hard) then compact h n (t.store x (t.data y)) y y
    else compact h n t x y

def delete (h : Hashing δ) (t : Oht δ) (d : δ) : Option ℕ × Oht δ :=
  if t.size = 0 then (none, t)
  else
    match search h t d (h.hasher d) with
    | none => (none, t)
    | some index =>
      let (t, x) := compact h t.size t index index
      (some index, { t with mark := Function.update t.mark x .empty, size := t.size - 1 })

def clear (t : Oht δ) : Oht δ :=
  { t with mark := fun i => if i < t.hard then .empty else t.mark i, size := 0 }

open Rotation

variable {δ : Type*} {h : Hashing δ} {t : Oht δ} {d e : δ} {s z i k n hash : ℕ}

def occupied (t : Oht δ) : Finset ℕ := (Finset.range t.hard).filter fun s => t.mark s = .occupied

/-- The natural slot of the element in slot `s`. -/
def natural (h : Hashing δ) (t : Oht δ) (s : ℕ) : ℕ := h.hasher (t.data s) % t.hard

def steps (h : Hashing δ) (t : Oht δ) (s w : ℕ) : ℕ := offset t.hard (natural h t s) w

def contents (t : Oht δ) : Set δ := t.data '' t.occupied

def Straight (t : Oht δ) (hash k : ℕ) : Prop := t.hard ∣ 2 ^ 64 ∨ hash + k < 2 ^ 64

structure Probed (h : Hashing δ) (t : Oht δ) : Prop where
  limit : t.size ≤ t.soft
  room : t.soft ≤ t.hard
  count : t.occupied.card = t.size
  distinct : ∀ s ∈ t.occupied, ∀ s' ∈ t.occupied, h.comper (t.data s) (t.data s') = 0 → s = s'
  path : ∀ s ∈ t.occupied, ∀ w < t.hard, steps h t s w ≤ steps h t s s → w ∈ t.occupied
  last : 0 < t.hard → ∃ a < t.hard, ∀ s ∈ t.occupied, s ≠ a → ¬steps h t s a ≤ steps h t s s
  straight : ∀ s ∈ t.occupied, t.Straight (h.hasher (t.data s)) (steps h t s s)

theorem mem_occupied : s ∈ t.occupied ↔ s < t.hard ∧ t.mark s = .occupied := by
  rw [occupied, Finset.mem_filter, Finset.mem_range]

theorem natural_lt (hs : s < t.hard) : natural h t s < t.hard :=
  Nat.mod_lt _ (Nat.zero_lt_of_lt hs)

theorem mem_contents : e ∈ t.contents ↔ ∃ s ∈ t.occupied, t.data s = e := Iff.rfl

theorem mark_eq_empty_or (t : Oht δ) (s : ℕ) : t.mark s = .empty ∨ t.mark s = .occupied := by
  cases t.mark s with
  | empty => exact .inl rfl
  | occupied => exact .inr rfl

theorem Straight.mono (hk : t.Straight hash k) (hik : i ≤ k) : t.Straight hash i :=
  hk.imp_right fun hlt => by omega

theorem probe_eq (hi : i < t.hard) (hstraight : t.Straight hash i) :
    t.probe hash i = place t.hard (hash % t.hard) i := by
  have hz : hash % t.hard < t.hard := Nat.mod_lt _ (Nat.zero_lt_of_lt hi)
  have hplace : place t.hard (hash % t.hard) i = (hash + i) % t.hard := by
    rw [place_eq_mod hz hi, Nat.mod_add_mod]
  rw [probe, hplace]
  rcases hstraight with hdvd | hlt
  · exact Nat.mod_mod_of_dvd _ hdvd
  · rw [Nat.mod_eq_of_lt hlt]

theorem searchFrom_some (hpos : 0 < t.hard) :
    searchFrom h t d hash n i = some s → s ∈ t.occupied ∧ h.comper d (t.data s) = 0 := by
  induction n generalizing i with
  | zero =>
    intro hfound
    cases hfound
  | succ n ih =>
    intro hfound
    rw [searchFrom] at hfound
    split at hfound
    · cases hfound
    split at hfound
    · rename_i hhere
      obtain rfl := Option.some.inj hfound
      exact ⟨mem_occupied.mpr ⟨Nat.mod_lt _ hpos, hhere.1⟩, hhere.2⟩
    · exact ih hfound

theorem search_some (hfound : search h t d hash = some s) :
    s ∈ t.occupied ∧ h.comper d (t.data s) = 0 := by
  rcases Nat.eq_zero_or_pos t.hard with hzero | hpos
  · rw [search, hzero] at hfound
    cases hfound
  · exact searchFrom_some hpos hfound

theorem searchFrom_ne_none (hp : Probed h t) (hs : s ∈ t.occupied)
    (heq : h.comper d (t.data s) = 0) (hi : i ≤ steps h t s s) (hn : steps h t s s < i + n) :
    searchFrom h t d (h.hasher d) n i ≠ none := by
  have hlt := (mem_occupied.mp hs).1
  have hz : natural h t s < t.hard := natural_lt hlt
  have hk : steps h t s s < t.hard := offset_lt hz hlt
  induction n generalizing i with
  | zero => omega
  | succ n ih =>
    have hstraight := (hp.straight s hs).mono hi
    rw [← h.agree heq] at hstraight
    have hprobe : t.probe (h.hasher d) i = place t.hard (natural h t s) i := by
      rw [probe_eq (hi.trans_lt hk) hstraight, natural, h.agree heq]
    have hplace := place_lt hz (hi.trans_lt hk)
    have hthere : place t.hard (natural h t s) i ∈ t.occupied := by
      apply hp.path s hs _ hplace
      rw [steps, offset_place hz (hi.trans_lt hk)]
      exact hi
    rw [searchFrom, hprobe, if_neg (by rw [(mem_occupied.mp hthere).2]; decide)]
    split
    · simp
    · rename_i hother
      rcases Nat.lt_or_eq_of_le hi with hless | rfl
      · exact ih hless (by omega)
      · rw [steps, place_offset hz hlt] at hother
        exact absurd ⟨(mem_occupied.mp hs).2, heq⟩ hother

theorem Probed.search_isSome_iff (hp : Probed h t) :
    (search h t d (h.hasher d)).isSome = true ↔ ∃ e ∈ t.contents, h.comper d e = 0 := by
  constructor
  · intro hsome
    obtain ⟨s, hfound⟩ := Option.isSome_iff_exists.mp hsome
    obtain ⟨hs, heq⟩ := search_some hfound
    exact ⟨t.data s, ⟨s, hs, rfl⟩, heq⟩
  · rintro ⟨_, ⟨s, hs, rfl⟩, heq⟩
    rw [Option.isSome_iff_ne_none]
    have hlt := (mem_occupied.mp hs).1
    have hk : steps h t s s < t.hard := offset_lt (natural_lt hlt) hlt
    exact searchFrom_ne_none hp hs heq (Nat.zero_le _) (by omega)

theorem Probed.search_none (hp : Probed h t) (hnone : search h t d (h.hasher d) = none)
    (hs : s ∈ t.occupied) : h.comper d (t.data s) ≠ 0 := by
  intro heq
  have hsome := hp.search_isSome_iff.mpr ⟨t.data s, ⟨s, hs, rfl⟩, heq⟩
  rw [hnone] at hsome
  cases hsome

theorem occupied_fill (hs : s < t.hard) (d : δ) :
    (t.fill s d).occupied = Insert.insert s t.occupied := by
  ext w
  rw [Finset.mem_insert, mem_occupied, mem_occupied]
  by_cases hw : w = s
  · subst hw
    simp [fill, hs]
  · simp [fill, hw]

theorem data_fill_of_ne {w : ℕ} (hw : w ≠ s) : (t.fill s d).data w = t.data w := by
  simp [fill, hw]

theorem data_fill_self : (t.fill s d).data s = d := by
  simp [fill]

theorem steps_fill_of_ne {w : ℕ} (hw : w ≠ s) (x : ℕ) :
    steps h (t.fill s d) w x = steps h t w x := by
  rw [steps, natural, data_fill_of_ne hw]
  rfl

theorem steps_fill_self (x : ℕ) :
    steps h (t.fill s d) s x = offset t.hard (h.hasher d % t.hard) x := by
  rw [steps, natural, data_fill_self]
  rfl

theorem contents_fill (hs : s < t.hard) (hfree : s ∉ t.occupied) :
    (t.fill s d).contents = Insert.insert d t.contents := by
  ext e
  rw [mem_contents, Set.mem_insert_iff, mem_contents, occupied_fill hs]
  constructor
  · rintro ⟨w, hw, rfl⟩
    by_cases hws : w = s
    · subst hws
      exact .inl data_fill_self
    · exact .inr ⟨w, Finset.mem_of_mem_insert_of_ne hw hws, (data_fill_of_ne hws).symm⟩
  · rintro (rfl | ⟨w, hw, rfl⟩)
    · exact ⟨s, Finset.mem_insert_self s _, data_fill_self⟩
    · have hws : w ≠ s := fun heq => hfree (heq ▸ hw)
      exact ⟨w, Finset.mem_insert_of_mem hw, data_fill_of_ne hws⟩

theorem Probed.fill (hp : Probed h t) (habsent : ∀ s ∈ t.occupied, h.comper d (t.data s) ≠ 0)
    (hsize : t.size < t.soft) (hk : k < t.hard)
    (hfree : place t.hard (h.hasher d % t.hard) k ∉ t.occupied)
    (hway : ∀ i < k, place t.hard (h.hasher d % t.hard) i ∈ t.occupied)
    (hstraight : t.Straight (h.hasher d) k) :
    Probed h (t.fill (place t.hard (h.hasher d % t.hard) k) d) := by
  have hz : h.hasher d % t.hard < t.hard := Nat.mod_lt _ (Nat.zero_lt_of_lt hk)
  have hs := place_lt hz hk
  have hsteps := offset_place hz hk
  generalize place t.hard (h.hasher d % t.hard) k = s at hfree hs hsteps
  have hocc := occupied_fill hs d
  have hold {w : ℕ} (hw : w ∈ (t.fill s d).occupied) (hws : w ≠ s) : w ∈ t.occupied := by
    rw [hocc] at hw
    exact Finset.mem_of_mem_insert_of_ne hw hws
  have hne {w : ℕ} (hw : w ∈ t.occupied) : w ≠ s := fun heq => hfree (heq ▸ hw)
  refine ⟨hsize, hp.room, ?_, ?_, ?_, fun _ => ⟨s, hs, ?_⟩, ?_⟩
  · rw [hocc, Finset.card_insert_of_notMem hfree, hp.count]
    rfl
  · intro w hw w' hw' heq
    by_cases hws : w = s <;> by_cases hws' : w' = s
    · rw [hws, hws']
    · rw [hws, data_fill_self, data_fill_of_ne hws'] at heq
      exact absurd heq (habsent w' (hold hw' hws'))
    · rw [hws', data_fill_self, data_fill_of_ne hws] at heq
      exact absurd (h.comper_symm heq) (habsent w (hold hw hws))
    · rw [data_fill_of_ne hws, data_fill_of_ne hws'] at heq
      exact hp.distinct w (hold hw hws) w' (hold hw' hws') heq
  · intro w hw x hx hpath
    rw [hocc, Finset.mem_insert]
    by_cases hws : w = s
    · subst hws
      rw [steps_fill_self, steps_fill_self, hsteps] at hpath
      rcases Nat.lt_or_eq_of_le hpath with hlt | heq
      · rw [← place_offset hz hx]
        exact .inr (hway _ hlt)
      · exact .inl (offset_inj hz hx hs (heq.trans hsteps.symm))
    · rw [steps_fill_of_ne hws, steps_fill_of_ne hws] at hpath
      exact .inr (hp.path w (hold hw hws) x hx hpath)
  · intro w hw hws hpath
    rw [steps_fill_of_ne hws, steps_fill_of_ne hws] at hpath
    exact hfree (hp.path w (hold hw hws) s hs hpath)
  · intro w hw
    by_cases hws : w = s
    · subst hws
      rw [data_fill_self, steps_fill_self, hsteps]
      exact hstraight
    · rw [data_fill_of_ne hws, steps_fill_of_ne hws]
      exact hp.straight w (hold hw hws)

theorem insertFrom_eq (hk : k < t.hard) (hfree : place t.hard (hash % t.hard) k ∉ t.occupied)
    (hway : ∀ i < k, place t.hard (hash % t.hard) i ∈ t.occupied)
    (hstraight : t.Straight hash k) (hi : i ≤ k) (hn : k < i + n) :
    insertFrom t d hash n i =
      (some (place t.hard (hash % t.hard) k), t.fill (place t.hard (hash % t.hard) k) d) := by
  have hz : hash % t.hard < t.hard := Nat.mod_lt _ (Nat.zero_lt_of_lt hk)
  induction n generalizing i with
  | zero => omega
  | succ n ih =>
    rw [insertFrom, probe_eq (hi.trans_lt hk) (hstraight.mono hi)]
    rcases Nat.lt_or_eq_of_le hi with hlt | rfl
    · have hmark := (mem_occupied.mp (hway i hlt)).2
      simp only [hmark, ne_eq, not_true_eq_false, if_false]
      exact ih hlt (by omega)
    · have hmark : t.mark (place t.hard (hash % t.hard) i) ≠ .occupied := by
        intro hocc
        exact hfree (mem_occupied.mpr ⟨place_lt hz hk, hocc⟩)
      simp only [if_pos hmark]

def Reaches (t : Oht δ) (hash : ℕ) : Prop :=
  t.hard ∣ 2 ^ 64 ∨ ∃ i, hash + i < 2 ^ 64 ∧ t.mark ((hash + i) % t.hard) = .empty

theorem Probed.exists_first (hp : Probed h t) (hsize : t.size < t.soft)
    (hreaches : t.Reaches hash) :
    ∃ k < t.hard, k ≤ t.size ∧ place t.hard (hash % t.hard) k ∉ t.occupied ∧
      (∀ i < k, place t.hard (hash % t.hard) i ∈ t.occupied) ∧ t.Straight hash k := by
  have hpos : 0 < t.hard := by
    have hroom := hp.room
    omega
  have hz : hash % t.hard < t.hard := Nat.mod_lt _ hpos
  have hexists : ∃ k, k < t.hard ∧ place t.hard (hash % t.hard) k ∉ t.occupied := by
    have hless : t.occupied.card < (Finset.range t.hard).card := by
      rw [hp.count, Finset.card_range]
      exact hsize.trans_le hp.room
    obtain ⟨s, hs, hfree⟩ := Finset.exists_mem_notMem_of_card_lt_card hless
    have hlt := Finset.mem_range.mp hs
    refine ⟨offset t.hard (hash % t.hard) s, offset_lt hz hlt, ?_⟩
    rwa [place_offset hz hlt]
  classical
  obtain ⟨hlt, hfree⟩ := Nat.find_spec hexists
  have hmin {i : ℕ} (hi : i < Nat.find hexists) : place t.hard (hash % t.hard) i ∈ t.occupied := by
    by_contra hout
    exact Nat.find_min hexists hi ⟨hi.trans hlt, hout⟩
  refine ⟨Nat.find hexists, hlt, ?_, hfree, fun i hi => hmin hi, ?_⟩
  · rw [← hp.count]
    exact le_card_of_places hz hlt.le fun i hi => hmin hi
  · rcases hreaches with hdvd | ⟨i, hword, hempty⟩
    · exact .inl hdvd
    · have hi : i % t.hard < t.hard := Nat.mod_lt _ hpos
      have hle : Nat.find hexists ≤ i % t.hard := by
        apply Nat.find_min' hexists
        refine ⟨hi, fun hocc => ?_⟩
        have hmark := (mem_occupied.mp hocc).2
        rw [place_eq_mod hz hi, ← Nat.add_mod, hempty] at hmark
        cases hmark
      have hmod := Nat.mod_le i t.hard
      exact .inr (by omega)

end Oht

end Qse
