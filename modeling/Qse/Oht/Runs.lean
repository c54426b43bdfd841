import Qse.Oht.Removal
import Qse.Support.KeyedSet

/-!
# Runs of a table

A table is a set of at most `soft` elements, as long as no new element meets a wrap of the sum of
its hash and the number of steps before it meets a free slot.
-/

namespace Qse.Oht

open Rotation KeyedSet

variable {δ : Type*} {h : Hashing δ} {t : Oht δ} {d e : δ} {s limit : ℕ}

inductive Op (δ : Type*) where
  | insert (d : δ)
  | upsert (d : δ)
  | update (d : δ)
  | delete (d : δ)
  | clear

open Classical in
/-- What an operation is to do with a set of at most `limit` elements: whether it succeeds, and
the set after it. -/
noncomputable def setStep (h : Hashing δ) (limit : ℕ) (S : Set δ) : Op δ → Bool × Set δ
  | .insert d =>
    if Present h.same S d ∨ limit ≤ S.ncard then (false, S) else (true, Insert.insert d S)
  | .upsert d =>
    if Present h.same S d then (true, put h.same S d)
    else if limit ≤ S.ncard then (false, S) else (true, Insert.insert d S)
  | .update d =>
    if Present h.same S d then (true, put h.same S d) else (false, S)
  | .delete d => (Present h.same S d, erase h.same S d)
  | .clear => (true, ∅)

noncomputable def setRun (h : Hashing δ) (limit : ℕ) : Set δ → List (Op δ) → List Bool × Set δ
  | S, [] => ([], S)
  | S, op :: ops =>
    let (ok, S') := setStep h limit S op
    let (oks, S'') := setRun h limit S' ops
    (ok :: oks, S'')

def step (h : Hashing δ) (t : Oht δ) : Op δ → Bool × Oht δ
  | .insert d => ((insert h t d).1.isSome, (insert h t d).2)
  | .upsert d => ((upsert h t d).1.isSome, (upsert h t d).2)
  | .update d => ((update h t d).1.isSome, (update h t d).2)
  | .delete d => ((delete h t d).1.isSome, (delete h t d).2)
  | .clear => (true, clear t)

def run (h : Hashing δ) : Oht δ → List (Op δ) → List Bool × Oht δ
  | t, [] => ([], t)
  | t, op :: ops =>
    let (ok, t') := step h t op
    let (oks, t'') := run h t' ops
    (ok :: oks, t'')

/-- A new element that there is room for reaches a free slot without a wrap. -/
def Meets (h : Hashing δ) (t : Oht δ) : Op δ → Prop
  | .insert d | .upsert d =>
    Present h.same t.contents d ∨ t.soft ≤ t.size ∨ t.Reaches (h.hasher d)
  | _ => True

def MeetsAll (h : Hashing δ) : Oht δ → List (Op δ) → Prop
  | _, [] => True
  | t, op :: ops => Meets h t op ∧ MeetsAll h (step h t op).2 ops

@[simp] theorem soft_fill (s : ℕ) (d : δ) : (t.fill s d).soft = t.soft := rfl

@[simp] theorem soft_store (s : ℕ) (d : δ) : (t.store s d).soft = t.soft := rfl

theorem probed_of_empty (hocc : t.occupied = ∅) (hsize : t.size = 0) (hroom : t.soft ≤ t.hard) :
    Probed h t ∧ t.contents = ∅ := by
  have hno {s : ℕ} : s ∉ t.occupied := by
    rw [hocc]
    exact Finset.notMem_empty s
  constructor
  · constructor
    · rw [hsize]
      exact Nat.zero_le _
    · exact hroom
    · rw [hocc, hsize, Finset.card_empty]
    · exact fun s hs => absurd hs hno
    · exact fun s hs => absurd hs hno
    · exact fun hpos => ⟨0, hpos, fun s hs => absurd hs hno⟩
    · exact fun s hs => absurd hs hno
  · rw [contents, hocc, Finset.coe_empty, Set.image_empty]

theorem probed_init {grants : ℕ → Bool} {scale : ℤ} {capa : ℕ} {junk : ℕ → δ}
    (hinit : init grants scale capa limit junk = some t) : Probed h t ∧ t.contents = ∅ := by
  simp only [init] at hinit
  generalize (if nil - 1 ≤ capa then nil - 1 else capa) = hard at hinit
  generalize (if scale ≤ 0 then 1 else scale.toNat) = width at hinit
  split at hinit
  · split at hinit
    · obtain rfl := Option.some.inj hinit
      apply probed_of_empty
      · simp [occupied]
      · rfl
      · simp only
        split
        · exact le_rfl
        · omega
    · cases hinit
  · cases hinit

theorem probed_clear (hroom : t.soft ≤ t.hard) : Probed h t.clear ∧ t.clear.contents = ∅ := by
  apply probed_of_empty
  · ext s
    rw [mem_occupied]
    by_cases hs : s < t.hard
    · simp [clear, hs]
    · simp [clear, hs]
  · rfl
  · exact hroom

section

variable (hp : Probed h t)
include hp

theorem Probed.ncard_contents : t.contents.ncard = t.size := by
  have hinj : Set.InjOn t.data (t.occupied : Set ℕ) := by
    intro s hs s' hs' heq
    apply hp.distinct s hs s' hs'
    rw [heq]
    exact h.comper_self _
  rw [contents, hinj.ncard_image, Set.ncard_coe_finset, hp.count]

theorem Probed.store (hs : s ∈ t.occupied) (heq : h.comper d (t.data s) = 0) :
    Probed h (t.store s d) ∧ (t.store s d).contents = put h.same t.contents d := by
  have hstore (w : ℕ) : h.comper (t.data w) ((t.store s d).data w) = 0 := by
    by_cases hws : w = s
    · rw [hws, data_store_self]
      exact h.comper_symm heq
    · rw [data_store_of_ne hws]
      exact h.comper_self _
  have hhash (w : ℕ) : h.hasher ((t.store s d).data w) = h.hasher (t.data w) :=
    (h.agree (hstore w)).symm
  have hsteps (w x : ℕ) : steps h (t.store s d) w x = steps h t w x := by
    rw [steps, natural, hhash]
    rfl
  constructor
  · constructor
    · exact hp.limit
    · exact hp.room
    · exact hp.count
    · intro w hw w' hw' hsame
      apply hp.distinct w hw w' hw'
      exact h.comper_trans (hstore w) (h.comper_trans hsame (h.comper_symm (hstore w')))
    · intro w hw x hx hle
      rw [hsteps, hsteps] at hle
      exact hp.path w hw x hx hle
    · intro hpos
      obtain ⟨a, ha, hlast⟩ := hp.last hpos
      refine ⟨a, ha, fun w hw hwa => ?_⟩
      rw [hsteps, hsteps]
      exact hlast w hw hwa
    · intro w hw
      rw [hhash, hsteps]
      exact hp.straight w hw
  · have hrest := hp.image_erase hs heq
    rw [put, erase]
    change _ = Insert.insert d {e ∈ t.contents | h.comper d e ≠ 0}
    rw [← hrest]
    ext e
    rw [Set.mem_insert_iff, mem_contents]
    constructor
    · rintro ⟨w, hw, rfl⟩
      by_cases hws : w = s
      · rw [hws]
        exact .inl data_store_self
      · rw [data_store_of_ne hws]
        exact .inr ⟨w, Finset.mem_erase.mpr ⟨hws, hw⟩, rfl⟩
    · rintro (rfl | ⟨w, hw, rfl⟩)
      · exact ⟨s, hs, data_store_self⟩
      · obtain ⟨hws, hw⟩ := Finset.mem_erase.mp hw
        exact ⟨w, hw, data_store_of_ne hws⟩

theorem Probed.newcomer (hnone : search h t d (h.hasher d) = none)
    (hsize : t.size < t.soft) (hreaches : t.Reaches (h.hasher d)) :
    ∃ s, insertFrom t d (h.hasher d) (t.size + 1) 0 = (some s, t.fill s d) ∧
      Probed h (t.fill s d) ∧ (t.fill s d).contents = Insert.insert d t.contents := by
  obtain ⟨k, hk, hle, hfree, hway, hstraight⟩ := hp.exists_first hsize hreaches
  have hz : h.hasher d % t.hard < t.hard := Nat.mod_lt _ (Nat.zero_lt_of_lt hk)
  refine ⟨_, insertFrom_eq hk hfree hway hstraight (Nat.zero_le k) (by omega), ?_, ?_⟩
  · exact hp.fill (fun s hs => hp.search_none hnone hs) hsize hk hfree hway hstraight
  · exact contents_fill (place_lt hz hk) hfree

theorem Probed.present_iff :
    Present h.same t.contents d ↔ (search h t d (h.hasher d)).isSome = true :=
  hp.search_isSome_iff.symm

theorem Probed.step {op : Op δ} (hmeets : Meets h t op) :
    Probed h (step h t op).2 ∧ (step h t op).2.soft = t.soft ∧
      ((step h t op).1, (step h t op).2.contents) = setStep h t.soft t.contents op := by
  cases op with
  | insert d =>
    rw [Oht.step, setStep, hp.present_iff, hp.ncard_contents, Oht.insert]
    by_cases hfull : t.soft ≤ t.size
    · simp [hfull, hp]
    cases hfound : search h t d (h.hasher d) with
    | some s => simp [hfull, hfound, hp]
    | none =>
      have hreaches := (hmeets.resolve_left (by simp [hp.present_iff, hfound])).resolve_left hfull
      obtain ⟨s, hrun, hfilled, hcontents⟩ :=
        hp.newcomer hfound (Nat.lt_of_not_le hfull) hreaches
      simp [hfull, hfound, hrun, hfilled, hcontents]
  | upsert d =>
    rw [Oht.step, setStep, hp.present_iff, hp.ncard_contents, Oht.upsert]
    cases hfound : search h t d (h.hasher d) with
    | some s =>
      obtain ⟨hs, heq⟩ := search_some hfound
      obtain ⟨hstored, hcontents⟩ := hp.store hs heq
      simp [hstored, hcontents]
    | none =>
      by_cases hfull : t.soft ≤ t.size
      · simp [hfull, hp]
      have hreaches := (hmeets.resolve_left (by simp [hp.present_iff, hfound])).resolve_left hfull
      obtain ⟨s, hrun, hfilled, hcontents⟩ :=
        hp.newcomer hfound (Nat.lt_of_not_le hfull) hreaches
      simp [hfull, hrun, hfilled, hcontents]
  | update d =>
    rw [Oht.step, setStep, hp.present_iff, Oht.update]
    cases hfound : search h t d (h.hasher d) with
    | some s =>
      obtain ⟨hs, heq⟩ := search_some hfound
      obtain ⟨hstored, hcontents⟩ := hp.store hs heq
      simp [hstored, hcontents]
    | none => simp [hp]
  | delete d =>
    classical
    obtain ⟨hkept, hcontents, -, hsoft, hfound⟩ := hp.delete d
    refine ⟨hkept, hsoft, ?_⟩
    rw [Oht.step, setStep, hcontents]
    have hok : (Oht.delete h t d).1.isSome = decide (Present h.same t.contents d) := by
      rw [Bool.eq_iff_iff, decide_eq_true_iff]
      exact hfound
    rw [hok]
    rfl
  | clear =>
    obtain ⟨hcleared, hcontents⟩ := probed_clear (h := h) hp.room
    refine ⟨hcleared, rfl, ?_⟩
    rw [Oht.step, setStep, hcontents]

theorem Probed.run {ops : List (Op δ)} (hmeets : MeetsAll h t ops) :
    Probed h (run h t ops).2 ∧ (run h t ops).2.soft = t.soft ∧
      ((run h t ops).1, (run h t ops).2.contents) = setRun h t.soft t.contents ops := by
  induction ops generalizing t with
  | nil => exact ⟨hp, rfl, rfl⟩
  | cons op ops ih =>
    obtain ⟨hop, hmeets⟩ := hmeets
    obtain ⟨hstep, hsoft, hset⟩ := hp.step hop
    obtain ⟨hrun, hsoft', hset'⟩ := ih hstep hmeets
    refine ⟨hrun, hsoft'.trans hsoft, ?_⟩
    rw [hsoft] at hset'
    simp only [setRun, ← hset, ← hset']
    rfl

theorem Probed.way (hs : s ∈ t.occupied) :
    ∃ k, (natural h t s + k) % t.hard = s ∧
      ∀ i ≤ k, t.mark ((natural h t s + i) % t.hard) = .occupied := by
  have hslt := (mem_occupied.mp hs).1
  have hz : natural h t s < t.hard := natural_lt hslt
  have hk : steps h t s s < t.hard := offset_lt hz hslt
  refine ⟨steps h t s s, ?_, fun i hi => ?_⟩
  · rw [← place_eq_mod hz hk]
    exact place_offset hz hslt
  · have hilt := hi.trans_lt hk
    rw [← place_eq_mod hz hilt]
    apply (mem_occupied.mp _).2
    apply hp.path s hs _ (place_lt hz hilt)
    rw [steps, offset_place hz hilt]
    exact hi

end

theorem find_some {e : δ} (hfound : find h t d = some (s, e)) :
    s ∈ t.occupied ∧ t.data s = e ∧ h.comper d e = 0 := by
  obtain ⟨s', hsearch, heq⟩ := Option.map_eq_some_iff.mp hfound
  obtain ⟨hs, hzero⟩ := search_some hsearch
  cases heq
  exact ⟨hs, rfl, hzero⟩

/-- In a run whose steps all meet the condition the table answers as a set of at most the soft
limit elements does, and its elements lie behind their natural slots without a gap, also when
the table is full. -/
theorem run_refines (h : Hashing δ) {grants : ℕ → Bool} {scale : ℤ} {capa limit : ℕ}
    {junk : ℕ → δ} {t₀ : Oht δ} (hinit : init grants scale capa limit junk = some t₀)
    {ops : List (Op δ)} (hmeets : MeetsAll h t₀ ops) :
    let t := (run h t₀ ops).2
    ((run h t₀ ops).1, t.contents) = setRun h t₀.soft ∅ ops ∧
      t.size ≤ t₀.soft ∧ t.contents.ncard = t.size ∧ t.occupied.card = t.size ∧
      (∀ s ∈ t.occupied, ∀ s' ∈ t.occupied, h.comper (t.data s) (t.data s') = 0 → s = s') ∧
      (∀ d, (find h t d).isSome = true ↔ Present h.same t.contents d) ∧
      (∀ d s e, find h t d = some (s, e) → s ∈ t.occupied ∧ t.data s = e ∧ h.comper d e = 0) ∧
      ∀ s ∈ t.occupied, ∃ k, (natural h t s + k) % t.hard = s ∧
        ∀ i ≤ k, t.mark ((natural h t s + i) % t.hard) = .occupied := by
  intro t
  obtain ⟨hprobed, hempty⟩ := probed_init (h := h) hinit
  obtain ⟨hp, hsoft, hset⟩ := hprobed.run hmeets
  rw [hempty] at hset
  refine ⟨hset, hsoft ▸ hp.limit, hp.ncard_contents, hp.count, hp.distinct, fun d => ?_,
    fun d s e hfound => find_some hfound, fun s hs => hp.way hs⟩
  rw [hp.present_iff, find, Option.isSome_map]

def oneHash (hash : ℕ) (hlt : hash < 2 ^ 64) : Hashing ℕ where
  hasher _ := hash
  comper d e := if d = e then 0 else 1
  hasher_lt _ := hlt
  comper_self _ := if_pos rfl
  comper_symm := by
    intro d e heq
    split at heq
    · rename_i hde
      exact if_pos hde.symm
    · cases heq
  comper_trans := by
    intro d e f hde hef
    split at hde
    · rename_i heq
      rw [heq]
      exact hef
    · cases hde
  agree _ := rfl

/-- Three slots, a limit of two, and three elements that meet in one natural slot. -/
theorem run_refines_threeSlots :
    ∃ t₀ : Oht ℕ, init (fun _ => true) 8 3 2 (fun _ => 0) = some t₀ ∧
      ((run (oneHash 4 (by decide)) t₀ [.insert 5, .insert 6, .insert 7, .delete 5]).1,
        (run (oneHash 4 (by decide)) t₀ [.insert 5, .insert 6, .insert 7, .delete 5]).2.contents) =
          setRun (oneHash 4 (by decide)) t₀.soft ∅
            [.insert 5, .insert 6, .insert 7, .delete 5] := by
  refine ⟨_, rfl, ?_⟩
  have hmeets : MeetsAll (oneHash 4 (by decide)) ⟨3, 2, 0, fun _ => .empty, fun _ => 0⟩
      [.insert 5, .insert 6, .insert 7, .delete 5] :=
    ⟨.inr (.inr (.inr ⟨0, by decide, rfl⟩)), .inr (.inr (.inr ⟨1, by decide, rfl⟩)),
      .inr (.inl (by decide)), trivial, trivial⟩
  have hinit : init (fun _ => true) 8 3 2 (fun _ => 0) =
      some (⟨3, 2, 0, fun _ => .empty, fun _ => 0⟩ : Oht ℕ) := rfl
  exact (run_refines _ hinit hmeets).1

theorem setRun_congr {h h' : Hashing δ} (hsame : h.same = h'.same) {limit : ℕ} {S : Set δ}
    {ops : List (Op δ)} : setRun h limit S ops = setRun h' limit S ops := by
  induction ops generalizing S with
  | nil => rfl
  | cons op ops ih =>
    have hstep : setStep h limit S op = setStep h' limit S op := by
      cases op with
      | clear => rfl
      | _ => rw [setStep, setStep, hsame]
    simp only [setRun, hstep, ih]

/-- Neither the hashes nor the number of slots nor what the slots held before can be told from the
answers and the elements, which depend on the comparator, the limit and the operations. -/
theorem run_agrees {h h' : Hashing δ} (hsame : h.same = h'.same) {grants grants' : ℕ → Bool}
    {scale scale' : ℤ} {capa capa' limit limit' : ℕ} {junk junk' : ℕ → δ} {t₀ t₀' : Oht δ}
    (hinit : init grants scale capa limit junk = some t₀)
    (hinit' : init grants' scale' capa' limit' junk' = some t₀') (hsoft : t₀.soft = t₀'.soft)
    {ops : List (Op δ)} (hmeets : MeetsAll h t₀ ops) (hmeets' : MeetsAll h' t₀' ops) :
    (run h t₀ ops).1 = (run h' t₀' ops).1 ∧
      (run h t₀ ops).2.contents = (run h' t₀' ops).2.contents := by
  obtain ⟨hprobed, hempty⟩ := probed_init (h := h) hinit
  obtain ⟨hprobed', hempty'⟩ := probed_init (h := h') hinit'
  obtain ⟨-, -, hset⟩ := hprobed.run hmeets
  obtain ⟨-, -, hset'⟩ := hprobed'.run hmeets'
  rw [hempty, setRun_congr hsame, hsoft, ← hempty', ← hset'] at hset
  exact Prod.mk.inj hset

/-- The two tables have three and five slots, and all elements meet in one slot or in another. -/
theorem run_agrees_slots : ∃ t₀ t₀' : Oht ℕ,
    init (fun _ => true) 8 3 2 (fun _ => 0) = some t₀ ∧
      init (fun _ => true) 8 5 2 (fun _ => 0) = some t₀' ∧
        (run (oneHash 4 (by decide)) t₀ [.insert 5, .insert 6]).2.contents =
          (run (oneHash 7 (by decide)) t₀' [.insert 5, .insert 6]).2.contents := by
  refine ⟨⟨3, 2, 0, fun _ => .empty, fun _ => 0⟩, ⟨5, 2, 0, fun _ => .empty, fun _ => 0⟩,
    rfl, rfl, ?_⟩
  have hmeets : MeetsAll (oneHash 4 (by decide)) ⟨3, 2, 0, fun _ => .empty, fun _ => 0⟩
      [.insert 5, .insert 6] :=
    ⟨.inr (.inr (.inr ⟨0, by decide, rfl⟩)), .inr (.inr (.inr ⟨1, by decide, rfl⟩)),
      trivial⟩
  have hmeets' : MeetsAll (oneHash 7 (by decide)) ⟨5, 2, 0, fun _ => .empty, fun _ => 0⟩
      [.insert 5, .insert 6] :=
    ⟨.inr (.inr (.inr ⟨0, by decide, rfl⟩)), .inr (.inr (.inr ⟨1, by decide, rfl⟩)),
      trivial⟩
  have hsame : (oneHash 4 (by decide)).same = (oneHash 7 (by decide)).same := rfl
  have hinit : init (fun _ => true) 8 3 2 (fun _ => 0) =
      some (⟨3, 2, 0, fun _ => .empty, fun _ => 0⟩ : Oht ℕ) := rfl
  have hinit' : init (fun _ => true) 8 5 2 (fun _ => 0) =
      some (⟨5, 2, 0, fun _ => .empty, fun _ => 0⟩ : Oht ℕ) := rfl
  exact (run_agrees hsame hinit hinit' rfl hmeets hmeets').2

/-- Three slots and the largest hash: the second probe wraps and comes back to the first slot, so
a second element is refused though the table is not full. -/
theorem not_insert_new :
    ¬∀ (h : Hashing ℕ) (grants : ℕ → Bool) (scale : ℤ) (capa limit : ℕ) (junk : ℕ → ℕ)
      (t₀ : Oht ℕ) (ops : List (Op ℕ)) (d : ℕ), init grants scale capa limit junk = some t₀ →
        (insert h (run h t₀ ops).2 d).1 = none →
          Present h.same (run h t₀ ops).2.contents d ∨ t₀.soft ≤ (run h t₀ ops).2.size := by
  intro hall
  have hwrong := hall (oneHash (2 ^ 64 - 1) (by decide)) (fun _ => true) 8 3 3 (fun _ => 0)
    ⟨3, 3, 0, fun _ => .empty, fun _ => 0⟩ [.insert 0] 1 rfl rfl
  rcases hwrong with ⟨_, ⟨s, hs, rfl⟩, heq⟩ | hfull
  · have hzero : ∀ s ∈ (run (oneHash (2 ^ 64 - 1) (by decide))
        ⟨3, 3, 0, fun _ => .empty, fun _ => 0⟩ [.insert 0]).2.occupied,
        (run (oneHash (2 ^ 64 - 1) (by decide))
          ⟨3, 3, 0, fun _ => .empty, fun _ => 0⟩ [.insert 0]).2.data s = 0 := by
      decide
    rw [hzero s hs] at heq
    cases heq
  · revert hfull
    decide

end Qse.Oht
