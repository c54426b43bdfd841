import Qse.HashList.Buckets
import Mathlib.Data.Set.Card

/-!
# Runs of a list

A list is a set of values that are told apart by the equaler. The table does not grow, since the
constructor that `rehash` uses does not pass the capacity on.
-/

open List

namespace Qse.HashList

open TwoWayChain KeyedSet

variable {T : Type} {h : Hashing T} {resizer : ℕ → ℕ} {m m' : Heap T} {t t' : HashList}
  {datum : T} {gs : List (ℕ × List ℕ)}

/-- An operation on the list. -/
inductive Op (T : Type) where
  | insert (datum : T)
  | ensert (datum : T)
  | upsert (datum : T)
  | update (datum : T)
  | remove (datum : T)
  | removeNode (datum : T)
  | clear

inductive Answer (T : Type) where
  | node (value : Option T)
  | done (ok : Bool)
  deriving DecidableEq

open Classical in
noncomputable def setStep (r : Setoid T) (S : Set T) : Op T → Answer T × Set T
  | .insert datum =>
    if Present r S datum then (.node none, S) else (.node (some datum), Insert.insert datum S)
  | .ensert datum =>
    (.node (some ((kept r S datum).getD datum)),
      if Present r S datum then S else Insert.insert datum S)
  | .upsert datum => (.node (some datum), put r S datum)
  | .update datum =>
    if Present r S datum then (.node (some datum), put r S datum) else (.node none, S)
  | .remove datum | .removeNode datum => (.done (Present r S datum), erase r S datum)
  | .clear => (.done true, ∅)

noncomputable def setRun (r : Setoid T) : Set T → List (Op T) → List (Answer T) × Set T
  | S, [] => ([], S)
  | S, op :: ops =>
    let (answer, S') := setStep r S op
    let (answers, S'') := setRun r S' ops
    (answer :: answers, S'')

def step (h : Hashing T) (resizer : ℕ → ℕ) (m : Heap T) (t : HashList) :
    Op T → Option (Answer T × Heap T × HashList)
  | .insert datum => do
    let (np, _, m, t) ← inject h resizer m t datum (-1)
    return (.node (np.map m.value), m, t)
  | .ensert datum => do
    let (np, _, m, t) ← inject h resizer m t datum 0
    return (.node (np.map m.value), m, t)
  | .upsert datum => do
    let (np, _, m, t) ← inject h resizer m t datum 1
    return (.node (np.map m.value), m, t)
  | .update datum => do
    let (np, m) ← update h m t datum
    return (.node (np.map m.value), m, t)
  | .remove datum => do
    let (ok, m, t) ← remove h m t datum
    return (.done ok, m, t)
  | .removeNode datum => do
    match ← findNode h m t datum with
    | some np =>
      let (m, t) := removeNode h m t np
      return (.done true, m, t)
    | none => return (.done false, m, t)
  | .clear => do
    let t ← clear m t
    return (.done true, m, t)

def run (h : Hashing T) (resizer : ℕ → ℕ) :
    Heap T → HashList → List (Op T) → Option (List (Answer T) × Heap T × HashList)
  | m, t, [] => some ([], m, t)
  | m, t, op :: ops => do
    let (answer, m, t) ← step h resizer m t op
    let (answers, m, t) ← run h resizer m t ops
    return (answer :: answers, m, t)

def walk (next : ℕ → Option ℕ) : ℕ → Option ℕ → List ℕ
  | 0, _ => []
  | _ + 1, none => []
  | n + 1, some p => p :: walk next n (next p)

def order (m : Heap T) (t : HashList) : List ℕ :=
  walk m.next t.datumList.nodeCount t.datumList.headNode

def contents (m : Heap T) (t : HashList) : Set T := values m (order m t)

def Segmented (h : Hashing T) (m : Heap T) (t : HashList) : Prop :=
  ∀ hc < t.nodeCapacity, ∃ pre seg post, order m t = pre ++ seg ++ post ∧
    t.nodes (2 * hc) = seg.head? ∧ t.nodes (2 * hc + 1) = seg.getLast? ∧
    ∀ i ∈ order m t, i ∈ seg ↔ bucket h t (m.value i) = hc

def Triggers (h : Hashing T) (m : Heap T) (t : HashList) : Op T → Prop
  | .insert datum | .ensert datum | .upsert datum =>
    ¬Present h.same (contents m t) datum ∧ t.threshold ≤ t.datumList.nodeCount
  | _ => False

/-- An operation that triggers `rehash` leaves the capacity that the resizer returned, and any
operation leaves no more values than the threshold allows. -/
def Grown (h : Hashing T) (resizer : ℕ → ℕ) (m : Heap T) (t : HashList) (op : Op T)
    (t' : HashList) : Prop :=
  (Triggers h m t op → t'.nodeCapacity = resizer t.nodeCapacity) ∧
    t'.datumList.nodeCount ≤ t'.threshold

def GrownAll (h : Hashing T) (resizer : ℕ → ℕ) : Heap T → HashList → List (Op T) → Prop
  | _, _, [] => True
  | m, t, op :: ops => ∀ answer m' t', step h resizer m t op = some (answer, m', t') →
      Grown h resizer m t op t' ∧ GrownAll h resizer m' t' ops

/-- No step of a run triggers `rehash`. -/
def Untriggered (h : Hashing T) (resizer : ℕ → ℕ) : Heap T → HashList → List (Op T) → Prop
  | _, _, [] => True
  | m, t, op :: ops => ¬Triggers h m t op ∧ ∀ answer m' t',
      step h resizer m t op = some (answer, m', t') → Untriggered h resizer m' t' ops

theorem walk_eq {prev next : ℕ → Option ℕ} {p : Option ℕ} {as : List ℕ}
    (hchain : Chain prev next p as none) : walk next as.length (first as none) = as := by
  induction as generalizing p with
  | nil => rfl
  | cons a as ih =>
    obtain ⟨-, hnext, hrest⟩ := hchain
    rw [first_cons, length_cons, walk, hnext, ih hrest]

theorem Bucketed.order_eq (hb : Bucketed h m t gs) : order m t = flat gs := by
  rw [order, hb.threaded.nodeCount, hb.threaded.headNode]
  exact walk_eq hb.threaded.chain

theorem Listed.contents_eq (hl : Listed h m t gs) : contents m t = values m (flat gs) := by
  rw [contents, hl.order_eq]

theorem Bucketed.segmented (hb : Bucketed h m t gs) : Segmented h m t := by
  intro hc _
  obtain ⟨gs₁, seg, gs₂, heq, hhead, htail, hin, hother, _⟩ := hb.split hc
  have hflat : flat gs = flat gs₁ ++ seg ++ flat gs₂ := by
    rw [heq, flat_append, flat_append, flat_group, append_assoc]
  rw [hb.order_eq]
  refine ⟨flat gs₁, seg, flat gs₂, hflat, hhead, htail, fun i hi => ⟨hin i, fun hbucket => ?_⟩⟩
  obtain ⟨g, hg, hig⟩ := mem_flat.mp hi
  have hkey := (hb.inBucket g hg i hig).symm.trans hbucket
  rw [heq] at hg
  rcases mem_append.mp hg with hg | hg
  · exact absurd hkey (hother g (mem_append_left _ hg))
  · rcases mem_append.mp hg with hg | hg
    · obtain ⟨rfl, -⟩ := mem_group.mp hg
      exact hig
    · exact absurd hkey (hother g (mem_append_right _ hg))

theorem Listed.distinct_values (hl : Listed h m t gs) : Distinct h.same (values m (flat gs)) := by
  rintro _ ⟨i, hi, rfl⟩ _ ⟨j, hj, rfl⟩ hij
  rw [hl.distinct i hi j hj hij]

theorem Listed.ncard (hl : Listed h m t gs) : (contents m t).ncard = t.datumList.nodeCount := by
  have himage : values m (flat gs) = m.value '' ((flat gs).toFinset : Set ℕ) := by
    ext d
    simp [values]
  have hinj : Set.InjOn m.value ((flat gs).toFinset : Set ℕ) := by
    intro i hi j hj heq
    apply hl.distinct i (mem_toFinset.mp hi) j (mem_toFinset.mp hj)
    rw [heq]
    exact h.equaler_self _
  rw [hl.contents_eq, himage, hinj.ncard_image, Set.ncard_coe_finset,
    toFinset_card_of_nodup hl.threaded.nodup, hl.threaded.nodeCount]

theorem Listed.inject_new (hl : Listed h m t gs) (resizer : ℕ → ℕ) (mode : ℤ)
    (hnone : findNode h m t datum = some none)
    (habsent : ∀ i ∈ flat gs, h.equaler datum (m.value i) ≠ true) :
    ∃ node m' t' gs', inject h resizer m t datum mode = some (some node, true, m', t') ∧
      Listed h m' t' gs' ∧ values m' (flat gs') = Insert.insert datum (values m (flat gs)) ∧
      m'.value node = datum ∧
      (t.nodeCapacity = defaultCapacity → t'.nodeCapacity = defaultCapacity) ∧
      (t.datumList.nodeCount < t.threshold → t'.datumList.nodeCount ≤ t'.threshold) := by
  by_cases hdue : t.threshold ≤ t.datumList.nodeCount
  · obtain ⟨m₁, t₁, gs₁, hrehash, hl₁, hvalue, hperm, hcapa, -⟩ := hl.rehashed resizer
    have habsent₁ : ∀ i ∈ flat gs₁, h.equaler datum (m₁.value i) ≠ true := by
      intro i hi
      rw [hvalue]
      exact habsent i (hperm.mem_iff.mp hi)
    obtain ⟨m', t', gs', henter, hl', hvalues, -, hself, hhead, hcapa', -⟩ :=
      hl₁.newcomer habsent₁
    refine ⟨_, m', t', gs', ?_, hl', ?_, hself, fun _ => hcapa'.trans hcapa, fun hlt => ?_⟩
    · rw [inject, hnone]
      simp [hdue, hrehash, henter, hhead]
    · rw [hvalues, values_perm hperm, values, values, hvalue]
    · exact absurd hdue (not_le.mpr hlt)
  · obtain ⟨m', t', gs', henter, hl', hvalues, hlength, hself, hhead, hcapa, hthreshold, -⟩ :=
      hl.newcomer habsent
    refine ⟨_, m', t', gs', ?_, hl', hvalues, hself, fun h => hcapa.trans h, fun hlt => ?_⟩
    · rw [inject, hnone]
      simp [hdue, henter, hhead]
    · rw [hl'.threaded.nodeCount, hlength, ← hl.threaded.nodeCount, hthreshold]
      exact hlt

/-- What an operation leaves: a list again, with what the set has, in the same capacity. The
number of values passes the threshold only when a `rehash` is triggered. -/
structure Stepped (h : Hashing T) (m : Heap T) (t : HashList) (op : Op T) (answer : Answer T)
    (m' : Heap T) (t' : HashList) (gs' : List (ℕ × List ℕ)) : Prop where
  listed : Listed h m' t' gs'
  set : (answer, values m' (flat gs')) = setStep h.same (contents m t) op
  capacity : t.nodeCapacity = defaultCapacity → t'.nodeCapacity = defaultCapacity
  threshold : ¬Triggers h m t op → t.datumList.nodeCount ≤ t.threshold →
    t'.datumList.nodeCount ≤ t'.threshold

theorem Listed.stepped_same (hl : Listed h m' t gs) {op : Op T} {answer : Answer T}
    (hset : (answer, values m' (flat gs)) = setStep h.same (contents m t) op) :
    Stepped h m t op answer m' t gs :=
  ⟨hl, hset, id, fun _ => id⟩

theorem Listed.stepped_removed (hl : Listed h m t gs) {i : ℕ} (op : Op T) (hi : i ∈ flat gs)
    (heq : h.equaler datum (m.value i) = true) (hop : setStep h.same (contents m t) op =
      (.done true, erase h.same (values m (flat gs)) datum)) :
    ∃ m' t' gs', removeAt m t i (bucket h t (m.value i)) = (m', t') ∧
      Stepped h m t op (.done true) m' t' gs' := by
  obtain ⟨m', t', gs', hrun, hl', hvalues, hlength, hcapa, hthreshold, -⟩ := hl.removed hi heq
  refine ⟨m', t', gs', hrun, hl', ?_, fun h => hcapa.trans h, fun _ hle => ?_⟩
  · rw [hop, hvalues]
  · rw [hthreshold]
    apply le_trans _ hle
    rw [hl'.threaded.nodeCount, hl.threaded.nodeCount]
    exact hlength

theorem Listed.stepped_new (hl : Listed h m t gs) (resizer : ℕ → ℕ) (mode : ℤ) (op : Op T)
    (hnone : findNode h m t datum = some none) (hnot : ¬Present h.same (values m (flat gs)) datum)
    (habsent : ∀ i ∈ flat gs, h.equaler datum (m.value i) ≠ true)
    (hop : setStep h.same (contents m t) op =
      (.node (some datum), Insert.insert datum (values m (flat gs))))
    (htriggers : ¬Present h.same (contents m t) datum →
      t.threshold ≤ t.datumList.nodeCount → Triggers h m t op) :
    ∃ node m' t' gs', inject h resizer m t datum mode = some (some node, true, m', t') ∧
      m'.value node = datum ∧ Stepped h m t op (.node (some datum)) m' t' gs' := by
  obtain ⟨node, m', t', gs', hrun, hl', hvalues, hself, hcapa, hthreshold⟩ :=
    hl.inject_new resizer mode hnone habsent
  refine ⟨node, m', t', gs', hrun, hself, hl', ?_, hcapa, fun htrigger _ => ?_⟩
  · rw [hop, hvalues]
  · apply hthreshold
    rw [← hl.contents_eq] at hnot
    exact Nat.lt_of_not_le fun hle => htrigger (htriggers hnot hle)

theorem Bucketed.cleared (hb : Bucketed h m t gs) :
    Bucketed h m { t with
      nodes := fun i => if i < 2 * t.nodeCapacity then none else t.nodes i
      datumList := .new } [] where
  threaded := threaded_new
  keys := nodup_nil
  capacity := hb.capacity
  nonempty _ hg := absurd hg not_mem_nil
  inBucket _ hg := absurd hg not_mem_nil
  head _ hg := absurd hg not_mem_nil
  tail _ hg := absurd hg not_mem_nil
  vacant c _ := by
    by_cases hc : c < t.nodeCapacity
    · constructor
      · exact if_pos (by omega)
      · exact if_pos (by omega)
    have hvacant : c ∉ gs.map Prod.fst := by
      intro hmem
      obtain ⟨g, hg, rfl⟩ := mem_map.mp hmem
      obtain ⟨i, hi⟩ := exists_mem_of_ne_nil _ (hb.nonempty g hg)
      rw [← hb.inBucket g hg i hi] at hc
      exact hc (Nat.mod_lt _ hb.capacity)
    obtain ⟨hhead, htail⟩ := hb.vacant c hvacant
    constructor
    · exact (if_neg (by omega)).trans hhead
    · exact (if_neg (by omega)).trans htail

theorem Listed.clear (hl : Listed h m t gs) :
    ∃ t', clear m t = some t' ∧ Stepped h m t .clear (.done true) m t' [] := by
  have hempty : values m (flat []) = ∅ := by
    ext d
    constructor
    · rintro ⟨i, hi, -⟩
      exact absurd hi not_mem_nil
    · exact fun hd => absurd hd (Set.notMem_empty d)
  refine ⟨_, ?_, ⟨hl.cleared, fun i hi => ?_, fun i hi => ?_⟩, ?_, id, fun _ _ => ?_⟩
  · rw [HashList.clear, hl.threaded.clear, Option.map_some]
  · exact absurd hi not_mem_nil
  · exact absurd hi not_mem_nil
  · rw [setStep, hempty]
  · exact Nat.zero_le t.threshold

theorem Listed.step (hl : Listed h m t gs) (resizer : ℕ → ℕ) (op : Op T) :
    ∃ answer m' t' gs', step h resizer m t op = some (answer, m', t') ∧
      Stepped h m t op answer m' t' gs' := by
  have hcontents := hl.contents_eq
  cases op with
  | insert datum =>
    rcases hl.findNode_cases datum with ⟨i, hfind, hi, heq, hpresent⟩ | ⟨hfind, hnot, habsent⟩
    · refine ⟨.node none, m, t, gs, ?_, hl.stepped_same ?_⟩
      · simp [HashList.step, inject, hfind]
      · rw [hcontents, setStep, if_pos hpresent]
    · obtain ⟨node, m', t', gs', hrun, hself, hstepped⟩ :=
        hl.stepped_new resizer (-1) (.insert datum) hfind hnot habsent
          (by rw [hcontents, setStep, if_neg hnot]) And.intro
      refine ⟨.node (some datum), m', t', gs', ?_, hstepped⟩
      simp [HashList.step, hrun, hself]
  | ensert datum =>
    rcases hl.findNode_cases datum with ⟨i, hfind, hi, heq, hpresent⟩ | ⟨hfind, hnot, habsent⟩
    · refine ⟨.node (some (m.value i)), m, t, gs, ?_, hl.stepped_same ?_⟩
      · simp [HashList.step, inject, hfind]
      · rw [hcontents, setStep, if_pos hpresent, kept_eq_some hl.distinct_values ⟨i, hi, rfl⟩ heq]
        rfl
    · obtain ⟨node, m', t', gs', hrun, hself, hstepped⟩ :=
        hl.stepped_new resizer 0 (.ensert datum) hfind hnot habsent
          (by rw [hcontents, setStep, if_neg hnot, kept_of_not_present hnot]; rfl) And.intro
      refine ⟨.node (some datum), m', t', gs', ?_, hstepped⟩
      simp [HashList.step, hrun, hself]
  | upsert datum =>
    rcases hl.findNode_cases datum with ⟨i, hfind, hi, heq, -⟩ | ⟨hfind, hnot, habsent⟩
    · obtain ⟨hl', hvalues⟩ := hl.overwrite hi heq
      refine ⟨.node (some datum), _, t, gs, ?_, hl'.stepped_same ?_⟩
      · simp [HashList.step, inject, hfind]
      · rw [hcontents, setStep, hvalues]
    · obtain ⟨node, m', t', gs', hrun, hself, hstepped⟩ :=
        hl.stepped_new resizer 1 (.upsert datum) hfind hnot habsent
          (by rw [hcontents, setStep, put, erase_of_not_present hnot]) And.intro
      refine ⟨.node (some datum), m', t', gs', ?_, hstepped⟩
      simp [HashList.step, hrun, hself]
  | update datum =>
    rcases hl.findNode_cases datum with ⟨i, hfind, hi, heq, hpresent⟩ | ⟨hfind, hnot, -⟩
    · obtain ⟨hl', hvalues⟩ := hl.overwrite hi heq
      refine ⟨.node (some datum), _, t, gs, ?_, hl'.stepped_same ?_⟩
      · simp [HashList.step, HashList.update, hfind]
      · rw [hcontents, setStep, if_pos hpresent, hvalues]
    · refine ⟨.node none, m, t, gs, ?_, hl.stepped_same ?_⟩
      · simp [HashList.step, HashList.update, hfind]
      · rw [hcontents, setStep, if_neg hnot]
  | remove datum =>
    rcases hl.findNode_cases datum with ⟨i, hfind, hi, heq, hpresent⟩ | ⟨hfind, hnot, -⟩
    · have hbucket : bucket h t datum = bucket h t (m.value i) := by
        rw [bucket, bucket, h.agree heq]
      obtain ⟨m', t', gs', hrun, hstepped⟩ :=
        hl.stepped_removed (.remove datum) hi heq (by simp [setStep, hcontents, hpresent])
      refine ⟨.done true, m', t', gs', ?_, hstepped⟩
      simp [HashList.step, HashList.remove, hfind, hbucket, hrun]
    · refine ⟨.done false, m, t, gs, ?_, hl.stepped_same ?_⟩
      · simp [HashList.step, HashList.remove, hfind]
      · simp [setStep, hcontents, hnot, erase_of_not_present hnot]
  | removeNode datum =>
    rcases hl.findNode_cases datum with ⟨i, hfind, hi, heq, hpresent⟩ | ⟨hfind, hnot, -⟩
    · obtain ⟨m', t', gs', hrun, hstepped⟩ :=
        hl.stepped_removed (.removeNode datum) hi heq
          (by simp [setStep, hcontents, hpresent])
      refine ⟨.done true, m', t', gs', ?_, hstepped⟩
      simp [HashList.step, HashList.removeNode, hfind, hrun]
    · refine ⟨.done false, m, t, gs, ?_, hl.stepped_same ?_⟩
      · simp [HashList.step, hfind]
      · simp [setStep, hcontents, hnot, erase_of_not_present hnot]
  | clear =>
    obtain ⟨t', hrun, hstepped⟩ := hl.clear
    refine ⟨.done true, m, t', [], ?_, hstepped⟩
    simp [HashList.step, hrun]

theorem Listed.findNode_self (hl : Listed h m t gs) {i : ℕ} (hi : i ∈ flat gs) :
    findNode h m t (m.value i) = some (some i) := by
  rcases hl.findNode_cases (m.value i) with ⟨j, hfind, hj, heq, -⟩ | ⟨-, -, habsent⟩
  · rw [hfind, hl.distinct i hi j hj heq]
  · exact absurd (h.equaler_self _) (habsent i hi)

theorem Listed.run (hl : Listed h m t gs) (resizer : ℕ → ℕ) (ops : List (Op T)) :
    ∃ answers m' t' gs', run h resizer m t ops = some (answers, m', t') ∧ Listed h m' t' gs' ∧
      (answers, contents m' t') = setRun h.same (contents m t) ops := by
  induction ops generalizing m t gs with
  | nil => exact ⟨[], m, t, gs, rfl, hl, rfl⟩
  | cons op ops ih =>
    obtain ⟨answer, m₁, t₁, gs₁, hstep, hstepped⟩ := hl.step resizer op
    obtain ⟨answers, m', t', gs', hrun, hl', hset'⟩ := ih hstepped.listed
    refine ⟨answer :: answers, m', t', gs', ?_, hl', ?_⟩
    · simp [HashList.run, hstep, hrun]
    · have hset := hstepped.set
      rw [← hstepped.listed.contents_eq] at hset
      simp only [setRun, ← hset, ← hset']

theorem Listed.grownAll_iff (hl : Listed h m t gs)
    (hmore : defaultCapacity < resizer defaultCapacity) (hcapa : t.nodeCapacity = defaultCapacity)
    (hle : t.datumList.nodeCount ≤ t.threshold) (ops : List (Op T)) :
    GrownAll h resizer m t ops ↔ Untriggered h resizer m t ops := by
  induction ops generalizing m t gs with
  | nil => exact Iff.rfl
  | cons op ops ih =>
    obtain ⟨answer, m', t', gs', hstep, hstepped⟩ := hl.step resizer op
    have honly {P : Answer T → Heap T → HashList → Prop} :
        (∀ answer m' t', HashList.step h resizer m t op = some (answer, m', t') →
          P answer m' t') ↔ P answer m' t' := by
      rw [hstep]
      constructor
      · exact fun hall => hall _ _ _ rfl
      · rintro hone _ _ _ ⟨⟩
        exact hone
    have hcapa' := hstepped.capacity hcapa
    rw [GrownAll, Untriggered, honly (P := fun _ m' t' => Grown h resizer m t op t' ∧ _),
      honly (P := fun _ m' t' => Untriggered h resizer m' t' ops)]
    constructor
    · rintro ⟨⟨hresized, hle'⟩, hgrown⟩
      refine ⟨fun htrigger => ?_, (ih hstepped.listed hcapa' hle').mp hgrown⟩
      have hsame := hresized htrigger
      rw [hcapa, hcapa'] at hsame
      exact Nat.ne_of_lt hmore hsame
    · rintro ⟨hnot, huntriggered⟩
      have hle' := hstepped.threshold hnot hle
      refine ⟨⟨fun htrigger => absurd htrigger hnot, hle'⟩, ?_⟩
      exact (ih hstepped.listed hcapa' hle').mpr huntriggered

theorem listed_ofCapacity (h : Hashing T) (m : Heap T) (nodeCapacity loadFactor : ℕ) :
    Listed h m (ofCapacity nodeCapacity loadFactor) [] :=
  ⟨bucketed_initList _ _, fun _ hi => absurd hi not_mem_nil, fun _ hi => absurd hi not_mem_nil⟩

/-- Every run yields a set of values, each found in its own node, and segments for the buckets.
The capacity is what the resizer returned just in the runs in which nothing triggers `rehash`. -/
theorem list_run_refines (h : Hashing T) {resizer : ℕ → ℕ} (hmore : ∀ c < 2 ^ 64 - 1, c < resizer c)
    (m₀ : Heap T) (nodeCapacity loadFactor : ℕ) (ops : List (Op T)) :
    ∃ answers m t, run h resizer m₀ (ofCapacity nodeCapacity loadFactor) ops =
        some (answers, m, t) ∧
      (answers, contents m t) = setRun h.same ∅ ops ∧ Distinct h.same (contents m t) ∧
      (contents m t).ncard = t.datumList.nodeCount ∧
      (∀ i ∈ order m t, findNode h m t (m.value i) = some (some i)) ∧ Segmented h m t ∧
      (GrownAll h resizer m₀ (ofCapacity nodeCapacity loadFactor) ops ↔
        Untriggered h resizer m₀ (ofCapacity nodeCapacity loadFactor) ops) := by
  have hl₀ := listed_ofCapacity h m₀ nodeCapacity loadFactor
  obtain ⟨answers, m, t, gs, hrun, hl, hset⟩ := hl₀.run resizer ops
  have hempty : contents m₀ (ofCapacity nodeCapacity loadFactor) = ∅ := by
    ext d
    constructor
    · rintro ⟨i, hi, -⟩
      exact absurd hi not_mem_nil
    · exact fun hd => absurd hd (Set.notMem_empty d)
  rw [hempty] at hset
  refine ⟨answers, m, t, hrun, hset, ?_, hl.ncard, fun i hi => ?_, hl.segmented, ?_⟩
  · rw [hl.contents_eq]
    exact hl.distinct_values
  · rw [hl.order_eq] at hi
    exact hl.findNode_self hi
  · exact hl₀.grownAll_iff (hmore _ (by decide)) rfl (Nat.zero_le _) ops

def numbers : Hashing ℕ where
  hasher d := d % 10000
  equaler d e := d == e
  equaler_self d := beq_self_eq_true d
  equaler_symm heq := beq_iff_eq.mpr (beq_iff_eq.mp heq).symm
  equaler_trans hde hef := beq_iff_eq.mpr ((beq_iff_eq.mp hde).trans (beq_iff_eq.mp hef))
  agree heq := by rw [beq_iff_eq.mp heq]

def noNodes : Heap ℕ := ⟨fun _ => 0, fun _ => none, fun _ => none, 0⟩

/-- Two colliding values and a third one, of which one is removed again. -/
theorem list_run_refines_collision :
    ∃ answers m t, run numbers (fun c => 2 * c + 1) noNodes (ofCapacity 10 75)
        [.insert 7, .insert 17, .ensert 4, .remove 7] = some (answers, m, t) ∧
      (answers, contents m t) =
        setRun numbers.same ∅ [.insert 7, .insert 17, .ensert 4, .remove 7] := by
  have hmore : ∀ c < 2 ^ 64 - 1, c < (fun c => 2 * c + 1) c := by
    intro c _
    simp only
    omega
  obtain ⟨answers, m, t, hrun, hset, -⟩ :=
    list_run_refines numbers hmore noNodes 10 75 [.insert 7, .insert 17, .ensert 4, .remove 7]
  exact ⟨answers, m, t, hrun, hset⟩

/-- Neither the hashes nor the buckets, however many there are and however they grow, nor the nodes
can be told from the answers and the values, which depend on the equaler and the operations. -/
theorem list_run_agrees {h h' : Hashing T} (hsame : h.same = h'.same) (resizer resizer' : ℕ → ℕ)
    (m₀ m₀' : Heap T) (nodeCapacity nodeCapacity' loadFactor loadFactor' : ℕ) (ops : List (Op T)) :
    ∃ answers m m' t t', run h resizer m₀ (ofCapacity nodeCapacity loadFactor) ops =
        some (answers, m, t) ∧
      run h' resizer' m₀' (ofCapacity nodeCapacity' loadFactor') ops = some (answers, m', t') ∧
      contents m t = contents m' t' := by
  have hempty {m : Heap T} {c l : ℕ} : contents m (ofCapacity c l) = ∅ := by
    ext d
    constructor
    · rintro ⟨i, hi, -⟩
      exact absurd hi not_mem_nil
    · exact fun hd => absurd hd (Set.notMem_empty d)
  obtain ⟨answers, m, t, gs, hrun, hl, hset⟩ :=
    (listed_ofCapacity h m₀ nodeCapacity loadFactor).run resizer ops
  obtain ⟨answers', m', t', gs', hrun', hl', hset'⟩ :=
    (listed_ofCapacity h' m₀' nodeCapacity' loadFactor').run resizer' ops
  rw [hempty, hsame, ← @hempty m₀' nodeCapacity' loadFactor', ← hset'] at hset
  obtain ⟨rfl, hcontents⟩ := Prod.mk.inj hset
  exact ⟨answers, m, m', t, t', hrun, hrun', hcontents⟩

def oneHash : Hashing ℕ := { numbers with hasher := fun _ => 0, agree := fun _ => rfl }

/-- The remainders against one hash for all, and lists of different capacities -/
theorem list_run_agrees_oneHash :
    ∃ answers m m' t t', run numbers (fun c => 2 * c + 1) noNodes (ofCapacity 10 75)
        [.insert 7, .insert 17, .ensert 4, .remove 7] = some (answers, m, t) ∧
      run oneHash (fun c => c + 1) noNodes (ofCapacity 1 20)
        [.insert 7, .insert 17, .ensert 4, .remove 7] = some (answers, m', t') ∧
      contents m t = contents m' t' := by
  have hsame : numbers.same = oneHash.same := rfl
  exact list_run_agrees hsame _ _ noNodes noNodes 10 1 75 20
    [.insert 7, .insert 17, .ensert 4, .remove 7]

/-- With a load factor of 20 the third value triggers `rehash`, and the capacity stays 10. -/
theorem not_grownAll :
    ¬∀ (h : Hashing ℕ) (resizer : ℕ → ℕ), (∀ c < 2 ^ 64 - 1, c < resizer c) →
      ∀ (m₀ : Heap ℕ) (nodeCapacity loadFactor : ℕ) (ops : List (Op ℕ)),
        GrownAll h resizer m₀ (ofCapacity nodeCapacity loadFactor) ops := by
  intro hall
  have hgrown := hall numbers (fun c => 2 * c + 1) (fun c _ => by omega) noNodes 10 20
    [.insert 1, .insert 2, .insert 3]
  obtain ⟨-, hgrown⟩ := hgrown _ _ _ rfl
  obtain ⟨-, hgrown⟩ := hgrown _ _ _ rfl
  obtain ⟨⟨hresized, -⟩, -⟩ := hgrown _ _ _ rfl
  refine absurd (hresized ⟨?_, by decide⟩) (by decide)
  rintro ⟨_, ⟨i, hi, rfl⟩, heq⟩
  change numbers.equaler 3 _ = true at heq
  revert i
  decide

end Qse.HashList
