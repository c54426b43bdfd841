import Qse.Htb.Model
import Mathlib.Data.List.Flatten
import Mathlib.Data.List.Perm.Basic

/-!
# The shape of a hash table

The slots of the bucket lead to chains of pairs, each pair in the chain that its key is hashed to.
-/

open Function List Option

namespace Qse.Htb

open ForwardChain StateProgram

variable {κ : Type}

abbrev Entry (κ : Type) := ℕ × PairData κ

/-- The chains of the bucket are `cs`. -/
structure Shape (t : Htb κ) (cs : List (List (Entry κ))) : Prop where
  capa_pos : 0 < t.capa
  block : t.bucket.length = t.capa
  small : t.capa * 8 < 2 ^ 63
  len : cs.length = t.capa
  chains : ∀ (i : ℕ) (p : Option ℕ) (l : List (Entry κ)), t.bucket[i]? = some p →
    cs[i]? = some l → Segment t.mem p l none
  nodup : (addrs cs.flatten).Nodup
  size : t.size = cs.flatten.length
  placed : ∀ (i : ℕ) (l : List (Entry κ)), cs[i]? = some l → ∀ e ∈ l, t.slotOf e.2.key = i

/-- The pairs of all chains but the one at `h`. -/
def others (cs : List (List (Entry κ))) (h : ℕ) : List (Entry κ) := (cs.eraseIdx h).flatten

section Chains

variable {cs : List (List (Entry κ))} {h i : ℕ} {l l' : List (Entry κ)}

theorem flatten_perm (hl : cs[h]? = some l) : cs.flatten.Perm (l ++ others cs h) := by
  obtain ⟨hlt, rfl⟩ := List.getElem?_eq_some_iff.mp hl
  exact (getElem_cons_eraseIdx_perm hlt).symm.flatten

theorem flatten_set_perm (hl : cs[h]? = some l) :
    (cs.set h l').flatten.Perm (l' ++ others cs h) := by
  obtain ⟨hlt, -⟩ := List.getElem?_eq_some_iff.mp hl
  exact (set_perm_cons_eraseIdx hlt l').flatten

theorem mem_others (hi : cs[i]? = some l) (hne : i ≠ h) {e : Entry κ} (he : e ∈ l) :
    e ∈ others cs h :=
  mem_flatten.mpr ⟨l, mem_eraseIdx_iff_getElem?.mpr ⟨i, hne, hi⟩, he⟩

end Chains

section Shape

variable {t t' : Htb κ} {cs : List (List (Entry κ))} {h : ℕ} {l l' : List (Entry κ)}

theorem Shape.slot_lt (hs : Shape t cs) (key : κ) : t.slotOf key < t.capa :=
  Nat.mod_lt _ hs.capa_pos

theorem Shape.slot (hs : Shape t cs) (key : κ) :
    ∃ p l, t.bucket[t.slotOf key]? = some p ∧ cs[t.slotOf key]? = some l ∧
      Segment t.mem p l none := by
  have hlt := hs.slot_lt key
  have hp : t.slotOf key < t.bucket.length := hs.block ▸ hlt
  have hl : t.slotOf key < cs.length := hs.len ▸ hlt
  have hp := getElem?_eq_getElem hp
  have hl := getElem?_eq_getElem hl
  exact ⟨_, _, hp, hl, hs.chains _ _ _ hp hl⟩

theorem Shape.nodup_around (hs : Shape t cs) (hl : cs[h]? = some l) :
    (addrs (l ++ others cs h)).Nodup :=
  ((flatten_perm hl).map Prod.fst).nodup_iff.mp hs.nodup

theorem Shape.mem_eq (hs : Shape t cs) {e : Entry κ} (he : e ∈ cs.flatten) :
    ∃ next, t.mem e.1 = some ⟨e.2, next⟩ := by
  obtain ⟨l, hl, he⟩ := mem_flatten.mp he
  obtain ⟨i, hi⟩ := getElem?_of_mem hl
  have hlt : i < t.bucket.length := by
    rw [hs.block, ← hs.len]
    exact (List.getElem?_eq_some_iff.mp hi).1
  exact (hs.chains i _ l (getElem?_eq_getElem hlt) hi).mem_eq he

theorem Shape.set (hs : Shape t cs) (hl : cs[h]? = some l) (hcapa : t'.capa = t.capa)
    (hhasher : t'.hasher = t.hasher) (hlen : t'.bucket.length = t.bucket.length)
    (hbucket : ∀ i, i ≠ h → t'.bucket[i]? = t.bucket[i]?)
    (hchain : ∃ p, t'.bucket[h]? = some p ∧ Segment t'.mem p l' none)
    (hmem : ∀ a ∈ addrs (others cs h), t'.mem a = t.mem a)
    (hnodup : (addrs (l' ++ others cs h)).Nodup) (hsize : t'.size = (l' ++ others cs h).length)
    (hplaced : ∀ e ∈ l', t.slotOf e.2.key = h) : Shape t' (cs.set h l') := by
  have hslot : ∀ key, t'.slotOf key = t.slotOf key := by
    intro key
    rw [slotOf, slotOf, hcapa, hhasher]
  have hperm : (cs.set h l').flatten.Perm (l' ++ others cs h) := flatten_set_perm hl
  have hlt := (List.getElem?_eq_some_iff.mp hl).1
  refine ⟨hcapa ▸ hs.capa_pos, by rw [hlen, hs.block, hcapa], hcapa ▸ hs.small,
    by rw [length_set, hs.len, hcapa], ?_, (hperm.map Prod.fst).nodup_iff.mpr hnodup,
    by rw [hsize, hperm.length_eq], ?_⟩
  · intro i p li hp hi
    by_cases hih : i = h
    · subst hih
      rw [getElem?_set_self hlt] at hi
      cases hi
      obtain ⟨q, hq, hseg⟩ := hchain
      obtain rfl : p = q := some.inj (hp.symm.trans hq)
      exact hseg
    · rw [getElem?_set_ne (Ne.symm hih)] at hi
      rw [hbucket i hih] at hp
      refine (hs.chains i p li hp hi).congr fun a ha => hmem a ?_
      obtain ⟨e, he, rfl⟩ := mem_map.mp ha
      exact mem_map_of_mem (mem_others hi hih he)
  · intro i li hi e he
    rw [hslot]
    by_cases hih : i = h
    · subst hih
      rw [getElem?_set_self hlt] at hi
      cases hi
      exact hplaced e he
    · rw [getElem?_set_ne (Ne.symm hih)] at hi
      exact hs.placed i li hi e he

end Shape

variable {t : Htb κ} {a : ℕ} {n : Pair κ} {Q : PUnit → Htb κ → Prop} {p : Option ℕ}

theorem returns_load {Q : Pair κ → Htb κ → Prop}
    (hn : t.mem a = some n) : Returns (load a) t Q ↔ Q n t := by
  rw [load, returns_bind, returns_get, hn, returns_pure]

theorem returns_setNext {next : Option ℕ} (hn : t.mem a = some n) :
    Returns (setNext a next) t Q ↔ Q ⟨⟩ (t.put a { n with next := next }) := by
  rw [setNext, returns_bind, returns_load hn, returns_modify]

theorem returns_setData {d : PairData κ} (hn : t.mem a = some n) :
    Returns (setData a d) t Q ↔ Q ⟨⟩ (t.put a { n with item := d }) := by
  rw [setData, returns_bind, returns_load hn, returns_modify]

theorem returns_loadBucket {hc : ℕ} {Q : Option ℕ → Htb κ → Prop}
    (hp : t.bucket[hc]? = some p) : Returns (loadBucket hc) t Q ↔ Q p t := by
  rw [loadBucket, returns_bind, returns_get, hp, returns_pure]

theorem returns_setBucket {hc : ℕ} (hhc : hc < t.bucket.length) :
    Returns (setBucket hc p) t Q ↔ Q ⟨⟩ { t with bucket := t.bucket.set hc p } := by
  rw [setBucket, returns_bind, returns_get, if_pos hhc]
  exact returns_modify (f := fun _ => { t with bucket := t.bucket.set hc p })

theorem returns_setSize {f : ℕ → ℕ} : Returns (setSize f) t Q ↔ Q ⟨⟩ { t with size := f t.size } :=
  returns_modify

theorem returns_log {cs : List (Callback κ)} :
    Returns (log cs) t Q ↔ Q ⟨⟩ { t with calls := t.calls ++ cs } :=
  returns_modify

theorem returns_freepair (hn : t.mem a = some n) :
    Returns (freepair a) t Q ↔
      Q ⟨⟩ ({ t with calls := t.calls ++ freeCalls t.style n.item }.drop a) := by
  rw [freepair, returns_bind, returns_load hn, returns_bind, returns_get, returns_bind,
    returns_log, returns_modify]

def HasKey (t : Htb κ) (key : κ) (e : Entry κ) : Prop := t.style.comper e.2.key key = 0

def Walked (t : Htb κ) (key : κ) (l : List (Entry κ)) (prev : Option ℕ)
    (r : Option ℕ × Option ℕ) : Prop :=
  (∃ pre e post, l = pre ++ e :: post ∧ (∀ x ∈ pre, ¬t.HasKey key x) ∧ t.HasKey key e ∧
      r = (last prev pre, some e.1)) ∨
    ((∀ x ∈ l, ¬t.HasKey key x) ∧ r.2 = none)

theorem findFrom_returns {key : κ} {fuel : ℕ} {prev : Option ℕ} {l : List (Entry κ)}
    (hl : Segment t.mem p l none) (hfuel : l.length ≤ fuel) :
    Returns (findFrom key fuel prev p) t fun r t' => t' = t ∧ Walked t key l prev r := by
  induction l generalizing fuel prev p with
  | nil =>
    cases hl
    cases fuel <;> exact returns_pure.mpr ⟨rfl, .inr ⟨by simp, rfl⟩⟩
  | cons e l ih =>
    obtain ⟨rfl, next, hcell, hl⟩ := hl
    cases fuel with
    | zero => simp at hfuel
    | succ fuel =>
      rw [findFrom, returns_bind, returns_load hcell, returns_bind, returns_get]
      refine returns_ite (fun hkey => ?_) fun hno => ?_
      · exact returns_pure.mpr ⟨rfl, .inl ⟨[], e, l, rfl, by simp, hkey, rfl⟩⟩
      · rw [length_cons] at hfuel
        refine (ih hl (by omega)).mono ?_
        rintro r t1 ⟨hsame, ⟨pre, x, post, rfl, hpre, hx, rfl⟩ | ⟨hall, hr⟩⟩
        · refine ⟨hsame, .inl ⟨e :: pre, x, post, rfl, ?_, hx, rfl⟩⟩
          exact forall_mem_cons.mpr ⟨hno, hpre⟩
        · exact ⟨hsame, .inr ⟨forall_mem_cons.mpr ⟨hno, hall⟩, hr⟩⟩

variable {κ : Type}

/-! ## Making and changing pairs -/

/-- The pair that `allocpair` returns. -/
def made (t : Htb κ) (env : PairEnv κ) (key : κ) (val : Buffer) : Option (Entry κ) :=
  (t.mmgrAlloc env.block).bind fun a => (fillPair t.style env key val).1.map fun d => (a, d)

def changed (t : Htb κ) (env : PairEnv κ) (e : Entry κ) (val : Buffer) : Option (Entry κ) :=
  match changeOf t.style env e.2 val with
  | .keep => some e
  | .fail => none
  | .set d => some (e.1, d)
  | .rebuild => made t env e.2.key val

def cbMade (t : Htb κ) : Cbserted κ → Option (Entry κ)
  | .fail => none
  | .keep _ _ _ => none
  | .make block d => (t.mmgrAlloc block).map fun a => (a, d)

/-- The pair that a `cbserter` returns for `e`. -/
def cbChanged (t : Htb κ) (e : Entry κ) : Cbserted κ → Option (Entry κ)
  | .fail => none
  | .keep vptr vlen vbuf => some (e.1, { e.2 with vptr := vptr, vlen := vlen, vbuf := vbuf })
  | .make block d => (t.mmgrAlloc block).map fun a => (a, d)

structure Alters (t t' : Htb κ) : Prop where
  style : t'.style = t.style
  hasher : t'.hasher = t.hasher
  capa : t'.capa = t.capa
  size : t'.size = t.size
  bucket : t'.bucket = t.bucket

structure Made (t : Htb κ) (r : Option (Entry κ)) (t' : Htb κ) : Prop where
  alters : Alters t t'
  mem : match r with
    | none => t'.mem = t.mem
    | some e => t.mem e.1 = none ∧ t'.mem = update t.mem e.1 (some ⟨e.2, none⟩)

/-- The pair `e` has new contents, or another pair has been made and `e` is gone, or
nothing has happened. -/
structure Exchanged (t : Htb κ) (e : Entry κ) (next : Option ℕ) (r : Option (Entry κ))
    (t' : Htb κ) : Prop where
  alters : Alters t t'
  mem : match r with
    | none => t'.mem = t.mem
    | some e' =>
      (e'.1 = e.1 ∧ t'.mem = update t.mem e.1 (some ⟨e'.2, next⟩)) ∨
        (t.mem e'.1 = none ∧ t'.mem = update (update t.mem e'.1 (some ⟨e'.2, none⟩)) e.1 none)

section Make

variable {t : Htb κ}

theorem mmgrAlloc_cases (t : Htb κ) (block : Option ℕ) :
    t.mmgrAlloc block = none ∨ ∃ a, t.mmgrAlloc block = some a ∧ t.mem a = none := by
  cases block with
  | none => exact .inl rfl
  | some a =>
    cases ha : t.mem a with
    | none => exact .inr ⟨a, by simp [mmgrAlloc, ha], ha⟩
    | some n => exact .inl (by simp [mmgrAlloc, ha])

theorem alters_log (t : Htb κ) (mem : ℕ → Option (Pair κ)) (calls : List (Callback κ)) :
    Alters t { t with mem := mem, calls := calls } :=
  ⟨rfl, rfl, rfl, rfl, rfl⟩

theorem allocpair_returns (t : Htb κ) (env : PairEnv κ) (key : κ) (val : Buffer) :
    Returns (allocpair env key val) t fun p t' =>
      p = (made t env key val).map Prod.fst ∧ Made t (made t env key val) t' := by
  rw [allocpair, returns_bind, returns_get, made]
  rcases t.mmgrAlloc_cases env.block with hnull | ⟨a, ha, hfree⟩
  · rw [hnull]
    exact returns_pure.mpr ⟨rfl, alters_log t _ _, rfl⟩
  rw [ha]
  simp only [bind_some]
  rw [returns_bind, returns_log]
  cases (fillPair t.style env key val).1 with
  | none => exact returns_pure.mpr ⟨rfl, alters_log t _ _, rfl⟩
  | some d =>
    simp only [returns_bind, returns_modify, returns_pure]
    exact ⟨rfl, alters_log t _ _, hfree, rfl⟩

theorem changePairVal_returns {e : Entry κ} {next : Option ℕ} (env : PairEnv κ) (val : Buffer)
    (hcell : t.mem e.1 = some ⟨e.2, next⟩) :
    Returns (changePairVal env e.1 val) t fun p t' =>
      p = (changed t env e val).map Prod.fst ∧ Exchanged t e next (changed t env e val) t' := by
  rw [changePairVal, returns_bind, returns_load hcell, returns_bind, returns_get, changed]
  cases changeOf t.style env e.2 val with
  | keep =>
    simp only [returns_bind, returns_log, returns_pure]
    refine ⟨rfl, alters_log t _ _, .inl ⟨rfl, ?_⟩⟩
    rw [← hcell, update_eq_self]
  | fail => exact returns_pure.mpr ⟨rfl, alters_log t _ _, rfl⟩
  | set d =>
    simp only [returns_bind]
    rw [returns_setData hcell]
    simp only [returns_log, returns_pure]
    exact ⟨rfl, alters_log t _ _, .inl ⟨rfl, rfl⟩⟩
  | rebuild =>
    simp only [returns_bind]
    refine (allocpair_returns t env e.2.key val).mono ?_
    rintro - t1 ⟨rfl, halters, hmem⟩
    cases hmade : made t env e.2.key val with
    | none =>
      rw [hmade] at hmem
      exact returns_pure.mpr ⟨rfl, halters, hmem⟩
    | some e' =>
      rw [hmade] at hmem
      obtain ⟨hfree, hmem⟩ := hmem
      have hne : e.1 ≠ e'.1 := by
        intro heq
        rw [heq, hfree] at hcell
        cases hcell
      have hcell' : t1.mem e.1 = some ⟨e.2, next⟩ := by
        rw [hmem, update_of_ne hne, hcell]
      simp only [map_some, returns_bind]
      rw [returns_freepair hcell', returns_pure]
      refine ⟨rfl, ⟨halters.style, halters.hasher, halters.capa, halters.size,
        halters.bucket⟩, .inr ⟨hfree, ?_⟩⟩
      rw [← hmem]
      rfl

theorem callCbserter_none_returns (t : Htb κ) (out : Cbserted κ) :
    Returns (callCbserter out none) t fun p t' =>
      p = (cbMade t out).map Prod.fst ∧ Made t (cbMade t out) t' := by
  cases out with
  | fail | keep vptr vlen vbuf => exact returns_pure.mpr ⟨rfl, alters_log t _ _, rfl⟩
  | make block d =>
    rw [callCbserter, returns_bind, returns_get, cbMade]
    rcases t.mmgrAlloc_cases block with hnull | ⟨a, ha, hfree⟩
    · rw [hnull]
      exact returns_pure.mpr ⟨rfl, alters_log t _ _, rfl⟩
    · rw [ha]
      simp only [returns_bind, returns_modify, returns_pure]
      exact ⟨rfl, alters_log t _ _, hfree, rfl⟩

theorem callCbserter_some_returns {e : Entry κ} {next : Option ℕ} (out : Cbserted κ)
    (hcell : t.mem e.1 = some ⟨e.2, next⟩) :
    Returns (callCbserter out (some e.1)) t fun p t' =>
      p = (cbChanged t e out).map Prod.fst ∧ Exchanged t e next (cbChanged t e out) t' := by
  cases out with
  | fail => exact returns_pure.mpr ⟨rfl, alters_log t _ _, rfl⟩
  | keep vptr vlen vbuf =>
    rw [callCbserter, returns_bind, returns_load hcell, returns_bind, returns_setData hcell,
      returns_pure]
    exact ⟨rfl, alters_log t _ _, .inl ⟨rfl, rfl⟩⟩
  | make block d =>
    rw [callCbserter, returns_bind, returns_get, cbChanged]
    rcases t.mmgrAlloc_cases block with hnull | ⟨a, ha, hfree⟩
    · rw [hnull]
      exact returns_pure.mpr ⟨rfl, alters_log t _ _, rfl⟩
    rw [ha]
    have hne : e.1 ≠ a := by
      intro heq
      rw [heq, hfree] at hcell
      cases hcell
    have hcell' : (t.put a ⟨d, none⟩).mem e.1 = some ⟨e.2, next⟩ := by
      rw [← hcell]
      exact update_of_ne hne _ _
    simp only [returns_bind, returns_modify]
    rw [returns_freepair hcell', returns_pure]
    exact ⟨rfl, alters_log t _ _, .inr ⟨hfree, rfl⟩⟩

end Make

/-- The chain at `h` now begins with the pairs of `pre` followed by what `q` points
to, and the other chains are untouched. -/
structure Relinked (t : Htb κ) (h : ℕ) (pre : List (Entry κ)) (q : Option ℕ) (t' : Htb κ) :
    Prop where
  style : t'.style = t.style
  hasher : t'.hasher = t.hasher
  capa : t'.capa = t.capa
  size : t'.size = t.size
  length : t'.bucket.length = t.bucket.length
  other : ∀ i, i ≠ h → t'.bucket[i]? = t.bucket[i]?
  chain : ∃ p, t'.bucket[h]? = some p ∧ Segment t'.mem p pre q
  mem : ∀ a, a ∉ addrs pre → t'.mem a = t.mem a

theorem relink_returns {t : Htb κ} {h : ℕ} {p r : Option ℕ} {pre : List (Entry κ)}
    (hp : t.bucket[h]? = some p) (hpre : Segment t.mem p pre r) (hnodup : (addrs pre).Nodup)
    (q : Option ℕ) :
    Returns (relink h (last none pre) q) t fun _ t' => Relinked t h pre q t' := by
  have hlt := (List.getElem?_eq_some_iff.mp hp).1
  rcases pre.eq_nil_or_concat' with rfl | ⟨l, e, rfl⟩
  · rw [last, relink, returns_setBucket hlt]
    refine ⟨rfl, rfl, rfl, rfl, length_set, fun i hi => getElem?_set_ne (Ne.symm hi),
      ⟨q, getElem?_set_self hlt, rfl⟩, fun _ _ => rfl⟩
  obtain ⟨s, -, -, next, hcell, -⟩ := segment_append.mp hpre
  have hnot : e.1 ∉ addrs l := by
    rw [addrs_append] at hnodup
    intro hmem
    exact (nodup_append.mp hnodup).2.2 _ hmem _ (by simp) rfl
  rw [last_concat, relink, returns_setNext hcell]
  refine ⟨rfl, rfl, rfl, rfl, rfl, fun _ _ => rfl, ⟨p, hp, hpre.redirect hnot q⟩, ?_⟩
  intro a ha
  refine update_of_ne ?_ _ _
  rintro rfl
  exact ha (by simp)

/-! ## Putting the pair into its chain -/

section Link

variable {t t1 : Htb κ} {cs : List (List (Entry κ))} {h : ℕ} {pre post l : List (Entry κ)}
  {e : Entry κ} {next : Option ℕ} {r : Option (Entry κ)}

theorem Shape.around (hs : Shape t cs) (hl : cs[h]? = some (pre ++ e :: post)) :
    (addrs pre).Nodup ∧ e.1 ∉ addrs pre ∧ e.1 ∉ addrs post ∧ e.1 ∉ addrs (others cs h) ∧
      (∀ a ∈ addrs post, a ∉ addrs pre) ∧ (∀ a ∈ addrs (others cs h), a ∉ addrs pre) := by
  have hnodup := hs.nodup_around hl
  simp only [addrs_append, addrs_cons, append_assoc, cons_append, nodup_append, nodup_cons,
    mem_append, mem_cons, not_or] at hnodup ⊢
  obtain ⟨hpre, ⟨⟨hpost, hothers⟩, -⟩, hcross⟩ := hnodup
  refine ⟨hpre, fun he => hcross _ he _ (.inl rfl) rfl, hpost, hothers, ?_, ?_⟩
  · exact fun a ha hpre => hcross a hpre a (.inr (.inl ha)) rfl
  · exact fun a ha hpre => hcross a hpre a (.inr (.inr ha)) rfl

theorem Shape.split (hs : Shape t cs) (hl : cs[h]? = some (pre ++ e :: post)) :
    ∃ p next, t.bucket[h]? = some p ∧ Segment t.mem p pre (some e.1) ∧
      t.mem e.1 = some ⟨e.2, next⟩ ∧ Segment t.mem next post none := by
  have hlt : h < t.bucket.length := by
    rw [hs.block, ← hs.len]
    exact (List.getElem?_eq_some_iff.mp hl).1
  have hp := getElem?_eq_getElem hlt
  obtain ⟨r, hpre, hr, next, hcell, hpost⟩ := segment_append.mp (hs.chains h _ _ hp hl)
  exact ⟨_, next, hp, hr ▸ hpre, hcell, hpost⟩

theorem Shape.replace (hs : Shape t cs) (hl : cs[h]? = some (pre ++ e :: post))
    {e' : Entry κ} (hcapa : t1.capa = t.capa) (hhasher : t1.hasher = t.hasher)
    (hsize : t1.size = t.size) (hlen : t1.bucket.length = t.bucket.length)
    (hbucket : ∀ i, i ≠ h → t1.bucket[i]? = t.bucket[i]?)
    (hchain : ∃ p, t1.bucket[h]? = some p ∧ Segment t1.mem p (pre ++ e' :: post) none)
    (hmem : ∀ a ∈ addrs (others cs h), t1.mem a = t.mem a)
    (haddr : e'.1 = e.1 ∨ t.mem e'.1 = none) (hkey : t.slotOf e'.2.key = h) :
    Shape t1 (cs.set h (pre ++ e' :: post)) := by
  have hperm := flatten_perm hl
  have hnodup := hs.nodup_around hl
  refine hs.set hl hcapa hhasher hlen hbucket hchain hmem ?_ ?_ ?_
  · simp only [addrs_append, addrs_cons] at hnodup ⊢
    rcases haddr with haddr | hfree
    · rw [haddr]
      exact hnodup
    have hnew : ∀ x ∈ pre ++ e :: post ++ others cs h, x.1 ≠ e'.1 := by
      intro x hx heq
      obtain ⟨next', hcell'⟩ := hs.mem_eq (hperm.mem_iff.mpr hx)
      rw [heq, hfree] at hcell'
      cases hcell'
    simp only [append_assoc, cons_append] at hnodup hnew ⊢
    rw [perm_middle.nodup_iff, nodup_cons] at hnodup ⊢
    refine ⟨?_, hnodup.2⟩
    rw [← addrs_append, ← addrs_append]
    intro hmem'
    obtain ⟨x, hx, heq⟩ := mem_map.mp hmem'
    refine hnew x ?_ heq
    simp only [mem_append, mem_cons] at hx ⊢
    tauto
  · rw [hsize, hs.size, hperm.length_eq]
    simp
  · have hplaced := hs.placed h _ hl
    simp only [mem_append, mem_cons] at hplaced ⊢
    rintro x (hx | rfl | hx)
    · exact hplaced x (.inl hx)
    · exact hkey
    · exact hplaced x (.inr (.inr hx))

theorem replaceBy_returns (hs : Shape t cs) (hl : cs[h]? = some (pre ++ e :: post))
    (hcell : t.mem e.1 = some ⟨e.2, next⟩) (hx : Exchanged t e next r t1)
    (hkey : ∀ e' ∈ r, t.slotOf e'.2.key = h) :
    Returns (replaceBy h (last none pre) e.1 next (r.map Prod.fst)) t1 fun p t' =>
      p = r.map Prod.fst ∧ t'.style = t.style ∧ t'.hasher = t.hasher ∧
        Shape t' (cs.set h (pre ++ r.getD e :: post)) := by
  obtain ⟨halters, hmem⟩ := hx
  obtain ⟨hnodup, hepre, hepost, heothers, hpost, hothers⟩ := hs.around hl
  obtain ⟨p, next', hp, hsegpre, hcell', hsegpost⟩ := hs.split hl
  obtain ⟨-, rfl⟩ := Cell.mk.inj (some.inj (hcell.symm.trans hcell'))
  have hbucket : ∀ i, i ≠ h → t1.bucket[i]? = t.bucket[i]? := fun i _ => by rw [halters.bucket]
  have hp1 : t1.bucket[h]? = some p := by rw [halters.bucket, hp]
  cases r with
  | none =>
    refine returns_pure.mpr ⟨rfl, halters.style, halters.hasher, ?_⟩
    refine hs.replace hl halters.capa halters.hasher halters.size (by rw [halters.bucket])
      hbucket ⟨p, hp1, ?_⟩ (fun a _ => by rw [hmem]) (.inl rfl) (hs.placed h _ hl e (by simp))
    rw [hmem]
    exact hsegpre.join hcell hsegpost
  | some e' =>
    rw [map_some, replaceBy]
    simp only at hmem
    have hkey' := hkey e' rfl
    rcases hmem with ⟨haddr, hmem⟩ | ⟨hfree, hmem⟩
    · rw [if_pos haddr]
      refine returns_pure.mpr ⟨rfl, halters.style, halters.hasher, ?_⟩
      refine hs.replace hl halters.capa halters.hasher halters.size (by rw [halters.bucket])
        hbucket ⟨p, hp1, ?_⟩ ?_ (.inl haddr) hkey'
      · have hedit := (hsegpre.join hcell hsegpost).edit hepre hepost hcell e'.2
        rw [← hmem, ← haddr] at hedit
        exact hedit
      · intro a ha
        rw [hmem, update_of_ne]
        rintro rfl
        exact heothers ha
    have hne : e'.1 ≠ e.1 := by
      intro heq
      rw [heq, hcell] at hfree
      cases hfree
    have hold : ∀ x ∈ cs.flatten, x.1 ≠ e'.1 := by
      intro x hx heq
      obtain ⟨n, hn⟩ := hs.mem_eq hx
      rw [heq, hfree] at hn
      cases hn
    have hsame : ∀ a, a ≠ e.1 → a ≠ e'.1 → t1.mem a = t.mem a := by
      intro a hae hae'
      rw [hmem, update_of_ne hae, update_of_ne hae']
    have hin : ∀ x ∈ pre ++ e :: post ++ others cs h, x ∈ cs.flatten :=
      fun x => (flatten_perm hl).mem_iff.mpr
    have hnew (l : List (Entry κ)) (hsub : ∀ x ∈ l, x ∈ cs.flatten) : e'.1 ∉ addrs l := by
      intro hmem'
      obtain ⟨x, hx, heq⟩ := mem_map.mp hmem'
      exact hold x (hsub x hx) heq
    have hnewpre : e'.1 ∉ addrs pre := hnew pre fun x hx => hin x (by simp [hx])
    have hnewpost : e'.1 ∉ addrs post := hnew post fun x hx => hin x (by simp [hx])
    have hnewothers : e'.1 ∉ addrs (others cs h) :=
      hnew _ fun x hx => hin x (by simp [hx])
    have hpre1 : Segment t1.mem p pre (some e.1) := by
      refine hsegpre.congr fun a ha => hsame a ?_ ?_
      · rintro rfl
        exact hepre ha
      · rintro rfl
        exact hnewpre ha
    have hcell1 : t1.mem e'.1 = some ⟨e'.2, none⟩ := by
      rw [hmem, update_of_ne hne, update_self]
    rw [if_neg hne, returns_bind]
    refine (relink_returns hp1 hpre1 hnodup (some e'.1)).mono fun _ t2 hrel => ?_
    have hcell2 : t2.mem e'.1 = some ⟨e'.2, none⟩ := by rw [hrel.mem _ hnewpre, hcell1]
    rw [returns_bind, returns_setNext hcell2, returns_pure]
    refine ⟨rfl, hrel.style.trans halters.style, hrel.hasher.trans halters.hasher, ?_⟩
    refine hs.replace hl (hrel.capa.trans halters.capa) (hrel.hasher.trans halters.hasher)
      (hrel.size.trans halters.size) (hrel.length.trans (by rw [halters.bucket]))
      (fun i hi => (hrel.other i hi).trans (hbucket i hi)) ?_ ?_ (.inr hfree) hkey'
    · obtain ⟨q, hq, hseg⟩ := hrel.chain
      refine ⟨q, hq, (hseg.update hnewpre _).join (update_self _ _ _) ?_⟩
      refine Segment.update (hsegpost.congr fun a ha => ?_) hnewpost _
      rw [hrel.mem a (hpost a ha)]
      refine hsame a ?_ ?_
      · rintro rfl
        exact hepost ha
      · rintro rfl
        exact hnewpost ha
    · intro a ha
      have hane : a ≠ e'.1 := by
        rintro rfl
        exact hnewothers ha
      refine (update_of_ne hane _ _).trans ?_
      rw [hrel.mem a (hothers a ha)]
      refine hsame a ?_ hane
      rintro rfl
      exact heothers ha

theorem linkNew_returns (hs : Shape t cs) (hl : cs[h]? = some l) (hm : Made t r t1)
    (hkey : ∀ e ∈ r, t.slotOf e.2.key = h) :
    Returns (linkNew h (r.map Prod.fst)) t1 fun p t' =>
      p = r.map Prod.fst ∧ t'.style = t.style ∧ t'.hasher = t.hasher ∧
        Shape t' (cs.set h (r.toList ++ l)) := by
  obtain ⟨halters, hmem⟩ := hm
  have hperm := flatten_perm hl
  have hlt : h < t1.bucket.length := by
    rw [halters.bucket, hs.block, ← hs.len]
    exact (List.getElem?_eq_some_iff.mp hl).1
  have hp : t1.bucket[h]? = some (t1.bucket[h]) := getElem?_eq_getElem hlt
  have hseg : Segment t.mem (t1.bucket[h]) l none := by
    refine hs.chains h _ l ?_ hl
    rw [← hp, halters.bucket]
  cases r with
  | none =>
    refine returns_pure.mpr ⟨rfl, halters.style, halters.hasher, ?_⟩
    refine hs.set hl halters.capa halters.hasher (by rw [halters.bucket])
      (fun i _ => by rw [halters.bucket]) ⟨_, hp, ?_⟩ (fun a _ => by rw [hmem])
      (hs.nodup_around hl) ?_ (hs.placed h l hl)
    · rw [hmem]
      exact hseg
    · rw [halters.size, hs.size, hperm.length_eq]
      rfl
  | some e =>
    obtain ⟨hfree, hmem⟩ := hmem
    have hnew : ∀ x ∈ l ++ others cs h, x.1 ≠ e.1 := by
      intro x hx heq
      obtain ⟨n, hn⟩ := hs.mem_eq (hperm.mem_iff.mpr hx)
      rw [heq, hfree] at hn
      cases hn
    have hsame : ∀ a ∈ addrs (l ++ others cs h), ∀ c, update t1.mem e.1 c a = t.mem a := by
      intro a ha c
      obtain ⟨x, hx, rfl⟩ := mem_map.mp ha
      rw [hmem, update_of_ne (hnew x hx), update_of_ne (hnew x hx)]
    have hcell : t1.mem e.1 = some ⟨e.2, none⟩ := by rw [hmem, update_self]
    have hlt' (n : Pair κ) : h < (t1.put e.1 n).bucket.length := hlt
    rw [map_some, linkNew, returns_bind, returns_loadBucket hp, returns_bind,
      returns_setNext hcell, returns_bind, returns_setBucket (hlt' _), returns_bind,
      returns_setSize, returns_pure]
    refine ⟨rfl, halters.style, halters.hasher, ?_⟩
    refine hs.set hl halters.capa halters.hasher ?_ ?_
      ⟨some e.1, getElem?_set_self hlt, rfl, _, update_self _ _ _,
        hseg.congr fun a ha => ?_⟩ ?_ ?_ ?_ ?_
    · rw [← halters.bucket]
      exact length_set
    · intro i hi
      rw [← halters.bucket]
      exact getElem?_set_ne (Ne.symm hi)
    · exact hsame a (by simp [ha]) _
    · intro a ha
      exact hsame a (by simp [ha]) _
    · have hnodup := hs.nodup_around hl
      rw [toList_some, singleton_append, cons_append]
      refine nodup_cons.mpr ⟨?_, hnodup⟩
      intro hmem'
      obtain ⟨x, hx, heq⟩ := mem_map.mp hmem'
      exact hnew x hx heq
    · have hsize : t1.size = (l ++ others cs h).length := by
        rw [halters.size, hs.size, hperm.length_eq]
      exact congrArg (· + 1) hsize
    · intro x hx
      rcases mem_cons.mp hx with rfl | hx
      · exact hkey x rfl
      · exact hs.placed h l hl x hx

end Link

end Qse.Htb
