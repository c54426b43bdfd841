import Qse.Htb.Rehash

/-!
# The operations of a hash table

Each operation is described by what it does to the pairs of all chains: one of them is
replaced, or one is added, or one is removed.
-/

open List

namespace Qse.Htb

open ForwardChain StateProgram

variable {κ : Type}

structure Agrees (comper : κ → κ → ℤ) (hasher : κ → ℕ) : Prop where
  refl : ∀ a, comper a a = 0
  symm : ∀ a b, comper a b = 0 → comper b a = 0
  trans : ∀ a b c, comper a b = 0 → comper b c = 0 → comper a c = 0
  hash : ∀ a b, comper a b = 0 → hasher a = hasher b

/-- The effect of a call that looks for `key`: a pair that has it is replaced by `r`, or
stays if that is none; or there is none, and `r` is added. -/
def Bound (t : Htb κ) (cs : List (List (Entry κ))) (key : κ)
    (f : Entry κ → Option (Entry κ)) (g : Option (Entry κ)) (r : Option (Entry κ))
    (cs' : List (List (Entry κ))) : Prop :=
  (∃ e rest, cs.flatten.Perm (e :: rest) ∧ t.HasKey key e ∧ r = f e ∧
      cs'.flatten.Perm (r.getD e :: rest)) ∨
    ((∀ e ∈ cs.flatten, ¬t.HasKey key e) ∧ r = g ∧ cs'.flatten.Perm (r.toList ++ cs.flatten))

structure Left (t t' : Htb κ) (cs' : List (List (Entry κ))) : Prop where
  shape : Shape t' cs'
  style : t'.style = t.style
  hasher : t'.hasher = t.hasher

section Find

variable {t : Htb κ} {cs : List (List (Entry κ))}

theorem Agrees.slot_eq (hag : Agrees t.style.comper t.hasher) {a b : κ}
    (h : t.style.comper a b = 0) : t.slotOf a = t.slotOf b := by
  rw [slotOf, slotOf, hag.hash a b h]

theorem find_returns (hs : Shape t cs) (key : κ) :
    ∃ l, cs[t.slotOf key]? = some l ∧
      Returns (find key) t fun r t' => t' = t ∧ Walked t key l none r := by
  obtain ⟨p, l, hp, hl, hseg⟩ := hs.slot key
  refine ⟨l, hl, ?_⟩
  have hfuel : l.length ≤ t.size := by
    rw [hs.size, (flatten_perm hl).length_eq, length_append]
    omega
  rw [find, returns_bind, returns_get, returns_bind, returns_loadBucket hp]
  exact findFrom_returns hseg hfuel

theorem absent (hs : Shape t cs) (hag : Agrees t.style.comper t.hasher) {key : κ}
    {l : List (Entry κ)} (hl : cs[t.slotOf key]? = some l) (hno : ∀ x ∈ l, ¬t.HasKey key x) :
    ∀ x ∈ cs.flatten, ¬t.HasKey key x := by
  intro x hx hkey
  obtain ⟨li, hli, hx⟩ := mem_flatten.mp hx
  obtain ⟨i, hi⟩ := getElem?_of_mem hli
  have hplaced := hs.placed i li hi x hx
  rw [hag.slot_eq hkey] at hplaced
  subst hplaced
  rw [hl] at hi
  cases hi
  exact hno x hx hkey

theorem find_bind_returns {β : Type} {f : Option ℕ × Option ℕ → HtbM κ β} {Q : β → Htb κ → Prop}
    (hs : Shape t cs) (hag : Agrees t.style.comper t.hasher) {key : κ}
    (hfound : ∀ pre e post next, cs[t.slotOf key]? = some (pre ++ e :: post) → t.HasKey key e →
      t.mem e.1 = some ⟨e.2, next⟩ → Returns (f (last none pre, some e.1)) t Q)
    (habsent : ∀ prev, (∀ x ∈ cs.flatten, ¬t.HasKey key x) → Returns (f (prev, none)) t Q) :
    Returns (find key >>= f) t Q := by
  obtain ⟨l, hl, hfind⟩ := find_returns hs key
  rw [returns_bind]
  refine hfind.mono ?_
  rintro ⟨prev, pair⟩ t1 ⟨hsame, hwalk⟩
  obtain rfl : t = t1 := hsame.symm
  rcases hwalk with ⟨pre, e, post, rfl, -, he, hr⟩ | ⟨hno, hr⟩
  · obtain ⟨rfl, rfl⟩ := Prod.mk.inj hr
    obtain ⟨-, next, -, -, hcell, -⟩ := hs.split hl
    exact hfound pre e post next hl he hcell
  · obtain rfl : pair = none := hr
    exact habsent prev (absent hs hag hl hno)

end Find

section Calls

variable {t : Htb κ} {cs : List (List (Entry κ))}

variable {key : κ} {pre post : List (Entry κ)} {e : Entry κ} {t1 : Htb κ}

theorem found_returns (hs : Shape t cs) (hag : Agrees t.style.comper t.hasher) {next : Option ℕ}
    {r : Option (Entry κ)} {f : Entry κ → Option (Entry κ)} {g : Option (Entry κ)}
    (hl : cs[t.slotOf key]? = some (pre ++ e :: post)) (he : t.HasKey key e)
    (hcell : t.mem e.1 = some ⟨e.2, next⟩) (hx : Exchanged t e next r t1) (hr : r = f e)
    (hkey : ∀ e' ∈ r, t.HasKey key e') :
    Returns (replaceBy (t.slotOf key) (last none pre) e.1 next (r.map Prod.fst)) t1 fun p t' =>
      ∃ r cs', p = r.map Prod.fst ∧ Left t t' cs' ∧ Bound t cs key f g r cs' := by
  refine (replaceBy_returns hs hl hcell hx fun e' he' => hag.slot_eq (hkey e' he')).mono ?_
  rintro p t' ⟨hp, hstyle, hhasher, hshape⟩
  refine ⟨r, _, hp, ⟨hshape, hstyle, hhasher⟩,
    .inl ⟨e, pre ++ post ++ others cs (t.slotOf key), ?_, he, hr, ?_⟩⟩
  · exact (flatten_perm hl).trans (perm_middle.append_right _)
  · exact (flatten_set_perm hl).trans (perm_middle.append_right _)

theorem added_returns (hag : Agrees t.style.comper t.hasher) {r : Option (Entry κ)} {t2 : Htb κ}
    {cs1 : List (List (Entry κ))} {f : Entry κ → Option (Entry κ)}
    (hno : ∀ x ∈ cs.flatten, ¬t.HasKey key x) (h1 : Regrown t cs t1 cs1) (hm : Made t1 r t2)
    (hkey : ∀ e ∈ r, t.HasKey key e) :
    Returns (linkNew (t1.slotOf key) (r.map Prod.fst)) t2 fun p t' =>
      ∃ r' cs', p = r'.map Prod.fst ∧ Left t t' cs' ∧ Bound t cs key f r r' cs' := by
  obtain ⟨-, l, -, hl, -⟩ := h1.shape.slot key
  have hag1 : Agrees t1.style.comper t1.hasher := by
    rw [h1.style, h1.hasher]
    exact hag
  have hkey1 : ∀ e ∈ r, t1.slotOf e.2.key = t1.slotOf key := by
    intro e he
    refine hag1.slot_eq ?_
    rw [h1.style]
    exact hkey e he
  refine (linkNew_returns h1.shape hl hm hkey1).mono ?_
  rintro p t' ⟨hp, hstyle, hhasher, hshape⟩
  refine ⟨r, _, hp, ⟨hshape, hstyle.trans h1.style, hhasher.trans h1.hasher⟩, .inr ⟨hno, rfl, ?_⟩⟩
  refine (flatten_set_perm hl).trans ?_
  rw [append_assoc]
  exact ((flatten_perm hl).symm.trans h1.perm).append_left _

theorem Regrown.mmgrAlloc_eq {cs1 : List (List (Entry κ))} (h : Regrown t cs t1 cs1)
    (block : Option ℕ) : t1.mmgrAlloc block = t.mmgrAlloc block := by
  cases block with
  | none => rfl
  | some a => simp only [mmgrAlloc, h.isSome]

def given (t : Htb κ) (env : PairEnv κ) (val : Buffer) (opt : InsertOpt) (e : Entry κ) :
    Option (Entry κ) :=
  match opt with
  | .ensert => some e
  | .insert => none
  | _ => changed t env e val

section

variable (hs : Shape t cs) (hag : Agrees t.style.comper t.hasher)
include hs hag

theorem insertFound_returns
    {g : Option (Entry κ)} (hl : cs[t.slotOf key]? = some (pre ++ e :: post)) (he : t.HasKey key e)
    (env : PairEnv κ) (val : Buffer) (opt : InsertOpt)
    (hkey : ∀ e' ∈ changed t env e val, t.HasKey key e') :
    Returns (insertFound env val opt (t.slotOf key) (last none pre) e.1) t fun p t' =>
      ∃ r cs', p = r.map Prod.fst ∧ Left t t' cs' ∧
        Bound t cs key (given t env val opt) g r cs' := by
  obtain ⟨-, next, -, -, hcell, -⟩ := hs.split hl
  have hperm : cs.flatten.Perm (e :: (pre ++ post ++ others cs (t.slotOf key))) :=
    (flatten_perm hl).trans (perm_middle.append_right _)
  have hchange {f : Entry κ → Option (Entry κ)} (hf : changed t env e val = f e) :
      Returns (do
        let p ← changePairVal env e.1 val
        replaceBy (t.slotOf key) (last none pre) e.1 next p) t fun p t' =>
          ∃ r cs', p = r.map Prod.fst ∧ Left t t' cs' ∧ Bound t cs key f g r cs' := by
    rw [returns_bind]
    refine (changePairVal_returns env val hcell).mono ?_
    rintro - t1 ⟨rfl, hx⟩
    exact found_returns hs hag hl he hcell hx hf hkey
  rw [insertFound, returns_bind, returns_load hcell]
  cases opt with
  | ensert =>
    exact returns_pure.mpr ⟨some e, cs, rfl, ⟨hs, rfl, rfl⟩, .inl ⟨e, _, hperm, he, rfl, hperm⟩⟩
  | insert =>
    exact returns_pure.mpr ⟨none, cs, rfl, ⟨hs, rfl, rfl⟩, .inl ⟨e, _, hperm, he, rfl, hperm⟩⟩
  | upsert | update => exact hchange rfl

theorem insert_returns {env : PairEnv κ}
    {benv : BucketEnv} {val : Buffer} {opt : InsertOpt} (hsized : benv.sized * 8 < 2 ^ 64)
    (hchanged : ∀ e, t.HasKey key e → ∀ e' ∈ changed t env e val, t.HasKey key e')
    (hmade : ∀ e ∈ made t env key val, t.HasKey key e) :
    Returns (insert env benv key val opt) t fun p t' =>
      ∃ r cs', p = r.map Prod.fst ∧ Left t t' cs' ∧
        Bound t cs key (given t env val opt)
          (if opt = .update then none else made t env key val) r cs' := by
  rw [insert, returns_bind, returns_get]
  refine find_bind_returns hs hag (fun pre e post next hl he hcell => ?_) fun prev hnone => ?_
  · exact insertFound_returns hs hag hl he env val opt (hchanged e he)
  · refine returns_ite (fun hopt => ?_) fun hopt => ?_
    · refine returns_pure.mpr ⟨none, cs, rfl, ⟨hs, rfl, rfl⟩, .inr ⟨hnone, ?_, List.Perm.refl _⟩⟩
      rw [if_pos hopt]
    · rw [returns_bind]
      refine (grow_returns hs hsized key).mono ?_
      rintro - t1 ⟨rfl, cs1, h1⟩
      rw [returns_bind]
      refine (allocpair_returns t1 env key val).mono ?_
      rintro - t2 ⟨rfl, hm⟩
      have hsame : made t1 env key val = made t env key val := by
        rw [made, made, h1.mmgrAlloc_eq, h1.style]
      rw [if_neg hopt]
      rw [hsame] at hm ⊢
      exact added_returns hag hnone h1 hm hmade

theorem cbsert_returns {out : Cbserted κ} {benv : BucketEnv} (hsized : benv.sized * 8 < 2 ^ 64)
    (hchanged : ∀ e, t.HasKey key e → ∀ e' ∈ cbChanged t e out, t.HasKey key e')
    (hmade : ∀ e ∈ cbMade t out, t.HasKey key e) :
    Returns (cbsert out benv key) t fun p t' =>
      ∃ r cs', p = r.map Prod.fst ∧ Left t t' cs' ∧
        Bound t cs key (fun e => cbChanged t e out) (cbMade t out) r cs' := by
  rw [cbsert, returns_bind, returns_get]
  refine find_bind_returns hs hag (fun pre e post next hl he hcell => ?_) fun prev hnone => ?_
  · simp only
    rw [returns_bind, returns_load hcell, returns_bind]
    refine (callCbserter_some_returns out hcell).mono ?_
    rintro - t1 ⟨rfl, hx⟩
    exact found_returns hs hag hl he hcell hx rfl (hchanged e he)
  · simp only
    rw [returns_bind]
    refine (grow_returns hs hsized key).mono ?_
    rintro - t1 ⟨rfl, cs1, h1⟩
    rw [returns_bind]
    refine (callCbserter_none_returns t1 out).mono ?_
    rintro - t2 ⟨rfl, hm⟩
    have hsame : cbMade t1 out = cbMade t out := by
      cases out with
      | fail | keep => rfl
      | make block d => rw [cbMade, cbMade, h1.mmgrAlloc_eq]
    rw [hsame] at hm ⊢
    exact added_returns hag hnone h1 hm hmade

theorem search_returns (key : κ) :
    Returns (search key) t fun p t' =>
      t' = t ∧ ∃ r, p = r.map Prod.fst ∧ Bound t cs key some none r cs := by
  rw [search]
  refine find_bind_returns hs hag (fun pre e post next hl he hcell => ?_) fun prev hnone => ?_
  · have hperm : cs.flatten.Perm (e :: (pre ++ post ++ others cs (t.slotOf key))) :=
      (flatten_perm hl).trans (perm_middle.append_right _)
    exact returns_pure.mpr ⟨rfl, some e, rfl, .inl ⟨e, _, hperm, he, rfl, hperm⟩⟩
  · exact returns_pure.mpr ⟨rfl, none, rfl, .inr ⟨hnone, rfl, List.Perm.refl _⟩⟩

end

def Removed (t : Htb κ) (cs : List (List (Entry κ))) (key : κ) (ok : Bool)
    (cs' : List (List (Entry κ))) : Prop :=
  (∃ e rest, cs.flatten.Perm (e :: rest) ∧ t.HasKey key e ∧ ok = true ∧ cs'.flatten.Perm rest) ∨
    ((∀ e ∈ cs.flatten, ¬t.HasKey key e) ∧ ok = false ∧ cs' = cs)

theorem unlink_returns (hs : Shape t cs) {h : ℕ} {next : Option ℕ}
    (hl : cs[h]? = some (pre ++ e :: post)) (hcell : t.mem e.1 = some ⟨e.2, next⟩) :
    Returns (do
      relink h (last none pre) next
      freepair e.1
      setSize (· - 1)
      pure true) t fun ok t' => ok = true ∧ Left t t' (cs.set h (pre ++ post)) := by
  obtain ⟨hnodup, hepre, hepost, heothers, hpost, hothers⟩ := hs.around hl
  obtain ⟨p, next', hp, hsegpre, hcell', hsegpost⟩ := hs.split hl
  obtain ⟨-, rfl⟩ := Cell.mk.inj (Option.some.inj (hcell.symm.trans hcell'))
  rw [returns_bind]
  refine (relink_returns hp hsegpre hnodup next).mono fun _ t1 hrel => ?_
  have hcell1 : t1.mem e.1 = some ⟨e.2, next⟩ := by rw [hrel.mem _ hepre, hcell]
  rw [returns_bind, returns_freepair hcell1, returns_bind, returns_setSize, returns_pure]
  refine ⟨rfl, ?_, hrel.style, hrel.hasher⟩
  obtain ⟨q, hq, hseg⟩ := hrel.chain
  have hkeep (a : ℕ) (hae : a ≠ e.1) (ha : a ∉ addrs pre) :
      Function.update t1.mem e.1 none a = t.mem a := by
    rw [Function.update_of_ne hae, hrel.mem a ha]
  have hsize : t1.size = (pre ++ e :: post ++ others cs h).length := by
    rw [hrel.size, hs.size, (flatten_perm hl).length_eq]
  refine hs.set hl hrel.capa hrel.hasher hrel.length hrel.other ⟨q, hq, ?_⟩ ?_ ?_ ?_ ?_
  · refine segment_append.mpr ⟨next, hseg.update hepre _, hsegpost.congr fun a ha => ?_⟩
    refine hkeep a ?_ (hpost a ha)
    rintro rfl
    exact hepost ha
  · intro a ha
    refine hkeep a ?_ (hothers a ha)
    rintro rfl
    exact heothers ha
  · have hall := hs.nodup_around hl
    rw [append_assoc, cons_append, addrs_append, addrs_cons,
      perm_middle.nodup_iff, nodup_cons] at hall
    rw [append_assoc, addrs_append]
    exact hall.2
  · refine (congrArg (· - 1) hsize).trans ?_
    simp only [length_append, length_cons]
    omega
  · intro x hx
    refine hs.placed h _ hl x ?_
    rcases mem_append.mp hx with hx | hx
    · exact mem_append_left _ hx
    · exact mem_append_right _ (.tail _ hx)

theorem delete_returns (hs : Shape t cs) (hag : Agrees t.style.comper t.hasher) (key : κ) :
    Returns (delete key) t fun ok t' =>
      ∃ cs', Left t t' cs' ∧ Removed t cs key ok cs' := by
  rw [delete, returns_bind, returns_get]
  refine find_bind_returns hs hag (fun pre e post next hl he hcell => ?_) fun prev hnone => ?_
  · simp only
    rw [returns_bind, returns_load hcell]
    refine (unlink_returns hs hl hcell).mono ?_
    rintro ok t' ⟨hok, hleft⟩
    refine ⟨_, hleft, .inl ⟨e, pre ++ post ++ others cs (t.slotOf key), ?_, he, hok, ?_⟩⟩
    · exact (flatten_perm hl).trans (perm_middle.append_right _)
    · exact flatten_set_perm hl
  · exact returns_pure.mpr ⟨cs, ⟨hs, rfl, rfl⟩, .inr ⟨hnone, rfl, rfl⟩⟩

/-- The pairs of `l` are freed. -/
structure Freed (t : Htb κ) (l : List (Entry κ)) (t' : Htb κ) : Prop where
  rest : t' = { t with mem := t'.mem, size := t.size - l.length, calls := t'.calls }
  mem : ∀ a, a ∉ addrs l → t'.mem a = t.mem a

theorem clearChain_returns {fuel : ℕ} {p : Option ℕ} {l : List (Entry κ)}
    (hl : Segment t.mem p l none) (hnodup : (addrs l).Nodup) (hfuel : l.length ≤ fuel) :
    Returns (clearChain fuel p) t fun _ t' => Freed t l t' := by
  induction l generalizing fuel p t with
  | nil =>
    cases hl
    have hdone : clearChain fuel none = (pure ⟨⟩ : HtbM κ PUnit) := by cases fuel <;> rfl
    rw [hdone]
    exact returns_pure.mpr ⟨rfl, fun _ _ => rfl⟩
  | cons e l ih =>
    obtain ⟨rfl, next, hcell, hl⟩ := hl
    rw [addrs_cons, nodup_cons] at hnodup
    cases fuel with
    | zero => simp at hfuel
    | succ fuel =>
      rw [length_cons] at hfuel
      rw [clearChain, returns_bind, returns_load hcell, returns_bind, returns_freepair hcell,
        returns_bind, returns_setSize]
      refine (ih (hl.update hnodup.1 none) hnodup.2 (by omega)).mono ?_
      rintro - t' ⟨hrest, hmem⟩
      refine ⟨?_, fun a ha => ?_⟩
      · rw [hrest]
        simp only [drop, length_cons]
        congr 1
        omega
      · rw [addrs_cons, mem_cons, not_or] at ha
        rw [hmem a ha.2]
        exact Function.update_of_ne ha.1 _ _

theorem clearChains_returns {n i : ℕ} {todo : List (List (Entry κ))}
    (hn : todo.length = n) (hblock : t.bucket.length = i + n)
    (htodo : ∀ (j : ℕ) (p : Option ℕ) (l : List (Entry κ)), t.bucket[i + j]? = some p →
      todo[j]? = some l → Segment t.mem p l none)
    (hdone : ∀ j, j < i → t.bucket[j]? = some none)
    (hnodup : (addrs todo.flatten).Nodup) (hsize : t.size = todo.flatten.length) :
    Returns (clearChains n i) t fun _ t' =>
      t' = { t with mem := t'.mem, size := 0, calls := t'.calls, bucket := t'.bucket } ∧
        t'.bucket = List.replicate (i + n) none := by
  induction n generalizing i todo t with
  | zero =>
    obtain rfl := length_eq_zero_iff.mp hn
    refine returns_pure.mpr ⟨?_, ?_⟩
    · rw [flatten_nil, length_nil] at hsize
      cases t
      simp only at hsize ⊢
      rw [hsize]
    · refine eq_replicate_iff.mpr ⟨hblock, fun p hp => ?_⟩
      obtain ⟨j, hj⟩ := getElem?_of_mem hp
      have hlt := (List.getElem?_eq_some_iff.mp hj).1
      rw [hdone j (by omega)] at hj
      exact (Option.some.inj hj).symm
  | succ n ih =>
    obtain ⟨l, todo, rfl⟩ := exists_cons_of_length_eq_add_one hn
    rw [length_cons] at hn
    rw [flatten_cons, addrs_append, nodup_append] at hnodup
    obtain ⟨hnodupl, hnodup, happart⟩ := hnodup
    rw [flatten_cons, length_append] at hsize
    have hlt : i < t.bucket.length := by omega
    have hp := getElem?_eq_getElem hlt
    have hl : Segment t.mem (t.bucket[i]) l none := htodo 0 _ l hp rfl
    rw [clearChains, returns_bind, returns_get, returns_bind, returns_loadBucket hp, returns_bind]
    refine (clearChain_returns hl hnodupl (by omega)).mono ?_
    rintro - t1 ⟨hrest, hmem⟩
    have hbucket1 : t1.bucket = t.bucket := by rw [hrest]
    have hsize1 : t1.size = t.size - l.length := by rw [hrest]
    have hlt1 : i < t1.bucket.length := hbucket1 ▸ hlt
    rw [returns_bind, returns_setBucket hlt1, hbucket1]
    have hother : ∀ j, j ≠ i → (t.bucket.set i none)[j]? = t.bucket[j]? :=
      fun j hj => getElem?_set_ne (Ne.symm hj)
    refine (ih (i := i + 1) (t := { t1 with bucket := t.bucket.set i none })
      (by omega) ?_ ?_ ?_ hnodup ?_).mono ?_
    · simp only [length_set]
      omega
    · intro j p l' hp' hl'
      have hp' : t.bucket[i + (j + 1)]? = some p := by
        rw [← hp', hother _ (by omega)]
        congr 1
        omega
      refine (htodo (j + 1) p l' hp' hl').congr fun a ha => hmem a fun hal => ?_
      refine happart a hal a ?_ rfl
      obtain ⟨e, he, rfl⟩ := mem_map.mp ha
      exact mem_map_of_mem (mem_flatten.mpr ⟨l', mem_of_getElem? hl', he⟩)
    · intro j hj
      by_cases hji : j = i
      · subst hji
        exact getElem?_set_self hlt
      · rw [hother j hji]
        exact hdone j (by omega)
    · simp only
      omega
    · rintro - t' ⟨hrest', hbucket'⟩
      refine ⟨?_, by rw [hbucket']; congr 1; omega⟩
      rw [hrest', hrest]

theorem clear_returns (hs : Shape t cs) :
    Returns clear t fun _ t' => Left t t' (List.replicate t.capa []) := by
  rw [clear, returns_bind, returns_get]
  refine (clearChains_returns hs.len (by rw [hs.block, zero_add]) ?_ ?_ hs.nodup
    hs.size).mono ?_
  · intro j p l hp hl
    rw [zero_add] at hp
    exact hs.chains j p l hp hl
  · exact fun j hj => absurd hj (by omega)
  · rintro - t' ⟨hrest, hbucket⟩
    rw [zero_add] at hbucket
    have hempty : (List.replicate t.capa ([] : List (Entry κ))).flatten = [] := by simp
    have hcapa : t'.capa = t.capa := by rw [hrest]
    refine ⟨⟨?_, ?_, ?_, ?_, ?_, ?_, ?_, ?_⟩, by rw [hrest], by rw [hrest]⟩
    · exact hcapa ▸ hs.capa_pos
    · rw [hbucket, length_replicate, hcapa]
    · exact hcapa ▸ hs.small
    · rw [length_replicate, hcapa]
    · intro i p l hp hl
      rw [hbucket] at hp
      obtain rfl := eq_of_mem_replicate (mem_of_getElem? hp)
      obtain rfl := eq_of_mem_replicate (mem_of_getElem? hl)
      rfl
    · rw [hempty]
      exact nodup_nil
    · rw [hempty, hrest]
      rfl
    · intro i l hl e he
      obtain rfl := eq_of_mem_replicate (mem_of_getElem? hl)
      exact absurd he not_mem_nil

end Calls

end Qse.Htb
