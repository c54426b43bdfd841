import Qse.Htb.Table

/-!
# Moving the pairs to a larger bucket

`reorganize` walks along every chain and puts each pair at the head of its new chain.
While it does, some pairs are in the old chains and some in the new ones.
-/

open Function List

namespace Qse.Htb

open ForwardChain StateProgram

variable {κ : Type}

structure Hung (mem : ℕ → Option (Pair κ)) (hasher : κ → ℕ) (capa : ℕ)
    (buck : List (Option ℕ)) (new : List (List (Entry κ))) : Prop where
  block : buck.length = capa
  len : new.length = capa
  chains : ∀ (i : ℕ) (p : Option ℕ) (l : List (Entry κ)), buck[i]? = some p →
    new[i]? = some l → Segment mem p l none
  placed : ∀ (i : ℕ) (l : List (Entry κ)), new[i]? = some l → ∀ e ∈ l, hasher e.2.key % capa = i

structure Redirected (t : Htb κ) (l : List (Entry κ)) (t' : Htb κ) : Prop where
  rest : t' = { t with mem := t'.mem }
  mem : ∀ a, a ∉ addrs l → t'.mem a = t.mem a
  isSome : ∀ a, (t'.mem a).isSome = (t.mem a).isSome

theorem Redirected.refl (t : Htb κ) (l : List (Entry κ)) : Redirected t l t :=
  ⟨rfl, fun _ _ => rfl, fun _ => rfl⟩

theorem Redirected.trans {t t1 t2 : Htb κ} {l l1 l2 : List (Entry κ)} (h : Redirected t l1 t1)
    (h' : Redirected t1 l2 t2) (hl : addrs l = addrs l1 ++ addrs l2) : Redirected t l t2 := by
  refine ⟨?_, fun a ha => ?_, fun a => (h'.isSome a).trans (h.isSome a)⟩
  · rw [h'.rest, h.rest]
  · rw [hl, mem_append, not_or] at ha
    rw [h'.mem a ha.2, h.mem a ha.1]

section Chain

variable {t : Htb κ} {capa : ℕ} {buck : List (Option ℕ)} {new : List (List (Entry κ))}

theorem Hung.add {hasher : κ → ℕ} (h : Hung t.mem hasher capa buck new) {e : Entry κ}
    {p : Option ℕ} {h' : ℕ} (hh : hasher e.2.key % capa = h') (hp : buck[h']? = some p)
    (hnew : e.1 ∉ addrs new.flatten) :
    ∃ new', Hung (update t.mem e.1 (some ⟨e.2, p⟩)) hasher capa
        (buck.set h' (some e.1)) new' ∧
      new'.flatten.Perm (e :: new.flatten) := by
  have hlt := (List.getElem?_eq_some_iff.mp hp).1
  have hlt' : h' < new.length := Nat.lt_of_lt_of_eq hlt (h.block.trans h.len.symm)
  obtain ⟨l, hl⟩ : ∃ l, new[h']? = some l := ⟨_, getElem?_eq_getElem hlt'⟩
  refine ⟨new.set h' (e :: l), ⟨by simp [h.block], by simp [h.len], ?_, ?_⟩, ?_⟩
  · intro i q li hq hi
    by_cases hih : i = h'
    · subst hih
      rw [getElem?_set_self hlt] at hq
      rw [getElem?_set_self hlt'] at hi
      cases hq
      cases hi
      refine ⟨rfl, p, update_self _ _ _, (h.chains _ p l hp hl).update ?_ _⟩
      intro hmem
      obtain ⟨x, hx, heq⟩ := mem_map.mp hmem
      refine hnew (heq ▸ mem_map_of_mem ?_)
      exact mem_flatten.mpr ⟨l, mem_of_getElem? hl, hx⟩
    · rw [getElem?_set_ne (Ne.symm hih)] at hq hi
      refine (h.chains i q li hq hi).update ?_ _
      intro hmem
      obtain ⟨x, hx, heq⟩ := mem_map.mp hmem
      refine hnew (heq ▸ mem_map_of_mem ?_)
      exact mem_flatten.mpr ⟨li, mem_of_getElem? hi, hx⟩
  · intro i li hi x hx
    by_cases hih : i = h'
    · subst hih
      rw [getElem?_set_self hlt'] at hi
      cases hi
      rcases mem_cons.mp hx with rfl | hx
      · exact hh
      · exact h.placed _ l hl x hx
    · rw [getElem?_set_ne (Ne.symm hih)] at hi
      exact h.placed i li hi x hx
  · exact (flatten_set_perm hl).trans ((flatten_perm hl).symm.cons e)

theorem moveChain_returns {fuel : ℕ} {p : Option ℕ} {l : List (Entry κ)} (hcapa : 0 < capa)
    (hnew : Hung t.mem t.hasher capa buck new) (hl : Segment t.mem p l none)
    (hnodup : (addrs (l ++ new.flatten)).Nodup) (hfuel : l.length ≤ fuel) :
    Returns (moveChain capa fuel p buck) t fun buck' t' =>
      Redirected t l t' ∧ ∃ new', Hung t'.mem t.hasher capa buck' new' ∧
        new'.flatten.Perm (l ++ new.flatten) := by
  induction l generalizing fuel p t buck new with
  | nil =>
    cases hl
    have hdone : moveChain capa fuel none buck = (pure buck : HtbM κ _) := by
      cases fuel <;> rfl
    rw [hdone]
    exact returns_pure.mpr ⟨Redirected.refl t _, new, hnew, List.Perm.refl _⟩
  | cons e l ih =>
    obtain ⟨rfl, next, hcell, hl⟩ := hl
    cases fuel with
    | zero => simp at hfuel
    | succ fuel =>
      rw [cons_append, addrs_cons, nodup_cons, addrs_append, mem_append, not_or] at hnodup
      obtain ⟨⟨hel, henew⟩, hnodup⟩ := hnodup
      have hlt : t.hasher e.2.key % capa < buck.length := by
        rw [hnew.block]
        exact Nat.mod_lt _ hcapa
      have hp := getElem?_eq_getElem hlt
      obtain ⟨new1, hnew1, hperm⟩ := hnew.add rfl hp henew
      rw [moveChain, returns_bind, returns_load hcell, returns_bind, returns_get]
      simp only [hp]
      rw [returns_bind, returns_setNext hcell]
      rw [length_cons] at hfuel
      have hnodup1 : (addrs (l ++ new1.flatten)).Nodup := by
        have hperm' := (hperm.append_left l).map Prod.fst
        refine hperm'.nodup_iff.mpr ?_
        rw [(perm_middle.map Prod.fst).nodup_iff]
        refine nodup_cons.mpr ⟨?_, ?_⟩
        · rw [map_append, mem_append, not_or]
          exact ⟨hel, henew⟩
        · rw [map_append]
          exact hnodup
      refine (ih hnew1 (hl.update hel _) hnodup1 (by omega)).mono ?_
      rintro buck' t' ⟨hred, new', hnew', hperm'⟩
      refine ⟨?_, new', hnew', ?_⟩
      · have hfirst : Redirected t [e] (t.put e.1 ⟨e.2, buck[t.hasher e.2.key % capa]⟩) := by
          refine ⟨rfl, fun a ha => ?_, fun a => ?_⟩
          · refine update_of_ne ?_ _ _
            rintro rfl
            exact ha (.head _)
          · by_cases ha : a = e.1
            · subst ha
              simp [put, hcell]
            · exact congrArg Option.isSome (update_of_ne ha _ _)
        exact hfirst.trans hred rfl
      · exact hperm'.trans ((hperm.append_left l).trans perm_middle)

theorem moveChains_returns {n i : ℕ} {todo : List (List (Entry κ))} (hcapa : 0 < capa)
    (hn : todo.length = n) (hblock : t.bucket.length = i + n)
    (hnew : Hung t.mem t.hasher capa buck new)
    (htodo : ∀ (j : ℕ) (p : Option ℕ) (l : List (Entry κ)), t.bucket[i + j]? = some p →
      todo[j]? = some l → Segment t.mem p l none)
    (hnodup : (addrs (todo.flatten ++ new.flatten)).Nodup) (hsize : todo.flatten.length ≤ t.size) :
    Returns (moveChains capa n i buck) t fun buck' t' =>
      Redirected t todo.flatten t' ∧ ∃ new', Hung t'.mem t.hasher capa buck' new' ∧
        new'.flatten.Perm (todo.flatten ++ new.flatten) := by
  induction n generalizing i todo t buck new with
  | zero =>
    obtain rfl := length_eq_zero_iff.mp hn
    exact returns_pure.mpr ⟨Redirected.refl t _, new, hnew, List.Perm.refl _⟩
  | succ n ih =>
    obtain ⟨l, todo, rfl⟩ := exists_cons_of_length_eq_add_one hn
    rw [length_cons] at hn
    rw [flatten_cons, append_assoc] at hnodup
    rw [flatten_cons, length_append] at hsize
    have hlt : i < t.bucket.length := by omega
    have hp := getElem?_eq_getElem hlt
    have hl : Segment t.mem (t.bucket[i]) l none := htodo 0 _ l hp rfl
    have happart : (addrs (l ++ new.flatten)).Nodup ∧ ∀ a ∈ addrs todo.flatten, a ∉ addrs l := by
      simp only [addrs_append, nodup_append, mem_append] at hnodup ⊢
      obtain ⟨h1, ⟨h2, h3, h4⟩, h5⟩ := hnodup
      exact ⟨⟨h1, h3, fun a ha b hb => h5 a ha b (.inr hb)⟩,
        fun a ha hal => h5 a hal a (.inl ha) rfl⟩
    rw [moveChains, returns_bind, returns_get, returns_bind, returns_loadBucket hp, returns_bind]
    refine (moveChain_returns hcapa hnew hl happart.1 (by omega)).mono ?_
    rintro buck1 t1 ⟨hred, new1, hnew1, hperm1⟩
    obtain ⟨mem, hrest⟩ : ∃ mem, t1 = { t with mem := mem } := ⟨_, hred.rest⟩
    subst hrest
    have hnodup1 : (addrs (todo.flatten ++ new1.flatten)).Nodup := by
      refine ((hperm1.append_left _).map Prod.fst).nodup_iff.mpr ?_
      exact (perm_append_comm_assoc _ _ _).map Prod.fst |>.nodup_iff.mpr hnodup
    have htodo1 : ∀ (j : ℕ) (p : Option ℕ) (l' : List (Entry κ)),
        t.bucket[i + 1 + j]? = some p → todo[j]? = some l' → Segment mem p l' none := by
      intro j p l' hp' hl'
      have hj : t.bucket[i + (j + 1)]? = some p := by rw [← hp']; congr 1; omega
      refine (htodo (j + 1) p l' hj hl').congr fun a ha => hred.mem a (happart.2 a ?_)
      obtain ⟨e, he, rfl⟩ := mem_map.mp ha
      exact mem_map_of_mem (mem_flatten.mpr ⟨l', mem_of_getElem? hl', he⟩)
    have hblock1 : t.bucket.length = i + 1 + n := by omega
    refine (ih (t := { t with mem := mem }) (by omega) hblock1 hnew1 htodo1 hnodup1
      (show todo.flatten.length ≤ t.size by omega)).mono ?_
    rintro buck' t' ⟨hred', new', hnew', hperm'⟩
    refine ⟨hred.trans hred' (addrs_append l todo.flatten), new', hnew', ?_⟩
    refine hperm'.trans ((hperm1.append_left _).trans ?_)
    rw [flatten_cons, append_assoc]
    exact perm_append_comm_assoc _ _ _

end Chain

/-- The pairs may hang in other chains, and blocks are in use that were in use. -/
structure Regrown (t : Htb κ) (cs : List (List (Entry κ))) (t' : Htb κ)
    (cs' : List (List (Entry κ))) : Prop where
  shape : Shape t' cs'
  perm : cs'.flatten.Perm cs.flatten
  style : t'.style = t.style
  hasher : t'.hasher = t.hasher
  isSome : ∀ a, (t'.mem a).isSome = (t.mem a).isSome

section Reorganize

variable {t : Htb κ} {cs : List (List (Entry κ))}

variable {capa : ℕ} {env : BucketEnv}

theorem newBucket_length (hcapa : capa * 8 < 2 ^ 63) :
    newBucket capa = List.replicate capa none := by
  rw [newBucket, Nat.mod_eq_of_lt (by omega), Nat.mul_div_cancel _ (by decide)]

theorem newBucket_hung (mem : ℕ → Option (Pair κ)) (hasher : κ → ℕ) (hcapa : capa * 8 < 2 ^ 63) :
    Hung mem hasher capa (newBucket capa) (List.replicate capa []) := by
  rw [newBucket_length hcapa]
  refine ⟨by simp, by simp, fun i p l hp hl => ?_, fun i l hl e he => ?_⟩
  · obtain rfl := eq_of_mem_replicate (mem_of_getElem? hp)
    obtain rfl := eq_of_mem_replicate (mem_of_getElem? hl)
    rfl
  · obtain rfl := eq_of_mem_replicate (mem_of_getElem? hl)
    exact absurd he not_mem_nil

theorem rebuild_returns (hs : Shape t cs) (env : BucketEnv) (hpos : 0 < capa)
    (hcapa : capa * 8 < 2 ^ 64) :
    Returns (rebuild env capa) t fun ok t' =>
      (ok = false → t'.capa = t.capa) ∧ ∃ cs', Regrown t cs t' cs' := by
  rw [rebuild, returns_bind, returns_get]
  refine returns_ite (fun hgrant => ?_) fun _ => ?_
  · have hsmall : capa * 8 < 2 ^ 63 := by
      have hlt := env.grant_lt _ hgrant
      rwa [Nat.mod_eq_of_lt hcapa] at hlt
    have hempty : (List.replicate capa ([] : List (Entry κ))).flatten = [] := by simp
    rw [returns_bind]
    refine (moveChains_returns hpos hs.len (by rw [hs.block, zero_add])
      (newBucket_hung t.mem t.hasher hsmall) ?_ ?_ (le_of_eq hs.size.symm)).mono ?_
    · intro j p l hp hl
      rw [zero_add] at hp
      exact hs.chains j p l hp hl
    · rw [hempty, append_nil]
      exact hs.nodup
    · rintro buck t1 ⟨hred, new, hnew, hperm⟩
      rw [hempty, append_nil] at hperm
      obtain ⟨mem, hrest⟩ : ∃ mem, t1 = { t with mem := mem } := ⟨_, hred.rest⟩
      subst hrest
      rw [returns_bind, returns_modify, returns_pure]
      refine ⟨fun h => absurd h (by simp), new, ?_, hperm, rfl, rfl, hred.isSome⟩
      refine ⟨hpos, hnew.block, hsmall, hnew.len, hnew.chains, ?_, ?_, hnew.placed⟩
      · exact (hperm.map Prod.fst).nodup_iff.mpr hs.nodup
      · rw [hperm.length_eq]
        exact hs.size
  · rw [returns_bind, returns_modify, returns_pure]
    refine ⟨fun _ => rfl, cs, ?_, List.Perm.refl _, rfl, rfl, fun _ => rfl⟩
    exact ⟨hs.capa_pos, hs.block, hs.small, hs.len, hs.chains, hs.nodup, hs.size, hs.placed⟩

theorem newCapa_lt (hs : Shape t cs) (hsized : env.sized * 8 < 2 ^ 64) :
    (if t.newCapa env = 0 then 1 else t.newCapa env) * 8 < 2 ^ 64 := by
  have hsmall := hs.small
  have hnew : t.newCapa env * 8 < 2 ^ 64 := by
    rw [newCapa]
    split
    · exact hsized
    · split
      · rw [Nat.mod_eq_of_lt (by omega)]
        omega
      · omega
  split
  · omega
  · exact hnew

theorem reorganize_returns (hs : Shape t cs) (hsized : env.sized * 8 < 2 ^ 64) :
    Returns (reorganize env) t fun ok t' =>
      (ok = false → t'.capa = t.capa) ∧ ∃ cs', Regrown t cs t' cs' := by
  rw [reorganize, returns_bind, returns_get]
  refine returns_ite (fun _ => ?_) fun _ => ?_
  · exact returns_pure.mpr ⟨fun _ => rfl, cs, hs, List.Perm.refl _, rfl, rfl, fun _ => rfl⟩
  · refine rebuild_returns hs env ?_ (newCapa_lt hs hsized)
    split <;> omega

theorem grow_returns (hs : Shape t cs) (hsized : env.sized * 8 < 2 ^ 64) (key : κ) :
    Returns (grow env key (t.slotOf key)) t fun hc t' =>
      hc = t'.slotOf key ∧ ∃ cs', Regrown t cs t' cs' := by
  have hslot : ∀ t' : Htb κ, t'.hasher = t.hasher → t'.capa = t.capa →
      t.slotOf key = t'.slotOf key := by
    intro t' hhasher hcapa
    rw [slotOf, slotOf, hhasher, hcapa]
  rw [grow, returns_bind, returns_get]
  refine returns_ite (fun _ => ?_) fun _ => ?_
  · rw [returns_bind]
    refine (reorganize_returns hs hsized).mono ?_
    rintro ok t' ⟨hcapa, cs', hcs'⟩
    rw [returns_bind, returns_get, returns_pure]
    refine ⟨?_, cs', hcs'⟩
    cases ok with
    | true => rfl
    | false => exact hslot t' hcs'.hasher (hcapa rfl)
  · exact returns_pure.mpr ⟨rfl, cs, hs, List.Perm.refl _, rfl, rfl, fun _ => rfl⟩

end Reorganize

end Qse.Htb
