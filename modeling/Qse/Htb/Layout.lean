import Qse.Htb.FiniteMap

/-!
# Where the pairs of a hash table are

The layout of a table shows the address and the key of each pair, chain by chain.
-/

open List

namespace Qse.Htb

open ForwardChain StateProgram

variable {κ α β : Type}

def layout (cs : List (List (Entry κ))) : List (List (ℕ × κ)) :=
  cs.map fun l => l.map fun e => (e.1, e.2.key)

/-! ## What keeps the capacity -/

def Fixed (t t' : Htb κ) : Prop := t'.sizer = t.sizer ∧ t'.capa = t.capa

def Keeps (c : HtbM κ α) : Prop := ∀ t, Yields c t fun _ t' => Fixed t t'

theorem keeps_pure (a : α) : Keeps (pure a : HtbM κ α) :=
  fun _ => yields_pure ⟨rfl, rfl⟩

theorem keeps_failure : Keeps (failure : HtbM κ α) :=
  fun _ => yields_failure

theorem keeps_get : Keeps (get : HtbM κ (Htb κ)) := by
  rintro t a t' ⟨⟩
  exact ⟨rfl, rfl⟩

theorem keeps_modify {f : Htb κ → Htb κ} (hf : ∀ t, Fixed t (f t)) :
    Keeps (modify f : HtbM κ PUnit) := by
  rintro t a t' ⟨⟩
  exact hf t

theorem Keeps.bind {c : HtbM κ α} {f : α → HtbM κ β} (hc : Keeps c) (hf : ∀ a, Keeps (f a)) :
    Keeps (c >>= f) := by
  intro t
  refine Yields.bind (hc t) fun a t1 h1 => ?_
  intro b t2 hrun
  have h2 := hf a t1 b t2 hrun
  exact ⟨h2.1.trans h1.1, h2.2.trans h1.2⟩

theorem keeps_ite {p : Prop} [Decidable p] {c d : HtbM κ α} (hc : Keeps c) (hd : Keeps d) :
    Keeps (if p then c else d) := by
  split
  · exact hc
  · exact hd

theorem keeps_load (a : ℕ) : Keeps (load a : HtbM κ (Pair κ)) := by
  refine keeps_get.bind fun t => ?_
  cases t.mem a with
  | none => exact keeps_failure
  | some n => exact keeps_pure n

theorem keeps_setNext (a : ℕ) (next : Option ℕ) : Keeps (setNext a next : HtbM κ PUnit) :=
  (keeps_load a).bind fun _ => keeps_modify fun _ => ⟨rfl, rfl⟩

theorem keeps_setData (a : ℕ) (d : PairData κ) : Keeps (setData a d) :=
  (keeps_load a).bind fun _ => keeps_modify fun _ => ⟨rfl, rfl⟩

theorem keeps_loadBucket (hc : ℕ) : Keeps (loadBucket hc : HtbM κ (Option ℕ)) := by
  refine keeps_get.bind fun t => ?_
  cases t.bucket[hc]? with
  | none => exact keeps_failure
  | some p => exact keeps_pure p

theorem keeps_setBucket (hc : ℕ) (p : Option ℕ) : Keeps (setBucket hc p : HtbM κ PUnit) := by
  intro t a t' hrun
  by_cases hlt : hc < t.bucket.length
  · have hreturns := (returns_setBucket (Q := fun _ t' => Fixed t t') (p := p) hlt).2 ⟨rfl, rfl⟩
    exact hreturns.of_run hrun
  · rw [setBucket] at hrun
    have hfail : (failure : HtbM κ PUnit).run t = some (a, t') := by
      rw [← hrun]
      exact (congrArg (fun c => StateT.run c t) (if_neg hlt)).symm
    cases hfail

theorem keeps_setSize (f : ℕ → ℕ) : Keeps (setSize f : HtbM κ PUnit) :=
  keeps_modify fun _ => ⟨rfl, rfl⟩

theorem keeps_log (cs : List (Callback κ)) : Keeps (log cs) :=
  keeps_modify fun _ => ⟨rfl, rfl⟩

theorem keeps_freepair (a : ℕ) : Keeps (freepair a : HtbM κ PUnit) :=
  (keeps_load a).bind fun _ => keeps_get.bind fun _ => (keeps_log _).bind fun _ =>
    keeps_modify fun _ => ⟨rfl, rfl⟩

theorem keeps_allocpair (env : PairEnv κ) (key : κ) (val : Buffer) :
    Keeps (allocpair env key val) := by
  refine keeps_get.bind fun t => ?_
  cases t.mmgrAlloc env.block with
  | none => exact keeps_pure none
  | some a =>
    refine (keeps_log _).bind fun _ => ?_
    cases (fillPair t.style env key val).1 with
    | none => exact keeps_pure none
    | some d =>
      have hput : Keeps (modify fun t : Htb κ => t.put a ⟨d, none⟩) :=
        keeps_modify fun _ => ⟨rfl, rfl⟩
      exact hput.bind fun _ => keeps_pure _

theorem keeps_changePairVal (env : PairEnv κ) (a : ℕ) (val : Buffer) :
    Keeps (changePairVal env a val) := by
  refine (keeps_load a).bind fun n => keeps_get.bind fun t => ?_
  cases changeOf t.style env n.item val with
  | keep => exact (keeps_log _).bind fun _ => keeps_pure _
  | fail => exact keeps_pure none
  | set d => exact (keeps_setData a d).bind fun _ => (keeps_log _).bind fun _ => keeps_pure _
  | rebuild =>
    refine (keeps_allocpair env _ val).bind fun p => ?_
    cases p with
    | none => exact keeps_pure none
    | some p => exact (keeps_freepair a).bind fun _ => keeps_pure _

theorem keeps_findFrom (key : κ) (fuel : ℕ) (prev p : Option ℕ) :
    Keeps (findFrom key fuel prev p) := by
  induction fuel generalizing prev p with
  | zero =>
    cases p with
    | none => exact keeps_pure _
    | some a => exact keeps_failure
  | succ fuel ih =>
    cases p with
    | none => exact keeps_pure _
    | some a =>
      exact (keeps_load a).bind fun n => keeps_get.bind fun _ =>
        keeps_ite (keeps_pure _) (ih (some a) n.next)

theorem keeps_find (key : κ) : Keeps (find key) :=
  keeps_get.bind fun _ => (keeps_loadBucket _).bind fun _ => keeps_findFrom _ _ _ _

theorem keeps_relink (hc : ℕ) (prev p : Option ℕ) : Keeps (relink hc prev p : HtbM κ PUnit) := by
  cases prev with
  | none => exact keeps_setBucket hc p
  | some b => exact keeps_setNext b p

theorem keeps_replaceBy (hc : ℕ) (prev : Option ℕ) (pair : ℕ) (next p : Option ℕ) :
    Keeps (replaceBy hc prev pair next p : HtbM κ (Option ℕ)) := by
  cases p with
  | none => exact keeps_pure none
  | some b =>
    exact keeps_ite (keeps_pure _) ((keeps_relink hc prev _).bind fun _ =>
      (keeps_setNext b next).bind fun _ => keeps_pure _)

theorem keeps_linkNew (hc : ℕ) (pair : Option ℕ) : Keeps (linkNew hc pair : HtbM κ (Option ℕ)) := by
  cases pair with
  | none => exact keeps_pure none
  | some a =>
    exact (keeps_loadBucket hc).bind fun _ => (keeps_setNext a _).bind fun _ =>
      (keeps_setBucket hc _).bind fun _ => (keeps_setSize _).bind fun _ => keeps_pure _

theorem keeps_delete (key : κ) : Keeps (delete key) := by
  refine keeps_get.bind fun t => (keeps_find key).bind fun r => ?_
  obtain ⟨prev, pair⟩ := r
  cases pair with
  | none => exact keeps_pure false
  | some a =>
    exact (keeps_load a).bind fun _ => (keeps_relink _ prev _).bind fun _ =>
      (keeps_freepair a).bind fun _ => (keeps_setSize _).bind fun _ => keeps_pure _

theorem keeps_clearChain (fuel : ℕ) (p : Option ℕ) : Keeps (clearChain fuel p : HtbM κ PUnit) := by
  induction fuel generalizing p with
  | zero =>
    cases p with
    | none => exact keeps_pure _
    | some a => exact keeps_failure
  | succ fuel ih =>
    cases p with
    | none => exact keeps_pure _
    | some a =>
      exact (keeps_load a).bind fun n => (keeps_freepair a).bind fun _ =>
        (keeps_setSize _).bind fun _ => ih n.next

theorem keeps_clearChains (n i : ℕ) : Keeps (clearChains n i : HtbM κ PUnit) := by
  induction n generalizing i with
  | zero => exact keeps_pure _
  | succ n ih =>
    exact keeps_get.bind fun _ => (keeps_loadBucket i).bind fun _ =>
      (keeps_clearChain _ _).bind fun _ => (keeps_setBucket i none).bind fun _ => ih (i + 1)

theorem keeps_clear : Keeps (clear : HtbM κ PUnit) :=
  keeps_get.bind fun _ => keeps_clearChains _ _

theorem keeps_moveChain (capa fuel : ℕ) (p : Option ℕ) (buck : List (Option ℕ)) :
    Keeps (moveChain capa fuel p buck : HtbM κ (List (Option ℕ))) := by
  induction fuel generalizing p buck with
  | zero =>
    cases p with
    | none => exact keeps_pure _
    | some a => exact keeps_failure
  | succ fuel ih =>
    cases p with
    | none => exact keeps_pure _
    | some a =>
      refine (keeps_load a).bind fun n => keeps_get.bind fun t => ?_
      simp only
      cases buck[t.hasher n.item.key % capa]? with
      | none => exact keeps_failure
      | some p => exact (keeps_setNext a p).bind fun _ => ih n.next _

theorem keeps_moveChains (capa n i : ℕ) (buck : List (Option ℕ)) :
    Keeps (moveChains capa n i buck : HtbM κ (List (Option ℕ))) := by
  induction n generalizing i buck with
  | zero => exact keeps_pure _
  | succ n ih =>
    exact keeps_get.bind fun t => (keeps_loadBucket i).bind fun p =>
      (keeps_moveChain capa t.size p buck).bind fun buck => ih (i + 1) buck

section Grow

variable {t : Htb κ} {cs : List (List (Entry κ))}

theorem rebuild_yields (env : BucketEnv) (capa : ℕ) (t : Htb κ) :
    Yields (rebuild env capa) t fun ok t' =>
      t'.sizer = t.sizer ∧ (ok = true → t'.capa = capa) ∧
        (ok = false → t' = { t with threshold := 0 }) := by
  rw [rebuild]
  refine yields_get (yields_ite (fun _ => ?_) fun _ => ?_)
  · refine (keeps_moveChains capa t.capa 0 (newBucket capa) t).bind fun buck t1 h1 => ?_
    rintro ok t' ⟨⟩
    exact ⟨h1.1, fun _ => rfl, fun h => absurd h (by simp)⟩
  · rintro ok t' ⟨⟩
    exact ⟨rfl, fun h => absurd h (by simp), fun _ => rfl⟩

theorem Shape.withThreshold (hs : Shape t cs) (threshold : ℕ) :
    Shape { t with threshold := threshold } cs :=
  ⟨hs.capa_pos, hs.block, hs.small, hs.len, hs.chains, hs.nodup, hs.size, hs.placed⟩

theorem reorganize_grows (hs : Shape t cs) (hsizer : t.sizer = false) (env : BucketEnv) :
    Returns (reorganize env) t fun ok t' => ∃ cs', Regrown t cs t' cs' ∧
      t'.sizer = false ∧ (ok = false → t'.capa = t.capa) ∧
        (t'.capa = t.capa ∧ cs' = cs ∨ t.capa < t'.capa) := by
  have hsmall := hs.small
  have hpos := hs.capa_pos
  have hlarger : t.capa < t.newCapa env ∧ t.newCapa env * 8 < 2 ^ 64 := by
    rw [newCapa, if_neg (by simp [hsizer])]
    split
    · rw [Nat.mod_eq_of_lt (by omega)]
      omega
    · omega
  rw [reorganize, returns_bind, returns_get]
  refine returns_ite (fun h => absurd h.1 (by simp [hsizer])) fun _ => ?_
  rw [if_neg (by omega)]
  refine ((rebuild_returns hs env (by omega) hlarger.2).and
    (rebuild_yields env (t.newCapa env) t)).mono ?_
  rintro ok t' ⟨⟨hcapa, cs', hcs'⟩, hsame, hok, hfail⟩
  cases ok with
  | true => exact ⟨cs', hcs', hsame.trans hsizer, hcapa, .inr (by rw [hok rfl]; exact hlarger.1)⟩
  | false =>
    obtain rfl := hfail rfl
    exact ⟨cs, ⟨hs.withThreshold 0, List.Perm.refl _, rfl, rfl, fun _ => rfl⟩, hsizer, hcapa,
      .inl ⟨rfl, rfl⟩⟩

theorem grow_grows (hs : Shape t cs) (hsizer : t.sizer = false) (env : BucketEnv) (key : κ) :
    Returns (grow env key (t.slotOf key)) t fun hc t' => ∃ cs', Regrown t cs t' cs' ∧
      t'.sizer = false ∧ hc = t'.slotOf key ∧ (t'.capa = t.capa ∧ cs' = cs ∨ t.capa < t'.capa) := by
  rw [grow, returns_bind, returns_get]
  refine returns_ite (fun _ => ?_) fun _ => ?_
  · rw [returns_bind]
    refine (reorganize_grows hs hsizer env).mono ?_
    rintro ok t' ⟨cs', hcs', hsizer', hfail, hcase⟩
    rw [returns_bind, returns_get, returns_pure]
    refine ⟨cs', hcs', hsizer', ?_, hcase⟩
    cases ok with
    | true => rfl
    | false =>
      show t.slotOf key = t'.slotOf key
      rw [slotOf, slotOf, hcs'.hasher, hfail rfl]
  · exact returns_pure.mpr
      ⟨cs, ⟨hs, List.Perm.refl _, rfl, rfl, fun _ => rfl⟩, hsizer, rfl, .inl ⟨rfl, rfl⟩⟩

theorem init_sizer {style : PairStyle κ} {hasher : κ → ℕ} {sizer : Bool} {env : BucketEnv}
    {capa factor : ℕ} (h : Htb.init style hasher sizer env capa factor = some t) :
    t.sizer = sizer := by
  obtain ⟨n, hn⟩ : ∃ n, n = if capa = 0 then 1 else capa := ⟨_, rfl⟩
  simp only [Htb.init, ← hn] at h
  split at h
  · cases h
    rfl
  · cases h

end Grow

/-! ## Calls -/

section Calls

variable {t : Htb κ} {cs : List (List (Entry κ))}

theorem layout_set (cs : List (List (Entry κ))) (h : ℕ) (l : List (Entry κ)) :
    layout (cs.set h l) = (layout cs).set h (l.map fun e => (e.1, e.2.key)) :=
  map_set

variable {h : ℕ} {e : Entry κ}

theorem getElem?_layout {l : List (Entry κ)} (hl : cs[h]? = some l) :
    (layout cs)[h]? = some (l.map fun e => (e.1, e.2.key)) := by
  rw [layout, getElem?_map, hl, Option.map_some]

theorem set_of_getElem? {l : List α} {i : ℕ} {a : α} (h : l[i]? = some a) : l.set i a = l := by
  obtain ⟨hlt, rfl⟩ := List.getElem?_eq_some_iff.mp h
  exact set_getElem_self hlt

theorem layout_replace {pre post : List (Entry κ)} {e' : Entry κ}
    (hl : cs[h]? = some (pre ++ e :: post)) (haddr : e'.1 = e.1) (hkey : e'.2.key = e.2.key) :
    layout (cs.set h (pre ++ e' :: post)) = layout cs := by
  have hsame : (pre ++ e' :: post).map (fun e => (e.1, e.2.key)) =
      (pre ++ e :: post).map fun e => (e.1, e.2.key) := by
    rw [map_append, map_append, map_cons, map_cons, haddr, hkey]
  rw [layout_set, hsame]
  exact set_of_getElem? (getElem?_layout hl)

theorem changed_simple (hvcop : t.style.vcop = .simple) (env : PairEnv κ) (e : Entry κ)
    (val : Buffer) :
    ∃ e', changed t env e val = some e' ∧ e'.1 = e.1 ∧ e'.2.key = e.2.key := by
  rw [changed, changeOf]
  by_cases hsame : e.2.vptr = val.ptr ∧ e.2.vlen = val.len
  · rw [if_pos hsame]
    exact ⟨e, rfl, rfl, rfl⟩
  · rw [if_neg hsame, hvcop]
    exact ⟨_, rfl, rfl, rfl⟩

theorem made_inline (hkcop : t.style.kcop = .inline) {env : PairEnv κ} {key : κ} {val : Buffer}
    (he : made t env key val = some e) : e.2.key = key := by
  obtain ⟨a, -, he⟩ := Option.bind_eq_some_iff.mp he
  obtain ⟨d, hd, rfl⟩ := Option.map_eq_some_iff.mp he
  rw [fillPair, copyKey, hkcop] at hd
  cases hvcop : t.style.vcop with
  | simple | inline =>
    rw [hvcop] at hd
    cases hd
    rfl
  | custom =>
    rw [hvcop] at hd
    simp only at hd
    split at hd
    · cases hd
    · cases hd
      rfl

def Pushed (key : κ) (ks ks' : List (List (ℕ × κ))) : Prop :=
  ∃ h l a, ks[h]? = some l ∧ ks' = ks.set h ((a, key) :: l)

/-- What a call leaves behind in a table without a sizer. -/
structure Moved (t : Htb κ) (cs : List (List (Entry κ))) (key : κ) (kept : κ → Bool) (t' : Htb κ)
    (cs' : List (List (Entry κ))) : Prop where
  left : Left t t' cs'
  sizer : t'.sizer = false
  capa : t.capa ≤ t'.capa
  distinct : Distinct t.style cs.flatten → Distinct t.style cs'.flatten
  layout : Distinct t.style cs.flatten → t'.capa = t.capa →
    layout cs' = (layout cs).map (List.filter fun x => kept x.2) ∨
    (∀ e ∈ cs.flatten, ¬t.HasKey key e) ∧ Pushed key (layout cs) (layout cs')

theorem map_filter_entries {l : List (Entry κ)} {kept : κ → Bool}
    (h : ∀ e ∈ l, kept e.2.key = true) :
    (l.map fun e => (e.1, e.2.key)).filter (fun x => kept x.2) = l.map fun e => (e.1, e.2.key) := by
  refine filter_eq_self.mpr fun x hx => ?_
  obtain ⟨e, he, rfl⟩ := mem_map.mp hx
  exact h e he

theorem layout_keep (kept : κ → Bool) (h : ∀ e ∈ cs.flatten, kept e.2.key = true) :
    (layout cs).map (List.filter fun x => kept x.2) = layout cs := by
  rw [layout, map_map]
  refine map_congr_left fun l hl => map_filter_entries fun e he => h e ?_
  exact mem_flatten.mpr ⟨l, hl, he⟩

theorem upsert_moves (hs : Shape t cs) (hag : Agrees t.style.comper t.hasher)
    (hsizer : t.sizer = false) (hkcop : t.style.kcop = .inline) (hvcop : t.style.vcop = .simple)
    (env : PairEnv κ) (benv : BucketEnv) (key : κ) (val : Buffer) :
    Returns (insert env benv key val .upsert) t fun _ t' =>
      ∃ cs', Moved t cs key (fun _ => true) t' cs' := by
  rw [insert, returns_bind, returns_get]
  refine find_bind_returns hs hag (fun pre e post next hl he hcell => ?_) fun prev hnone => ?_
  · obtain ⟨e', hchanged, haddr, hkey⟩ := changed_simple hvcop env e val
    have hkeeps : Keeps (do
        let p ← changePairVal env e.1 val
        replaceBy (t.slotOf key) (last none pre) e.1 next p) :=
      (keeps_changePairVal env e.1 val).bind fun p => keeps_replaceBy _ _ _ _ p
    simp only
    rw [insertFound, returns_bind, returns_load hcell]
    have hreturns : Returns (do
        let p ← changePairVal env e.1 val
        replaceBy (t.slotOf key) (last none pre) e.1 next p) t fun _ t' =>
          t'.style = t.style ∧ t'.hasher = t.hasher ∧
            Shape t' (cs.set (t.slotOf key) (pre ++ e' :: post)) := by
      rw [returns_bind]
      refine (changePairVal_returns env val hcell).mono ?_
      rintro - t1 ⟨rfl, hx⟩
      rw [hchanged] at hx ⊢
      have hslot : ∀ x ∈ some e', t.slotOf x.2.key = t.slotOf key := by
        rintro x ⟨⟩
        rw [hkey]
        exact hag.slot_eq he
      refine (replaceBy_returns hs hl hcell hx hslot).mono ?_
      rintro p t' ⟨-, hstyle, hhasher, hshape⟩
      exact ⟨hstyle, hhasher, hshape⟩
    refine (hreturns.and (hkeeps t)).mono ?_
    rintro p t' ⟨⟨hstyle, hhasher, hshape⟩, hsizer', hcapa⟩
    refine ⟨_, ⟨hshape, hstyle, hhasher⟩, hsizer'.trans hsizer, le_of_eq hcapa.symm,
      fun hdistinct => ?_, fun _ _ => .inl ?_⟩
    · have hold := hdistinct.perm hag
        ((flatten_perm hl).trans (perm_middle.append_right _)).symm
      refine Distinct.perm hag (l := e' :: (pre ++ post ++ others cs (t.slotOf key))) ?_
        ((flatten_set_perm hl).trans (perm_middle.append_right _))
      refine pairwise_cons.mpr ⟨fun x hx => ?_, hold.of_cons⟩
      rw [hkey]
      exact (pairwise_cons.mp hold).1 x hx
    rw [layout_keep (fun _ => true) fun _ _ => rfl]
    exact layout_replace hl haddr hkey
  · simp only
    rw [if_neg (by simp), returns_bind]
    refine (grow_grows hs hsizer benv key).mono ?_
    rintro hc t1 ⟨cs1, h1, hsizer1, rfl, hcase⟩
    obtain ⟨-, l1, -, hl1, -⟩ := h1.shape.slot key
    have hkeeps : Keeps (do
        let pair ← allocpair env key val
        linkNew (t1.slotOf key) pair) :=
      (keeps_allocpair env key val).bind fun p => keeps_linkNew _ p
    have hreturns : Returns (do
        let pair ← allocpair env key val
        linkNew (t1.slotOf key) pair) t1 fun _ t' =>
          t'.style = t1.style ∧ t'.hasher = t1.hasher ∧
            Shape t' (cs1.set (t1.slotOf key) ((made t1 env key val).toList ++ l1)) := by
      rw [returns_bind]
      refine (allocpair_returns t1 env key val).mono ?_
      rintro - t2 ⟨rfl, hm⟩
      have hslot : ∀ e ∈ made t1 env key val, t1.slotOf e.2.key = t1.slotOf key := by
        intro e he
        rw [made_inline (by rw [h1.style, hkcop]) he]
      refine (linkNew_returns h1.shape hl1 hm hslot).mono ?_
      rintro p t' ⟨-, hstyle, hhasher, hshape⟩
      exact ⟨hstyle, hhasher, hshape⟩
    refine (hreturns.and (hkeeps t1)).mono ?_
    rintro p t' ⟨⟨hstyle, hhasher, hshape⟩, hsizer', hcapa⟩
    refine ⟨_, ⟨hshape, hstyle.trans h1.style, hhasher.trans h1.hasher⟩, hsizer'.trans hsizer1,
      ?_, fun hdistinct => ?_, fun _ hsame => ?_⟩
    · rw [hcapa]
      rcases hcase with ⟨heq, -⟩ | hlt
      · exact le_of_eq heq.symm
      · exact le_of_lt hlt
    · have hnone1 : ∀ x ∈ cs1.flatten, ¬t.style.comper x.2.key key = 0 :=
        fun x hx => hnone x (h1.perm.mem_iff.mp hx)
      have hkey : ∀ e ∈ made t1 env key val, t.style.comper e.2.key key = 0 := by
        intro e he
        rw [made_inline (by rw [h1.style, hkcop]) he]
        exact hag.refl key
      refine (Distinct.add hag (made t1 env key val) (hdistinct.perm hag h1.perm) hkey hnone1).perm
        hag ?_
      refine (flatten_set_perm hl1).trans ?_
      rw [append_assoc]
      exact (flatten_perm hl1).symm.append_left _
    · obtain ⟨-, rfl⟩ : t1.capa = t.capa ∧ cs1 = cs :=
        hcase.resolve_right (by rw [← hcapa, hsame]; exact lt_irrefl _)
      cases hmade : made t1 env key val with
      | none =>
        refine .inl ?_
        rw [layout_keep (fun _ => true) fun _ _ => rfl, layout_set, Option.toList_none, nil_append]
        exact set_of_getElem? (getElem?_layout hl1)
      | some e =>
        refine .inr ⟨hnone, _, _, e.1, getElem?_layout hl1, ?_⟩
        rw [layout_set, ← made_inline (by rw [h1.style, hkcop]) hmade]
        rfl

theorem layout_remove {pre post : List (Entry κ)} (kept : κ → Bool)
    (hl : cs[h]? = some (pre ++ e :: post)) (he : kept e.2.key = false)
    (hrest : ∀ x ∈ pre ++ post ++ others cs h, kept x.2.key = true) :
    layout (cs.set h (pre ++ post)) = (layout cs).map (List.filter fun x => kept x.2) := by
  have hpre : (pre.map fun e => (e.1, e.2.key)).filter (fun x => kept x.2) = _ :=
    map_filter_entries fun x hx =>
      hrest x (mem_append_left _ (mem_append_left _ hx))
  have hpost : (post.map fun e => (e.1, e.2.key)).filter (fun x => kept x.2) = _ :=
    map_filter_entries fun x hx =>
      hrest x (mem_append_left _ (mem_append_right _ hx))
  rw [layout_set]
  refine ext_getElem? fun j => ?_
  rw [getElem?_map]
  by_cases hj : h = j
  · subst hj
    have hlt : h < (layout cs).length := by
      rw [layout, length_map]
      exact (List.getElem?_eq_some_iff.mp hl).1
    rw [getElem?_set_self hlt, getElem?_layout hl, Option.map_some, map_append,
      map_append, map_cons, filter_append, filter_cons, hpre, hpost]
    simp [he]
  · rw [getElem?_set_ne hj]
    cases hlj : cs[j]? with
    | none => rw [layout, getElem?_map, hlj, Option.map_none, Option.map_none]
    | some l =>
      rw [getElem?_layout hlj, Option.map_some, map_filter_entries fun x hx =>
        hrest x (mem_append_right _ (mem_others hlj (Ne.symm hj) hx))]

theorem delete_moves (hs : Shape t cs) (hag : Agrees t.style.comper t.hasher)
    (hsizer : t.sizer = false) (key : κ) :
    Returns (delete key) t fun _ t' =>
      ∃ cs', Moved t cs key (fun k => t.style.comper k key ≠ 0) t' cs' := by
  have hreturns : Returns (delete key) t fun _ t' => ∃ cs', Left t t' cs' ∧
      (Distinct t.style cs.flatten → Distinct t.style cs'.flatten ∧ layout cs' =
        (layout cs).map (List.filter fun x => t.style.comper x.2 key ≠ 0)) := by
    rw [delete, returns_bind, returns_get]
    refine find_bind_returns hs hag (fun pre e post next hl he hcell => ?_) fun prev hnone => ?_
    · simp only
      rw [returns_bind, returns_load hcell]
      refine (unlink_returns hs hl hcell).mono ?_
      rintro ok t' ⟨-, hleft⟩
      refine ⟨_, hleft, fun hdistinct => ?_⟩
      have hperm : cs.flatten.Perm (e :: (pre ++ post ++ others cs (t.slotOf key))) :=
        (flatten_perm hl).trans (perm_middle.append_right _)
      have hold := hdistinct.perm hag hperm.symm
      have hapart := hold.apart hag he
      refine ⟨Distinct.perm hag hold.of_cons (flatten_set_perm hl), ?_⟩
      have hfound : t.style.comper e.2.key key = 0 := he
      exact layout_remove (fun k => t.style.comper k key ≠ 0) hl (by simp [hfound])
        fun x hx => by simpa using hapart x hx
    · refine returns_pure.mpr ⟨cs, ⟨hs, rfl, rfl⟩, fun hdistinct => ⟨hdistinct, ?_⟩⟩
      refine (layout_keep (fun k => t.style.comper k key ≠ 0) fun e he => ?_).symm
      exact decide_eq_true (hnone e he)
  refine (hreturns.and (keeps_delete key t)).mono ?_
  rintro ok t' ⟨⟨cs', hleft, hlayout⟩, hsizer', hcapa⟩
  exact ⟨cs', hleft, hsizer'.trans hsizer, le_of_eq hcapa.symm,
    fun hdistinct => (hlayout hdistinct).1, fun hdistinct _ => .inl (hlayout hdistinct).2⟩

theorem clear_moves (hs : Shape t cs) (hsizer : t.sizer = false) (key : κ) :
    Returns clear t fun _ t' => ∃ cs', Moved t cs key (fun _ => false) t' cs' := by
  refine ((clear_returns hs).and (keeps_clear t)).mono ?_
  rintro - t' ⟨hleft, hsizer', hcapa⟩
  refine ⟨_, hleft, hsizer'.trans hsizer, le_of_eq hcapa.symm, fun _ => ?_, fun _ _ => .inl ?_⟩
  · have hempty : (List.replicate t.capa ([] : List (Entry κ))).flatten = [] := by simp
    rw [hempty]
    exact List.Pairwise.nil
  rw [layout, layout, map_replicate, map_map]
  refine (eq_replicate_iff.mpr ⟨?_, ?_⟩).symm
  · rw [length_map, hs.len]
  · intro l hl
    obtain ⟨l', -, rfl⟩ := mem_map.mp hl
    exact filter_eq_nil_iff.mpr fun _ _ => by simp

theorem search_moves (hs : Shape t cs) (hag : Agrees t.style.comper t.hasher)
    (hsizer : t.sizer = false) (key : κ) :
    Returns (search key) t fun _ t' => ∃ cs', Moved t cs key (fun _ => true) t' cs' := by
  refine (search_returns hs hag key).mono ?_
  rintro p t' ⟨rfl, -⟩
  exact ⟨cs, ⟨hs, rfl, rfl⟩, hsizer, le_rfl, id,
    fun _ _ => .inl (layout_keep (fun _ => true) fun _ _ => rfl).symm⟩

theorem lookup_ne_none (hs : Shape t cs) (hag : Agrees t.style.comper t.hasher) (key : κ) :
    t.lookup key ≠ none ↔ ∃ e ∈ cs.flatten, t.HasKey key e := by
  obtain ⟨p, t', hrun, rfl, r, rfl, hbound⟩ := search_returns hs hag key
  rw [lookup, hrun, Option.bind_some]
  rcases hbound with ⟨e, rest, hperm, he, rfl, -⟩ | ⟨hno, rfl, -⟩
  · have hmem : e ∈ cs.flatten := hperm.mem_iff.mpr (.head _)
    have hall : ∀ x ∈ some e, x ∈ cs.flatten := by
      rintro x ⟨⟩
      exact hmem
    rw [hs.contents_eq hall]
    exact ⟨fun _ => ⟨e, hmem, he⟩, fun _ => by simp⟩
  · refine ⟨fun h => absurd rfl h, ?_⟩
    rintro ⟨e, hmem, he⟩
    exact absurd he (hno e hmem)

end Calls

/-! ## What is ahead of a place -/

section Ahead

variable {ks ks' ks'' : List (List (ℕ × κ))} {i : ℕ} {done rest : List (ℕ × κ)} {key : κ}

def Holds (ks : List (List (ℕ × κ))) (key : κ) : Prop :=
  ∃ (j : ℕ) (l : List (ℕ × κ)), ks[j]? = some l ∧ ∃ x ∈ l, x.2 = key

def Ahead (ks : List (List (ℕ × κ))) (i : ℕ) (rest : List (ℕ × κ)) (key : κ) : Prop :=
  (∃ x ∈ rest, x.2 = key) ∨
    ∃ (j : ℕ) (l : List (ℕ × κ)), i < j ∧ ks[j]? = some l ∧ ∃ x ∈ l, x.2 = key

/-- Whoever stands in a chain, with a pair before him that stays, keeps his place, and the
keys that stay do not pass him. -/
def Passes (stays : κ → Prop) (ks ks' : List (List (ℕ × κ))) : Prop :=
  ∀ i done rest, ks[i]? = some (done ++ rest) → (∀ x : ℕ × κ, x ∈ rest.head? → stays x.2) →
    ∃ done' rest', ks'[i]? = some (done' ++ rest') ∧ rest'.head? = rest.head? ∧
      rest'.length ≤ rest.length ∧ ∀ key, stays key → Holds ks key →
        Holds ks' key ∧ (Ahead ks' i rest' key ↔ Ahead ks i rest key)

theorem Passes.refl (stays : κ → Prop) (ks : List (List (ℕ × κ))) : Passes stays ks ks :=
  fun _ done rest hi _ => ⟨done, rest, hi, rfl, le_rfl, fun _ _ h => ⟨h, Iff.rfl⟩⟩

theorem Passes.trans {stays stays' : κ → Prop} (h : Passes stays ks ks')
    (h' : Passes stays' ks' ks'') : Passes (fun key => stays key ∧ stays' key) ks ks'' := by
  intro i done rest hi hhead
  obtain ⟨done', rest', hi', hhead', hlen', hkeys'⟩ :=
    h i done rest hi fun x hx => (hhead x hx).1
  obtain ⟨done'', rest'', hi'', hhead'', hlen'', hkeys''⟩ :=
    h' i done' rest' hi' fun x hx => (hhead x (hhead' ▸ hx)).2
  refine ⟨done'', rest'', hi'', hhead''.trans hhead', le_trans hlen'' hlen', ?_⟩
  rintro key ⟨hstays, hstays'⟩ hkey
  obtain ⟨hkey', hahead'⟩ := hkeys' key hstays hkey
  obtain ⟨hkey'', hahead''⟩ := hkeys'' key hstays' hkey'
  exact ⟨hkey'', hahead''.trans hahead'⟩

theorem passes_filter (kept : κ → Bool) (ks : List (List (ℕ × κ))) :
    Passes (fun key => kept key = true) ks (ks.map (List.filter fun x => kept x.2)) := by
  have hchain (j : ℕ) (l : List (ℕ × κ)) (hj : ks[j]? = some l) :
      (ks.map (List.filter fun x => kept x.2))[j]? = some (l.filter fun x => kept x.2) := by
    rw [getElem?_map, hj, Option.map_some]
  have hmem (l : List (ℕ × κ)) (key : κ) (hkey : kept key = true) :
      (∃ x ∈ l.filter fun x => kept x.2, x.2 = key) ↔ ∃ x ∈ l, x.2 = key := by
    constructor
    · rintro ⟨x, hx, rfl⟩
      exact ⟨x, mem_of_mem_filter hx, rfl⟩
    · rintro ⟨x, hx, rfl⟩
      exact ⟨x, mem_filter.mpr ⟨hx, hkey⟩, rfl⟩
  intro i done rest hi hhead
  refine ⟨done.filter fun x => kept x.2, rest.filter fun x => kept x.2, ?_, ?_,
    length_filter_le _ _, fun key hkey hin => ⟨?_, ?_⟩⟩
  · rw [hchain i _ hi, filter_append]
  · cases rest with
    | nil => rfl
    | cons x rest =>
      have hx : kept x.2 = true := hhead x rfl
      simp only [filter_cons, hx, if_true, head?_cons]
  · obtain ⟨j, l, hj, hx⟩ := hin
    exact ⟨j, _, hchain j l hj, (hmem l key hkey).mpr hx⟩
  · refine or_congr (hmem rest key hkey) ⟨?_, ?_⟩
    · rintro ⟨j, l, hlt, hj, hx⟩
      obtain ⟨l', hj', rfl⟩ := Option.map_eq_some_iff.mp (getElem?_map ▸ hj)
      exact ⟨j, l', hlt, hj', (hmem l' key hkey).mp hx⟩
    · rintro ⟨j, l, hlt, hj, hx⟩
      exact ⟨j, _, hlt, hchain j l hj, (hmem l key hkey).mpr hx⟩

theorem passes_pushed {stays : κ → Prop} (hnew : ¬Holds ks key) (h : Pushed key ks ks') :
    Passes stays ks ks' := by
  obtain ⟨p, l, a, hl, rfl⟩ := h
  have hlt := (List.getElem?_eq_some_iff.mp hl).1
  have hkeep (j : ℕ) (l' : List (ℕ × κ)) (k : κ) (hj : ks[j]? = some l') (hk : ∃ x ∈ l', x.2 = k) :
      ∃ l'', (ks.set p ((a, key) :: l))[j]? = some l'' ∧ ∃ x ∈ l'', x.2 = k := by
    by_cases hpj : p = j
    · subst hpj
      obtain rfl := Option.some.inj (hl.symm.trans hj)
      obtain ⟨x, hx, hxk⟩ := hk
      exact ⟨_, getElem?_set_self hlt, x, .tail _ hx, hxk⟩
    · exact ⟨l', by rw [getElem?_set_ne hpj, hj], hk⟩
  have hback (j : ℕ) (l' : List (ℕ × κ)) (k : κ) (hk : Holds ks k)
      (hj : (ks.set p ((a, key) :: l))[j]? = some l') (hx : ∃ x ∈ l', x.2 = k) :
      ∃ l'', ks[j]? = some l'' ∧ ∃ x ∈ l'', x.2 = k := by
    by_cases hpj : p = j
    · subst hpj
      rw [getElem?_set_self hlt] at hj
      obtain rfl := Option.some.inj hj
      obtain ⟨x, hx, hxk⟩ := hx
      rcases mem_cons.mp hx with rfl | hx
      · have hkey : key = k := hxk
        exact absurd hk (hkey ▸ hnew)
      · exact ⟨l, hl, x, hx, hxk⟩
    · rw [getElem?_set_ne hpj] at hj
      exact ⟨l', hj, hx⟩
  intro i done rest hi _
  have hplace : ∃ done', (ks.set p ((a, key) :: l))[i]? = some (done' ++ rest) := by
    by_cases hpi : p = i
    · subst hpi
      obtain rfl := Option.some.inj (hl.symm.trans hi)
      exact ⟨(a, key) :: done, getElem?_set_self hlt⟩
    · exact ⟨done, by rw [getElem?_set_ne hpi, hi]⟩
  obtain ⟨done', hi'⟩ := hplace
  refine ⟨done', rest, hi', rfl, le_rfl, fun k _ hk => ⟨?_, ?_⟩⟩
  · obtain ⟨j, l', hj, hx⟩ := hk
    obtain ⟨l'', hj', hx'⟩ := hkeep j l' k hj hx
    exact ⟨j, l'', hj', hx'⟩
  · refine or_congr Iff.rfl ⟨?_, ?_⟩
    · rintro ⟨j, l', hij, hj, hx⟩
      obtain ⟨l'', hj', hx'⟩ := hback j l' k hk hj hx
      exact ⟨j, l'', hij, hj', hx'⟩
    · rintro ⟨j, l', hij, hj, hx⟩
      obtain ⟨l'', hj', hx'⟩ := hkeep j l' k hj hx
      exact ⟨j, l'', hij, hj', hx'⟩

theorem holds_layout {cs : List (List (Entry κ))} :
    Holds (layout cs) key ↔ ∃ e ∈ cs.flatten, e.2.key = key := by
  constructor
  · rintro ⟨j, l, hj, x, hx, rfl⟩
    obtain ⟨l', hj', rfl⟩ := Option.map_eq_some_iff.mp (getElem?_map ▸ hj)
    obtain ⟨e, he, rfl⟩ := mem_map.mp hx
    exact ⟨e, mem_flatten.mpr ⟨l', mem_of_getElem? hj', he⟩, rfl⟩
  · rintro ⟨e, he, rfl⟩
    obtain ⟨l, hl, he⟩ := mem_flatten.mp he
    obtain ⟨j, hj⟩ := getElem?_of_mem hl
    exact ⟨j, _, getElem?_layout hj, (e.1, e.2.key), mem_map_of_mem he, rfl⟩

theorem not_ahead_again {style : PairStyle κ} {cs : List (List (Entry κ))} {x : ℕ × κ}
    (hrefl : ∀ k, style.comper k k = 0) (hdistinct : Distinct style cs.flatten)
    (hi : (layout cs)[i]? = some (done ++ x :: rest)) : ¬Ahead (layout cs) i rest x.2 := by
  have hpairs : (layout cs).flatten.Pairwise fun x y => style.comper x.2 y.2 ≠ 0 := by
    rw [layout, ← map_flatten, pairwise_map]
    exact hdistinct
  obtain ⟨hwithin, hacross⟩ := pairwise_flatten.mp hpairs
  rintro (⟨y, hy, hkey⟩ | ⟨j, l, hij, hj, y, hy, hkey⟩)
  · have hl := hwithin _ (mem_of_getElem? hi)
    refine (pairwise_cons.mp (pairwise_append.mp hl).2.1).1 y hy ?_
    rw [hkey]
    exact hrefl _
  · obtain ⟨hilt, hieq⟩ := List.getElem?_eq_some_iff.mp hi
    obtain ⟨hjlt, rfl⟩ := List.getElem?_eq_some_iff.mp hj
    refine pairwise_iff_getElem.mp hacross i j hilt hjlt hij x ?_ y hy ?_
    · rw [hieq]
      simp
    · rw [hkey]
      exact hrefl _

end Ahead

variable {κ σ : Type}

/-- `qse_htb_walk_t` -/
inductive WalkSignal where
  | stop
  | forward
deriving DecidableEq

/-- The local variables of `qse_htb_walk` at the head of the inner loop, and the context of
the walker. -/
structure Position (σ : Type) where
  i : ℕ
  pair : Option ℕ
  ctx : σ

/-- How far a walk is: at a position, or over, with the signal that has ended it. -/
inductive Walk (σ : Type) where
  | at (pos : Position σ)
  | over (signal : WalkSignal) (ctx : σ)

/-- `walker (htb, pair, ctx)` -/
abbrev Walker (κ σ : Type) := σ → ℕ → HtbM κ (WalkSignal × σ)

def walkBucket (i : ℕ) (ctx : σ) : HtbM κ (Walk σ) := do
  let t ← get
  if i < t.capa then
    let p ← loadBucket i
    pure (.at ⟨i, p, ctx⟩)
  else pure (.over .forward ctx)

/-- One turn of the inner loop, or the way to the next bucket. -/
def walkStep (walker : Walker κ σ) (pos : Position σ) : HtbM κ (Walk σ) :=
  match pos.pair with
  | none => walkBucket (pos.i + 1) pos.ctx
  | some a => do
    let n ← load a
    let (signal, ctx) ← walker pos.ctx a
    match signal with
    | .stop => pure (.over .stop ctx)
    | .forward => pure (.at ⟨pos.i, n.next, ctx⟩)

def walkFrom (walker : Walker κ σ) : ℕ → Walk σ → HtbM κ (Walk σ)
  | 0, w => pure w
  | _ + 1, .over signal ctx => pure (.over signal ctx)
  | fuel + 1, .at pos => do
    let w ← walkStep walker pos
    walkFrom walker fuel w

def walk (walker : Walker κ σ) (fuel : ℕ) (ctx : σ) : HtbM κ (Walk σ) := do
  let w ← walkBucket 0 ctx
  walkFrom walker fuel w

/-- The walk that `ctx` begins in `t0` comes to a position, with the table that it finds
there. -/
inductive Walking (walker : Walker κ σ) (t0 : Htb κ) (ctx : σ) : Position σ → Htb κ → Prop where
  | first {pos : Position σ} {t : Htb κ} (hrun : (walkBucket 0 ctx).run t0 = some (.at pos, t)) :
      Walking walker t0 ctx pos t
  | next {pos pos' : Position σ} {t t' : Htb κ} (h : Walking walker t0 ctx pos t)
      (hrun : (walkStep walker pos).run t = some (.at pos', t')) :
      Walking walker t0 ctx pos' t'

@[simp] theorem walkFrom_over (walker : Walker κ σ) (fuel : ℕ) (signal : WalkSignal) (ctx : σ) :
    walkFrom walker fuel (.over signal ctx) = pure (.over signal ctx) := by
  cases fuel <;> rfl

theorem walkFrom_add (walker : Walker κ σ) (m n : ℕ) (w : Walk σ) :
    walkFrom walker (m + n) w = walkFrom walker m w >>= walkFrom walker n := by
  induction m generalizing w with
  | zero =>
    rw [zero_add, walkFrom, pure_bind]
  | succ m ih =>
    cases w with
    | «over» signal ctx => simp only [walkFrom_over, pure_bind]
    | «at» pos =>
      rw [add_right_comm, walkFrom, walkFrom, bind_assoc]
      exact bind_congr ih

theorem walk_add (walker : Walker κ σ) (m n : ℕ) (ctx : σ) :
    walk walker (m + n) ctx = walk walker m ctx >>= walkFrom walker n := by
  rw [walk, walk, bind_assoc]
  exact bind_congr fun w => walkFrom_add walker m n w

variable {walker : Walker κ σ} {t : Htb κ} {m : ℕ}

theorem walk_fails_add {ctx : σ} (h : (walk walker m ctx).run t = none)
    (n : ℕ) : (walk walker (m + n) ctx).run t = none := by
  rw [walk_add, StateT.run_bind, h]
  rfl

theorem walk_over_add {ctx ctx' : σ} {t' : Htb κ} {signal : WalkSignal}
    (h : (walk walker m ctx).run t = some (.over signal ctx', t')) (n : ℕ) :
    (walk walker (m + n) ctx).run t = some (.over signal ctx', t') := by
  rw [walk_add, StateT.run_bind, h, Option.bind_eq_bind, Option.bind_some, walkFrom_over]
  rfl

def Descends (I : ℕ → ℕ → Position σ → Htb κ → Prop) (Q : WalkSignal → σ → Htb κ → Prop)
    (n m : ℕ) : Walk σ → Htb κ → Prop
  | .over signal ctx, t => Q signal ctx t
  | .at pos, t => ∃ n' m', (n' < n ∨ n' = n ∧ m' < m) ∧ I n' m' pos t

theorem walkFrom_ends {I : ℕ → ℕ → Position σ → Htb κ → Prop} {Q : WalkSignal → σ → Htb κ → Prop}
    (hstep : ∀ {n m pos t}, I n m pos t → Returns (walkStep walker pos) t (Descends I Q n m))
    {n : ℕ} {pos : Position σ} (h : I n m pos t) :
    ∃ fuel, Returns (walkFrom walker fuel (.at pos)) t fun w t' =>
      ∃ signal ctx, w = .over signal ctx ∧ Q signal ctx t' := by
  induction n using Nat.strongRecOn generalizing m pos t with
  | _ n ihn =>
  induction m using Nat.strongRecOn generalizing pos t with
  | _ m ihm =>
  obtain ⟨w, t', hrun, hw⟩ := hstep h
  have hone : ∀ fuel, (walkFrom walker (fuel + 1) (.at pos)).run t =
      (walkFrom walker fuel w).run t' := by
    intro fuel
    rw [walkFrom, StateT.run_bind, hrun]
    rfl
  cases w with
  | «over» signal ctx =>
    refine ⟨1, .over signal ctx, t', ?_, signal, ctx, rfl, hw⟩
    rw [hone, walkFrom_over]
    rfl
  | «at» pos' =>
    obtain ⟨n', m', hless, hnext⟩ := hw
    have hmore : ∃ fuel, Returns (walkFrom walker fuel (.at pos')) t' fun w t' =>
        ∃ signal ctx, w = .over signal ctx ∧ Q signal ctx t' := by
      rcases hless with hn | ⟨rfl, hm⟩
      · exact ihn n' hn hnext
      · exact ihm m' hm hnext
    obtain ⟨fuel, w, t'', hrun', hq⟩ := hmore
    exact ⟨fuel + 1, w, t'', (hone fuel).trans hrun', hq⟩

end Qse.Htb
