import Qse.Rbt.Runs

/-!
# The keys increase from left to right

With a comparator that orders the keys, perhaps taking several of them for the same, the keys of the
tree increase from left to right after any calls.
-/

open List Option

namespace Qse.Rbt

open ColorTree StateProgram

variable {κ : Type}

/-- A comparator that orders the keys. -/
structure KeyOrder (comper : κ → κ → ℤ) : Prop where
  pos_iff : ∀ a b, 0 < comper a b ↔ comper b a < 0
  trans : ∀ a b c, comper a b ≤ 0 → comper b c ≤ 0 → comper a c ≤ 0

namespace KeyOrder

variable {comper : κ → κ → ℤ}

theorem self (h : KeyOrder comper) (a : κ) : comper a a = 0 := by
  have hswap := h.pos_iff a a
  omega

variable {a b c : κ}

theorem le_of_zero (h : KeyOrder comper) (hab : comper a b = 0) : comper b a ≤ 0 := by
  have hswap := h.pos_iff b a
  omega

theorem lt_of_le_of_lt (h : KeyOrder comper) (hab : comper a b ≤ 0)
    (hbc : comper b c < 0) : comper a c < 0 := by
  have hac := h.trans a b c hab (Int.le_of_lt hbc)
  by_contra hge
  have hca : comper c a ≤ 0 := h.le_of_zero (by omega)
  have hcb := h.trans c a b hca hab
  have hswap := (h.pos_iff c b).mpr hbc
  omega

theorem lt_of_lt_of_le (h : KeyOrder comper) (hab : comper a b < 0)
    (hbc : comper b c ≤ 0) : comper a c < 0 := by
  have hac := h.trans a b c (Int.le_of_lt hab) hbc
  by_contra hge
  have hca : comper c a ≤ 0 := h.le_of_zero (by omega)
  have hba := h.trans b c a hbc hca
  have hswap := (h.pos_iff b a).mpr hab
  omega

theorem zero_trans (h : KeyOrder comper) (hab : comper a b = 0)
    (hbc : comper b c = 0) : comper a c = 0 := by
  have hac := h.trans a b c (Int.le_of_eq hab) (Int.le_of_eq hbc)
  have hca := h.trans c b a (h.le_of_zero hbc) (h.le_of_zero hab)
  by_contra hne
  have hlt : comper a c < 0 := by omega
  have hpos := (h.pos_iff c a).mpr hlt
  omega

theorem cuts {style : PairStyle κ} (h : KeyOrder style.comper) (key : κ) :
    Cuts (fun x y : Entry κ => style.comper x.data.key y.data.key < 0) (keyCmp style key) := by
  intro x y hxy hx
  exact h.lt_of_le_of_lt hx hxy

end KeyOrder

def keys (T : RbTree (Entry κ)) : List κ := T.items.map fun e => e.data.key

def Ordered (style : PairStyle κ) (T : RbTree (Entry κ)) : Prop :=
  (keys T).Pairwise fun a b => style.comper a b < 0

variable {style : PairStyle κ} {T T' : RbTree (Entry κ)} {A B : List (Entry κ)} {e : Entry κ}
  {t : Rbt κ}

theorem Ordered.pairwise (h : Ordered style T) :
    T.items.Pairwise fun x y => style.comper x.data.key y.data.key < 0 :=
  pairwise_map.mp h

theorem Ordered.of_keys (h : Ordered style T) (hkeys : keys T' = keys T) : Ordered style T' := by
  rw [Ordered, hkeys]
  exact h

theorem Ordered.insert (hord : KeyOrder style.comper) (h : Ordered style T) (hT : T.items = A ++ B)
    (hT' : T'.items = A ++ e :: B) (hA : ∀ x ∈ A, 0 < keyCmp style e.data.key x)
    (hB : ∀ x ∈ B, keyCmp style e.data.key x < 0) :
    Ordered style T' := by
  have hpair := h.pairwise
  rw [hT, pairwise_append] at hpair
  obtain ⟨hpA, hpB, hcross⟩ := hpair
  have hbelow : ∀ x ∈ A, style.comper x.data.key e.data.key < 0 := fun x hx =>
    (hord.pos_iff _ _).mp (hA x hx)
  refine pairwise_map.mpr ?_
  rw [hT', pairwise_append]
  refine ⟨hpA, pairwise_cons.mpr ⟨hB, hpB⟩, fun x hx y hy => ?_⟩
  rcases mem_cons.mp hy with rfl | hy
  · exact hbelow x hx
  · exact hcross x hx y hy

theorem Ordered.remove (h : Ordered style T) (hT : T.items = A ++ e :: B)
    (hT' : T'.items = A ++ B) : Ordered style T' := by
  refine Pairwise.sublist ?_ h
  rw [keys, keys, hT, hT']
  exact Sublist.map _ (Sublist.append_left (sublist_cons_self e B) A)

theorem Ordered.replace (hord : KeyOrder style.comper) (h : Ordered style T) {e' : Entry κ}
    (hT : T.items = A ++ e :: B) (hT' : T'.items = A ++ e' :: B)
    (hsame : style.comper e'.data.key e.data.key = 0) : Ordered style T' := by
  have hpair := h.pairwise
  rw [hT, pairwise_append] at hpair
  obtain ⟨hpA, hpB, hcross⟩ := hpair
  obtain ⟨hright, hpB⟩ := pairwise_cons.mp hpB
  refine pairwise_map.mpr ?_
  rw [hT', pairwise_append]
  refine ⟨hpA, pairwise_cons.mpr ⟨?_, hpB⟩, fun x hx y hy => ?_⟩
  · intro y hy
    exact hord.lt_of_le_of_lt (Int.le_of_eq hsame) (hright y hy)
  · rcases mem_cons.mp hy with rfl | hy
    · exact hord.lt_of_lt_of_le (hcross x hx e (.head _)) (hord.le_of_zero hsame)
    · exact hcross x hx y (.tail _ hy)

/-! ## Calls that keep the keys -/

def lookup (t : Rbt κ) (key : κ) : Option (PairData κ) :=
  ((search key).run t).bind fun p => (p.2.mem p.1).map Pair.data

/-- No value of another length comes in place of an inline value where the pairs share the keys of
the caller and a freeer is called for them: the pair that `change_pair_val` makes would be left with
a key that has been freed. -/
def Op.KeepsShared (t : Rbt κ) : Op κ → Prop
  | .insert opt env key val =>
    t.style.kcop = .simple → t.style.freeKey = true → t.style.vcop = .inline →
      opt = .ensert ∨ opt = .insert ∨ t.mmgrAlloc env.block = .null ∨
        ∀ d, t.lookup key = some d → d.vlen = val.len
  | _ => True

/-- The key stored for a new pair compares equal to the key given, whether a copier
or a `cbserter` stores it, and is not freed. -/
def Op.KeepsKeys (t : Rbt κ) : Op κ → Prop
  | .insert opt env key val =>
    (∀ k, copyKey t.style env key = some k → t.style.comper k key = 0) ∧
      Op.KeepsShared t (.insert opt env key val)
  | .cbsert (.make _ d) key => t.style.comper d.key key = 0
  | _ => True

theorem fillPair_key {env : PairEnv κ} {key : κ} {val : Buffer} {d : PairData κ}
    (h : (fillPair style env key val).1 = some d) :
    copyKey style env key = some d.key := by
  rw [fillPair] at h
  cases hkey : copyKey style env key with
  | none =>
    rw [hkey] at h
    exact absurd h (by simp)
  | some k =>
    rw [hkey] at h
    cases hv : style.vcop with
    | simple | inline =>
      simp only [hv, some.injEq] at h
      rw [← h]
    | custom =>
      simp only [hv] at h
      split at h
      · exact absurd h (by simp)
      · simp only [some.injEq] at h
        rw [← h]

theorem made_key {env : PairEnv κ} {key : κ} {val : Buffer}
    (h : made t env key val = some e) : copyKey t.style env key = some e.data.key := by
  rw [made] at h
  split at h
  · rename_i a d _ hfill
    simp only [some.injEq] at h
    rw [← h]
    exact fillPair_key hfill
  · exact absurd h (by simp)

theorem cbMade_key {out : Cbserted κ} (h : cbMade t out = some e) :
    ∃ block, out = .make block e.data := by
  cases out with
  | fail | keep vptr vlen vbuf => exact absurd h (by simp [cbMade])
  | make block d =>
    rw [cbMade] at h
    split at h
    · simp only [some.injEq] at h
      rw [← h]
      exact ⟨block, rfl⟩
    · exact absurd h (by simp)

section Step

variable {t : Rbt κ} {T : RbTree (Entry κ)}

variable {env : PairEnv κ} {key : κ} {e : Entry κ}

theorem copyKey_found (hs : KeyOrder t.style.comper) {old k : κ}
    (hkeeps : ∀ k, copyKey t.style env key = some k → t.style.comper k key = 0)
    (hfound : t.style.comper key old = 0) (hk : copyKey t.style env old = some k) :
    t.style.comper k old = 0 := by
  rw [copyKey] at hk
  cases hcop : t.style.kcop with
  | simple | inline =>
    simp only [hcop, some.injEq] at hk
    rw [← hk]
    exact hs.self old
  | custom =>
    simp only [hcop] at hk
    refine hs.zero_trans (hkeeps k ?_) hfound
    rw [copyKey, hcop]
    exact hk

theorem changed_key (hs : KeyOrder t.style.comper) {val : Buffer}
    (hkeeps : ∀ k, copyKey t.style env key = some k → t.style.comper k key = 0) {e' : Entry κ}
    (hfound : t.style.comper key e.data.key = 0)
    (h : changed t env e val = some e') : t.style.comper e'.data.key e.data.key = 0 := by
  have hself := hs.self e.data.key
  rw [changed, changeOf] at h
  by_cases hsame : e.data.vptr = val.ptr ∧ e.data.vlen = val.len
  · rw [if_pos hsame] at h
    cases h
    exact hself
  rw [if_neg hsame] at h
  cases hv : t.style.vcop with
  | simple =>
    simp only [hv, some.injEq] at h
    rw [← h]
    exact hself
  | inline =>
    by_cases hlen : e.data.vlen = val.len
    · simp only [hv, hlen, if_true, some.injEq] at h
      rw [← h]
      split <;> exact hself
    · simp only [hv, hlen, if_false] at h
      exact copyKey_found hs hkeeps hfound (made_key h)
  | custom =>
    simp only [hv] at h
    by_cases hcopy : env.vcopy = 0
    · simp [hcopy] at h
    · simp only [hcopy, if_false, some.injEq] at h
      rw [← h]
      exact hself

theorem replaced_items (fs : List (Frame (Entry κ))) (c : Color) (e : Entry κ)
    (l r : RbTree (Entry κ)) (e' : Option (Entry κ)) : (replaced fs c e l r e').items =
      (itemsBefore fs ++ l.items) ++ e'.getD e :: (r.items ++ itemsAfter fs) := by
  rw [replaced, items_plug]
  simp

theorem added_items (fs : List (Frame (Entry κ))) (e : Entry κ) :
    (added fs e).items = itemsBefore fs ++ e :: itemsAfter fs := by
  rw [added, RbTree.items_paint, items_insertFix, items_plug, leaf]
  simp

theorem replaced_ordered (hs : KeyOrder t.style.comper) {fs : List (Frame (Entry κ))} {c : Color}
    {l r : RbTree (Entry κ)} (hord : Ordered t.style (plug fs (.node c e l r)))
    {e' : Option (Entry κ)} (hkey : ∀ x ∈ e', t.style.comper x.data.key e.data.key = 0) :
    Ordered t.style (replaced fs c e l r e') := by
  refine hord.replace hs (replaced_items fs c e l r none) (replaced_items fs c e l r e') ?_
  cases e' with
  | none => exact hs.self _
  | some x => exact hkey x rfl

theorem added_ordered (hs : KeyOrder t.style.comper) (hord : Ordered t.style T)
    {fs : List (Frame (Entry κ))} (hplace : descend (keyCmp t.style key) [] T = (fs, .nil))
    (hkey : t.style.comper e.data.key key = 0) : Ordered t.style (added fs e) := by
  have hplug := plug_descend (keyCmp t.style key) [] T
  have hbrackets := descend_brackets (hs.cuts key) [] T hord.pairwise
    ⟨fun _ hx => absurd hx not_mem_nil, fun _ hx => absurd hx not_mem_nil⟩
  rw [hplace] at hplug hbrackets
  rw [plug_nil] at hplug
  have hitems := congrArg RbTree.items hplug
  simp only [items_plug, RbTree.items_nil, append_nil] at hitems
  refine hord.insert hs hitems.symm (added_items fs e) ?_ ?_
  · intro x hx
    have hpos : t.style.comper x.data.key key < 0 := (hs.pos_iff _ _).mp (hbrackets.1 x hx)
    exact (hs.pos_iff _ _).mpr (hs.lt_of_lt_of_le hpos (hs.le_of_zero hkey))
  · intro x hx
    exact hs.lt_of_le_of_lt (Int.le_of_eq hkey) (hbrackets.2 x hx)

theorem inserted_ordered (hs : KeyOrder t.style.comper) (hord : Ordered t.style T) (opt : InsertOpt)
    (val : Buffer) (hkeeps : ∀ k, copyKey t.style env key = some k → t.style.comper k key = 0) :
    Ordered t.style (inserted t T env key val opt).2 := by
  have hplug := plug_descend (keyCmp t.style key) [] T
  have hfound := descend_found (keyCmp t.style key) [] T
  rw [inserted]
  cases hplace : descend (keyCmp t.style key) [] T with
  | mk fs s =>
  rw [hplace, plug_nil] at hplug
  rw [hplace] at hfound
  cases s with
  | nil =>
    by_cases hupdate : opt = .update
    · simp only [hupdate, if_true]
      exact hord
    · simp only [hupdate, if_false]
      cases hmade : made t env key val with
      | none => exact hord
      | some e => exact added_ordered hs hord hplace (hkeeps _ (made_key hmade))
  | node c e l r =>
    have hzero : keyCmp t.style key e = 0 := by
      rcases hfound with hnil | ⟨c', e', l', r', hnode, hzero⟩
      · exact absurd hnil (by simp)
      · cases hnode
        exact hzero
    have hord' : Ordered t.style (plug fs (.node c e l r)) := hplug.symm ▸ hord
    have hchanged : Ordered t.style (replaced fs c e l r (changed t env e val)) :=
      replaced_ordered hs hord' fun x hx => changed_key hs hkeeps hzero hx
    cases opt with
    | upsert | update => exact hchanged
    | ensert | insert => exact hord

theorem cbserted_ordered (hs : KeyOrder t.style.comper) (hord : Ordered t.style T)
    {out : Cbserted κ} (hkeeps : Op.KeepsKeys t (.cbsert out key)) :
    Ordered t.style (cbserted t T out key).2 := by
  have hplug := plug_descend (keyCmp t.style key) [] T
  have hfound := descend_found (keyCmp t.style key) [] T
  have hmade {e : Entry κ} (h : cbMade t out = some e) : t.style.comper e.data.key key = 0 := by
    obtain ⟨block, rfl⟩ := cbMade_key h
    exact hkeeps
  rw [cbserted]
  cases hplace : descend (keyCmp t.style key) [] T with
  | mk fs s =>
  rw [hplace, plug_nil] at hplug
  rw [hplace] at hfound
  cases s with
  | nil =>
    cases hcb : cbMade t out with
    | none => exact hord
    | some e => exact added_ordered hs hord hplace (hmade hcb)
  | node c e l r =>
    have hzero : t.style.comper key e.data.key = 0 := by
      rcases hfound with hnil | ⟨c', e', l', r', hnode, hzero⟩
      · exact absurd hnil (by simp)
      · cases hnode
        exact hzero
    have hord' : Ordered t.style (plug fs (.node c e l r)) := hplug.symm ▸ hord
    refine replaced_ordered hs hord' fun x hx => ?_
    cases out with
    | fail => exact absurd hx (by simp [cbChanged, cbMade])
    | keep vptr vlen vbuf =>
      cases hx
      exact hs.self _
    | make block d => exact hs.zero_trans (hmade hx) hzero

theorem Deleted.ordered (hord : Ordered t.style T) {T' : RbTree (Entry κ)} {ok : Bool}
    (h : Deleted t.style key T T' ok) : Ordered t.style T' := by
  have hplug := plug_descend (keyCmp t.style key) [] T
  rw [Deleted] at h
  cases hplace : descend (keyCmp t.style key) [] T with
  | mk fs s =>
  rw [hplace, plug_nil] at hplug
  rw [hplace] at h
  cases s with
  | nil =>
    obtain ⟨-, rfl⟩ := h
    exact hord
  | node c e l r =>
    obtain ⟨-, hremoved⟩ := h
    have hitems : T.items = (itemsBefore fs ++ l.items) ++ e :: (r.items ++ itemsAfter fs) :=
      hplug ▸ replaced_items fs c e l r none
    exact hord.remove hitems hremoved.items

theorem Op.exec_ordered (hs : KeyOrder t.style.comper) (h : Holds t T)
    (hord : Ordered t.style T) {op : Op κ} (hop : op.KeepsKeys t) :
    Returns op.exec t fun _ t' => ∃ T', Holds t' T' ∧ Ordered t.style T' ∧ t'.style = t.style := by
  cases op with
  | insert opt env key val =>
    rw [Op.exec, returns_bind]
    refine (h.insert_returns env key val opt).mono ?_
    rintro - t' ⟨-, hT', -, hstyle⟩
    exact returns_answer.mpr ⟨_, hT', inserted_ordered hs hord opt val hop.1, hstyle⟩
  | cbsert out key =>
    rw [Op.exec, returns_bind]
    refine (h.cbsert_returns out key).mono ?_
    rintro - t' ⟨-, hT', hstyle⟩
    exact returns_answer.mpr ⟨_, hT', cbserted_ordered hs hord hop, hstyle⟩
  | delete key =>
    rw [Op.exec, returns_bind]
    refine (h.delete_returns key).mono ?_
    rintro ok t' ⟨T', hT', hdel, hstyle⟩
    exact returns_pure.mpr ⟨T', hT', hdel.ordered hord, hstyle⟩
  | search key =>
    rw [Op.exec, returns_bind]
    refine (h.search_returns key).mono ?_
    rintro - t' ⟨-, hsame⟩
    exact returns_answer.mpr ⟨T, hsame ▸ h, hord, hsame ▸ rfl⟩
  | clear =>
    rw [Op.exec, returns_bind]
    refine h.clear_returns.mono ?_
    rintro - t' ⟨hT', hstyle⟩
    exact returns_pure.mpr ⟨.nil, hT', Pairwise.nil, hstyle⟩

end Step

theorem Runs.ordered [Inhabited κ] (hs : KeyOrder style.comper) {ok : Rbt κ → Op κ → Prop}
    (hok : ∀ t op, t.style = style → ok t op → op.KeepsKeys t)
    {log : List (Bool × Op κ × Outcome κ)} (h : Runs style ok log t) :
    t.style = style ∧ ∃ T, Holds t T ∧ Ordered style T := by
  induction h with
  | init => exact ⟨rfl, .nil, init_holds style, Pairwise.nil⟩
  | step h hop hrun ih =>
    obtain ⟨hstyle, T, hT, hord⟩ := ih
    have hkeeps := hok _ _ hstyle hop
    obtain rfl := hstyle
    obtain ⟨T', hT', hord', hstyle'⟩ := (Op.exec_ordered hs hT hord hkeeps).of_run hrun
    exact ⟨hstyle', T', hT', hord'⟩

end Qse.Rbt
