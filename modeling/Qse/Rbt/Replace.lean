import Qse.Rbt.Balance

/-!
# A pair that takes the place of another

`change_pair_val`, `qse_rbt_cbsert` and `delete_pair` put a pair where another one was. `Hollow`
describes a tree around such a place without its own cell.
-/

open List

namespace Qse.Rbt

open ColorTree StateProgram

variable {κ : Type}

/-- The heap of `t` holds the frames `fs` above the address `a` and the two subtrees below it. -/
structure Hollow (t : Rbt κ) (fs : List (Frame (Entry κ))) (a : ℕ) (l r : RbTree (Entry κ)) :
    Prop where
  root : ∀ c e, e.addr = a → t.root = treeRef (plug fs (.node c e l r))
  above : StoredCtx t.mem fs (.pair a)
  left : Stored t.mem (.pair a) l
  right : Stored t.mem (.pair a) r
  nodup : (a :: (addrs l ++ addrs r ++ ctxAddrs fs)).Nodup
  null : t.mem .null = none
  xnil : ∃ n, t.mem .xnil = some n ∧ IsNil n

variable {fs : List (Frame (Entry κ))} {c : Color} {e : Entry κ} {l r T : RbTree (Entry κ)}
  {t t2 : Rbt κ} {a b : ℕ}

theorem nodup_around :
    (addrs (plug fs (.node c e l r))).Nodup ↔
      (e.addr :: (addrs l ++ addrs r ++ ctxAddrs fs)).Nodup := by
  rw [(addrs_plug fs _).nodup_iff, addrs_node, append_assoc, cons_append,
    perm_middle.nodup_iff, ← append_assoc]

theorem Shape.hollow (h : Shape t (plug fs (.node c e l r))) : Hollow t fs e.addr l r := by
  obtain ⟨habove, -, hl, hr⟩ := stored_plug.mp h.stored
  refine ⟨?_, habove, hl, hr, nodup_around.mp h.nodup, h.null, h.xnil⟩
  intro c' e' he
  refine h.root.trans (treeRef_plug fs ?_)
  rw [treeRef_node, treeRef_node, he]

theorem Hollow.congr {t' : Rbt κ} (h : Hollow t fs a l r) (hroot : t'.root = t.root)
    (hmem : ∀ p, (∀ b ∈ addrs l ++ addrs r ++ ctxAddrs fs, p = .pair b → t'.mem p = t.mem p))
    (hnull : t'.mem .null = t.mem .null) (hxnil : t'.mem .xnil = t.mem .xnil) :
    Hollow t' fs a l r where
  root c e he := hroot.trans (h.root c e he)
  above := h.above.congr fun b hb => hmem _ b (by simp [hb]) rfl
  left := h.left.congr fun b hb => hmem _ b (by simp [hb]) rfl
  right := h.right.congr fun b hb => hmem _ b (by simp [hb]) rfl
  nodup := h.nodup
  null := hnull.trans h.null
  xnil := hxnil ▸ h.xnil

theorem Hollow.refill {t' : Rbt κ} (h : Hollow t fs a l r) {d : PairData κ}
    (hb : b ∉ addrs l ++ addrs r ++ ctxAddrs fs)
    (hroot : t'.root = treeRef (plug fs (.node c ⟨b, d⟩ l r)))
    (hcell : t'.mem (.pair b) = some ⟨d, c, ctxRef fs, treeRef l, treeRef r⟩)
    (hhead : ∀ k ks, fs = k :: ks →
      t'.mem (.pair k.item.addr) = some (cell k (ctxRef ks) (.pair b)))
    (hl : ∀ n, t.mem (treeRef l) = some n → l ≠ .nil →
      t'.mem (treeRef l) = some { n with parent := .pair b })
    (hr : ∀ n, t.mem (treeRef r) = some n → r ≠ .nil →
      t'.mem (treeRef r) = some { n with parent := .pair b })
    (hkept : ∀ p, p ≠ .pair b → (fs ≠ [] → p ≠ ctxRef fs) → (l ≠ .nil → p ≠ treeRef l) →
      (r ≠ .nil → p ≠ treeRef r) → t'.mem p = t.mem p) :
    Shape t' (plug fs (.node c ⟨b, d⟩ l r)) := by
  have hnd := h.nodup
  simp only [nodup_cons, nodup_append, mem_append, not_or] at hnd hb
  obtain ⟨⟨⟨hal, har⟩, hactx⟩, ⟨hndl, hndr, hlr⟩, hndctx, hsub⟩ := hnd
  obtain ⟨⟨hbl, hbr⟩, hbctx⟩ := hb
  refine ⟨hroot, stored_plug.mpr ⟨?_, hcell, ?_, ?_⟩, ?_, ?_, ?_⟩
  · refine h.above.rehole hndctx ?_ hhead
    intro x hx hne
    exact hkept _ (by grind) (fun _ => hne) (fun _ => (treeRef_ne_of_not_mem (by grind)).symm)
      fun _ => (treeRef_ne_of_not_mem (by grind)).symm
  · refine h.left.reparent hndl ?_ hl
    intro x hx hne
    exact hkept _ (by grind) (fun _ => ctxRef_ne_of_not_mem (by grind)) (fun _ => hne)
      fun _ => (treeRef_ne_of_not_mem (by grind)).symm
  · refine h.right.reparent hndr ?_ hr
    intro x hx hne
    exact hkept _ (by grind) (fun _ => ctxRef_ne_of_not_mem (by grind))
      (fun _ => (treeRef_ne_of_not_mem (by grind)).symm) fun _ => hne
  · refine nodup_around.mpr ?_
    simp only [nodup_cons, nodup_append, mem_append, not_or]
    exact ⟨⟨⟨hbl, hbr⟩, hbctx⟩, ⟨hndl, hndr, hlr⟩, hndctx, hsub⟩
  · rw [hkept _ (by simp) ctxRef_ne_null (fun _ => (treeRef_ne_null l).symm)
      fun _ => (treeRef_ne_null r).symm]
    exact h.null
  · rw [hkept _ (by simp) (fun _ => ctxRef_ne_xnil fs)
      (fun hne hx => hne (treeRef_eq_xnil.mp hx.symm))
      fun hne hx => hne (treeRef_eq_xnil.mp hx.symm)]
    exact h.xnil

/-! ## Relinking the neighbours -/

/-- From `t` to `t'` only cells change. -/
structure OnlyCells (t t' : Rbt κ) : Prop where
  root : t'.root = t.root
  size : t'.size = t.size
  style : t'.style = t.style
  calls : t'.calls = t.calls

structure Adopted (t t' : Rbt κ) (T : RbTree (Entry κ)) (q : Ref) : Prop extends
    OnlyCells t t' where
  parent : ∀ n, t.mem (treeRef T) = some n → T ≠ .nil →
    t'.mem (treeRef T) = some { n with parent := q }
  kept : ∀ p, (T ≠ .nil → p ≠ treeRef T) → t'.mem p = t.mem p

theorem adopted_put {n : Pair κ} (q : Ref) (hn : t.mem (treeRef T) = some n) (hT : T ≠ .nil) :
    Adopted t (t.put (treeRef T) { n with parent := q }) T q where
  root := rfl
  size := rfl
  style := rfl
  calls := rfl
  parent m hm _ := by
    rw [hn] at hm
    cases hm
    rw [put_mem, if_pos rfl]
  kept p hp := t.put_mem_of_ne (hp hT) _

theorem adopted_nil (t : Rbt κ) (q : Ref) : Adopted t t .nil q where
  root := rfl
  size := rfl
  style := rfl
  calls := rfl
  parent _ _ h := absurd rfl h
  kept _ _ := rfl

theorem Stored.exists_cell {mem : Ref → Option (Pair κ)} {par : Ref} (h : Stored mem par T)
    (hT : T ≠ .nil) :
    ∃ n, mem (treeRef T) = some n ∧ n.parent = par := by
  cases T with
  | nil => exact absurd rfl hT
  | node c e l r => exact ⟨_, h.1, rfl⟩

theorem setParentOf_returns {par : Ref} (h : Stored t.mem par T) (q : Ref) :
    Returns (setParentOf (treeRef T) q) t fun _ t' => Adopted t t' T q := by
  refine returns_onlyIf (fun hne => ?_) fun hnil => ?_
  · have hT : T ≠ .nil := fun h0 => hne (treeRef_eq_xnil.mpr h0)
    obtain ⟨n, hn, -⟩ := h.exists_cell hT
    exact returns_setParent.mpr ⟨n, hn, adopted_put q hn hT⟩
  · rw [treeRef_eq_xnil.mp (not_not.mp hnil)]
    exact adopted_nil t q

theorem adopt_returns (h : Stored t.mem (.pair a) T) (hnil : ∃ n, t.mem .xnil = some n ∧ IsNil n)
    (q : Ref) :
    Returns (adopt (treeRef T) (.pair a) q) t fun _ t' => Adopted t t' T q := by
  rw [adopt, returns_bind, returns_load]
  by_cases hT : T = .nil
  · subst hT
    obtain ⟨n, hn, hisNil⟩ := hnil
    refine ⟨n, hn, returns_onlyIf (fun hpar => ?_) fun _ => adopted_nil t q⟩
    rw [hisNil.parent] at hpar
    exact absurd hpar (by simp)
  · obtain ⟨n, hn, hpar⟩ := h.exists_cell hT
    refine ⟨n, hn, returns_onlyIf (fun _ => ?_) fun hne => absurd hpar hne⟩
    exact returns_setParent.mpr ⟨n, hn, adopted_put q hn hT⟩

structure Redirected (t t' : Rbt κ) (fs : List (Frame (Entry κ))) (q : Ref) : Prop where
  head : ∀ k ks, fs = k :: ks → t'.mem (.pair k.item.addr) = some (cell k (ctxRef ks) q)
  kept : ∀ p, (fs ≠ [] → p ≠ ctxRef fs) → t'.mem p = t.mem p
  size : t'.size = t.size
  style : t'.style = t.style
  calls : t'.calls = t.calls

theorem relinked_redirected (t : Rbt κ) (fs : List (Frame (Entry κ))) (q : Ref) :
    Redirected t (relinked t fs q) fs q where
  head k ks h := by
    subst h
    exact relinked_mem_head t k ks q
  kept p hp := relinked_mem t fs p q hp
  size := relinked_size t fs q
  style := relinked_style t fs q
  calls := relinked_calls t fs q

structure Refilled (t t' : Rbt κ) (fs : List (Frame (Entry κ))) (b : ℕ)
    (l r T : RbTree (Entry κ)) : Prop where
  shape : Shape t' T
  kept : ∀ p, p ≠ .pair b → (∀ x ∈ addrs l ++ addrs r ++ ctxAddrs fs, p ≠ .pair x) →
    t'.mem p = t.mem p
  size : t'.size = t.size
  style : t'.style = t.style
  calls : t'.calls = t.calls

theorem Hollow.refilled {t3 t4 t5 : Rbt κ} (h : Hollow t fs a l r) {d : PairData κ}
    (hb : b ∉ addrs l ++ addrs r ++ ctxAddrs fs)
    (hcell : t2.mem (.pair b) = some ⟨d, c, ctxRef fs, treeRef l, treeRef r⟩)
    (hhead : ∀ k ks, fs = k :: ks →
      t2.mem (.pair k.item.addr) = some (cell k (ctxRef ks) (.pair b)))
    (hkept : ∀ p, p ≠ .pair b → (fs ≠ [] → p ≠ ctxRef fs) → t2.mem p = t.mem p)
    (hsame : t2.size = t.size ∧ t2.style = t.style ∧ t2.calls = t.calls)
    (hl : Adopted t2 t3 l (.pair b)) (hr : Adopted t3 t4 r (.pair b))
    (h5 : t5 = { t4 with root := t5.root })
    (hroot : t5.root = treeRef (plug fs (.node c ⟨b, d⟩ l r))) :
    Refilled t t5 fs b l r (plug fs (.node c ⟨b, d⟩ l r)) := by
  have hmem5 : t5.mem = t4.mem := by rw [h5]
  have hnd := h.nodup
  simp only [nodup_cons, nodup_append, mem_append, not_or] at hnd
  obtain ⟨⟨⟨-, -⟩, -⟩, ⟨-, -, hlr⟩, -, hsub⟩ := hnd
  have hb' := hb
  simp only [mem_append, not_or] at hb'
  obtain ⟨⟨hbl, hbr⟩, hbctx⟩ := hb'
  have hlb : l ≠ .nil → Ref.pair b ≠ treeRef l := fun _ => (treeRef_ne_of_not_mem hbl).symm
  have hrb : r ≠ .nil → Ref.pair b ≠ treeRef r := fun _ => (treeRef_ne_of_not_mem hbr).symm
  have hrl : l ≠ .nil → r ≠ .nil → treeRef r ≠ treeRef l := by
    intro hln hrn
    refine ne_treeRef (fun x hx => treeRef_ne_of_not_mem ?_) hln
    grind
  have hlctx : fs ≠ [] → treeRef l ≠ ctxRef fs :=
    ne_ctxRef fun x hx => treeRef_ne_of_not_mem (by grind)
  have hrctx : fs ≠ [] → treeRef r ≠ ctxRef fs :=
    ne_ctxRef fun x hx => treeRef_ne_of_not_mem (by grind)
  have hkept5 : ∀ p, p ≠ .pair b → (fs ≠ [] → p ≠ ctxRef fs) → (l ≠ .nil → p ≠ treeRef l) →
      (r ≠ .nil → p ≠ treeRef r) → t5.mem p = t.mem p := by
    intro p h1 h2 h3 h4
    rw [hmem5, hr.kept p h4, hl.kept p h3, hkept p h1 h2]
  refine ⟨h.refill hb hroot ?_ ?_ ?_ ?_ hkept5, ?_, ?_, ?_, ?_⟩
  · rw [hmem5, hr.kept _ hrb, hl.kept _ hlb, hcell]
  · intro k ks hks
    have hctx : ctxRef fs = .pair k.item.addr := by rw [hks, ctxRef]
    have hne : fs ≠ [] := by simp [hks]
    rw [hmem5, hr.kept _ fun _ => hctx ▸ (hrctx hne).symm,
      hl.kept _ fun _ => hctx ▸ (hlctx hne).symm, hhead k ks hks]
  · intro n hn hln
    have hn2 : t2.mem (treeRef l) = some n :=
      (hkept _ (hlb hln).symm hlctx).trans hn
    rw [hmem5, hr.kept _ fun hrn => (hrl hln hrn).symm, hl.parent n hn2 hln]
  · intro n hn hrn
    have hn3 : t3.mem (treeRef r) = some n := by
      rw [hl.kept _ fun hln => hrl hln hrn, hkept _ (hrb hrn).symm hrctx, hn]
    rw [hmem5, hr.parent n hn3 hrn]
  · intro p h1 h2
    exact hkept5 p h1 (ne_ctxRef fun x hx => h2 x (by simp [hx]))
      (ne_treeRef fun x hx => h2 x (by simp [hx])) (ne_treeRef fun x hx => h2 x (by simp [hx]))
  · rw [h5]
    exact (hr.size.trans hl.size).trans hsame.1
  · rw [h5]
    exact (hr.style.trans hl.style).trans hsame.2.1
  · rw [h5]
    exact (hr.calls.trans hl.calls).trans hsame.2.2

theorem Hollow.apart (h : Hollow t fs a l r) : a ∉ addrs l ++ addrs r ++ ctxAddrs fs :=
  (nodup_cons.mp h.nodup).1

theorem Hollow.eq_root_iff (h : Hollow t fs a l r) (e : Entry κ) (he : e.addr = a) :
    .pair a = t.root ↔ fs = [] := by
  rw [h.root .black e he]
  constructor
  · intro ha
    by_contra hne
    obtain ⟨x, hx, hroot⟩ := treeRef_plug_mem hne (.node .black e l r)
    rw [hroot] at ha
    cases ha
    exact h.apart (by simp [hx])
  · rintro rfl
    rw [plug_nil, treeRef_node, he]

theorem Hollow.subtrees (h : Hollow t fs a l r) (hb : b ∉ addrs l ++ addrs r ++ ctxAddrs fs)
    (hkept : ∀ p, p ≠ .pair b → (fs ≠ [] → p ≠ ctxRef fs) → t2.mem p = t.mem p) :
    Stored t2.mem (.pair a) l ∧ Stored t2.mem (.pair a) r := by
  have hnd := h.nodup
  simp only [nodup_cons, nodup_append, mem_append, not_or] at hnd hb
  obtain ⟨-, -, -, hsub⟩ := hnd
  refine ⟨h.left.congr fun x hx => ?_, h.right.congr fun x hx => ?_⟩
  · exact hkept _ (by grind) fun _ => ctxRef_ne_of_not_mem (by grind)
  · exact hkept _ (by grind) fun _ => ctxRef_ne_of_not_mem (by grind)

theorem Hollow.right_kept {t3 : Rbt κ} {q : Ref} (h : Hollow t fs a l r)
    (hr : Stored t2.mem (.pair a) r) (hl : Adopted t2 t3 l q) : Stored t3.mem (.pair a) r := by
  have hnd := h.nodup
  simp only [nodup_cons, nodup_append] at hnd
  obtain ⟨-, ⟨-, -, hlr⟩, -⟩ := hnd
  refine hr.congr fun x hx => hl.kept _ fun _ => (treeRef_ne_of_not_mem ?_).symm
  intro hxl
  exact hlr x hxl x hx rfl

theorem treeRef_plug_of_ne_nil (hne : fs ≠ [])
    (s t : RbTree (Entry κ)) : treeRef (plug fs s) = treeRef (plug fs t) := by
  cases fs with
  | nil => exact absurd rfl hne
  | cons f fs => exact treeRef_plug fs (by simp)

theorem Hollow.takePlace_returns (h : Hollow t fs a l r) {m n : Pair κ}
    (hm : t.mem (.pair b) = some m) (hb : b ∉ addrs l ++ addrs r ++ ctxAddrs fs)
    (hpar : n.parent = ctxRef fs) (hleft : n.left = treeRef l) (hright : n.right = treeRef r) :
    Returns (takePlace (.pair a) (.pair b) n) t fun _ t' =>
      Refilled t t' fs b l r (plug fs (.node n.color ⟨b, m.data⟩ l r)) := by
  rw [takePlace, returns_bind, returns_edit]
  refine ⟨m, hm, ?_⟩
  rw [hpar, hleft, hright]
  generalize hn1 : (⟨m.data, n.color, ctxRef fs, treeRef l, treeRef r⟩ : Pair κ) = n1
  have hnctx : b ∉ ctxAddrs fs := by
    simp only [mem_append, not_or] at hb
    exact hb.2
  have habove : StoredCtx (t.put (.pair b) n1).mem fs (.pair a) :=
    h.above.congr (t.put_mem_of_not_mem hnctx n1)
  have hredirect : Returns (onlyIf (ctxRef fs ≠ .null) (redirect (ctxRef fs) (.pair a) (.pair b)))
      (t.put (.pair b) n1) fun _ t2 =>
        Redirected (t.put (.pair b) n1) t2 fs (.pair b) ∧ t2.root = t.root := by
    cases fs with
    | nil =>
      refine returns_onlyIf (fun hne => absurd rfl hne) fun _ => ⟨?_, rfl⟩
      exact ⟨fun _ _ h0 => absurd h0 (by simp), fun _ _ => rfl, rfl, rfl, rfl⟩
    | cons k ks =>
      refine returns_onlyIf (fun _ => ?_) fun hne => absurd (by simp [ctxRef]) hne
      have happ := h.apart
      simp only [ctxAddrs, mem_append, mem_cons, not_or] at happ
      refine (redirect_returns habove.1 happ.2.2.1).mono ?_
      rintro - _ rfl
      exact ⟨relinked_redirected _ _ _, rfl⟩
  rw [returns_bind]
  refine hredirect.mono ?_
  rintro - t2 ⟨hr2, hroot2⟩
  have hkept2 : ∀ p, p ≠ .pair b → (fs ≠ [] → p ≠ ctxRef fs) → t2.mem p = t.mem p :=
    fun p h1 h2 => (hr2.kept p h2).trans (t.put_mem_of_ne h1 n1)
  have hcell2 : t2.mem (.pair b) = some n1 := by
    rw [hr2.kept _ fun _ => ctxRef_ne_of_not_mem hnctx, put_mem, if_pos rfl]
  obtain ⟨hl2, hr2'⟩ := h.subtrees hb hkept2
  rw [returns_bind]
  refine (setParentOf_returns hl2 _).mono fun _ t3 hl3 => ?_
  rw [returns_bind]
  refine (setParentOf_returns (h.right_kept hr2' hl3) _).mono fun _ t4 hr4 => ?_
  have hroot4 : t4.root = t.root := (hr4.root.trans hl3.root).trans hroot2
  have hroot := h.eq_root_iff ⟨a, m.data⟩ rfl
  have hrefill : ∀ t5 : Rbt κ, t5 = { t4 with root := t5.root } →
      t5.root = treeRef (plug fs (.node n.color ⟨b, m.data⟩ l r)) →
      Refilled t t5 fs b l r (plug fs (.node n.color ⟨b, m.data⟩ l r)) := by
    intro t5 h5 hroot5
    exact h.refilled hb (hn1 ▸ hcell2) hr2.head hkept2 ⟨hr2.size, hr2.style, hr2.calls⟩ hl3 hr4
      h5 hroot5
  rw [returns_bind, returns_get, hroot4]
  refine returns_onlyIf (fun ha => ?_) fun ha => ?_
  · refine returns_modify.mpr (hrefill _ rfl ?_)
    rw [hroot.mp ha]
    rfl
  · refine hrefill t4 rfl (hroot4.trans ?_)
    have hne : fs ≠ [] := fun hnil => ha (hroot.mpr hnil)
    rw [h.root n.color ⟨a, m.data⟩ rfl]
    exact treeRef_plug_of_ne_nil hne _ _

/-- `if (parent->left == p) ...; if (parent->right == p) ...` redirects the one
link that leads to the hole. -/
theorem redirectBoth_returns {f : Frame (Entry κ)}
    (hf : t.mem (.pair f.item.addr) = some (cell f (ctxRef fs) (.pair a))) (ha : a ∉ addrs f.sib) :
    Returns (redirectBoth (.pair f.item.addr) (.pair a) (.pair b)) t fun _ t' =>
      Redirected t t' (f :: fs) (.pair b) ∧ t'.root = t.root := by
  have hsib : treeRef f.sib ≠ .pair a := treeRef_ne_of_not_mem ha
  have hout : Redirected t (t.put (.pair f.item.addr) (cell f (ctxRef fs) (.pair b))) (f :: fs)
      (.pair b) := relinked_redirected t (f :: fs) (.pair b)
  rw [redirectBoth, returns_bind, returns_load]
  refine ⟨_, hf, ?_⟩
  obtain ⟨side, c, e, sib⟩ := f
  cases side with
  | left =>
    rw [returns_bind]
    refine returns_onlyIf (fun _ => ?_) fun hne => absurd rfl hne
    refine returns_setChild.mpr ⟨_, hf, ?_⟩
    rw [returns_bind, returns_load]
    refine ⟨_, (t.put_mem _ _ _).trans (if_pos rfl), ?_⟩
    exact returns_onlyIf (fun heq => absurd heq hsib) fun _ => ⟨hout, rfl⟩
  | right =>
    rw [returns_bind]
    refine returns_onlyIf (fun heq => absurd heq hsib) fun _ => ?_
    rw [returns_bind, returns_load]
    refine ⟨_, hf, returns_onlyIf (fun _ => ?_) fun hne => absurd rfl hne⟩
    exact returns_setChild.mpr ⟨_, hf, hout, rfl⟩

theorem Shape.substitute_returns (h : Shape t (plug fs (.node c e l r))) {m : Pair κ}
    (hm : t.mem (.pair b) = some m) (hb : b ∉ addrs (plug fs (.node c e l r))) :
    Returns (substitute (.pair e.addr) (.pair b)) t fun _ t' =>
      Refilled t t' fs b l r (plug fs (.node c ⟨b, m.data⟩ l r)) := by
  have hh := h.hollow
  have hb' : b ∉ e.addr :: (addrs l ++ addrs r ++ ctxAddrs fs) := by
    intro hmem
    refine hb ((addrs_plug fs _).mem_iff.mpr ?_)
    simp only [addrs_node, mem_append, mem_cons] at hmem ⊢
    tauto
  simp only [mem_cons, not_or] at hb'
  obtain ⟨-, hb⟩ := hb'
  have hnctx : b ∉ ctxAddrs fs := by
    simp only [mem_append, not_or] at hb
    exact hb.2
  have hredirect : Returns (relinkBoth (ctxRef fs) (.pair e.addr) (.pair b)) t fun _ t1 =>
      Redirected t t1 fs (.pair b) ∧ t1.root = treeRef (plug fs (.node c ⟨b, m.data⟩ l r)) := by
    cases fs with
    | nil =>
      rw [relinkBoth, if_neg (by simp [ctxRef])]
      exact returns_modify.mpr ⟨relinked_redirected t [] (.pair b), rfl⟩
    | cons k ks =>
      have happ := hh.apart
      simp only [ctxAddrs, mem_append, mem_cons, not_or] at happ
      rw [relinkBoth, if_pos (by simp [ctxRef])]
      refine (redirectBoth_returns hh.above.1 happ.2.2.1).mono ?_
      rintro - t1 ⟨hr1, hroot⟩
      exact ⟨hr1, hroot.trans (h.root.trans (treeRef_plug_of_ne_nil (by simp) _ _))⟩
  rw [substitute, returns_bind, returns_load]
  refine ⟨_, h.node_eq, ?_⟩
  rw [returns_bind]
  refine hredirect.mono ?_
  rintro - t1 ⟨hr1, hroot1⟩
  have hm1 : t1.mem (.pair b) = some m :=
    (hr1.kept _ fun _ => ctxRef_ne_of_not_mem hnctx).trans hm
  rw [returns_bind, returns_edit]
  refine ⟨m, hm1, ?_⟩
  generalize hn2 : (⟨m.data, c, ctxRef fs, treeRef l, treeRef r⟩ : Pair κ) = n2
  have hkept2 : ∀ p, p ≠ .pair b → (fs ≠ [] → p ≠ ctxRef fs) →
      (t1.put (.pair b) n2).mem p = t.mem p :=
    fun p h1 h2 => (t1.put_mem_of_ne h1 n2).trans (hr1.kept p h2)
  have hcell2 : (t1.put (.pair b) n2).mem (.pair b) = some n2 := by
    rw [put_mem, if_pos rfl]
  have hhead2 : ∀ k ks, fs = k :: ks →
      (t1.put (.pair b) n2).mem (.pair k.item.addr) = some (cell k (ctxRef ks) (.pair b)) := by
    intro k ks hks
    refine (t1.put_mem_of_ne ?_ n2).trans (hr1.head k ks hks)
    subst hks
    simp only [ctxAddrs, mem_cons, not_or] at hnctx
    simpa using Ne.symm hnctx.1
  obtain ⟨hl2, hr2⟩ := hh.subtrees hb hkept2
  have hnil2 : ∃ n, (t1.put (.pair b) n2).mem .xnil = some n ∧ IsNil n := by
    rw [hkept2 _ (by simp) fun _ => ctxRef_ne_xnil fs]
    exact h.xnil
  rw [returns_bind]
  refine (adopt_returns hl2 hnil2 _).mono fun _ t3 hl3 => ?_
  have hnil3 : ∃ n, t3.mem .xnil = some n ∧ IsNil n := by
    rw [hl3.kept _ fun hne hx => hne (treeRef_eq_xnil.mp hx.symm)]
    exact hnil2
  refine (adopt_returns (hh.right_kept hr2 hl3) hnil3 _).mono fun _ t4 hr4 => ?_
  exact hh.refilled hb (hn2 ▸ hcell2) hhead2 hkept2 ⟨hr1.size, hr1.style, hr1.calls⟩ hl3 hr4 rfl
    ((hr4.root.trans hl3.root).trans hroot1)

end Qse.Rbt
