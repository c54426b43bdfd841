import Qse.Rbt.Model
import Qse.Support.Returns

/-!
# Trees stored in the heap

`Shape t T` says that the heap of `t` holds the tree `T`: every pair has the contents, the colour
and the links that `T` prescribes. Split along a hole (`stored_plug`), a heap is a chain of frames
above a subtree.
-/

open List

namespace Qse.Rbt

open ColorTree StateProgram

structure Entry (κ : Type) where
  addr : ℕ
  data : PairData κ
deriving DecidableEq

variable {κ : Type}

def treeRef : RbTree (Entry κ) → Ref
  | .nil => .xnil
  | .node _ e _ _ => .pair e.addr

def addrs (T : RbTree (Entry κ)) : List ℕ := T.items.map Entry.addr

def Stored (mem : Ref → Option (Pair κ)) : Ref → RbTree (Entry κ) → Prop
  | _, .nil => True
  | par, .node c e l r =>
    mem (.pair e.addr) = some ⟨e.data, c, par, treeRef l, treeRef r⟩ ∧
      Stored mem (.pair e.addr) l ∧ Stored mem (.pair e.addr) r

def ctxRef : List (Frame (Entry κ)) → Ref
  | [] => .null
  | f :: _ => .pair f.item.addr

def cell (f : Frame (Entry κ)) (par hole : Ref) : Pair κ :=
  match f.side with
  | .left => ⟨f.item.data, f.color, par, hole, treeRef f.sib⟩
  | .right => ⟨f.item.data, f.color, par, treeRef f.sib, hole⟩

def StoredCtx (mem : Ref → Option (Pair κ)) : List (Frame (Entry κ)) → Ref → Prop
  | [], _ => True
  | f :: fs, hole =>
    mem (.pair f.item.addr) = some (cell f (ctxRef fs) hole) ∧
      Stored mem (.pair f.item.addr) f.sib ∧ StoredCtx mem fs (.pair f.item.addr)

def ctxAddrs : List (Frame (Entry κ)) → List ℕ
  | [] => []
  | f :: fs => f.item.addr :: (addrs f.sib ++ ctxAddrs fs)

/-! ## Cells and links -/

@[simp] theorem treeRef_nil : treeRef (.nil : RbTree (Entry κ)) = .xnil := rfl

@[simp] theorem treeRef_node (c : Color) (e : Entry κ) (l r : RbTree (Entry κ)) :
    treeRef (.node c e l r) = .pair e.addr := rfl

@[simp] theorem treeRef_fill (f : Frame (Entry κ)) (t : RbTree (Entry κ)) :
    treeRef (f.fill t) = .pair f.item.addr := by
  obtain ⟨side, c, e, sib⟩ := f
  cases side <;> rfl

@[simp] theorem treeRef_paint (c : Color) (t : RbTree (Entry κ)) :
    treeRef (t.paint c) = treeRef t := by
  cases t <;> rfl

variable {T s : RbTree (Entry κ)} {t t' : Rbt κ} {a : ℕ} {mem mem' : Ref → Option (Pair κ)}
  {par q p : Ref} {f : Frame (Entry κ)} {fs : List (Frame (Entry κ))} {Q : PUnit → Rbt κ → Prop}
  {c : Color}

theorem treeRef_eq_xnil : treeRef T = .xnil ↔ T = .nil := by
  cases T <;> simp

theorem treeRef_ne_null (T : RbTree (Entry κ)) : treeRef T ≠ .null := by
  cases T <;> simp

theorem treeRef_plug (fs : List (Frame (Entry κ))) {t : RbTree (Entry κ)}
    (h : treeRef s = treeRef t) : treeRef (plug fs s) = treeRef (plug fs t) := by
  induction fs generalizing s t with
  | nil => exact h
  | cons f fs ih => exact ih (by simp)

theorem mem_addrs_of_treeRef (h : treeRef T = .pair a) : a ∈ addrs T := by
  cases T with
  | nil => simp at h
  | node c e l r =>
    simp only [treeRef_node, Ref.pair.injEq] at h
    simp [addrs, h]

@[simp] theorem addrs_nil : addrs (.nil : RbTree (Entry κ)) = [] := rfl

@[simp] theorem addrs_node (c : Color) (e : Entry κ) (l r : RbTree (Entry κ)) :
    addrs (.node c e l r) = addrs l ++ e.addr :: addrs r := by
  simp [addrs]

section Cell

variable (f : Frame (Entry κ)) (par hole : Ref)

@[simp] theorem cell_child : (cell f par hole).child f.side = hole := by
  obtain ⟨side, c, e, sib⟩ := f
  cases side <;> rfl

@[simp] theorem cell_child_other : (cell f par hole).child f.side.other = treeRef f.sib := by
  obtain ⟨side, c, e, sib⟩ := f
  cases side <;> rfl

@[simp] theorem cell_parent : (cell f par hole).parent = par := by
  obtain ⟨side, c, e, sib⟩ := f
  cases side <;> rfl

@[simp] theorem cell_color : (cell f par hole).color = f.color := by
  obtain ⟨side, c, e, sib⟩ := f
  cases side <;> rfl

@[simp] theorem cell_data : (cell f par hole).data = f.item.data := by
  obtain ⟨side, c, e, sib⟩ := f
  cases side <;> rfl

@[simp] theorem cell_setParent (q : Ref) :
    { cell f par hole with parent := q } = cell f q hole := by
  obtain ⟨side, c, e, sib⟩ := f
  cases side <;> rfl

@[simp] theorem cell_setChild (q : Ref) : (cell f par hole).setChild f.side q = cell f par q := by
  obtain ⟨side, c, e, sib⟩ := f
  cases side <;> rfl

end Cell

theorem stored_fill {t : RbTree (Entry κ)} :
    Stored mem par (f.fill t) ↔
      mem (.pair f.item.addr) = some (cell f par (treeRef t)) ∧
        Stored mem (.pair f.item.addr) f.sib ∧ Stored mem (.pair f.item.addr) t := by
  obtain ⟨side, c, e, sib⟩ := f
  cases side
  · exact and_congr_right fun _ => and_comm
  · exact Iff.rfl

theorem stored_plug {t : RbTree (Entry κ)} :
    Stored mem .null (plug fs t) ↔ StoredCtx mem fs (treeRef t) ∧ Stored mem (ctxRef fs) t := by
  induction fs generalizing t with
  | nil => simp [StoredCtx, ctxRef]
  | cons f fs ih =>
    rw [plug_cons, ih, stored_fill, treeRef_fill, StoredCtx, ctxRef]
    tauto

theorem addrs_fill (f : Frame (Entry κ)) (t : RbTree (Entry κ)) :
    (addrs (f.fill t)).Perm (f.item.addr :: (addrs f.sib ++ addrs t)) := by
  obtain ⟨side, c, e, sib⟩ := f
  cases side
  · simp only [Frame.fill, addrs_node]
    exact perm_middle.trans (Perm.cons _ perm_append_comm)
  · simp only [Frame.fill, addrs_node]
    exact perm_middle

theorem addrs_plug (fs : List (Frame (Entry κ))) (t : RbTree (Entry κ)) :
    (addrs (plug fs t)).Perm (addrs t ++ ctxAddrs fs) := by
  induction fs generalizing t with
  | nil => simp [ctxAddrs]
  | cons f fs ih =>
    refine (ih (f.fill t)).trans ?_
    refine ((addrs_fill f t).append_right _).trans ?_
    rw [ctxAddrs, cons_append]
    refine Perm.trans ?_ perm_middle.symm
    refine Perm.cons _ ?_
    rw [← append_assoc]
    exact Perm.append_right _ perm_append_comm

theorem Stored.congr (h : Stored mem par T) (heq : ∀ a ∈ addrs T, mem' (.pair a) = mem (.pair a)) :
    Stored mem' par T := by
  induction T generalizing par with
  | nil => trivial
  | node c e l r ihl ihr =>
    obtain ⟨he, hl, hr⟩ := h
    refine ⟨(heq e.addr (by simp)).trans he, ihl hl ?_, ihr hr ?_⟩
    · intro a ha
      exact heq a (by simp [ha])
    · intro a ha
      exact heq a (by simp [ha])

theorem StoredCtx.congr {hole : Ref} (h : StoredCtx mem fs hole)
    (heq : ∀ a ∈ ctxAddrs fs, mem' (.pair a) = mem (.pair a)) : StoredCtx mem' fs hole := by
  induction fs generalizing hole with
  | nil => trivial
  | cons f fs ih =>
    obtain ⟨hf, hsib, hrest⟩ := h
    refine ⟨(heq _ (by simp [ctxAddrs])).trans hf, hsib.congr ?_, ih hrest ?_⟩
    · intro a ha
      exact heq a (by simp [ctxAddrs, ha])
    · intro a ha
      exact heq a (by simp [ctxAddrs, ha])

theorem Stored.reparent (h : Stored mem par T) (hnd : (addrs T).Nodup)
    (heq : ∀ a ∈ addrs T, .pair a ≠ treeRef T → mem' (.pair a) = mem (.pair a))
    (hroot : ∀ n, mem (treeRef T) = some n → T ≠ .nil →
      mem' (treeRef T) = some { n with parent := q }) : Stored mem' q T := by
  cases T with
  | nil => trivial
  | node c e l r =>
    obtain ⟨he, hl, hr⟩ := h
    simp only [addrs_node, nodup_append, nodup_cons, mem_cons] at hnd
    refine ⟨hroot _ he (by simp), hl.congr ?_, hr.congr ?_⟩
    · intro a ha
      refine heq a (by simp [ha]) ?_
      simpa using hnd.2.2 a ha e.addr (.inl rfl)
    · intro a ha
      refine heq a (by simp [ha]) ?_
      simp only [treeRef_node, ne_eq, Ref.pair.injEq]
      rintro rfl
      exact hnd.2.1.1 ha

theorem StoredCtx.rehole (h : StoredCtx mem fs p) (hnd : (ctxAddrs fs).Nodup)
    (heq : ∀ a ∈ ctxAddrs fs, .pair a ≠ ctxRef fs → mem' (.pair a) = mem (.pair a))
    (hhead : ∀ f gs, fs = f :: gs → mem' (.pair f.item.addr) = some (cell f (ctxRef gs) q)) :
    StoredCtx mem' fs q := by
  cases fs with
  | nil => trivial
  | cons f fs =>
    obtain ⟨hf, hsib, hrest⟩ := h
    simp only [ctxAddrs, nodup_cons, mem_append, not_or] at hnd
    refine ⟨hhead f fs rfl, hsib.congr ?_, hrest.congr ?_⟩
    · intro a ha
      refine heq a (by simp [ctxAddrs, ha]) ?_
      simp only [ctxRef, ne_eq, Ref.pair.injEq]
      rintro rfl
      exact hnd.1.1 ha
    · intro a ha
      refine heq a (by simp [ctxAddrs, ha]) ?_
      simp only [ctxRef, ne_eq, Ref.pair.injEq]
      rintro rfl
      exact hnd.1.2 ha

theorem returns_load {Q : Pair κ → Rbt κ → Prop} :
    Returns (load p) t Q ↔ ∃ n, t.mem p = some n ∧ Q n t := by
  rw [load, returns_bind, returns_get]
  cases h : t.mem p with
  | none => simp
  | some n => simp

theorem returns_edit {f : Pair κ → Pair κ} :
    Returns (edit p f) t Q ↔ ∃ n, t.mem p = some n ∧ Q ⟨⟩ (t.put p (f n)) := by
  rw [edit, returns_bind, returns_load]
  simp

theorem returns_setColor :
    Returns (setColor p c) t Q ↔
      ∃ n, t.mem p = some n ∧ Q ⟨⟩ (t.put p { n with color := c }) := returns_edit

theorem returns_setParent :
    Returns (setParent p q) t Q ↔
      ∃ n, t.mem p = some n ∧ Q ⟨⟩ (t.put p { n with parent := q }) := returns_edit

theorem returns_setChild {s : Side} :
    Returns (setChild p s q) t Q ↔
      ∃ n, t.mem p = some n ∧ Q ⟨⟩ (t.put p (n.setChild s q)) := returns_edit

theorem returns_onlyIf {p : Prop} [Decidable p] {c : RbtM κ PUnit} (hc : p → Returns c t Q)
    (hn : ¬p → Q ⟨⟩ t) : Returns (onlyIf p c) t Q :=
  returns_ite hc fun h => returns_pure.mpr (hn h)

@[simp] theorem put_mem (t : Rbt κ) (p q : Ref) (n : Pair κ) :
    (t.put p n).mem q = if q = p then some n else t.mem q := by
  simp [put, Function.update_apply]

theorem put_mem_of_ne (t : Rbt κ) (h : q ≠ p) (n : Pair κ) : (t.put p n).mem q = t.mem q := by
  rw [put_mem, if_neg h]

theorem put_mem_of_not_mem (t : Rbt κ) {as : List ℕ} (h : a ∉ as) (n : Pair κ) :
    ∀ b ∈ as, (t.put (.pair a) n).mem (.pair b) = t.mem (.pair b) := by
  intro b hb
  refine t.put_mem_of_ne ?_ n
  rintro ⟨⟩
  exact h hb

@[simp] theorem put_root (t : Rbt κ) (p : Ref) (n : Pair κ) : (t.put p n).root = t.root := rfl

@[simp] theorem put_size (t : Rbt κ) (p : Ref) (n : Pair κ) : (t.put p n).size = t.size := rfl

@[simp] theorem put_style (t : Rbt κ) (p : Ref) (n : Pair κ) :
    (t.put p n).style = t.style := rfl

@[simp] theorem put_calls (t : Rbt κ) (p : Ref) (n : Pair κ) :
    (t.put p n).calls = t.calls := rfl

/-! ## Shapes -/

/-- The sentinel as `qse_rbt_init` sets it up. -/
structure IsNil (n : Pair κ) : Prop where
  color : n.color = .black
  parent : n.parent = .null
  left : n.left = .xnil
  right : n.right = .xnil

/-- The heap of `t` holds the tree `T`. -/
structure Shape (t : Rbt κ) (T : RbTree (Entry κ)) : Prop where
  root : t.root = treeRef T
  stored : Stored t.mem .null T
  nodup : (addrs T).Nodup
  null : t.mem .null = none
  xnil : ∃ n, t.mem .xnil = some n ∧ IsNil n

/-- From `t` to `t'` the tree `T` has become `T'`, with its items in place and
nothing else changed. -/
structure Reshaped (t t' : Rbt κ) (T T' : RbTree (Entry κ)) : Prop where
  shape : Shape t' T'
  items : T'.items = T.items
  kept : ∀ p, (∀ a ∈ addrs T, p ≠ .pair a) → t'.mem p = t.mem p
  size : t'.size = t.size
  style : t'.style = t.style
  calls : t'.calls = t.calls

theorem Reshaped.addrs_eq {T' : RbTree (Entry κ)} (h : Reshaped t t' T T') :
    addrs T' = addrs T := by
  rw [addrs, h.items, addrs]

theorem Shape.reshaped (h : Shape t T) : Reshaped t t T T :=
  ⟨h, rfl, fun _ _ => rfl, rfl, rfl, rfl⟩

theorem Reshaped.trans {t'' : Rbt κ} {T' T'' : RbTree (Entry κ)} (h : Reshaped t t' T T')
    (h' : Reshaped t' t'' T' T'') : Reshaped t t'' T T'' where
  shape := h'.shape
  items := h'.items.trans h.items
  kept := by
    intro p hp
    rw [h'.kept p (h.addrs_eq ▸ hp), h.kept p hp]
  size := h'.size.trans h.size
  style := h'.style.trans h.style
  calls := h'.calls.trans h.calls

theorem Shape.cell_eq (h : Shape t (plug (f :: fs) s)) :
    t.mem (.pair f.item.addr) = some (cell f (ctxRef fs) (treeRef s)) :=
  (stored_plug.mp h.stored).1.1

theorem Shape.node_eq {e : Entry κ} {l r : RbTree (Entry κ)}
    (h : Shape t (plug fs (.node c e l r))) :
    t.mem (.pair e.addr) = some ⟨e.data, c, ctxRef fs, treeRef l, treeRef r⟩ :=
  (stored_plug.mp h.stored).2.1

theorem Shape.exists_mem (h : Shape t (plug fs s)) :
    ∃ n, t.mem (treeRef s) = some n ∧ n.color = s.color ∧
      n.left = treeRef (s.kid .left) ∧ n.right = treeRef (s.kid .right) := by
  cases s with
  | nil =>
    obtain ⟨n, hn, hnil⟩ := h.xnil
    exact ⟨n, hn, hnil.color, hnil.left, hnil.right⟩
  | node c e l r => exact ⟨_, h.node_eq, rfl, rfl, rfl⟩

theorem Shape.nodup_plug (h : Shape t (plug fs s)) : (addrs s ++ ctxAddrs fs).Nodup :=
  (addrs_plug fs s).nodup_iff.mp h.nodup

theorem Shape.root_apart {e : Entry κ} {l r : RbTree (Entry κ)}
    (h : Shape t (plug fs (.node c e l r))) :
    e.addr ∉ addrs l ∧ e.addr ∉ addrs r ∧ e.addr ∉ ctxAddrs fs := by
  have hnd := h.nodup_plug
  rw [addrs_node, append_assoc, cons_append, perm_middle.nodup_iff, nodup_cons] at hnd
  simpa [not_or] using hnd.1

theorem items_paint_plug (fs : List (Frame (Entry κ))) (s : RbTree (Entry κ)) (c : Color) :
    (plug fs (s.paint c)).items = (plug fs s).items :=
  items_plug_congr fs (s.items_paint c)

theorem Shape.setColor_returns {t : Rbt κ} {fs : List (Frame (Entry κ))} {s : RbTree (Entry κ)}
    (h : Shape t (plug fs s)) (hs : s ≠ .nil) (c : Color) :
    Returns (setColor (treeRef s) c) t fun _ t' =>
      Reshaped t t' (plug fs s) (plug fs (s.paint c)) := by
  cases s with
  | nil => exact absurd rfl hs
  | node c' e l r =>
    obtain ⟨hnl, hnr, hnctx⟩ := h.root_apart
    obtain ⟨hctx, he, hl, hr⟩ := stored_plug.mp h.stored
    refine returns_setColor.mpr ⟨_, he, ?_⟩
    refine ⟨⟨?_, ?_, ?_, ?_, ?_⟩, items_paint_plug fs _ c, ?_, rfl, rfl, rfl⟩
    · exact h.root.trans (treeRef_plug fs rfl)
    · refine stored_plug.mpr ⟨hctx.congr ?_, ?_, hl.congr ?_, hr.congr ?_⟩
      · exact t.put_mem_of_not_mem hnctx _
      · exact (t.put_mem _ _ _).trans (if_pos rfl)
      · exact t.put_mem_of_not_mem hnl _
      · exact t.put_mem_of_not_mem hnr _
    · rw [addrs, items_paint_plug]
      exact h.nodup
    · simpa using h.null
    · simpa using h.xnil
    · intro p hp
      refine t.put_mem_of_ne (hp e.addr ?_) _
      simp [(addrs_plug fs _).mem_iff]

/-! ## Relinking and rotating -/

theorem cell_left_eq {hole : Ref} (h : treeRef f.sib ≠ hole) :
    (cell f par hole).left = hole ↔ f.side = .left := by
  obtain ⟨side, c, e, sib⟩ := f
  cases side <;> simp [cell, h]

def relinked (t : Rbt κ) : List (Frame (Entry κ)) → Ref → Rbt κ
  | [], q => { t with root := q }
  | f :: fs, q => t.put (.pair f.item.addr) (cell f (ctxRef fs) q)

theorem treeRef_ne_of_not_mem (h : a ∉ addrs T) : treeRef T ≠ .pair a :=
  fun hT => h (mem_addrs_of_treeRef hT)

theorem ctxRef_ne_of_not_mem (h : a ∉ ctxAddrs fs) : .pair a ≠ ctxRef fs := by
  cases fs with
  | nil => simp [ctxRef]
  | cons f fs =>
    simp only [ctxRef, ne_eq, Ref.pair.injEq]
    rintro rfl
    exact h (by simp [ctxAddrs])

theorem ne_ctxRef (h : ∀ a ∈ ctxAddrs fs, p ≠ .pair a) (hne : fs ≠ []) : p ≠ ctxRef fs := by
  cases fs with
  | nil => exact absurd rfl hne
  | cons f fs => exact h _ (by simp [ctxAddrs])

theorem ne_treeRef (h : ∀ a ∈ addrs T, p ≠ .pair a) (hne : T ≠ .nil) : p ≠ treeRef T := by
  cases T with
  | nil => exact absurd rfl hne
  | node c e l r => exact h _ (by simp)

theorem ctxRef_ne_null (h : fs ≠ []) : .null ≠ ctxRef fs := by
  cases fs with
  | nil => exact absurd rfl h
  | cons f fs => simp [ctxRef]

theorem ctxRef_ne_xnil (fs : List (Frame (Entry κ))) : .xnil ≠ ctxRef fs := by
  cases fs <;> simp [ctxRef]

theorem redirect_returns (hf : t.mem (.pair f.item.addr) = some (cell f (ctxRef fs) (.pair a)))
    (ha : a ∉ addrs f.sib) :
    Returns (redirect (.pair f.item.addr) (.pair a) q) t fun _ t' =>
      t' = relinked t (f :: fs) q := by
  have hside : (cell f (ctxRef fs) (.pair a)).left = .pair a ↔ f.side = .left :=
    cell_left_eq (treeRef_ne_of_not_mem ha)
  rw [redirect, returns_bind, returns_load]
  refine ⟨_, hf, returns_ite ?_ ?_⟩
  · intro hleft
    refine returns_setChild.mpr ⟨_, hf, ?_⟩
    rw [← hside.mp hleft, cell_setChild]
    rfl
  · intro hleft
    have hright : f.side = .right := by
      cases hs : f.side with
      | left => exact absurd (hside.mpr hs) hleft
      | right => rfl
    refine returns_setChild.mpr ⟨_, hf, ?_⟩
    rw [← hright, cell_setChild]
    rfl

theorem relink_returns (h : StoredCtx t.mem fs (.pair a)) (ha : a ∉ ctxAddrs fs) :
    Returns (relink (ctxRef fs) (.pair a) q) t fun _ t' => t' = relinked t fs q := by
  cases fs with
  | nil =>
    rw [relink, ctxRef, if_neg (by simp)]
    exact returns_modify.mpr rfl
  | cons f fs =>
    simp only [ctxAddrs, mem_cons, mem_append, not_or] at ha
    rw [relink, ctxRef, if_pos (by simp)]
    exact redirect_returns h.1 ha.2.1

theorem relinked_mem (t : Rbt κ) (fs : List (Frame (Entry κ))) (p q : Ref)
    (h : fs ≠ [] → p ≠ ctxRef fs) : (relinked t fs q).mem p = t.mem p := by
  cases fs with
  | nil => rfl
  | cons f fs => exact t.put_mem_of_ne (h (by simp)) _

section Relinked

variable (t : Rbt κ) (fs : List (Frame (Entry κ))) (q : Ref)

@[simp] theorem relinked_size : (relinked t fs q).size = t.size := by
  cases fs <;> rfl

@[simp] theorem relinked_style : (relinked t fs q).style = t.style := by
  cases fs <;> rfl

@[simp] theorem relinked_calls : (relinked t fs q).calls = t.calls := by
  cases fs <;> rfl

end Relinked

theorem relinked_mem_head (t : Rbt κ) (f : Frame (Entry κ)) (fs : List (Frame (Entry κ)))
    (q : Ref) : (relinked t (f :: fs) q).mem (.pair f.item.addr) = some (cell f (ctxRef fs) q) :=
  (t.put_mem _ _ _).trans (if_pos rfl)

theorem relinked_root {s' : RbTree (Entry κ)} (h : t.root = treeRef (plug fs s)) :
    (relinked t fs (treeRef s')).root = treeRef (plug fs s') := by
  cases fs with
  | nil => rfl
  | cons f fs => exact h.trans (treeRef_plug fs (by simp))

theorem Shape.reshaped_rotate {g : Frame (Entry κ)} {c : RbTree (Entry κ)}
    (h : Shape t (plug (g :: f :: fs) c)) (hside : g.side = f.side.other)
    (hroot : t'.root = treeRef (plug (f :: g :: fs) c))
    (hg : t'.mem (.pair g.item.addr) = some (cell g (ctxRef fs) (.pair f.item.addr)))
    (hf : t'.mem (.pair f.item.addr) = some (cell f (.pair g.item.addr) (treeRef c)))
    (hhead : ∀ k ks, fs = k :: ks →
      t'.mem (.pair k.item.addr) = some (cell k (ctxRef ks) (.pair g.item.addr)))
    (hc : ∀ n, t.mem (treeRef c) = some n → c ≠ .nil →
      t'.mem (treeRef c) = some { n with parent := .pair f.item.addr })
    (hkept : ∀ p, p ≠ .pair g.item.addr → p ≠ .pair f.item.addr →
      (fs ≠ [] → p ≠ ctxRef fs) → (c ≠ .nil → p ≠ treeRef c) → t'.mem p = t.mem p)
    (hsize : t'.size = t.size) (hstyle : t'.style = t.style) (hcalls : t'.calls = t.calls) :
    Reshaped t t' (plug (g :: f :: fs) c) (plug (f :: g :: fs) c) := by
  have hitems : (plug (f :: g :: fs) c).items = (plug (g :: f :: fs) c).items :=
    items_plug_congr fs (items_rotate (by rw [hside, Side.other_other]) c)
  obtain ⟨⟨-, hgsib, -, hfsib, hctx⟩, hstored⟩ := stored_plug.mp h.stored
  have hnd := h.nodup_plug
  simp only [ctxAddrs, nodup_append, nodup_cons, mem_append, mem_cons, not_or] at hnd
  obtain ⟨hndc, ⟨⟨hggs, hgf, hgfs, hgctx⟩, hndg, ⟨⟨hffs, hfctx⟩, -, hndctx, hfsctx⟩, hgs⟩, hcs⟩ :=
    hnd
  have hsame : ∀ a, a ≠ g.item.addr → a ≠ f.item.addr → a ∉ ctxAddrs fs → a ∉ addrs c →
      t'.mem (.pair a) = t.mem (.pair a) := by
    intro a h1 h2 h3 h4
    exact hkept _ (by simpa using h1) (by simpa using h2) (fun _ => ctxRef_ne_of_not_mem h3)
      fun _ => (treeRef_ne_of_not_mem h4).symm
  refine ⟨⟨hroot, ?_, ?_, ?_, ?_⟩, hitems, ?_, hsize, hstyle, hcalls⟩
  · refine stored_plug.mpr ⟨⟨hf, hfsib.congr ?_, hg, hgsib.congr ?_, ?_⟩, ?_⟩
    · intro a ha
      exact hsame a (by grind) (by grind) (by grind) (by grind)
    · intro a ha
      exact hsame a (by grind) (by grind) (by grind) (by grind)
    · refine hctx.rehole hndctx ?_ hhead
      intro a ha hne
      exact hkept _ (by grind) (by grind) (fun _ => hne)
        fun _ => (treeRef_ne_of_not_mem (by grind)).symm
    · refine hstored.reparent hndc ?_ hc
      intro a ha hne
      exact hkept _ (by grind) (by grind) (fun _ => ctxRef_ne_of_not_mem (by grind)) fun _ => hne
  · rw [addrs, hitems]
    exact h.nodup
  · rw [hkept _ (by simp) (by simp) ctxRef_ne_null fun _ => (treeRef_ne_null c).symm]
    exact h.null
  · rw [hkept _ (by simp) (by simp) (fun _ => ctxRef_ne_xnil fs)
      fun hne hx => hne (treeRef_eq_xnil.mp hx.symm)]
    exact h.xnil
  · intro p hp
    have hp' : ∀ a ∈ addrs c ++ ctxAddrs (g :: f :: fs), p ≠ .pair a :=
      fun a ha => hp a ((addrs_plug _ _).mem_iff.mpr ha)
    simp only [ctxAddrs, mem_append, mem_cons] at hp'
    exact hkept p (hp' _ (by simp)) (hp' _ (by simp)) (ne_ctxRef fun a ha => hp' a (by simp [ha]))
      (ne_treeRef fun a ha => hp' a (by simp [ha]))

theorem Shape.rotate_returns {g : Frame (Entry κ)} {c : RbTree (Entry κ)} {leftwise : Bool}
    (h : Shape t (plug (g :: f :: fs) c)) (hf : f.side = if leftwise then .right else .left)
    (hg : g.side = f.side.other) :
    Returns (rotate (.pair f.item.addr) leftwise) t fun _ t' =>
      Reshaped t t' (plug (g :: f :: fs) c) (plug (f :: g :: fs) c) := by
  have hcid2 : (if leftwise then Side.left else Side.right) = g.side := by
    rw [hg, hf]
    cases leftwise <;> rfl
  have hnd := h.nodup_plug
  simp only [ctxAddrs, nodup_append, nodup_cons, mem_append, mem_cons, not_or] at hnd
  obtain ⟨-, ⟨⟨-, hgf, -, hgctx⟩, -, ⟨⟨-, hfctx⟩, -, -, -⟩, -⟩, hcs⟩ := hnd
  obtain ⟨⟨hgc, -, hfc, -, hctx⟩, -⟩ := stored_plug.mp h.stored
  rw [Rbt.rotate, ← hf, hcid2]
  simp only [returns_bind, returns_load]
  refine ⟨_, hfc, ?_⟩
  rw [cell_child]
  refine ⟨_, hgc, ?_⟩
  simp only [cell_child, cell_parent, returns_setParent]
  refine ⟨_, hgc, ?_⟩
  rw [cell_setParent]
  -- the link from above now leads to `g`
  have hctx' : StoredCtx (t.put (.pair g.item.addr) (cell g (ctxRef fs) (treeRef c))).mem fs
      (.pair f.item.addr) := hctx.congr (t.put_mem_of_not_mem hgctx _)
  refine (relink_returns hctx' hfctx).mono ?_
  rintro - _ rfl
  generalize ht1 : t.put (.pair g.item.addr) (cell g (ctxRef fs) (treeRef c)) = t1 at hctx'
  generalize ht2 : relinked t1 fs (.pair g.item.addr) = t2
  have hmem2 : ∀ p, p ≠ .pair g.item.addr → (fs ≠ [] → p ≠ ctxRef fs) → t2.mem p = t.mem p := by
    intro p hp hp'
    rw [← ht2, relinked_mem _ _ _ _ hp', ← ht1, t.put_mem_of_ne hp]
  have hg2 : t2.mem (.pair g.item.addr) = some (cell g (ctxRef fs) (treeRef c)) := by
    rw [← ht2, relinked_mem _ _ _ _ fun _ => ctxRef_ne_of_not_mem hgctx, ← ht1, put_mem, if_pos rfl]
  refine returns_setChild.mpr ⟨_, hg2, ?_⟩
  rw [cell_setChild]
  generalize ht3 : t2.put (.pair g.item.addr) (cell g (ctxRef fs) (.pair f.item.addr)) = t3
  have hf3 : t3.mem (.pair f.item.addr) = some (cell f (ctxRef fs) (.pair g.item.addr)) := by
    rw [← ht3, t2.put_mem_of_ne (by simpa using Ne.symm hgf),
      hmem2 _ (by simpa using Ne.symm hgf) fun _ => ctxRef_ne_of_not_mem hfctx, hfc]
  refine returns_onlyIf (fun _ => ?_) fun hne => absurd (by simp) hne
  refine returns_setParent.mpr ⟨_, hf3, ?_⟩
  rw [cell_setParent]
  refine returns_setChild.mpr ⟨_, (t3.put_mem _ _ _).trans (if_pos rfl), ?_⟩
  rw [cell_setChild]
  generalize ht5 : (t3.put _ _).put _ _ = t5
  have hf5 : t5.mem (.pair f.item.addr) = some (cell f (.pair g.item.addr) (treeRef c)) := by
    rw [← ht5, put_mem, if_pos rfl]
  have hg5 : t5.mem (.pair g.item.addr) = some (cell g (ctxRef fs) (.pair f.item.addr)) := by
    simp [← ht5, ← ht3, hgf]
  have hmem5 : ∀ p, p ≠ .pair g.item.addr → p ≠ .pair f.item.addr → t5.mem p = t2.mem p := by
    intro p hp hp'
    simp [← ht5, ← ht3, hp, hp']
  have hhead5 : ∀ k ks, fs = k :: ks →
      t5.mem (.pair k.item.addr) = some (cell k (ctxRef ks) (.pair g.item.addr)) := by
    rintro k ks rfl
    simp only [ctxAddrs, mem_cons, not_or] at hgctx hfctx
    rw [hmem5 _ (by simpa using Ne.symm hgctx.1) (by simpa using Ne.symm hfctx.1), ← ht2,
      relinked_mem_head]
  have hroot5 : t5.root = treeRef (plug (f :: g :: fs) c) := by
    have h1 : t1.root = treeRef (plug fs (f.fill (g.fill c))) := by
      rw [← ht1]
      exact h.root
    have h2 : (relinked t1 fs (treeRef (g.fill (f.fill c)))).root =
        treeRef (plug fs (g.fill (f.fill c))) := relinked_root h1
    rw [treeRef_fill, ht2] at h2
    rw [← ht5, ← ht3]
    exact h2
  have hsize5 : t5.size = t.size := by simp [← ht5, ← ht3, ← ht2, ← ht1]
  have hstyle5 : t5.style = t.style := by simp [← ht5, ← ht3, ← ht2, ← ht1]
  have hcalls5 : t5.calls = t.calls := by simp [← ht5, ← ht3, ← ht2, ← ht1]
  have hkept5 : ∀ p, p ≠ .pair g.item.addr → p ≠ .pair f.item.addr →
      (fs ≠ [] → p ≠ ctxRef fs) → t5.mem p = t.mem p :=
    fun p h1 h2 h3 => (hmem5 p h1 h2).trans (hmem2 p h1 h3)
  refine returns_onlyIf (fun hcn => ?_) fun hcn => ?_
  · have hgc' : treeRef c ≠ .pair g.item.addr := treeRef_ne_of_not_mem (by grind)
    have hfc' : treeRef c ≠ .pair f.item.addr := treeRef_ne_of_not_mem (by grind)
    have hcc' : fs ≠ [] → treeRef c ≠ ctxRef fs := by
      refine ne_ctxRef fun a ha => treeRef_ne_of_not_mem ?_
      grind
    obtain ⟨n, hn, -⟩ := h.exists_mem
    refine returns_setParent.mpr ⟨n, (hkept5 _ hgc' hfc' hcc').trans hn, ?_⟩
    refine h.reshaped_rotate hg hroot5 ?_ ?_ ?_ ?_ ?_ hsize5 hstyle5 hcalls5
    · exact (t5.put_mem_of_ne hgc'.symm _).trans hg5
    · exact (t5.put_mem_of_ne hfc'.symm _).trans hf5
    · intro k ks hks
      subst hks
      exact (t5.put_mem_of_ne (hcc' (by simp)).symm _).trans (hhead5 k ks rfl)
    · intro m hm _
      rw [put_mem, if_pos rfl]
      rw [hn] at hm
      cases hm
      rfl
    · intro p h1 h2 h3 h4
      rw [t5.put_mem_of_ne (h4 fun hc0 => hcn (hc0 ▸ rfl)), hkept5 p h1 h2 h3]
  · have hc0 : c = .nil := treeRef_eq_xnil.mp (not_not.mp hcn)
    exact h.reshaped_rotate hg hroot5 hg5 hf5 hhead5 (fun _ _ hne => absurd hc0 hne)
      (fun p h1 h2 h3 _ => hkept5 p h1 h2 h3) hsize5 hstyle5 hcalls5

end Qse.Rbt
