import Qse.Rbt.Replace

/-!
# Searching the tree

`qse_rbt_search` and the loops of `insert` and `qse_rbt_cbsert` walk the way `descend` does on the
tree that the heap holds.
-/

open List

namespace Qse.Rbt

open ColorTree StateProgram

variable {κ : Type}

def keyCmp (style : PairStyle κ) (key : κ) (e : Entry κ) : ℤ :=
  style.comper key e.data.key

def foundRef : RbTree (Entry κ) → Ref
  | .nil => .null
  | .node _ e _ _ => .pair e.addr

theorem Shape.walkDown_returns {t : Rbt κ} {fs : List (Frame (Entry κ))} {s : RbTree (Entry κ)}
    (h : Shape t (plug fs s)) (key : κ) {fuel : ℕ} (hfuel : s.count < fuel) :
    Returns (walkDown key fuel (treeRef s) (ctxRef fs)) t fun r t' =>
      r = (treeRef (descend (keyCmp t.style key) fs s).2,
        ctxRef (descend (keyCmp t.style key) fs s).1) ∧ t' = t := by
  induction s generalizing fs fuel with
  | nil =>
    obtain ⟨fuel, rfl⟩ : ∃ k, fuel = k + 1 := ⟨fuel - 1, by omega⟩
    rw [walkDown, if_pos treeRef_nil]
    exact returns_pure.mpr ⟨rfl, rfl⟩
  | node c e l r ihl ihr =>
    obtain ⟨fuel, rfl⟩ : ∃ k, fuel = k + 1 := ⟨fuel - 1, by omega⟩
    rw [count_node] at hfuel
    rw [walkDown, if_neg (by simp), returns_bind, returns_load]
    refine ⟨_, h.node_eq, ?_⟩
    rw [returns_bind, returns_get, descend]
    change Returns (if keyCmp t.style key e = 0 then _ else if 0 < keyCmp t.style key e then _
      else _) _ _
    by_cases hz : keyCmp t.style key e = 0
    · rw [if_pos hz, if_pos hz]
      exact returns_pure.mpr ⟨rfl, rfl⟩
    rw [if_neg hz, if_neg hz]
    by_cases hpos : 0 < keyCmp t.style key e
    · rw [if_pos hpos, if_pos hpos]
      have hright : Shape t (plug (⟨.right, c, e, l⟩ :: fs) r) := h
      exact ihr hright (by omega)
    · rw [if_neg hpos, if_neg hpos]
      have hleft : Shape t (plug (⟨.left, c, e, r⟩ :: fs) l) := h
      exact ihl hleft (by omega)

theorem Shape.searchFrom_returns {t : Rbt κ} {fs : List (Frame (Entry κ))}
    {s : RbTree (Entry κ)} (h : Shape t (plug fs s)) (key : κ) {fuel : ℕ} (hfuel : s.depth < fuel) :
    Returns (searchFrom key fuel (treeRef s)) t fun r t' =>
      r = foundRef (descend (keyCmp t.style key) fs s).2 ∧ t' = t := by
  induction s generalizing fs fuel with
  | nil =>
    obtain ⟨fuel, rfl⟩ : ∃ k, fuel = k + 1 := ⟨fuel - 1, by omega⟩
    rw [searchFrom, if_pos treeRef_nil]
    exact returns_pure.mpr ⟨rfl, rfl⟩
  | node c e l r ihl ihr =>
    obtain ⟨fuel, rfl⟩ : ∃ k, fuel = k + 1 := ⟨fuel - 1, by omega⟩
    rw [RbTree.depth] at hfuel
    rw [searchFrom, if_neg (by simp), returns_bind, returns_load]
    refine ⟨_, h.node_eq, ?_⟩
    rw [returns_bind, returns_get, descend]
    change Returns (if keyCmp t.style key e = 0 then _ else if 0 < keyCmp t.style key e then _
      else _) _ _
    by_cases hz : keyCmp t.style key e = 0
    · rw [if_pos hz, if_pos hz]
      exact returns_pure.mpr ⟨rfl, rfl⟩
    rw [if_neg hz, if_neg hz]
    by_cases hpos : 0 < keyCmp t.style key e
    · rw [if_pos hpos, if_pos hpos]
      have hright : Shape t (plug (⟨.right, c, e, l⟩ :: fs) r) := h
      exact ihr hright (by omega)
    · rw [if_neg hpos, if_neg hpos]
      have hleft : Shape t (plug (⟨.left, c, e, r⟩ :: fs) l) := h
      exact ihl hleft (by omega)

variable {κ : Type}

structure Holds (t : Rbt κ) (T : RbTree (Entry κ)) : Prop where
  shape : Shape t T
  size : t.size = T.count
  root : T.color = .black

def entryRef : Option (Entry κ) → Ref
  | none => .null
  | some e => .pair e.addr

variable {T l r : RbTree (Entry κ)} {t : Rbt κ} {a : ℕ} {fs : List (Frame (Entry κ))} {c : Color}
  {e : Entry κ} {key : κ}

theorem Stored.mem_isSome {mem : Ref → Option (Pair κ)} {par : Ref}
    (h : Stored mem par T) : ∀ a ∈ addrs T, (mem (.pair a)).isSome := by
  induction T generalizing par with
  | nil => simp
  | node c e l r ihl ihr =>
    obtain ⟨he, hl, hr⟩ := h
    intro a ha
    rw [addrs_node, mem_append, mem_cons] at ha
    rcases ha with ha | rfl | ha
    · exact ihl hl a ha
    · rw [he]
      rfl
    · exact ihr hr a ha

theorem Shape.congr {t' : Rbt κ} (h : Shape t T) (hroot : t'.root = t.root)
    (hkept : ∀ p, (∀ a, p = .pair a → a ∈ addrs T) → t'.mem p = t.mem p) : Shape t' T where
  root := hroot.trans h.root
  stored := h.stored.congr fun a ha => hkept _ fun b hb => by
    cases hb
    exact ha
  nodup := h.nodup
  null := (hkept .null (by simp)).trans h.null
  xnil := by
    rw [hkept .xnil (by simp)]
    exact h.xnil

theorem Shape.put_apart (h : Shape t T) (ha : a ∉ addrs T)
    (n : Pair κ) : Shape (t.put (.pair a) n) T := by
  refine h.congr rfl fun p hp => t.put_mem_of_ne ?_ n
  intro hpa
  exact ha (hp a hpa)

theorem Shape.log (h : Shape t T) (cs : List (Callback κ)) :
    Shape { t with calls := t.calls ++ cs } T :=
  h.congr rfl fun _ _ => rfl

theorem returns_log {cs : List (Callback κ)} {Q : PUnit → Rbt κ → Prop} :
    Returns (log cs) t Q ↔ Q ⟨⟩ { t with calls := t.calls ++ cs } := returns_modify

/-- The pair that `allocpair` makes, if it does. -/
def made (t : Rbt κ) (env : PairEnv κ) (key : κ) (val : Buffer) : Option (Entry κ) :=
  match t.mmgrAlloc env.block, (fillPair t.style env key val).1 with
  | .pair a, some d => some ⟨a, d⟩
  | _, _ => none

structure Prepared (t t' : Rbt κ) (T : RbTree (Entry κ)) (made : Option (Entry κ)) : Prop where
  shape : Shape t' T
  cell : ∀ e, made = some e → e.addr ∉ addrs T ∧ t'.mem (.pair e.addr) = some (freshPair e.data)
  size : t'.size = t.size
  style : t'.style = t.style

/-- The freeers that `allocpair` calls. -/
def madeCalls (t : Rbt κ) (env : PairEnv κ) (key : κ) (val : Buffer) : List (Callback κ) :=
  if t.mmgrAlloc env.block = .null then [] else (fillPair t.style env key val).2

theorem mmgrAlloc_cases (t : Rbt κ) (block : Option ℕ) :
    t.mmgrAlloc block = .null ∨
      ∃ a, block = some a ∧ t.mmgrAlloc block = .pair a ∧ t.mem (.pair a) = none := by
  cases block with
  | none => exact .inl rfl
  | some a =>
    rw [mmgrAlloc]
    split
    · exact .inl rfl
    · rename_i hfree
      exact .inr ⟨a, rfl, rfl, by simpa using hfree⟩

theorem Shape.not_mem_addrs (h : Shape t T) (ha : t.mem (.pair a) = none) : a ∉ addrs T := by
  intro hmem
  have hsome := h.stored.mem_isSome a hmem
  rw [ha] at hsome
  exact absurd hsome (by simp)

theorem Shape.allocpair_returns (h : Shape t T) (env : PairEnv κ) (key : κ) (val : Buffer) :
    Returns (allocpair env key val) t fun p t' =>
      p = entryRef (made t env key val) ∧ Prepared t t' T (made t env key val) ∧
        t'.calls = t.calls ++ madeCalls t env key val := by
  rw [allocpair, returns_bind, returns_get]
  rcases t.mmgrAlloc_cases env.block with hnull | ⟨a, hblock, ha, hfree⟩
  · have hmade : made t env key val = none := by
      rw [made, hnull]
    rw [hnull, if_pos rfl, hmade, madeCalls, if_pos hnull, append_nil]
    exact returns_pure.mpr ⟨rfl, ⟨h, fun e he => absurd he (by simp), rfl, rfl⟩, rfl⟩
  rw [ha, if_neg (by simp), madeCalls, ha, if_neg (by simp)]
  cases hfill : fillPair t.style env key val with
  | mk d calls =>
  simp only [returns_bind, returns_log]
  cases d with
  | none =>
    have hmade : made t env key val = none := by
      rw [made, ha, hfill]
    rw [hmade]
    exact returns_pure.mpr ⟨rfl, ⟨h.log calls, fun e he => absurd he (by simp), rfl, rfl⟩, rfl⟩
  | some d =>
    have hmade : made t env key val = some ⟨a, d⟩ := by
      rw [made, ha, hfill]
    have hapart : a ∉ addrs T := h.not_mem_addrs hfree
    rw [hmade]
    simp only [returns_bind, returns_modify, returns_pure]
    refine ⟨rfl, ⟨(h.log calls).put_apart hapart _, ?_, rfl, rfl⟩, rfl⟩
    intro e he
    cases he
    exact ⟨hapart, (put_mem _ _ _ _).trans (if_pos rfl)⟩

theorem drop_mem (t : Rbt κ) (p q : Ref) : (t.drop p).mem q = if q = p then none else t.mem q := by
  simp [drop, Function.update_apply]

theorem Shape.freepair_returns (h : Shape t T) {n : Pair κ} (hn : t.mem (.pair a) = some n)
    (ha : a ∉ addrs T) :
    Returns (freepair (.pair a)) t fun _ t' =>
      Shape t' T ∧ t'.calls = t.calls ++ freeCalls t.style n.data ∧ t'.size = t.size ∧
        t'.style = t.style := by
  rw [freepair, returns_bind, returns_load]
  refine ⟨n, hn, ?_⟩
  rw [returns_bind, returns_get, returns_bind, returns_log, returns_modify]
  refine ⟨h.congr rfl fun p hp => ?_, rfl, rfl, rfl⟩
  rw [drop_mem, if_neg]
  rintro rfl
  exact ha (hp a rfl)

/-! ## Changing the value of a pair -/

theorem addrs_around :
    a ∈ addrs (plug fs (.node c e l r)) ↔ a = e.addr ∨ a ∈ addrs l ++ addrs r ++ ctxAddrs fs := by
  rw [(addrs_plug fs _).mem_iff, addrs_node]
  simp only [mem_append, mem_cons]
  tauto

theorem Shape.put_data (h : Shape t (plug fs (.node c e l r))) (d : PairData κ) :
    Shape (t.put (.pair e.addr) ⟨d, c, ctxRef fs, treeRef l, treeRef r⟩)
      (plug fs (.node c ⟨e.addr, d⟩ l r)) := by
  obtain ⟨hnl, hnr, hnctx⟩ := h.root_apart
  obtain ⟨hctx, -, hl, hr⟩ := stored_plug.mp h.stored
  refine ⟨h.root.trans (treeRef_plug fs rfl), ?_, ?_, ?_, ?_⟩
  · refine stored_plug.mpr ⟨hctx.congr ?_, ?_, hl.congr ?_, hr.congr ?_⟩
    · exact t.put_mem_of_not_mem hnctx _
    · exact (t.put_mem _ _ _).trans (if_pos rfl)
    · exact t.put_mem_of_not_mem hnl _
    · exact t.put_mem_of_not_mem hnr _
  · have hnd := nodup_around.mp h.nodup
    exact nodup_around.mpr hnd
  · simpa using h.null
  · simpa using h.xnil

theorem Shape.replace_returns {e' : Entry κ} (h : Shape t (plug fs (.node c e l r)))
    (hapart : e'.addr ∉ addrs (plug fs (.node c e l r))) {m : Pair κ}
    (hcell : t.mem (.pair e'.addr) = some m) (hdata : m.data = e'.data) :
    Returns (takePlace (.pair e.addr) (.pair e'.addr)
        ⟨e.data, c, ctxRef fs, treeRef l, treeRef r⟩) t fun _ t' =>
      Shape t' (plug fs (.node c e' l r)) ∧ e.addr ∉ addrs (plug fs (.node c e' l r)) ∧
        (∃ n, t'.mem (.pair e.addr) = some n ∧ n.data = e.data) ∧ t'.calls = t.calls ∧
          t'.size = t.size ∧ t'.style = t.style := by
  rw [addrs_around, not_or] at hapart
  obtain ⟨hne, hb⟩ := hapart
  have hout := h.hollow.apart
  refine (h.hollow.takePlace_returns hcell hb rfl rfl rfl).mono fun _ t' hr => ?_
  have hshape := hr.shape
  rw [hdata] at hshape
  refine ⟨hshape, ?_, ⟨_, (hr.kept _ (by simpa using Ne.symm hne) ?_).trans h.node_eq, rfl⟩,
    hr.calls, hr.size, hr.style⟩
  · rw [addrs_around, not_or]
    exact ⟨Ne.symm hne, hout⟩
  · rintro x hx heq
    cases heq
    exact hout hx

def changed (t : Rbt κ) (env : PairEnv κ) (e : Entry κ) (val : Buffer) : Option (Entry κ) :=
  match changeOf t.style env e.data val with
  | .keep => some e
  | .fail => none
  | .set d => some ⟨e.addr, d⟩
  | .rebuild => made t env e.data.key val

/-- The callbacks that `change_pair_val` calls. -/
def changedCalls (t : Rbt κ) (env : PairEnv κ) (e : Entry κ) (val : Buffer) : List (Callback κ) :=
  match changeOf t.style env e.data val with
  | .keep => keepCalls t.style val
  | .fail => []
  | .set _ => replaceCalls t.style e.data
  | .rebuild => madeCalls t env e.data.key val ++
      if (made t env e.data.key val).isSome then freeCalls t.style e.data else []

def replaced (fs : List (Frame (Entry κ))) (c : Color) (e : Entry κ) (l r : RbTree (Entry κ))
    (e' : Option (Entry κ)) : RbTree (Entry κ) :=
  plug fs (.node c (e'.getD e) l r)

theorem Shape.changePairVal_returns (h : Shape t (plug fs (.node c e l r))) (env : PairEnv κ)
    (val : Buffer) :
    Returns (changePairVal env (.pair e.addr) val) t fun p t' =>
      p = entryRef (changed t env e val) ∧ Shape t' (replaced fs c e l r (changed t env e val)) ∧
        t'.calls = t.calls ++ changedCalls t env e val ∧ t'.size = t.size ∧
          t'.style = t.style := by
  rw [changePairVal, returns_bind, returns_load]
  refine ⟨_, h.node_eq, ?_⟩
  rw [returns_bind, returns_get, changed, changedCalls]
  cases hchange : changeOf t.style env e.data val with
  | keep =>
    rw [returns_bind, returns_log, returns_pure]
    exact ⟨rfl, h.log _, rfl, rfl, rfl⟩
  | fail => exact returns_pure.mpr ⟨rfl, h, (append_nil _).symm, rfl, rfl⟩
  | set d =>
    simp only [returns_bind, returns_edit, returns_log, returns_pure]
    exact ⟨_, h.node_eq, rfl, (h.put_data d).log _, rfl, rfl, rfl⟩
  | rebuild =>
    simp only [returns_bind]
    refine (h.allocpair_returns env e.data.key val).mono ?_
    rintro - t1 ⟨rfl, hp, hcalls⟩
    cases hmade : made t env e.data.key val with
    | none =>
      rw [hmade] at hp
      rw [entryRef, if_pos rfl]
      refine returns_pure.mpr ⟨rfl, hp.shape, ?_, hp.size, hp.style⟩
      simpa using hcalls
    | some e' =>
      obtain ⟨hapart, hcell⟩ := hp.cell e' hmade
      rw [entryRef, if_neg (by simp), returns_bind]
      refine (hp.shape.replace_returns hapart hcell rfl).mono ?_
      rintro - t2 ⟨hshape, hout, ⟨n, hn, hdata⟩, hcalls2, hsize, hstyle⟩
      rw [returns_bind]
      refine (hshape.freepair_returns hn hout).mono ?_
      rintro - t3 ⟨hshape3, hcalls3, hsize3, hstyle3⟩
      refine returns_pure.mpr ⟨rfl, hshape3, ?_, (hsize3.trans hsize).trans hp.size,
        (hstyle3.trans hstyle).trans hp.style⟩
      rw [hcalls3, hcalls2, hcalls, hstyle, hp.style, hdata, append_assoc]
      rfl

/-! ## Linking a new pair -/

def leaf (e : Entry κ) : RbTree (Entry κ) := .node .red e .nil .nil

theorem nodup_leaf (hnd : (addrs (plug fs .nil)).Nodup) (hapart : e.addr ∉ addrs (plug fs .nil)) :
    (addrs (plug fs (leaf e))).Nodup := by
  rw [(addrs_plug fs _).nodup_iff] at hnd
  rw [(addrs_plug fs _).mem_iff] at hapart
  exact nodup_around.mpr (nodup_cons.mpr ⟨hapart, hnd⟩)

theorem Shape.hung {f : Frame (Entry κ)} (h : Shape t (plug (f :: fs) .nil))
    (hapart : e.addr ∉ addrs (plug (f :: fs) .nil)) :
    Shape ((t.put (.pair f.item.addr) (cell f (ctxRef fs) (.pair e.addr))).put (.pair e.addr)
        ⟨e.data, .red, .pair f.item.addr, .xnil, .xnil⟩) (plug (f :: fs) (leaf e)) := by
  have hctx := (stored_plug.mp h.stored).1
  have hndctx : (ctxAddrs (f :: fs)).Nodup := by simpa using h.nodup_plug
  have hctxapart : e.addr ∉ ctxAddrs (f :: fs) := by
    rw [(addrs_plug _ _).mem_iff] at hapart
    simpa using hapart
  have hne : Ref.pair f.item.addr ≠ .pair e.addr := by
    simp only [ctxAddrs, mem_cons, not_or] at hctxapart
    simpa using Ne.symm hctxapart.1
  refine ⟨h.root.trans (treeRef_plug_of_ne_nil (by simp) _ _), ?_, nodup_leaf h.nodup hapart,
    ?_, ?_⟩
  · refine stored_plug.mpr ⟨?_, ?_, trivial, trivial⟩
    · refine hctx.rehole hndctx ?_ ?_
      · intro a ha hhead
        rw [put_mem_of_not_mem _ hctxapart _ a ha]
        exact t.put_mem_of_ne hhead _
      · intro g gs hg
        cases hg
        rw [put_mem_of_ne _ hne, put_mem, if_pos rfl]
        rfl
    · exact (put_mem _ _ _ _).trans (if_pos rfl)
  · simpa using h.null
  · simpa using h.xnil

theorem Shape.place_returns (h : Shape t (plug fs .nil)) (hpoints : Points (keyCmp t.style key) fs)
    (hroot : RootBlack fs) (hsize : fs.length ≤ t.size) (hapart : e.addr ∉ addrs (plug fs .nil))
    (hcell : t.mem (.pair e.addr) = some (freshPair e.data)) :
    Returns (place key (ctxRef fs) (.pair e.addr)) t fun _ t' =>
      Shape t' (insertFix fs (leaf e)) ∧ t'.calls = t.calls ∧ t'.size = t.size ∧
        t'.style = t.style := by
  cases fs with
  | nil =>
    rw [place, ctxRef, if_pos rfl]
    refine returns_modify.mpr
      ⟨⟨rfl, ⟨hcell, trivial, trivial⟩, ?_, h.null, h.xnil⟩, rfl, rfl, rfl⟩
    exact nodup_leaf h.nodup hapart
  | cons f fs =>
    have hne : Ref.pair e.addr ≠ .pair f.item.addr := by
      rw [(addrs_plug _ _).mem_iff] at hapart
      simp only [addrs_nil, nil_append, ctxAddrs, mem_cons, not_or] at hapart
      simpa using hapart.1
    have hside : (if 0 < t.style.comper key (cell f (ctxRef fs) .xnil).data.key then Side.right
        else Side.left) = f.side := by
      rw [cell_data]
      exact hpoints.symm
    rw [place, ctxRef, if_neg (by simp), hang, returns_bind, returns_load]
    refine ⟨_, h.cell_eq, ?_⟩
    rw [returns_bind, returns_get, returns_bind, treeRef_nil, hside]
    refine returns_setChild.mpr ⟨_, h.cell_eq, ?_⟩
    rw [treeRef_nil, cell_setChild, returns_bind]
    refine returns_setParent.mpr ⟨_, (t.put_mem_of_ne hne _).trans hcell, ?_⟩
    have hhung := h.hung hapart
    refine (hhung.adjust_returns (by simp [leaf]) hroot (by simp at hsize ⊢; omega)).mono ?_
    exact fun _ t' hr => ⟨hr.shape, hr.calls, hr.size, hr.style⟩

def added (fs : List (Frame (Entry κ))) (e : Entry κ) : RbTree (Entry κ) :=
  (insertFix fs (leaf e)).paint .black

theorem insertFix_ne_nil {s : RbTree (Entry κ)} (hs : s ≠ .nil) : insertFix fs s ≠ .nil := by
  intro hnil
  have hitems := items_insertFix fs s
  rw [hnil, items_plug] at hitems
  cases s with
  | nil => exact hs rfl
  | node c x l r => simp at hitems

theorem added_count (fs : List (Frame (Entry κ))) (e : Entry κ) :
    (added fs e).count = (plug fs .nil).count + 1 := by
  rw [added, RbTree.count, RbTree.items_paint, items_insertFix, RbTree.count, items_plug,
    items_plug]
  simp only [leaf, RbTree.items_node, RbTree.items_nil, length_append, length_cons, length_nil]
  omega

theorem Shape.linkNew_returns (h : Shape t (plug fs .nil))
    (hpoints : Points (keyCmp t.style key) fs) (hroot : RootBlack fs) (hlen : fs.length ≤ t.size)
    (hsize : t.size = (plug fs (.nil : RbTree (Entry κ))).count)
    (hapart : e.addr ∉ addrs (plug fs .nil))
    (hcell : t.mem (.pair e.addr) = some (freshPair e.data)) :
    Returns (linkNew key (ctxRef fs) (.pair e.addr)) t fun _ t' =>
      Holds t' (added fs e) ∧ t'.calls = t.calls ∧ t'.style = t.style := by
  rw [linkNew, returns_bind]
  refine (h.place_returns hpoints hroot hlen hapart hcell).mono ?_
  rintro - t1 ⟨hshape, hcalls1, hsize1, hstyle1⟩
  rw [returns_bind, returns_get, returns_bind, hshape.root]
  have hne : insertFix fs (leaf e) ≠ .nil := insertFix_ne_nil (by simp [leaf])
  refine (@Shape.setColor_returns κ t1 [] _ hshape hne .black).mono fun _ t2 hr => ?_
  refine returns_modify.mpr
    ⟨⟨?_, ?_, ?_⟩, hr.calls.trans hcalls1, hr.style.trans hstyle1⟩
  · exact hr.shape.congr rfl fun _ _ => rfl
  · rw [added_count, ← hsize, ← hsize1, ← hr.size]
  · exact RbTree.color_paint_black _

theorem Holds.rootBlack (h : Holds t T) (hT : plug fs .nil = T) : RootBlack fs := by
  have hcolor := h.root
  rw [← hT, color_plug] at hcolor
  exact hcolor

theorem Holds.linkNew_returns {t1 : Rbt κ} (h : Holds t T)
    (hplace : descend (keyCmp t.style key) [] T = (fs, .nil)) (hp : Prepared t t1 T (some e)) :
    Returns (linkNew key (ctxRef fs) (.pair e.addr)) t1 fun _ t' =>
      Holds t' (added fs e) ∧ t'.calls = t1.calls ∧ t'.style = t.style := by
  have hplug := plug_descend (keyCmp t.style key) [] T
  have hpoints := descend_points (keyCmp t.style key) [] T trivial
  have hlen := descend_length (keyCmp t.style key) [] T
  rw [hplace] at hplug hpoints hlen
  rw [length_nil, Nat.zero_add, ← h.size, ← hp.size] at hlen
  obtain ⟨hapart, hcell⟩ := hp.cell e rfl
  have hshape := hp.shape
  rw [plug_nil] at hplug
  rw [← hp.style] at hpoints ⊢
  rw [← hplug] at hshape hapart
  refine hshape.linkNew_returns hpoints (h.rootBlack hplug) hlen ?_ hapart hcell
  rw [hplug, hp.size, h.size]

/-! ## `qse_rbt_insert` and its siblings -/

def inserted (t : Rbt κ) (T : RbTree (Entry κ)) (env : PairEnv κ) (key : κ) (val : Buffer)
    (opt : InsertOpt) : Option (Entry κ) × RbTree (Entry κ) :=
  match descend (keyCmp t.style key) [] T with
  | (fs, .node c e l r) =>
    match opt with
    | .upsert => (changed t env e val, replaced fs c e l r (changed t env e val))
    | .update => (changed t env e val, replaced fs c e l r (changed t env e val))
    | .ensert => (some e, T)
    | .insert => (none, T)
  | (fs, .nil) =>
    if opt = .update then (none, T)
    else
      match made t env key val with
      | none => (none, T)
      | some e => (some e, added fs e)

/-- The callbacks that `insert` calls. -/
def insertedCalls (t : Rbt κ) (T : RbTree (Entry κ)) (env : PairEnv κ) (key : κ) (val : Buffer)
    (opt : InsertOpt) : List (Callback κ) :=
  match descend (keyCmp t.style key) [] T with
  | (_, .node _ e _ _) =>
    match opt with
    | .upsert => changedCalls t env e val
    | .update => changedCalls t env e val
    | .ensert => []
    | .insert => []
  | (_, .nil) => if opt = .update then [] else madeCalls t env key val

theorem replaced_count (fs : List (Frame (Entry κ))) (c : Color) (e : Entry κ)
    (l r : RbTree (Entry κ)) (e' : Option (Entry κ)) :
    (replaced fs c e l r e').count = (plug fs (.node c e l r)).count := by
  rw [replaced, RbTree.count, RbTree.count, items_plug, items_plug]
  simp

theorem replaced_color (fs : List (Frame (Entry κ))) (c : Color) (e : Entry κ)
    (l r : RbTree (Entry κ)) (e' : Option (Entry κ)) :
    (replaced fs c e l r e').color = (plug fs (.node c e l r)).color := by
  rw [replaced, color_plug, color_plug, RbTree.color_node, RbTree.color_node]

theorem Holds.of_replaced {t' : Rbt κ} (h : Holds t (plug fs (.node c e l r)))
    {e' : Option (Entry κ)} (hshape : Shape t' (replaced fs c e l r e'))
    (hsize : t'.size = t.size) :
    Holds t' (replaced fs c e l r e') where
  shape := hshape
  size := by rw [replaced_count, hsize, h.size]
  root := (replaced_color fs c e l r e').trans h.root

theorem Holds.walkDown_returns {t : Rbt κ} {T : RbTree (Entry κ)} (h : Holds t T) (key : κ) :
    Returns (walkDown key (t.size + 1) t.root .null) t fun r t' =>
      r = (treeRef (descend (keyCmp t.style key) [] T).2,
        ctxRef (descend (keyCmp t.style key) [] T).1) ∧ t' = t := by
  rw [h.shape.root]
  have hfuel : T.count < t.size + 1 := by
    rw [h.size]
    exact Nat.lt_succ_self _
  exact @Shape.walkDown_returns κ t [] T h.shape key _ hfuel

theorem Holds.insert_returns (h : Holds t T) (env : PairEnv κ) (key : κ) (val : Buffer)
    (opt : InsertOpt) :
    Returns (insert env key val opt) t fun p t' =>
      p = entryRef (inserted t T env key val opt).1 ∧
        Holds t' (inserted t T env key val opt).2 ∧
          t'.calls = t.calls ++ insertedCalls t T env key val opt ∧ t'.style = t.style := by
  rw [Rbt.insert, returns_bind, returns_get, returns_bind]
  refine (h.walkDown_returns key).mono ?_
  rintro - t1 ⟨rfl, hsame⟩
  obtain rfl : t = t1 := hsame.symm
  have hplug := plug_descend (keyCmp t.style key) [] T
  rw [inserted, insertedCalls]
  cases hplace : descend (keyCmp t.style key) [] T with
  | mk fs s =>
  rw [hplace, plug_nil] at hplug
  cases s with
  | node c e l r =>
    have h' : Holds t (plug fs (.node c e l r)) := hplug ▸ h
    have hchange : Returns (changePairVal env (.pair e.addr) val) t fun p t' =>
        p = entryRef (changed t env e val) ∧
          Holds t' (replaced fs c e l r (changed t env e val)) ∧
            t'.calls = t.calls ++ changedCalls t env e val ∧ t'.style = t.style := by
      refine (h'.shape.changePairVal_returns env val).mono ?_
      rintro - t' ⟨rfl, hshape, hcalls, hsize, hstyle⟩
      exact ⟨rfl, h'.of_replaced hshape hsize, hcalls, hstyle⟩
    simp only [treeRef_node]
    rw [if_pos (by simp)]
    cases opt with
    | upsert | update => exact hchange
    | ensert | insert => exact returns_pure.mpr ⟨rfl, h, (append_nil _).symm, rfl⟩
  | nil =>
    simp only [treeRef_nil]
    rw [if_neg (by simp)]
    by_cases hupdate : opt = .update
    · rw [if_pos hupdate, if_pos hupdate, if_pos hupdate]
      exact returns_pure.mpr ⟨rfl, h, (append_nil _).symm, rfl⟩
    rw [if_neg hupdate, if_neg hupdate, if_neg hupdate, returns_bind]
    refine (h.shape.allocpair_returns env key val).mono ?_
    rintro - t1 ⟨rfl, hp, hcalls⟩
    cases hmade : made t env key val with
    | none =>
      rw [hmade] at hp
      rw [entryRef, if_pos rfl]
      exact returns_pure.mpr ⟨rfl, ⟨hp.shape, hp.size.trans h.size, h.root⟩, hcalls, hp.style⟩
    | some e =>
      rw [hmade] at hp
      rw [entryRef, if_neg (by simp), returns_bind]
      refine (h.linkNew_returns hplace hp).mono ?_
      rintro _ t2 ⟨h2, hcalls2, hstyle2⟩
      exact returns_pure.mpr ⟨rfl, h2, hcalls2.trans hcalls, hstyle2⟩

/-! ## `qse_rbt_cbsert` -/

def cbMade (t : Rbt κ) : Cbserted κ → Option (Entry κ)
  | .make block d =>
    match t.mmgrAlloc block with
    | .pair a => some ⟨a, d⟩
    | _ => none
  | _ => none

/-- What a `cbserter` makes of an existing pair. -/
def cbChanged (t : Rbt κ) (out : Cbserted κ) (e : Entry κ) : Option (Entry κ) :=
  match out with
  | .keep vptr vlen vbuf => some ⟨e.addr, { e.data with vptr := vptr, vlen := vlen, vbuf := vbuf }⟩
  | out => cbMade t out

def cbserted (t : Rbt κ) (T : RbTree (Entry κ)) (out : Cbserted κ) (key : κ) :
    Option (Entry κ) × RbTree (Entry κ) :=
  match descend (keyCmp t.style key) [] T with
  | (fs, .node c e l r) => (cbChanged t out e, replaced fs c e l r (cbChanged t out e))
  | (fs, .nil) =>
    match cbMade t out with
    | none => (none, T)
    | some e => (some e, added fs e)

theorem Shape.callCbserter_null (h : Shape t T) (out : Cbserted κ) :
    Returns (callCbserter out .null) t fun p t' =>
      p = entryRef (cbMade t out) ∧ Prepared t t' T (cbMade t out) := by
  have hfail : Prepared t t T (none : Option (Entry κ)) :=
    ⟨h, fun e he => absurd he (by simp), rfl, rfl⟩
  cases out with
  | fail => exact returns_pure.mpr ⟨rfl, hfail⟩
  | keep vptr vlen vbuf =>
    rw [callCbserter, if_pos rfl]
    exact returns_pure.mpr ⟨rfl, hfail⟩
  | make block d =>
    simp only [callCbserter, returns_bind, returns_get]
    rcases t.mmgrAlloc_cases block with hnull | ⟨a, -, ha, hfree⟩
    · rw [hnull, if_pos rfl, cbMade, hnull]
      exact returns_pure.mpr ⟨rfl, hfail⟩
    rw [ha, if_neg (by simp), cbMade, ha]
    have hapart : a ∉ addrs T := h.not_mem_addrs hfree
    simp only [returns_bind, returns_modify]
    refine returns_onlyIf (fun hne => absurd rfl hne) fun _ => ?_
    refine returns_pure.mpr ⟨rfl, h.put_apart hapart _, ?_, rfl, rfl⟩
    intro e he
    cases he
    exact ⟨hapart, (put_mem _ _ _ _).trans (if_pos rfl)⟩

theorem Hollow.drop_apart (h : Hollow t fs a l r) (cs : List (Callback κ)) :
    Hollow ({ t with calls := t.calls ++ cs }.drop (.pair a)) fs a l r := by
  refine h.congr rfl (fun p b hb hp => ?_) rfl rfl
  rw [drop_mem, if_neg]
  intro heq
  rw [hp] at heq
  cases heq
  exact h.apart hb

theorem Shape.cbReplace_returns (h : Shape t (plug fs (.node c e l r))) (out : Cbserted κ) :
    Returns (do
        let xNew ← callCbserter out (.pair e.addr)
        if xNew = .null then pure .null
        else
          onlyIf (xNew ≠ .pair e.addr)
            (takePlace (.pair e.addr) xNew ⟨e.data, c, ctxRef fs, treeRef l, treeRef r⟩)
          pure xNew : RbtM κ Ref) t fun p t' =>
      p = entryRef (cbChanged t out e) ∧ Shape t' (replaced fs c e l r (cbChanged t out e)) ∧
        t'.size = t.size ∧ t'.style = t.style := by
  rw [returns_bind]
  cases out with
  | fail =>
    refine returns_pure.mpr ?_
    rw [if_pos rfl]
    exact returns_pure.mpr ⟨rfl, h, rfl, rfl⟩
  | keep vptr vlen vbuf =>
    simp only [callCbserter]
    rw [if_neg (by simp), returns_bind, returns_edit]
    refine ⟨_, h.node_eq, returns_pure.mpr ?_⟩
    rw [if_neg (by simp), returns_bind]
    refine returns_onlyIf (fun hne => absurd rfl hne) fun _ => ?_
    exact returns_pure.mpr ⟨rfl, h.put_data _, rfl, rfl⟩
  | make block d =>
    simp only [callCbserter, returns_bind, returns_get, cbChanged, cbMade]
    rcases t.mmgrAlloc_cases block with hnull | ⟨a, -, ha, hfree⟩
    · rw [hnull, if_pos rfl]
      refine returns_pure.mpr ?_
      rw [if_pos rfl]
      exact returns_pure.mpr ⟨rfl, h, rfl, rfl⟩
    have hapart : a ∉ addrs (plug fs (.node c e l r)) := h.not_mem_addrs hfree
    have hput : Shape (t.put (.pair a) (freshPair d)) (plug fs (.node c e l r)) :=
      h.put_apart hapart _
    have hcell : (t.put (.pair a) (freshPair d)).mem (.pair a) = some (freshPair d) :=
      (put_mem _ _ _ _).trans (if_pos rfl)
    rw [addrs_around, not_or] at hapart
    rw [ha, if_neg (by simp)]
    simp only [returns_bind, returns_modify]
    refine returns_onlyIf (fun _ => ?_) fun hne => absurd (by simp) hne
    rw [freepair, returns_bind, returns_load]
    refine ⟨_, hput.node_eq, ?_⟩
    rw [returns_bind, returns_get, returns_bind, returns_log, returns_modify, returns_pure,
      if_neg (by simp), returns_bind]
    refine returns_onlyIf (fun _ => ?_) fun heq => ?_
    · have hcell' : (Rbt.drop { (t.put (.pair a) (freshPair d)) with
          calls := (t.put (.pair a) (freshPair d)).calls ++
            freeCalls (t.put (.pair a) (freshPair d)).style e.data }
          (.pair e.addr)).mem (.pair a) = some (freshPair d) := by
        rw [drop_mem, if_neg (by simpa using hapart.1)]
        exact hcell
      have hplace := (hput.hollow.drop_apart _).takePlace_returns hcell' hapart.2
        (n := ⟨e.data, c, ctxRef fs, treeRef l, treeRef r⟩) rfl rfl rfl
      refine hplace.mono fun _ t' hr => ?_
      exact returns_pure.mpr ⟨rfl, hr.shape, hr.size, hr.style⟩
    · exact absurd (by simpa using hapart.1) heq

theorem Holds.cbsert_returns (h : Holds t T) (out : Cbserted κ) (key : κ) :
    Returns (cbsert out key) t fun p t' =>
      p = entryRef (cbserted t T out key).1 ∧ Holds t' (cbserted t T out key).2 ∧
        t'.style = t.style := by
  rw [cbsert, returns_bind, returns_get, returns_bind]
  refine (h.walkDown_returns key).mono ?_
  rintro - t1 ⟨rfl, hsame⟩
  obtain rfl : t = t1 := hsame.symm
  have hplug := plug_descend (keyCmp t.style key) [] T
  rw [cbserted]
  cases hplace : descend (keyCmp t.style key) [] T with
  | mk fs s =>
  rw [hplace, plug_nil] at hplug
  cases s with
  | node c e l r =>
    have h' : Holds t (plug fs (.node c e l r)) := hplug ▸ h
    simp only [treeRef_node]
    rw [if_pos (by simp), returns_bind, returns_load]
    refine ⟨_, h'.shape.node_eq, ?_⟩
    refine (h'.shape.cbReplace_returns out).mono ?_
    rintro - t2 ⟨rfl, hshape, hsize, hstyle⟩
    exact ⟨rfl, h'.of_replaced hshape hsize, hstyle⟩
  | nil =>
    simp only [treeRef_nil]
    rw [if_neg (by simp), returns_bind]
    refine (h.shape.callCbserter_null out).mono ?_
    rintro - t1 ⟨rfl, hp⟩
    cases hmade : cbMade t out with
    | none =>
      rw [hmade] at hp
      rw [entryRef, if_pos rfl]
      exact returns_pure.mpr ⟨rfl, ⟨hp.shape, hp.size.trans h.size, h.root⟩, hp.style⟩
    | some e =>
      rw [hmade] at hp
      rw [entryRef, if_neg (by simp), returns_bind]
      refine (h.linkNew_returns hplace hp).mono ?_
      rintro _ t2 ⟨h2, -, hstyle2⟩
      exact returns_pure.mpr ⟨rfl, h2, hstyle2⟩

end Qse.Rbt
