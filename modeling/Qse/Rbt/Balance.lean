import Qse.Rbt.Shape
import Qse.Support.RedBlackRepair

/-!
# The repair loops on the heap

`adjust` computes `insertFix` and `adjustForDelete` computes `deleteFix` on the tree that the heap
holds. Neither needs the tree to be balanced.
-/

namespace Qse.Rbt

open ColorTree StateProgram

variable {κ : Type}

theorem plug_flip_sib (f : Frame (Entry κ)) (fs : List (Frame (Entry κ)))
    (s T : RbTree (Entry κ)) : plug (f.flip s :: fs) T = plug ({ f with sib := T } :: fs) s :=
  congrArg (plug fs) (f.flip_fill s T)

theorem plug_flip (f : Frame (Entry κ)) (fs : List (Frame (Entry κ))) (s : RbTree (Entry κ)) :
    plug (f.flip s :: fs) f.sib = plug (f :: fs) s :=
  plug_flip_sib f fs s f.sib

variable {t : Rbt κ} {fs : List (Frame (Entry κ))} {s l r near : RbTree (Entry κ)}
  {f g k : Frame (Entry κ)}

theorem Shape.exists_node (h : Shape t (plug fs s)) (hs : s ≠ .nil) :
    ∃ n, t.mem (treeRef s) = some n ∧ n.parent = ctxRef fs ∧ n.color = s.color ∧
      n.left = treeRef (s.kid .left) ∧ n.right = treeRef (s.kid .right) := by
  cases s with
  | nil => exact absurd rfl hs
  | node c e l r => exact ⟨_, h.node_eq, rfl, rfl, rfl, rfl⟩

theorem treeRef_plug_mem (hne : fs ≠ []) (s : RbTree (Entry κ)) :
    ∃ a ∈ ctxAddrs fs, treeRef (plug fs s) = .pair a := by
  induction fs generalizing s with
  | nil => exact absurd rfl hne
  | cons f fs ih =>
    by_cases hfs : fs = []
    · exact ⟨f.item.addr, by simp [ctxAddrs], by simp [hfs, plug_cons]⟩
    · obtain ⟨a, ha, hroot⟩ := ih hfs (f.fill s)
      exact ⟨a, by simp [ctxAddrs, ha], hroot⟩

theorem Shape.ne_root (h : Shape t (plug fs s)) (hne : fs ≠ []) : treeRef s ≠ t.root := by
  obtain ⟨a, ha, hroot⟩ := treeRef_plug_mem hne s
  rw [h.root, hroot]
  refine treeRef_ne_of_not_mem fun ha' => ?_
  have hnd := h.nodup_plug
  exact (List.nodup_append.mp hnd).2.2 a ha' a ha rfl

theorem Shape.sib_ne (h : Shape t (plug (f :: fs) s)) (hs : s ≠ .nil) :
    treeRef f.sib ≠ treeRef s := by
  cases s with
  | nil => exact (hs rfl).elim
  | node c e l r =>
    refine treeRef_ne_of_not_mem fun he => ?_
    have happ := h.root_apart.2.2
    exact happ (by simp [ctxAddrs, he])

theorem Shape.left_eq_iff (h : Shape t (plug (f :: fs) s)) (hs : s ≠ .nil) :
    (cell f (ctxRef fs) (treeRef s)).left = treeRef s ↔ f.side = .left :=
  cell_left_eq (h.sib_ne hs)

theorem child_other_eq (n : Pair κ) (s : Side) :
    (if decide (s = .left) = true then n.right else n.left) = n.child s.other := by
  cases s <;> rfl

/-! ## `adjust` -/

theorem Shape.adjust_black (h : Shape t (plug (f :: fs) s)) (hs : s ≠ .nil) (hf : f.color = .black)
    (fuel : ℕ) :
    Returns (adjust (fuel + 1) (treeRef s)) t fun _ t' => t' = t := by
  obtain ⟨n, hn, hpar, -⟩ := h.exists_node hs
  rw [adjust, returns_bind, returns_get, if_neg (h.ne_root (by simp))]
  simp only [returns_bind, returns_load]
  refine ⟨n, hn, _, (congrArg t.mem hpar).trans h.cell_eq, ?_⟩
  rw [cell_color, if_pos hf]
  exact returns_pure.mpr rfl

theorem Shape.hoist_returns (h : Shape t (plug (f :: g :: fs) s)) (hs : s ≠ .nil)
    (hside : f.side = g.side) (fuel : ℕ) :
    Returns (do
      setColor (.pair f.item.addr) .black
      let np ← load (.pair f.item.addr)
      setColor np.parent .red
      rotate np.parent (!decide (g.side = .left))
      adjust (fuel + 1) (treeRef s)) t fun _ t' =>
        Reshaped t t' (plug (f :: g :: fs) s) (hoist fs g f s) := by
  have h0 : Shape t (plug (g :: fs) (f.fill s)) := h
  have hset := h0.setColor_returns (f.fill_ne_nil s) .black
  rw [treeRef_fill, ← Frame.fill_paint] at hset
  rw [returns_bind]
  refine hset.mono fun _ t1 hr1 => ?_
  have h1 : Shape t1 (plug (f.paint .black :: g :: fs) s) := hr1.shape
  rw [returns_bind, returns_load]
  refine ⟨_, h1.cell_eq, ?_⟩
  have h1' : Shape t1 (plug fs (g.fill ((f.paint .black).fill s))) := hr1.shape
  have hset' := h1'.setColor_returns (g.fill_ne_nil _) .red
  rw [treeRef_fill, ← Frame.fill_paint] at hset'
  rw [cell_parent, returns_bind]
  refine hset'.mono fun _ t2 hr2 => ?_
  -- seen from its other subtree, the black pair is the one to rotate above `g`
  have hview : plug fs ((g.paint .red).fill ((f.paint .black).fill s)) =
      plug ((f.flip s).paint .black :: g.paint .red :: fs) f.sib := by
    rw [← (f.paint .black).fill_flip s]
    rfl
  rw [hview] at hr2
  have hpivot : (g.paint .red).side =
      if (!decide (g.side = .left)) = true then .right else .left := by
    change g.side = _
    cases g.side <;> rfl
  have hinner : ((f.flip s).paint .black).side = (g.paint .red).side.other := by
    change f.side.other = g.side.other
    rw [hside]
  rw [returns_bind]
  refine (hr2.shape.rotate_returns hpivot hinner).mono fun _ t3 hr3 => ?_
  have hr : Reshaped t t3 (plug (f :: g :: fs) s) (hoist fs g f s) :=
    (hr1.trans hr2).trans hr3
  have htop : plug ((f.flip s).paint .black :: fs) ((g.paint .red).fill f.sib) =
      plug ({ f with color := .black, sib := (g.paint .red).fill f.sib } :: fs) s :=
    congrArg (plug fs) ((f.paint .black).flip_fill s _)
  have h3 : Shape t3 (plug ({ f with color := .black, sib := (g.paint .red).fill f.sib } :: fs)
      s) := htop ▸ hr.shape
  refine (h3.adjust_black hs rfl fuel).mono ?_
  rintro - _ rfl
  exact hr

theorem Shape.recolorUncle_returns (h : Shape t (plug (f :: g :: fs) s))
    (hred : g.sib.color = .red) :
    Returns (do
      setColor (.pair f.item.addr) .black
      setColor (treeRef g.sib) .black
      setColor (.pair g.item.addr) .red) t fun _ t' =>
        Reshaped t t' (plug (f :: g :: fs) s)
          (plug fs (Frame.fill { g with color := .red, sib := g.sib.paint .black }
            ((f.paint .black).fill s))) := by
  have h0 : Shape t (plug (g :: fs) (f.fill s)) := h
  have hset := h0.setColor_returns (f.fill_ne_nil s) .black
  rw [treeRef_fill, ← Frame.fill_paint, ← plug_flip g fs ((f.paint .black).fill s)] at hset
  rw [returns_bind]
  refine hset.mono fun _ t1 hr1 => ?_
  rw [returns_bind]
  refine (hr1.shape.setColor_returns (RbTree.ne_nil_of_red hred) .black).mono fun _ t2 hr2 => ?_
  rw [plug_flip_sib _ _ _ (g.sib.paint .black)] at hr2
  have h2 : Shape t2 (plug fs (Frame.fill { g with sib := g.sib.paint .black }
      ((f.paint .black).fill s))) := hr2.shape
  have hset2 := h2.setColor_returns (Frame.fill_ne_nil _ _) .red
  rw [treeRef_fill, ← Frame.fill_paint] at hset2
  exact hset2.mono fun _ t3 hr3 => (hr1.trans hr2).trans hr3

theorem Shape.turnOut_outer (h : Shape t (plug (f :: fs) s)) (hs : s ≠ .nil)
    (hside : f.side = g.side) (leftwise : Bool) :
    Returns (turnOut (treeRef s) (.pair f.item.addr)
      ((cell f (ctxRef fs) (treeRef s)).child g.side.other) leftwise) t fun r t' =>
        r = (treeRef s, .pair f.item.addr) ∧ t' = t := by
  rw [turnOut, ← hside, cell_child_other, if_neg (h.sib_ne hs).symm]
  exact returns_pure.mpr ⟨rfl, rfl⟩

theorem Shape.turnOut_inner {c : Color} {e : Entry κ} (h : Shape t (plug (f :: fs) (.node c e l r)))
    (hside : f.side = g.side.other) :
    Returns (turnOut (.pair e.addr) (.pair f.item.addr)
      ((cell f (ctxRef fs) (.pair e.addr)).child g.side.other) (decide (g.side = .left))) t
      fun r' t' => r' = (.pair f.item.addr, .pair e.addr) ∧
        Reshaped t t' (plug (f :: fs) (.node c e l r))
          (plug (f :: RbTree.frameAt g.side c e l r :: fs) ((RbTree.node c e l r).kid g.side)) := by
  have hview := fill_frameAt g.side c e l r
  have h0 : Shape t (plug (RbTree.frameAt g.side c e l r :: f :: fs)
      ((RbTree.node c e l r).kid g.side)) := by
    rw [plug_cons, hview]
    exact h
  have hpivot : f.side = if decide (g.side = .left) = true then .right else .left := by
    rw [hside]
    cases g.side <;> rfl
  have hinner : (RbTree.frameAt g.side c e l r).side = f.side.other := by
    rw [hside, Side.other_other]
    rfl
  rw [turnOut, ← hside, cell_child, if_pos rfl, returns_bind]
  refine (h0.rotate_returns hpivot hinner).mono fun _ t1 hr1 => ?_
  rw [returns_bind, returns_load]
  refine ⟨_, hr1.shape.cell_eq, returns_pure.mpr ⟨?_, ?_⟩⟩
  · rw [cell_parent]
    rfl
  · rw [plug_cons _ (f :: fs), hview] at hr1
    exact hr1

theorem Shape.adjust_returns (h : Shape t (plug fs s)) (hs : s ≠ .nil) (hroot : RootBlack fs)
    {fuel : ℕ} (hfuel : fs.length < fuel) :
    Returns (adjust fuel (treeRef s)) t fun _ t' =>
      Reshaped t t' (plug fs s) (insertFix fs s) := by
  induction fuel generalizing t fs s with
  | zero => omega
  | succ fuel ih =>
    match fs with
    | [] =>
      have htop : treeRef s = t.root := h.root.symm
      rw [adjust, returns_bind, returns_get, if_pos htop]
      exact returns_pure.mpr h.reshaped
    | [f] =>
      refine (h.adjust_black hs hroot fuel).mono ?_
      rintro - _ rfl
      exact h.reshaped
    | f :: g :: fs =>
      by_cases hf : f.color = .black
      · refine (h.adjust_black hs hf fuel).mono ?_
        rintro - _ rfl
        rw [insertFix, if_pos hf]
        exact h.reshaped
      obtain ⟨n, hn, hpar, -⟩ := h.exists_node hs
      rw [adjust, returns_bind, returns_get, if_neg (h.ne_root (by simp))]
      simp only [returns_bind, returns_load]
      refine ⟨n, hn, _, (congrArg t.mem hpar).trans h.cell_eq, ?_⟩
      rw [cell_color, if_neg hf, cell_parent, hpar]
      have hg : Shape t (plug (g :: fs) (f.fill s)) := h
      have hleft : decide (ctxRef (f :: g :: fs) =
          (cell g (ctxRef fs) (treeRef (f.fill s))).left) = decide (g.side = .left) := by
        refine decide_eq_decide.mpr (Iff.trans ?_ (hg.left_eq_iff (f.fill_ne_nil s)))
        rw [treeRef_fill]
        exact eq_comm
      simp only [returns_bind, returns_load]
      refine ⟨_, hg.cell_eq, ?_⟩
      simp only [hleft, child_other_eq, cell_child_other]
      have hsib : Shape t (plug (g.flip (f.fill s) :: fs) g.sib) := by
        rw [plug_flip]
        exact h
      obtain ⟨nt, hnt, hcolor, -⟩ := hsib.exists_mem
      refine ⟨nt, hnt, ?_⟩
      rw [hcolor]
      refine returns_ite (fun hred => ?_) fun hblack => ?_
      · have hcolors := h.recolorUncle_returns hred
        rw [insertFix, if_neg hf, if_pos hred]
        simp only [returns_bind] at hcolors ⊢
        refine hcolors.mono fun _ t1 h1 => h1.mono fun _ t2 h2 => h2.mono fun _ t3 hr3 => ?_
        simp only [List.length_cons] at hfuel
        have hup := ih hr3.shape (Frame.fill_ne_nil _ _) hroot.tail.tail (by omega)
        rw [treeRef_fill] at hup
        exact hup.mono fun _ t4 hr4 => hr3.trans hr4
      rw [insertFix, if_neg hf, if_neg hblack, returns_bind]
      simp only [List.length_cons] at hfuel
      obtain ⟨fuel, rfl⟩ : ∃ k, fuel = k + 1 := ⟨fuel - 1, by omega⟩
      by_cases hside : f.side = g.side
      · rw [if_pos hside]
        refine (h.turnOut_outer hs hside _).mono ?_
        rintro - _ ⟨rfl, rfl⟩
        exact h.hoist_returns hs hside fuel
      rw [if_neg hside]
      have hother := (f.side.eq_or_eq_other g.side).resolve_left hside
      cases s with
      | nil => exact absurd rfl hs
      | node c e l r =>
        refine (h.turnOut_inner hother).mono ?_
        rintro - t1 ⟨rfl, hr1⟩
        have hup : Shape t1 (plug (RbTree.frameAt g.side c e l r :: g :: fs)
            (f.fill ((RbTree.node c e l r).kid g.side))) := hr1.shape
        have hhoist := hup.hoist_returns (f.fill_ne_nil _) rfl fuel
        rw [treeRef_fill] at hhoist
        exact hhoist.mono fun _ t2 hr2 => hr1.trans hr2

/-! ## `adjust_for_delete` -/

theorem Shape.adjustForDelete_stop (h : Shape t (plug fs s)) (hs : s ≠ .nil)
    (hstop : fs = [] ∨ s.color = .red) (fuel : ℕ) (par : Ref) :
    Returns (adjustForDelete (fuel + 1) (treeRef s) par) t fun _ t' =>
      Reshaped t t' (plug fs s) (plug fs (s.paint .black)) := by
  obtain ⟨n, hn, -, hcolor, -⟩ := h.exists_node hs
  have hcond : ¬(treeRef s ≠ t.root ∧ n.color = .black) := by
    rintro ⟨hne, hblack⟩
    rcases hstop with rfl | hred
    · exact hne h.root.symm
    · rw [hcolor, hred] at hblack
      exact absurd hblack (by decide)
  rw [adjustForDelete, returns_bind, returns_get, returns_bind, returns_load]
  refine ⟨n, hn, ?_⟩
  rw [if_neg hcond]
  exact h.setColor_returns hs .black

theorem Shape.raiseRed_black (h : Shape t (plug (f :: fs) s)) (hblack : f.sib.color ≠ .red)
    (par : Ref) :
    Returns (raiseRed par (treeRef f.sib) f.side) t fun tmp t' =>
      tmp = treeRef f.sib ∧ t' = t := by
  have hsib : Shape t (plug (f.flip s :: fs) f.sib) := by
    rw [plug_flip]
    exact h
  obtain ⟨n, hn, hcolor, -⟩ := hsib.exists_mem
  rw [raiseRed, returns_bind, returns_load]
  refine ⟨n, hn, ?_⟩
  rw [hcolor, if_neg hblack]
  exact returns_pure.mpr ⟨rfl, rfl⟩

theorem other_eq_ite (s : Side) :
    s.other = if decide (s = .left) = true then .right else .left := by
  cases s <;> rfl

theorem Shape.raise_returns (h : Shape t (plug ({ f with sib := k.fill near } :: fs) s))
    (hk : k.side = f.side) :
    Returns (rotate (.pair f.item.addr) (decide (f.side = .left))) t fun _ t' =>
      Reshaped t t' (plug ({ f with sib := k.fill near } :: fs) s)
        (plug ({ f with sib := near } :: k :: fs) s) := by
  rw [← plug_flip_sib f, ← plug_flip_sib f]
  rw [← plug_flip_sib f] at h
  refine Shape.rotate_returns (f := f.flip s) h (other_eq_ite f.side) ?_
  rw [hk]
  exact (Side.other_other f.side).symm

theorem Shape.raiseRed_red {e : Entry κ} (h : Shape t (plug (f :: fs) s))
    (hsib : f.sib = .node .red e l r) :
    Returns (raiseRed (.pair f.item.addr) (treeRef f.sib) f.side) t fun tmp t' =>
      tmp = treeRef ((RbTree.node .red e l r).kid f.side) ∧
        Reshaped t t' (plug (f :: fs) s)
          (plug ({ f with color := .red, sib := (RbTree.node .red e l r).kid f.side } ::
            (RbTree.frameAt f.side .red e l r).paint .black :: fs) s) := by
  have h0 : Shape t (plug (f.flip s :: fs) f.sib) := by
    rw [plug_flip]
    exact h
  obtain ⟨n, hn, hcolor, -⟩ := h0.exists_mem
  have hred : f.sib.color = .red := by rw [hsib, RbTree.color_node]
  rw [raiseRed, returns_bind, returns_load]
  refine ⟨n, hn, ?_⟩
  rw [hcolor, if_pos hred, returns_bind]
  refine (h0.setColor_returns (RbTree.ne_nil_of_red hred) .black).mono fun _ t1 hr1 => ?_
  have hpaint : f.sib.paint .black =
      ((RbTree.frameAt f.side .red e l r).paint .black).fill
          ((RbTree.node .red e l r).kid f.side) := by
    rw [Frame.fill_paint, fill_frameAt, hsib]
  rw [plug_flip, plug_flip_sib _ _ _ (f.sib.paint .black), hpaint] at hr1
  have h1 : Shape t1 (plug fs (Frame.fill
      { f with
        sib := ((RbTree.frameAt f.side .red e l r).paint .black).fill
          ((RbTree.node .red e l r).kid f.side) } s)) := hr1.shape
  have hset := h1.setColor_returns (Frame.fill_ne_nil _ _) .red
  rw [treeRef_fill, ← Frame.fill_paint] at hset
  rw [returns_bind]
  refine hset.mono fun _ t2 hr2 => ?_
  have hrot := Shape.raise_returns (f := f.paint .red) hr2.shape rfl
  rw [returns_bind]
  refine hrot.mono fun _ t3 hr3 => ?_
  rw [returns_bind, returns_load]
  refine ⟨_, hr3.shape.cell_eq, returns_pure.mpr ⟨?_, (hr1.trans hr2).trans hr3⟩⟩
  exact cell_child_other { f with color := .red, sib := (RbTree.node .red e l r).kid f.side } _ _

theorem RbTree.paint_black_of_ne_red {T : RbTree (Entry κ)} (h : T.color ≠ .red) :
    T.paint .black = T := by
  cases T with
  | nil => rfl
  | node c e l r =>
    have hc : c = .black := Color.eq_black_of_ne_red h
    rw [hc, RbTree.paint]

theorem Shape.raiseFar_returns (h : Shape t (plug ({ f with sib := k.fill near } :: fs) s))
    (hk : k.side = f.side) (fuel : ℕ) :
    Returns (do
      raiseFar (.pair f.item.addr) (.pair k.item.addr) f.side
      let t ← get
      adjustForDelete (fuel + 1) t.root (.pair f.item.addr)) t fun _ t' =>
        Reshaped t t' (plug ({ f with sib := k.fill near } :: fs) s)
          (borrowOuter fs f k near s) := by
  simp only [raiseFar, bind_assoc]
  rw [returns_bind, returns_load]
  refine ⟨_, h.cell_eq, ?_⟩
  -- the sibling takes the colour of `f`
  have h0 := h
  rw [← plug_flip_sib f] at h0
  have hset := h0.setColor_returns (k.fill_ne_nil near) f.color
  rw [treeRef_fill, ← Frame.fill_paint, plug_flip_sib f, plug_flip_sib f] at hset
  rw [cell_color, returns_bind]
  refine hset.mono fun _ t1 hr1 => ?_
  -- and `f` turns black
  have h1 : Shape t1 (plug fs (Frame.fill { f with sib := (k.paint f.color).fill near } s)) :=
    hr1.shape
  have hset1 := h1.setColor_returns (Frame.fill_ne_nil _ _) .black
  rw [treeRef_fill, ← Frame.fill_paint] at hset1
  rw [returns_bind, setColorOf, onlyIf, if_pos (by simp)]
  refine hset1.mono fun _ t2 hr2 => ?_
  -- the far child turns black
  have h2 : Shape t2 (plug ({ f.paint .black with sib := (k.paint f.color).fill near } :: fs) s) :=
    hr2.shape
  have h2' := h2
  rw [← plug_flip_sib (f.paint .black)] at h2'
  have hk2 : Shape t2 (plug (k.paint f.color :: (f.paint .black).flip s :: fs) near) := h2'
  have hfar2 := hk2
  rw [← plug_flip] at hfar2
  obtain ⟨nf, hnf, hcolor, -⟩ := hfar2.exists_mem
  have hchild : (cell (k.paint f.color) (ctxRef ((f.paint .black).flip s :: fs))
      (treeRef near)).child f.side.other = treeRef k.sib := by
    rw [← hk]
    exact cell_child_other (k.paint f.color) _ _
  rw [returns_bind, returns_load]
  refine ⟨_, hk2.cell_eq, ?_⟩
  rw [hchild, returns_bind, returns_load]
  refine ⟨nf, hnf, ?_⟩
  have hblack : Returns (onlyIf (nf.color = .red) (setColor (treeRef k.sib) .black)) t2
      fun _ t' => Reshaped t2 t'
        (plug ({ f.paint .black with sib := (k.paint f.color).fill near } :: fs) s)
        (plug ({ f.paint .black with
          sib := Frame.fill { k with color := f.color, sib := k.sib.paint .black } near } :: fs)
            s) := by
    refine returns_onlyIf (fun hred => ?_) fun hne => ?_
    · have hset2 := hfar2.setColor_returns (RbTree.ne_nil_of_red (hcolor ▸ hred)) .black
      rw [plug_flip, plug_flip_sib _ _ _ ((k.paint f.color).sib.paint .black)] at hset2
      rw [← plug_flip_sib (f.paint .black), ← plug_flip_sib (f.paint .black)]
      exact hset2
    · have hsame : k.sib.paint .black = k.sib := RbTree.paint_black_of_ne_red (hcolor ▸ hne)
      rw [hsame]
      exact h2.reshaped
  rw [returns_bind]
  refine hblack.mono fun _ t3 hr3 => ?_
  rw [returns_bind]
  refine (Shape.raise_returns (f := f.paint .black) hr3.shape hk).mono fun _ t4 hr4 => ?_
  have hr : Reshaped t t4 (plug ({ f with sib := k.fill near } :: fs) s)
      (plug ({ f.paint .black with sib := near } ::
        { k with color := f.color, sib := k.sib.paint .black } :: fs) s) :=
    ((hr1.trans hr2).trans hr3).trans hr4
  have htop : Shape t4 (plug [] (plug ({ f.paint .black with sib := near } ::
      { k with color := f.color, sib := k.sib.paint .black } :: fs) s)) := hr.shape
  rw [returns_bind, returns_get, hr.shape.root]
  have hstop := htop.adjustForDelete_stop (plug_cons_ne_nil _ _ s) (.inl rfl) fuel
    (.pair f.item.addr)
  refine hstop.mono fun _ t5 hr5 => ?_
  have hbo : borrowOuter fs f k near s = (plug ({ f.paint .black with sib := near } ::
      { k with color := f.color, sib := k.sib.paint .black } :: fs) s).paint .black :=
    congrArg (fun X => (plug ({ k with color := f.color, sib := k.sib.paint .black } :: fs)
      X).paint .black) ((f.paint .black).flip_fill s near)
  rw [hbo]
  exact hr.trans hr5

theorem Shape.raiseNear_inner {d : Color} {y : Entry κ}
    (h : Shape t (plug ({ f with sib := k.fill (.node d y l r) } :: fs) s)) (hk : k.side = f.side)
    (hfar : k.sib.color = .black) :
    let g := (RbTree.frameAt f.side.other d y l r).paint .black
    let T := g.fill ((k.paint .red).fill ((RbTree.node d y l r).kid f.side.other))
    Returns (raiseNear (.pair f.item.addr) (.pair k.item.addr) f.side) t fun tmp t' =>
      tmp = .pair y.addr ∧
        Reshaped t t' (plug ({ f with sib := k.fill (.node d y l r) } :: fs) s)
          (plug ({ f with sib := T } :: fs) s) := by
  intro g T
  have h0 := h
  rw [← plug_flip_sib f] at h0
  have hnear : Shape t (plug (k :: f.flip s :: fs) (.node d y l r)) := h0
  have hfar0 := hnear
  rw [← plug_flip] at hfar0
  obtain ⟨nf, hnf, hcolor, -⟩ := hfar0.exists_mem
  have hchild : (cell k (ctxRef (f.flip s :: fs)) (treeRef (.node d y l r))).child f.side.other =
      treeRef k.sib := by
    rw [← hk]
    exact cell_child_other k _ _
  have hchild' : (cell k (ctxRef (f.flip s :: fs)) (treeRef (.node d y l r))).child f.side =
      treeRef (.node d y l r) := by
    rw [← hk]
    exact cell_child k _ _
  rw [raiseNear, returns_bind, returns_load]
  refine ⟨_, hnear.cell_eq, ?_⟩
  rw [hchild, hchild', returns_bind, returns_load]
  refine ⟨nf, hnf, ?_⟩
  rw [hcolor, if_pos hfar, returns_bind, setColorOf, onlyIf, if_pos (by simp)]
  refine (hnear.setColor_returns (by simp) .black).mono fun _ t1 hr1 => ?_
  have h1 : Shape t1 (plug (f.flip s :: fs) (k.fill ((RbTree.node d y l r).paint .black))) :=
    hr1.shape
  have hset := h1.setColor_returns (k.fill_ne_nil _) .red
  rw [treeRef_fill, ← Frame.fill_paint] at hset
  rw [returns_bind]
  refine hset.mono fun _ t2 hr2 => ?_
  have hpaint : (RbTree.node d y l r).paint .black =
      g.fill ((RbTree.node d y l r).kid f.side.other) := by
    rw [Frame.fill_paint, fill_frameAt]
  have h2 : Shape t2 (plug (g :: k.paint .red :: f.flip s :: fs)
      ((RbTree.node d y l r).kid f.side.other)) := by
    rw [plug_cons, ← hpaint]
    exact hr2.shape
  have hpivot : (k.paint .red).side =
      if (!decide (f.side = .left)) = true then .right else .left := by
    change k.side = _
    rw [hk]
    cases f.side <;> rfl
  have hinner : g.side = (k.paint .red).side.other := by
    change f.side.other = k.side.other
    rw [hk]
  rw [returns_bind]
  refine (h2.rotate_returns hpivot hinner).mono fun _ t3 hr3 => ?_
  have hr3' : Reshaped t2 t3 (plug (f.flip s :: fs)
      ((k.paint .red).fill ((RbTree.node d y l r).paint .black))) (plug (f.flip s :: fs) T) := by
    rw [hpaint]
    exact hr3
  have hr : Reshaped t t3 (plug ({ f with sib := k.fill (.node d y l r) } :: fs) s)
      (plug ({ f with sib := T } :: fs) s) := by
    rw [← plug_flip_sib f, ← plug_flip_sib f]
    exact (hr1.trans hr2).trans hr3'
  rw [returns_bind, returns_load]
  refine ⟨_, hr.shape.cell_eq, returns_pure.mpr ⟨?_, hr⟩⟩
  refine (cell_child_other { f with sib := T } _ _).trans ?_
  exact treeRef_fill g _

theorem Shape.raiseNear_outer (h : Shape t (plug ({ f with sib := k.fill near } :: fs) s))
    (hk : k.side = f.side) (hfar : k.sib.color ≠ .black) (par : Ref) :
    Returns (raiseNear par (.pair k.item.addr) f.side) t fun tmp t' =>
      tmp = .pair k.item.addr ∧ t' = t := by
  have h0 := h
  rw [← plug_flip_sib f] at h0
  have hnear : Shape t (plug (k :: f.flip s :: fs) near) := h0
  have hfar0 := hnear
  rw [← plug_flip] at hfar0
  obtain ⟨nf, hnf, hcolor, -⟩ := hfar0.exists_mem
  have hchild : (cell k (ctxRef (f.flip s :: fs)) (treeRef near)).child f.side.other =
      treeRef k.sib := by
    rw [← hk]
    exact cell_child_other k _ _
  rw [raiseNear, returns_bind, returns_load]
  refine ⟨_, hnear.cell_eq, ?_⟩
  rw [hchild, returns_bind, returns_load]
  refine ⟨nf, hnf, ?_⟩
  rw [hcolor, if_neg hfar]
  exact returns_pure.mpr ⟨rfl, rfl⟩

theorem Shape.borrow_returns (h : Shape t (plug (f :: fs) s)) (hkids : ¬f.sib.KidsBlack)
    (fuel : ℕ) :
    Returns (do
      let tmp ← raiseNear (.pair f.item.addr) (treeRef f.sib) f.side
      raiseFar (.pair f.item.addr) tmp f.side
      let t ← get
      adjustForDelete (fuel + 1) t.root (.pair f.item.addr)) t fun _ t' =>
        Reshaped t t' (plug (f :: fs) s) (borrow fs f s f.sib) := by
  obtain ⟨side, cf, e, sib⟩ := f
  cases sib with
  | nil => exact absurd ⟨rfl, rfl⟩ hkids
  | node c x l r =>
    have hfill := fill_frameAt side c x l r
    have hk : (RbTree.frameAt side c x l r).side = side := rfl
    have h0 : Shape t (plug (⟨side, cf, e, (RbTree.frameAt side c x l r).fill
        ((RbTree.node c x l r).kid side)⟩ :: fs) s) := by
      rw [hfill]
      exact h
    rw [returns_bind, borrow]
    by_cases hfar : (RbTree.frameAt side c x l r).sib.color = .black
    · have hred : ((RbTree.node c x l r).kid side).color = .red := RbTree.kid_red hkids hfar
      rw [if_pos hfar]
      cases hnear : (RbTree.node c x l r).kid side with
      | nil => exact absurd (hnear ▸ hred) (by simp)
      | node d y l' r' =>
        rw [hnear] at h0
        have hin := Shape.raiseNear_inner (f := ⟨side, cf, e, .nil⟩) h0 hk hfar
        rw [hnear] at hfill
        rw [hfill] at hin
        refine hin.mono ?_
        rintro - t1 ⟨rfl, hr1⟩
        have h1 := hr1.shape
        rw [← Frame.fill_flip] at h1 hr1
        have hend := Shape.raiseFar_returns (f := ⟨side, cf, e, .nil⟩) h1
          (Side.other_other side) fuel
        exact hend.mono fun _ t2 hr2 => hr1.trans hr2
    · rw [if_neg hfar]
      refine (Shape.raiseNear_outer (f := ⟨side, cf, e, .nil⟩) h0 hk hfar _).mono ?_
      rintro - _ ⟨rfl, rfl⟩
      have hend := Shape.raiseFar_returns (f := ⟨side, cf, e, .nil⟩) h0 hk fuel
      rw [hfill] at hend
      exact hend

theorem Shape.exists_kid {T : RbTree (Entry κ)} (h : Shape t (plug fs T)) (side : Side) :
    ∃ n, t.mem (treeRef (T.kid side)) = some n ∧ n.color = (T.kid side).color := by
  cases T with
  | nil =>
    obtain ⟨n, hn, hnil⟩ := h.xnil
    exact ⟨n, by cases side <;> exact hn, by cases side <;> exact hnil.color⟩
  | node c x l r =>
    have hkid : Shape t (plug (RbTree.frameAt side c x l r :: fs)
        ((RbTree.node c x l r).kid side)) := by
      rw [plug_cons, fill_frameAt]
      exact h
    obtain ⟨n, hn, hcolor, -⟩ := hkid.exists_mem
    exact ⟨n, hn, hcolor⟩

theorem Shape.settle_returns (h : Shape t (plug (f :: fs) s)) (R : RbTree (Entry κ)) (fuel : ℕ)
    (hup : f.sib.KidsBlack → ∀ t',
      Shape t' (plug fs (Frame.fill { f with sib := f.sib.paint .red } s)) →
      Returns (adjustForDelete (fuel + 1) (.pair f.item.addr) (ctxRef fs)) t' fun _ t'' =>
        Reshaped t' t'' (plug fs (Frame.fill { f with sib := f.sib.paint .red } s)) R)
    (hborrow : ¬f.sib.KidsBlack → borrow fs f s f.sib = R) :
    Returns (do
      let nt ← load (treeRef f.sib)
      let nl ← load nt.left
      let nr ← load nt.right
      if nl.color = .black ∧ nr.color = .black then
        setColorOf (treeRef f.sib) .red
        let np ← load (.pair f.item.addr)
        adjustForDelete (fuel + 1) (.pair f.item.addr) np.parent
      else
        let tmp ← raiseNear (.pair f.item.addr) (treeRef f.sib) f.side
        raiseFar (.pair f.item.addr) tmp f.side
        let t ← get
        adjustForDelete (fuel + 1) t.root (.pair f.item.addr)) t fun _ t' =>
          Reshaped t t' (plug (f :: fs) s) R := by
  have hsib : Shape t (plug (f.flip s :: fs) f.sib) := by
    rw [plug_flip]
    exact h
  obtain ⟨nt, hnt, -, hleft, hright⟩ := hsib.exists_mem
  obtain ⟨nl, hnl, hcl⟩ := hsib.exists_kid .left
  obtain ⟨nr, hnr, hcr⟩ := hsib.exists_kid .right
  rw [returns_bind, returns_load]
  refine ⟨nt, hnt, ?_⟩
  rw [hleft, hright, returns_bind, returns_load]
  refine ⟨nl, hnl, ?_⟩
  rw [returns_bind, returns_load]
  refine ⟨nr, hnr, ?_⟩
  rw [hcl, hcr]
  refine returns_ite (fun hkids => ?_) fun hkids => ?_
  · have hpaint : Returns (setColorOf (treeRef f.sib) .red) t fun _ t' =>
        Reshaped t t' (plug (f :: fs) s) (plug ({ f with sib := f.sib.paint .red } :: fs) s) := by
      refine returns_onlyIf (fun hne => ?_) fun hnil => ?_
      · have hset := hsib.setColor_returns (fun h0 => hne (treeRef_eq_xnil.mpr h0)) .red
        rw [plug_flip, plug_flip_sib] at hset
        exact hset
      · have hsame : f.sib.paint .red = f.sib := by
          rw [treeRef_eq_xnil.mp (not_not.mp hnil)]
          rfl
        rw [hsame]
        exact h.reshaped
    rw [returns_bind]
    refine hpaint.mono fun _ t1 hr1 => ?_
    rw [returns_bind, returns_load]
    refine ⟨_, hr1.shape.cell_eq, ?_⟩
    rw [cell_parent]
    exact (hup hkids t1 hr1.shape).mono fun _ t2 hr2 => hr1.trans hr2
  · rw [← hborrow hkids]
    exact h.borrow_returns hkids fuel

theorem Shape.adjustForDelete_returns (h : Shape t (plug fs s)) (hs : s ≠ .nil) {fuel : ℕ}
    (hfuel : fs.length + 1 < fuel) :
    Returns (adjustForDelete fuel (treeRef s) (ctxRef fs)) t fun _ t' =>
      Reshaped t t' (plug fs s) (deleteFix fs s) := by
  induction fuel generalizing t fs s with
  | zero => omega
  | succ fuel ih =>
    cases fs with
    | nil => exact h.adjustForDelete_stop hs (.inl rfl) fuel _
    | cons f fs =>
      simp only [List.length_cons] at hfuel
      by_cases hred : s.color = .red
      · rw [deleteFix, if_pos hred]
        exact h.adjustForDelete_stop hs (.inr hred) fuel _
      obtain ⟨fuel, rfl⟩ : ∃ k, fuel = k + 1 := ⟨fuel - 1, by omega⟩
      obtain ⟨n, hn, -, hcolor, -⟩ := h.exists_node hs
      have hcond : treeRef s ≠ t.root ∧ n.color = .black :=
        ⟨h.ne_root (by simp), hcolor.trans (Color.eq_black_of_ne_red hred)⟩
      have hnear : (if treeRef s = (cell f (ctxRef fs) (treeRef s)).left then Side.left
          else Side.right) = f.side := by
        have hiff : treeRef s = (cell f (ctxRef fs) (treeRef s)).left ↔ f.side = .left :=
          eq_comm.trans (h.left_eq_iff hs)
        cases hside : f.side <;> simp [hiff, hside]
      rw [adjustForDelete, returns_bind, returns_get, returns_bind, returns_load]
      refine ⟨n, hn, ?_⟩
      rw [if_pos hcond, returns_bind, returns_load]
      refine ⟨_, h.cell_eq, ?_⟩
      simp only [hnear, cell_child_other]
      rw [returns_bind, deleteFix, if_neg hred]
      by_cases hsib : f.sib.color = .red
      · rw [if_pos hsib]
        cases hx : f.sib with
        | nil => exact absurd (hx ▸ hsib) (by simp)
        | node c x l r =>
          obtain rfl : c = .red := by simpa [hx] using hsib
          have hraise := h.raiseRed_red hx
          rw [hx] at hraise
          refine hraise.mono ?_
          rintro - t1 ⟨rfl, hr1⟩
          refine (hr1.shape.settle_returns (siblingRed fs f s (.node .red x l r)) fuel
            (fun hkids t' h' => ?_) fun hkids => ?_).mono fun _ t2 hr2 => hr1.trans hr2
          · have hstop := h'.adjustForDelete_stop (Frame.fill_ne_nil _ _)
              (.inr (Frame.color_fill _ _)) fuel
              (ctxRef ((RbTree.frameAt f.side .red x l r).paint .black :: fs))
            rw [siblingRed, if_pos hkids]
            rw [treeRef_fill, ← Frame.fill_paint] at hstop
            rw [← Frame.fill_paint]
            exact hstop
          · rw [siblingRed, if_neg hkids]
      · rw [if_neg hsib]
        refine (h.raiseRed_black hsib _).mono ?_
        rintro - _ ⟨rfl, rfl⟩
        refine h.settle_returns _ fuel (fun hkids t' h' => ?_) fun hkids => ?_
        · rw [if_pos hkids]
          have hup := ih h' (Frame.fill_ne_nil _ _) (by omega)
          rw [treeRef_fill] at hup
          exact hup
        · rw [if_neg hkids]

end Qse.Rbt
