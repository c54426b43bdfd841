import Qse.Support.ColorTree

/-!
# Repairing a red-black tree after an insertion or a removal

The two repair loops of a red-black tree over a tree with a hole. `insertFix` starts from a red
subtree that may sit below a red node, `deleteFix` from a subtree whose paths may lack a black node.
-/

namespace ColorTree

variable {α : Type}

def RootBlack (fs : List (Frame α)) : Prop := rootColor fs .black = .black

variable {fs : List (Frame α)} {f g k : Frame α} {c : Color} {t s : RbTree α} {n : ℕ}

theorem RootBlack.rootColor_eq (h : RootBlack fs) (hne : fs ≠ [])
    (c : Color) : rootColor fs c = .black :=
  (rootColor_congr hne c .black).trans h

theorem RootBlack.tail (h : RootBlack (f :: fs)) : RootBlack fs := by
  by_cases hne : fs = []
  · rw [hne]
    rfl
  · exact (rootColor_congr hne .black f.color).trans h

theorem Color.eq_black_of_ne_red (h : c ≠ .red) : c = .black := by
  cases c with
  | red => exact absurd rfl h
  | black => rfl

theorem Color.eq_red_of_ne_black (h : c ≠ .black) : c = .red := by
  cases c with
  | red => rfl
  | black => exact absurd rfl h

@[simp] theorem Frame.color_paint (c : Color) (f : Frame α) : (f.paint c).color = c := rfl

theorem Frame.paint_black_ne_red (f : Frame α) : (f.paint .black).color ≠ .red := by
  simp

theorem RbTree.NoRedRed.kid (h : t.NoRedRed) (s : Side) : (t.kid s).NoRedRed := by
  cases t with
  | nil => cases s <;> trivial
  | node c x l r =>
    obtain ⟨-, hl, hr⟩ := h
    cases s
    · exact hl
    · exact hr

theorem RbTree.NoRedRed.kid_black (h : t.NoRedRed) (hred : t.color = .red)
    (s : Side) : (t.kid s).color = .black := by
  cases t with
  | nil => cases s <;> rfl
  | node c x l r =>
    obtain ⟨hl, hr⟩ := h.1 hred
    cases s
    · exact hl
    · exact hr

/-! ## After an insertion -/

/-- The frame `f` lies on the same side as its parent `g`. Paint `f` black and
`g` red, and rotate at `g`. -/
def hoist (fs : List (Frame α)) (g f : Frame α) (s : RbTree α) : RbTree α :=
  plug (g.paint .red :: (f.flip s).paint .black :: fs) f.sib

/-- The frame `f` lies on the other side of its parent `g`. Rotate at `f`
first, so that the node in the hole takes its place. -/
def hoistInner (fs : List (Frame α)) (g f : Frame α) : RbTree α → RbTree α
  | .nil => plug (f :: g :: fs) .nil
  | .node c x l r =>
    hoist fs g (RbTree.frameAt g.side c x l r) (f.fill ((RbTree.node c x l r).kid g.side))

def insertFix : List (Frame α) → RbTree α → RbTree α
  | [], s => s
  | [f], s => f.fill s
  | f :: g :: fs, s =>
    if f.color = .black then plug (f :: g :: fs) s
    else if g.sib.color = .red then
      insertFix fs (Frame.fill { g with color := .red, sib := g.sib.paint .black }
        ((f.paint .black).fill s))
    else if f.side = g.side then hoist fs g f s
    else hoistInner fs g f s

theorem items_hoist (fs : List (Frame α)) (h : f.side = g.side) (s : RbTree α) :
    (hoist fs g f s).items = (plug (f :: g :: fs) s).items := by
  have hside : g.side = (f.flip s).side.other := by
    simp [Frame.flip, h]
  refine items_plug_congr fs ?_
  calc (((f.flip s).paint .black).fill ((g.paint .red).fill f.sib)).items
      = ((f.flip s).fill (g.fill f.sib)).items := by
        simp only [Frame.items_fill, Frame.before, Frame.after, Frame.paint]
    _ = (g.fill ((f.flip s).fill f.sib)).items := items_rotate hside f.sib
    _ = (g.fill (f.fill s)).items := by rw [Frame.fill_flip]

theorem items_hoistInner (fs : List (Frame α)) (h : f.side = g.side.other)
    (s : RbTree α) : (hoistInner fs g f s).items = (plug (f :: g :: fs) s).items := by
  cases s with
  | nil => rfl
  | node c x l r =>
    have hframe : (RbTree.frameAt g.side c x l r).side = g.side := rfl
    rw [hoistInner, items_hoist fs hframe]
    refine items_plug_congr (g :: fs) ?_
    conv_rhs => rw [← fill_frameAt g.side c x l r]
    have hrot : f.side = (RbTree.frameAt g.side c x l r).side.other := h
    exact items_rotate hrot _

theorem items_insertFix (fs : List (Frame α)) (s : RbTree α) :
    (insertFix fs s).items = (plug fs s).items := by
  induction fs, s using insertFix.induct with
  | case1 s => rfl
  | case2 f s => rfl
  | case3 f g fs s hf => rw [insertFix, if_pos hf]
  | case4 f g fs s hf hg ih =>
    rw [insertFix, if_neg hf, if_pos hg, ih]
    refine items_plug_congr fs ?_
    simp [Frame.before, Frame.after, Frame.paint]
  | case5 f g fs s hf hg hside =>
    rw [insertFix, if_neg hf, if_neg hg, if_pos hside]
    exact items_hoist fs hside s
  | case6 f g fs s hf hg hside =>
    rw [insertFix, if_neg hf, if_neg hg, if_neg hside]
    exact items_hoistInner fs ((f.side.eq_or_eq_other g.side).resolve_left hside) s

theorem hoist_noRedRed (hs : s.NoRedRed) (hf : f.sib.NoRedRed) (hg : g.sib.NoRedRed)
    (hfb : f.sib.color = .black) (hgb : g.sib.color = .black) (hfs : NoRedRedAt fs .black) :
    (hoist fs g f s).NoRedRed := by
  rw [hoist, noRedRed_plug]
  exact ⟨hf, fun _ => ⟨hfb, hgb⟩, hg, fun h => absurd h (Frame.paint_black_ne_red _), hs, hfs⟩

theorem hoist_hasHeight (hf : f.color = .red) (hg : g.color = .black) :
    (hoist fs g f s).HasHeight n ↔ (plug (f :: g :: fs) s).HasHeight n := by
  rw [hoist, hasHeight_plug, hasHeight_plug]
  simp only [HasHeightAt, Frame.paint, Frame.flip, Color.weight, hf, hg, Nat.zero_add]
  constructor
  · rintro ⟨m, h1, h2, h3, h4⟩
    exact ⟨m, h3, h1, h2, h4⟩
  · rintro ⟨m, h1, h2, h3, h4⟩
    exact ⟨m, h2, h3, h1, h4⟩

theorem NoRedRedAt.parent_black (h : NoRedRedAt (f :: g :: fs) c)
    (hf : f.color = .red) : g.color = .black := by
  obtain ⟨-, -, hg, -, -⟩ := h
  by_contra hne
  have hred := (hg (Color.eq_red_of_ne_black hne)).1
  rw [hf] at hred
  exact absurd hred (by decide)

theorem insertFix_noRedRed (fs : List (Frame α)) (s : RbTree α) (hred : s.color = .red)
    (hs : s.NoRedRed) (hfs : NoRedRedAt fs .black) : ((insertFix fs s).paint .black).NoRedRed := by
  induction fs, s using insertFix.induct with
  | case1 s => exact hs.paint_black
  | case2 f s =>
    rw [insertFix, ← Frame.fill_paint, Frame.noRedRed_fill]
    exact ⟨fun h => absurd h f.paint_black_ne_red, hfs.2.1, hs⟩
  | case3 f g fs s hf =>
    rw [insertFix, if_pos hf]
    refine RbTree.NoRedRed.paint_black ((noRedRed_plug _ s).mpr ⟨hs, ?_⟩)
    exact ⟨fun h => absurd (hf.symm.trans h) (by decide), hfs.2⟩
  | case4 f g fs s hf hg ih =>
    rw [insertFix, if_neg hf, if_pos hg]
    obtain ⟨-, hfsib, -, hgsib, hrest⟩ := hfs
    refine ih (Frame.color_fill _ _) ?_ hrest.black
    have hinner : ((f.paint .black).fill s).NoRedRed := by
      rw [Frame.noRedRed_fill]
      exact ⟨fun h => absurd h f.paint_black_ne_red, hfsib, hs⟩
    rw [Frame.noRedRed_fill]
    refine ⟨fun _ => ⟨Frame.color_fill _ _, ?_⟩, hgsib.paint_black, hinner⟩
    cases g.sib <;> rfl
  | case5 f g fs s hf hg hside =>
    rw [insertFix, if_neg hf, if_neg hg, if_pos hside]
    obtain ⟨hf', hfsib, -, hgsib, hrest⟩ := hfs
    exact (hoist_noRedRed hs hfsib hgsib (hf' (Color.eq_red_of_ne_black hf)).2
      (Color.eq_black_of_ne_red hg) hrest.black).paint_black
  | case6 f g fs s hf hg hside =>
    rw [insertFix, if_neg hf, if_neg hg, if_neg hside]
    obtain ⟨hf', hfsib, -, hgsib, hrest⟩ := hfs
    have hfsb := (hf' (Color.eq_red_of_ne_black hf)).2
    cases s with
    | nil => exact absurd hred (by simp)
    | node c x l r =>
      have hnear : (f.fill ((RbTree.node c x l r).kid g.side)).NoRedRed := by
        rw [Frame.noRedRed_fill]
        exact ⟨fun _ => ⟨hs.kid_black hred g.side, hfsb⟩, hfsib, hs.kid g.side⟩
      exact (hoist_noRedRed hnear (hs.kid g.side.other) hgsib (hs.kid_black hred _)
        (Color.eq_black_of_ne_red hg) hrest.black).paint_black

theorem hasHeight_plug_congr (h : ∀ m, s.HasHeight m ↔ t.HasHeight m) :
    (plug fs s).HasHeight n ↔ (plug fs t).HasHeight n := by
  simp only [hasHeight_plug, h]

theorem RbTree.hasHeight_paint_black (hred : t.color = .red) :
    (t.paint .black).HasHeight n ↔ ∃ m, n = 1 + m ∧ t.HasHeight m := by
  cases t with
  | nil => exact absurd hred (by simp)
  | node c x l r =>
    cases hred
    simp [paint, hasHeight_node, Color.weight]

theorem insertFix_hasHeight (fs : List (Frame α)) (s : RbTree α) (hred : s.color = .red)
    (hfs : NoRedRedAt fs .black) (n : ℕ) :
    (insertFix fs s).HasHeight n ↔ (plug fs s).HasHeight n := by
  induction fs, s using insertFix.induct with
  | case1 s | case2 f s => exact Iff.rfl
  | case3 f g fs s hf => rw [insertFix, if_pos hf]
  | case4 f g fs s hf hg ih =>
    rw [insertFix, if_neg hf, if_pos hg]
    have hfr := Color.eq_red_of_ne_black hf
    have hgb := hfs.parent_black hfr
    rw [ih (Frame.color_fill _ _) hfs.2.2.2.2.black]
    refine hasHeight_plug_congr fun m => ?_
    simp only [Frame.hasHeight_fill, RbTree.hasHeight_paint_black hg, Frame.paint, Color.weight,
      hfr, hgb, Nat.zero_add]
    constructor
    · rintro ⟨_, rfl, ⟨k, rfl, hgsib⟩, j, hj, hfsib, hs⟩
      obtain rfl : j = k := by omega
      exact ⟨j, rfl, hgsib, j, rfl, hfsib, hs⟩
    · rintro ⟨k, rfl, hgsib, j, rfl, hfsib, hs⟩
      exact ⟨1 + k, rfl, ⟨k, rfl, hgsib⟩, k, rfl, hfsib, hs⟩
  | case5 f g fs s hf hg hside =>
    rw [insertFix, if_neg hf, if_neg hg, if_pos hside]
    have hfr := Color.eq_red_of_ne_black hf
    exact hoist_hasHeight hfr (hfs.parent_black hfr)
  | case6 f g fs s hf hg hside =>
    rw [insertFix, if_neg hf, if_neg hg, if_neg hside]
    have hfr := Color.eq_red_of_ne_black hf
    have hgb := hfs.parent_black hfr
    cases s with
    | nil => exact absurd hred (by simp)
    | node c x l r =>
      have hx : (RbTree.frameAt g.side c x l r).color = .red := hred
      rw [hoistInner, hoist_hasHeight hx hgb]
      rw [plug_cons, plug_cons f]
      refine hasHeight_plug_congr fun m => ?_
      conv_rhs => rw [← fill_frameAt g.side c x l r]
      simp only [Frame.hasHeight_fill, hx, hfr, Color.weight, Nat.zero_add]
      constructor
      · rintro ⟨_, rfl, hx', _, rfl, hfsib, hs⟩
        exact ⟨_, rfl, hfsib, _, rfl, hx', hs⟩
      · rintro ⟨_, rfl, hfsib, _, rfl, hx', hs⟩
        exact ⟨_, rfl, hx', _, rfl, hfsib, hs⟩

/-! ## After a removal -/

/-- The sibling subtree `k.fill near` has a red child away from the hole.
Rotate the sibling above `f` and take its place in colour. -/
def borrowOuter (fs : List (Frame α)) (f k : Frame α) (near s : RbTree α) : RbTree α :=
  (plug ((f.flip s).paint .black ::
    { k with color := f.color, sib := k.sib.paint .black } :: fs) near).paint .black

/-- Only the child next to the hole is red: rotate it above its parent `k`
first. -/
def borrowInner (fs : List (Frame α)) (f k : Frame α) (s : RbTree α) : RbTree α → RbTree α
  | .nil => plug ({ f with sib := k.fill .nil } :: fs) s
  | .node c y l r =>
    let h := (RbTree.frameAt f.side.other c y l r).paint .black
    borrowOuter fs f
      (h.flip ((k.paint .red).fill ((RbTree.node c y l r).kid f.side.other))) h.sib s

def borrow (fs : List (Frame α)) (f : Frame α) (s : RbTree α) : RbTree α → RbTree α
  | .nil => plug (f :: fs) s
  | .node c x l r =>
    let k := RbTree.frameAt f.side c x l r
    let near := (RbTree.node c x l r).kid f.side
    if k.sib.color = .black then borrowInner fs f k s near
    else borrowOuter fs f k near s

def RbTree.KidsBlack (t : RbTree α) : Prop :=
  (t.kid .left).color = .black ∧ (t.kid .right).color = .black

instance (t : RbTree α) : Decidable t.KidsBlack :=
  inferInstanceAs (Decidable (_ ∧ _))

/-- The sibling of the hole below `f` is red: rotate it above `f`, which turns
red and gets a black sibling. -/
def siblingRed (fs : List (Frame α)) (f : Frame α) (s : RbTree α) : RbTree α → RbTree α
  | .nil => plug (f :: fs) s
  | .node c x l r =>
    let k := (RbTree.frameAt f.side c x l r).paint .black
    let near := (RbTree.node c x l r).kid f.side
    if near.KidsBlack then
      plug (k :: fs) ((Frame.fill { f with sib := near.paint .red } s).paint .black)
    else borrow (k :: fs) { f with color := .red, sib := near } s near

@[grind =] def deleteFix : List (Frame α) → RbTree α → RbTree α
  | [], s => s.paint .black
  | f :: fs, s =>
    if s.color = .red then plug (f :: fs) (s.paint .black)
    else if f.sib.color = .red then siblingRed fs f s f.sib
    else if f.sib.KidsBlack then deleteFix fs (Frame.fill { f with sib := f.sib.paint .red } s)
    else borrow fs f s f.sib

theorem items_raiseSibling (h : k.side = f.side) (near s : RbTree α) :
    (k.fill (Frame.fill { f with sib := near } s)).items =
      (Frame.fill { f with sib := k.fill near } s).items := by
  have hside : k.side = (f.flip s).side.other := by
    simp [Frame.flip, h]
  rw [← f.flip_fill s near, ← f.flip_fill s (k.fill near), items_rotate hside]

theorem items_borrowOuter (fs : List (Frame α)) (h : k.side = f.side) (near s : RbTree α) :
    (borrowOuter fs f k near s).items =
      (plug fs (Frame.fill { f with sib := k.fill near } s)).items := by
  rw [borrowOuter, RbTree.items_paint]
  refine items_plug_congr fs ?_
  rw [← items_raiseSibling h, ← f.flip_fill s near]
  refine k.items_fill_congr ?_ (k.sib.items_paint .black)
  rw [Frame.fill_paint, RbTree.items_paint]

theorem items_borrowInner (fs : List (Frame α)) (h : k.side = f.side) (near s : RbTree α) :
    (borrowInner fs f k s near).items =
      (plug fs (Frame.fill { f with sib := k.fill near } s)).items := by
  cases near with
  | nil => rfl
  | node c y l r =>
    have hy : (RbTree.frameAt f.side.other c y l r).side = k.side.other := by
      rw [h]
      rfl
    rw [borrowInner, items_borrowOuter fs (by simp [Frame.flip, RbTree.frameAt, Frame.paint])]
    refine items_plug_congr fs (f.items_fill_congr rfl ?_)
    rw [Frame.fill_flip]
    conv_rhs => rw [← fill_frameAt f.side.other c y l r]
    rw [items_rotate hy]
    simp only [Frame.items_fill, Frame.before, Frame.after, Frame.paint]

theorem items_borrow (fs : List (Frame α)) (f : Frame α) (s : RbTree α) :
    (borrow fs f s f.sib).items = (plug (f :: fs) s).items := by
  obtain ⟨side, c', x', sib⟩ := f
  cases sib with
  | nil => rfl
  | node c x l r =>
    have hk : (RbTree.frameAt side c x l r).side = side := rfl
    have hsib := fill_frameAt side c x l r
    rw [borrow]
    split
    · rw [items_borrowInner fs hk, hsib]
      rfl
    · rw [items_borrowOuter fs hk, hsib]
      rfl

theorem items_siblingRed (fs : List (Frame α)) (f : Frame α) (s : RbTree α) :
    (siblingRed fs f s f.sib).items = (plug (f :: fs) s).items := by
  obtain ⟨side, c', x', sib⟩ := f
  cases sib with
  | nil => rfl
  | node c x l r =>
    have hk : (RbTree.frameAt side c x l r).side = side := rfl
    have hraise := items_raiseSibling (f := ⟨side, c', x', (RbTree.node c x l r)⟩) hk
      ((RbTree.node c x l r).kid side) s
    rw [fill_frameAt] at hraise
    rw [siblingRed]
    split
    · rw [plug_cons, plug_cons]
      refine items_plug_congr fs (Eq.trans ?_ hraise)
      refine Frame.items_fill_congr _ ?_ rfl
      rw [RbTree.items_paint]
      exact Frame.items_fill_congr _ rfl (RbTree.items_paint _ _)
    · rw [items_borrow (_ :: fs) ⟨side, .red, x', _⟩, plug_cons, plug_cons, plug_cons]
      refine items_plug_congr fs (Eq.trans ?_ hraise)
      exact Frame.items_fill_congr _ (Frame.items_fill_congr ⟨side, c', x', .nil⟩ rfl rfl) rfl

theorem items_deleteFix (fs : List (Frame α)) (s : RbTree α) :
    (deleteFix fs s).items = (plug fs s).items := by
  induction fs generalizing s with
  | nil => exact s.items_paint .black
  | cons f fs ih =>
    rw [deleteFix]
    split
    · exact items_plug_congr _ (s.items_paint .black)
    split
    · exact items_siblingRed fs f s
    split
    · rw [ih]
      exact items_plug_congr fs (f.items_fill_congr rfl (f.sib.items_paint .red))
    · exact items_borrow fs f s

theorem RbTree.color_paint_black (t : RbTree α) : (t.paint .black).color = .black := by
  cases t <;> rfl

theorem borrow_color (h : RootBlack (f :: fs))
    (s t : RbTree α) : (borrow fs f s t).color = .black := by
  cases t with
  | nil => exact (color_plug _ _).trans h
  | node c x l r =>
    rw [borrow]
    split
    · cases (RbTree.node c x l r).kid f.side with
      | nil => exact (color_plug _ _).trans h
      | node d y l' r' => exact RbTree.color_paint_black _
    · exact RbTree.color_paint_black _

theorem siblingRed_color (h : RootBlack (f :: fs))
    (s t : RbTree α) : (siblingRed fs f s t).color = .black := by
  cases t with
  | nil => exact (color_plug _ _).trans h
  | node c x l r =>
    rw [siblingRed]
    split
    · exact (color_plug _ _).trans h.tail
    · refine borrow_color ?_ s _
      exact h.tail

theorem deleteFix_color (h : RootBlack fs) (s : RbTree α) : (deleteFix fs s).color = .black := by
  induction fs generalizing s with
  | nil => exact s.color_paint_black
  | cons f fs ih =>
    rw [deleteFix]
    split
    · exact (color_plug _ _).trans h
    split
    · exact siblingRed_color h s _
    split
    · exact ih h.tail _
    · exact borrow_color h s _

theorem RbTree.KidsBlack.noRedRed_paint (hk : t.KidsBlack) (h : t.NoRedRed)
    (c : Color) : (t.paint c).NoRedRed := by
  cases t with
  | nil => trivial
  | node d x l r => exact ⟨fun _ => hk, h.2⟩

theorem RbTree.NoRedRed.of_paint (h : (t.paint .black).NoRedRed)
    (hred : t.color ≠ .red) : t.NoRedRed := by
  cases t with
  | nil => trivial
  | node c x l r => exact ⟨fun hc => absurd hc hred, h.2⟩

theorem RbTree.NoRedRed.fill_black (hf : f.sib.NoRedRed)
    (ht : t.NoRedRed) : ((f.fill t).paint .black).NoRedRed := by
  rw [← Frame.fill_paint, Frame.noRedRed_fill]
  exact ⟨fun h => absurd h f.paint_black_ne_red, hf, ht⟩

theorem borrowOuter_noRedRed {near : RbTree α} (hk : (k.sib.paint .black).NoRedRed)
    (hnear : near.NoRedRed) (hs : s.NoRedRed)
    (hfs : NoRedRedAt fs f.color) : (borrowOuter fs f k near s).NoRedRed := by
  refine RbTree.NoRedRed.paint_black ((noRedRed_plug _ near).mpr ⟨hnear, ?_⟩)
  exact ⟨fun h => absurd h (Frame.paint_black_ne_red _), hs,
    fun _ => ⟨rfl, RbTree.color_paint_black _⟩, hk, hfs⟩

theorem RbTree.kid_red {s : Side} (hk : ¬t.KidsBlack)
    (hfar : (t.kid s.other).color = .black) : (t.kid s).color = .red := by
  refine Color.eq_red_of_ne_black fun hnear => hk ?_
  cases s
  · exact ⟨hnear, hfar⟩
  · exact ⟨hfar, hnear⟩

theorem borrow_noRedRed (ht : t.NoRedRed) (hk : ¬t.KidsBlack) (hs : s.NoRedRed)
    (hfs : NoRedRedAt fs f.color) :
    (borrow fs f s t).NoRedRed := by
  cases t with
  | nil => exact absurd ⟨rfl, rfl⟩ hk
  | node c x l r =>
    rw [borrow]
    split
    · rename_i hfar
      have hred : ((RbTree.node c x l r).kid f.side).color = .red := RbTree.kid_red hk hfar
      have hnear := ht.kid f.side
      have hsib : (RbTree.frameAt f.side c x l r).sib.NoRedRed := ht.kid f.side.other
      cases hy : (RbTree.node c x l r).kid f.side with
      | nil => exact absurd (hy ▸ hred) (by simp)
      | node d y l' r' =>
        rw [hy] at hred hnear
        have hinner := RbTree.NoRedRed.fill_black
          (f := (RbTree.frameAt f.side c x l r).paint .red) hsib (hnear.kid f.side.other)
        refine borrowOuter_noRedRed hinner ?_ hs hfs
        simpa [Frame.paint, RbTree.frameAt] using hnear.kid f.side
    · exact borrowOuter_noRedRed (ht.kid f.side.other).paint_black (ht.kid f.side) hs hfs

theorem siblingRed_noRedRed (hsib : f.sib.NoRedRed) (hred : f.sib.color = .red) (hs : s.NoRedRed)
    (hfs : NoRedRedAt fs .black) : (siblingRed fs f s f.sib).NoRedRed := by
  cases hx : f.sib with
  | nil => exact absurd (hx ▸ hred) (by simp)
  | node c x l r =>
    rw [hx] at hsib
    have hk : NoRedRedAt ((RbTree.frameAt f.side c x l r).paint .black :: fs) .red :=
      ⟨fun h => absurd h (Frame.paint_black_ne_red _), hsib.kid f.side.other, hfs⟩
    rw [siblingRed]
    split
    · rename_i hkids
      refine (noRedRed_plug _ _).mpr ⟨?_, fun h => absurd h (Frame.paint_black_ne_red _), hk.2⟩
      exact RbTree.NoRedRed.fill_black (hkids.noRedRed_paint (hsib.kid f.side) .red) hs
    · rename_i hkids
      exact borrow_noRedRed (hsib.kid f.side) hkids hs hk

theorem deleteFix_noRedRed (hs : (s.paint .black).NoRedRed)
    (hfs : NoRedRedAt fs .black) : (deleteFix fs s).NoRedRed := by
  induction fs generalizing s with
  | nil => exact hs
  | cons f fs ih =>
    rw [deleteFix]
    obtain ⟨hf, hsib, hrest⟩ := hfs
    split
    · refine (noRedRed_plug _ _).mpr ⟨hs, ?_⟩
      rw [RbTree.color_paint_black]
      exact ⟨hf, hsib, hrest⟩
    rename_i hsb
    have hs' := hs.of_paint hsb
    split
    · rename_i hred
      exact siblingRed_noRedRed hsib hred hs' hrest.black
    split
    · rename_i hkids
      refine ih ?_ hrest.black
      exact RbTree.NoRedRed.fill_black (hkids.noRedRed_paint hsib .red) hs'
    · rename_i hkids
      exact borrow_noRedRed hsib hkids hs' hrest

end ColorTree
