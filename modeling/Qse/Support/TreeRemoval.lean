import Qse.Support.RedBlackRepair

/-!
# Taking a node out of a red-black tree

A node with at most one child is taken out by putting the child in its place (`spliceOut`); a node
with two children gives up its place to the leftmost node below its right child (`takenOut`).
-/

open List

namespace ColorTree

variable {α : Type}

def leftmost : List (Frame α) → RbTree α → List (Frame α) × RbTree α
  | fs, .nil => (fs, .nil)
  | fs, .node c x .nil r => (fs, .node c x .nil r)
  | fs, .node c x (.node c' x' l' r') r =>
    leftmost (⟨.left, c, x, r⟩ :: fs) (.node c' x' l' r')

def takenOut (fs : List (Frame α)) : RbTree α → List (Frame α) × RbTree α
  | .nil => (fs, .nil)
  | .node c x .nil r => (fs, .node c x .nil r)
  | .node c x l .nil => (fs, .node c x l .nil)
  | .node c x l r => leftmost (⟨.right, c, x, l⟩ :: fs) r

def RbTree.onlyChild : RbTree α → RbTree α
  | nil => nil
  | node _ _ nil r => r
  | node _ _ l _ => l

def RbTree.HasGap : RbTree α → Prop
  | nil => False
  | node _ _ l r => l = nil ∨ r = nil

/-- The tree without the node `y` below `fs`. -/
@[grind =] def spliceOut (fs : List (Frame α)) (y : RbTree α) : RbTree α :=
  match y.onlyChild with
  | .nil => plug fs .nil
  | .node c x l r =>
    if y.color = .black then deleteFix fs (.node c x l r) else plug fs (.node c x l r)

def LosesBlack (fs : List (Frame α)) (y : RbTree α) : Prop :=
  fs ≠ [] ∧ ∃ x, y = .node .black x .nil .nil

theorem plug_leftmost (fs : List (Frame α)) (s : RbTree α) :
    plug (leftmost fs s).1 (leftmost fs s).2 = plug fs s := by
  induction fs, s using leftmost.induct with
  | case1 fs => rfl
  | case2 fs c x r => rfl
  | case3 fs c x r c' x' l' r' ih => exact ih

theorem leftmost_before (fs : List (Frame α)) (s : RbTree α) :
    itemsBefore (leftmost fs s).1 = itemsBefore fs := by
  induction fs, s using leftmost.induct with
  | case1 fs => rfl
  | case2 fs c x r => rfl
  | case3 fs c x r c' x' l' r' ih =>
    refine ih.trans ?_
    simp [itemsBefore, Frame.before]

variable {s r l y : RbTree α} {gs fs : List (Frame α)} {c : Color} {x : α}

theorem leftmost_node (fs : List (Frame α)) (hs : s ≠ .nil) :
    ∃ c x r, (leftmost fs s).2 = .node c x .nil r := by
  induction fs, s using leftmost.induct with
  | case1 fs => exact absurd rfl hs
  | case2 fs c x r => exact ⟨c, x, r, rfl⟩
  | case3 fs c x r c' x' l' r' ih => exact ih (by simp)

theorem leftmost_items (fs : List (Frame α)) (s : RbTree α)
    (h : leftmost fs s = (gs, .node c x .nil r)) :
    s.items ++ itemsAfter fs = x :: (r.items ++ itemsAfter gs) := by
  have hplug := congrArg RbTree.items (plug_leftmost fs s)
  have hbefore := leftmost_before fs s
  rw [h] at hplug hbefore
  rw [items_plug, items_plug, hbefore, append_assoc, append_assoc] at hplug
  exact (append_cancel_left hplug).symm

theorem takenOut_gap (fs : List (Frame α)) (h : s.HasGap) : takenOut fs s = (fs, s) := by
  match s, h with
  | .node c x .nil r, _ => rfl
  | .node c x (.node _ _ _ _) .nil, _ => rfl

theorem takenOut_full (fs : List (Frame α)) (hl : l ≠ .nil) (hr : r ≠ .nil) :
    takenOut fs (.node c x l r) = leftmost (⟨.right, c, x, l⟩ :: fs) r := by
  match l, r with
  | .nil, _ => exact absurd rfl hl
  | .node _ _ _ _, .nil => exact absurd rfl hr
  | .node _ _ _ _, .node _ _ _ _ => rfl

theorem plug_takenOut (fs : List (Frame α)) (s : RbTree α) :
    plug (takenOut fs s).1 (takenOut fs s).2 = plug fs s := by
  by_cases hgap : s.HasGap
  · rw [takenOut_gap fs hgap]
  match s with
  | .nil => rfl
  | .node c x l r =>
    rw [RbTree.HasGap, not_or] at hgap
    rw [takenOut_full fs hgap.1 hgap.2, plug_leftmost]
    rfl

theorem takenOut_hasGap (fs : List (Frame α)) (hs : s ≠ .nil) : (takenOut fs s).2.HasGap := by
  by_cases hgap : s.HasGap
  · rw [takenOut_gap fs hgap]
    exact hgap
  match s with
  | .nil => exact absurd rfl hs
  | .node c x l r =>
    rw [RbTree.HasGap, not_or] at hgap
    rw [takenOut_full fs hgap.1 hgap.2]
    obtain ⟨c', x', r', heq⟩ := leftmost_node (⟨.right, c, x, l⟩ :: fs) hgap.2
    rw [heq]
    exact .inl rfl

theorem RbTree.HasGap.items (h : (node c x l r).HasGap) :
    (node c x l r).onlyChild.items = l.items ++ r.items := by
  match l, r, h with
  | nil, r, _ => rfl
  | node _ _ _ _, nil, _ => exact (append_nil _).symm

theorem RbTree.NoRedRed.onlyChild (hy : y.NoRedRed) : y.onlyChild.NoRedRed := by
  match y with
  | nil => trivial
  | node c x nil r => exact hy.2.2
  | node c x (node _ _ _ _) r => exact hy.2.1

theorem RbTree.NoRedRed.onlyChild_black (hy : y.NoRedRed) (hred : y.color = .red) :
    y.onlyChild.color = .black := by
  match y with
  | nil => rfl
  | node c x nil r => exact (hy.1 hred).2
  | node c x (node _ _ _ _) r => exact (hy.1 hred).1

theorem items_spliceOut (fs : List (Frame α)) (y : RbTree α) :
    (spliceOut fs y).items = (plug fs y.onlyChild).items := by
  rw [spliceOut]
  cases y.onlyChild with
  | nil => rfl
  | node c x l r =>
    simp only
    split
    · exact items_deleteFix fs _
    · rfl

theorem spliceOut_noRedRed (h : (plug fs y).NoRedRed) : (spliceOut fs y).NoRedRed := by
  obtain ⟨hy, hfs⟩ := (noRedRed_plug fs y).mp h
  have hchild := hy.onlyChild
  have hblack := hy.onlyChild_black
  rw [spliceOut]
  cases hx : y.onlyChild with
  | nil => exact (noRedRed_plug fs _).mpr ⟨trivial, hfs.black⟩
  | node c x l r =>
    rw [hx] at hchild hblack
    simp only
    split
    · exact deleteFix_noRedRed hchild.paint_black hfs.black
    · rename_i hne
      have hc : (RbTree.node c x l r).color = .black := hblack (Color.eq_red_of_ne_black hne)
      exact (noRedRed_plug fs _).mpr ⟨hchild, hc ▸ hfs.black⟩

theorem rootBlack_of_plug {t : RbTree α} (h : (plug fs t).color = .black) : RootBlack fs := by
  by_cases hne : fs = []
  · rw [hne]
    rfl
  · rw [color_plug] at h
    exact (rootColor_congr hne _ _).trans h

theorem spliceOut_color (h : (plug fs y).color = .black) : (spliceOut fs y).color = .black := by
  have hroot := rootBlack_of_plug h
  have hplug (t : RbTree α) (ht : fs = [] → t.color = .black) : (plug fs t).color = .black := by
    rw [color_plug]
    by_cases hne : fs = []
    · rw [hne]
      exact ht hne
    · exact hroot.rootColor_eq hne _
  rw [spliceOut]
  cases y.onlyChild with
  | nil => exact hplug _ fun _ => rfl
  | node c x l r =>
    simp only
    split
    · exact deleteFix_color hroot _
    · rename_i hred
      refine hplug _ fun hnil => ?_
      rw [hnil] at h
      exact absurd h hred

theorem deleteFix_red (fs : List (Frame α)) (h : s.color = .red) :
    deleteFix fs s = plug fs (s.paint .black) := by
  cases fs with
  | nil => rfl
  | cons f fs => rw [deleteFix, if_pos h]

theorem RbTree.HasGap.heights (hgap : y.HasGap) {m : ℕ} (h : y.HasHeight m) :
    m = y.color.weight ∧ y.onlyChild.HasHeight 0 := by
  cases y with
  | nil => exact absurd hgap id
  | node c x l r =>
    obtain ⟨k, hm, hl, hr⟩ := hasHeight_node.mp h
    have hk : k = 0 := by
      rcases hgap with hnil | hnil
      · rw [hnil] at hl
        exact hasHeight_nil.mp hl
      · rw [hnil] at hr
        exact hasHeight_nil.mp hr
    subst hk
    refine ⟨hm, ?_⟩
    cases l with
    | nil => exact hr
    | node _ _ _ _ => exact hl

theorem RbTree.red_of_hasHeight_zero {t : RbTree α} (h : t.HasHeight 0) (hne : t ≠ nil) :
    t.color = .red := by
  cases t with
  | nil => exact absurd rfl hne
  | node c x l r =>
    obtain ⟨k, hk, -, -⟩ := hasHeight_node.mp h
    refine Color.eq_red_of_ne_black fun hc => ?_
    rw [color_node] at hc
    rw [hc, Color.weight] at hk
    omega

theorem spliceOut_redBlack_iff (h : (plug fs y).RedBlack)
    (hgap : y.HasGap) : (spliceOut fs y).RedBlack ↔ ¬LosesBlack fs y := by
  obtain ⟨hcolor, hnrr, n, hn⟩ := h
  obtain ⟨m, hy, hfs⟩ := (hasHeight_plug fs y n).mp hn
  obtain ⟨hm, hchild⟩ := hgap.heights hy
  have hcolor' := spliceOut_color hcolor
  have hnrr' := spliceOut_noRedRed hnrr
  have hheights (hh : ∃ n, (spliceOut fs y).HasHeight n) : (spliceOut fs y).RedBlack :=
    ⟨hcolor', hnrr', hh⟩
  by_cases hnil : y.onlyChild = .nil
  · have hsplice : spliceOut fs y = plug fs .nil := by
      rw [spliceOut, hnil]
    by_cases hred : y.color = .red
    · have hnot : ¬LosesBlack fs y := by
        rintro ⟨-, x, rfl⟩
        exact absurd hred (by simp)
      refine iff_of_true (hheights ⟨n, ?_⟩) hnot
      rw [hsplice, hasHeight_plug]
      rw [hm, hred] at hfs
      exact ⟨0, RbTree.hasHeight_nil.mpr rfl, hfs⟩
    have hblack := Color.eq_black_of_ne_red hred
    rw [hblack] at hm
    by_cases hroot : fs = []
    · refine iff_of_true (hheights ⟨0, ?_⟩) fun hl => hl.1 hroot
      rw [hsplice, hroot]
      exact RbTree.hasHeight_nil.mpr rfl
    · refine iff_of_false ?_ fun hkeeps => hkeeps ⟨hroot, ?_⟩
      · rintro ⟨-, -, n', hn'⟩
        rw [hsplice, hasHeight_plug] at hn'
        obtain ⟨k, hk, hfs'⟩ := hn'
        have heq := hfs.unique hroot hfs'
        rw [hm, RbTree.hasHeight_nil.mp hk] at heq
        exact absurd heq (by decide)
      · match y, hgap, hnil, hblack with
        | .node c x .nil r, _, hnil, hblack => exact ⟨x, by rw [← hblack, ← hnil]; rfl⟩
  · have hcred := RbTree.red_of_hasHeight_zero hchild hnil
    have hblack : y.color = .black := by
      refine Color.eq_black_of_ne_red fun hred => ?_
      rw [((noRedRed_plug fs y).mp hnrr).1.onlyChild_black hred] at hcred
      exact absurd hcred (by decide)
    have hsplice : spliceOut fs y = plug fs (y.onlyChild.paint .black) := by
      rw [spliceOut]
      cases hx : y.onlyChild with
      | nil => exact absurd hx hnil
      | node c x l r =>
        simp only
        rw [if_pos hblack, deleteFix_red fs (hx ▸ hcred)]
    refine iff_of_true (hheights ⟨n, ?_⟩) ?_
    · rw [hsplice, hasHeight_plug]
      rw [hblack] at hm
      exact ⟨m, (RbTree.hasHeight_paint_black hcred).mpr ⟨0, hm, hchild⟩, hfs⟩
    · rintro ⟨-, x, rfl⟩
      exact hnil rfl

theorem noRedRed_plug_item (fs : List (Frame α)) (c : Color) (x y : α) (l r : RbTree α) :
    (plug fs (.node c x l r)).NoRedRed ↔ (plug fs (.node c y l r)).NoRedRed := by
  rw [noRedRed_plug, noRedRed_plug]
  exact Iff.rfl

theorem redBlack_plug_item (fs : List (Frame α)) (c : Color) (x y : α) (l r : RbTree α) :
    (plug fs (.node c x l r)).RedBlack ↔ (plug fs (.node c y l r)).RedBlack := by
  have hheight (n : ℕ) : (plug fs (.node c x l r)).HasHeight n ↔
      (plug fs (.node c y l r)).HasHeight n :=
    hasHeight_plug_congr fun m => by rw [RbTree.hasHeight_node, RbTree.hasHeight_node]
  rw [RbTree.RedBlack, RbTree.RedBlack, noRedRed_plug_item fs c x y, color_plug, color_plug]
  simp only [hheight, RbTree.color_node]

/-- `T'` is what is left when the root `x` of the subtree below `fs` goes, perhaps by
giving its node another item. -/
structure Removed (fs : List (Frame α)) (c : Color) (x : α) (l r T' : RbTree α) : Prop where
  items : T'.items = (itemsBefore fs ++ l.items) ++ (r.items ++ itemsAfter fs)
  color : (plug fs (.node c x l r)).color = .black → T'.color = .black
  noRedRed : (plug fs (.node c x l r)).NoRedRed → T'.NoRedRed
  redBlack : (plug fs (.node c x l r)).RedBlack →
    (T'.RedBlack ↔ ¬LosesBlack (takenOut fs (.node c x l r)).1 (takenOut fs (.node c x l r)).2)

theorem removed_gap (fs : List (Frame α)) (hgap : (RbTree.node c x l r).HasGap) :
    Removed fs c x l r (spliceOut fs (.node c x l r)) where
  items := by
    rw [items_spliceOut, items_plug, hgap.items]
    simp only [append_assoc]
  color := spliceOut_color
  noRedRed := spliceOut_noRedRed
  redBlack h := by
    rw [takenOut_gap fs hgap]
    exact spliceOut_redBlack_iff h hgap

theorem items_spliceOut_full {c' : Color} {y : α} {r' : RbTree α} (hl : l ≠ .nil) (hr : r ≠ .nil)
    (h : takenOut fs (.node c x l r) = (gs, .node c' y .nil r')) :
    (spliceOut gs (.node c' y .nil r')).items =
        (itemsBefore fs ++ l.items) ++ x :: (r'.items ++ itemsAfter gs) ∧
      r.items ++ itemsAfter fs = y :: (r'.items ++ itemsAfter gs) := by
  rw [takenOut_full fs hl hr] at h
  have hbefore := leftmost_before (⟨.right, c, x, l⟩ :: fs) r
  have hitems := leftmost_items _ r h
  rw [h] at hbefore
  simp only [itemsBefore, itemsAfter, Frame.before, Frame.after, nil_append] at hbefore hitems
  refine ⟨?_, hitems⟩
  rw [items_spliceOut, items_plug, hbefore]
  simp [RbTree.onlyChild]

theorem removed_full {hs : List (Frame α)} {c' d : Color} {y : α} {r' l₁ r₁ : RbTree α}
    (hl : l ≠ .nil) (hr : r ≠ .nil) (h : takenOut fs (.node c x l r) = (gs, .node c' y .nil r'))
    (hsplice : spliceOut gs (.node c' y .nil r') = plug hs (.node d x l₁ r₁))
    (hnd : (plug hs (.node d x l₁ r₁)).items.Nodup) :
    Removed fs c x l r (plug hs (.node d y l₁ r₁)) := by
  have hplug := plug_takenOut fs (.node c x l r)
  have hgap := takenOut_hasGap fs (s := .node c x l r) (by simp)
  obtain ⟨hitems, hrest⟩ := items_spliceOut_full hl hr h
  rw [h] at hplug hgap
  have hsplit (z : α) : (plug hs (.node d z l₁ r₁)).items =
      (itemsBefore hs ++ l₁.items) ++ z :: (r₁.items ++ itemsAfter hs) := by
    rw [items_plug]
    simp
  refine ⟨?_, ?_, ?_, ?_⟩
  · rw [hsplice, hsplit] at hitems
    rw [hsplit, nodup_append, nodup_cons] at hnd
    obtain ⟨-, ⟨hafter, -⟩, hdisj⟩ := hnd
    have hbefore : x ∉ itemsBefore hs ++ l₁.items := fun hmem =>
      hdisj x hmem x (.head _) rfl
    obtain ⟨hleft, -, hright⟩ := (append_cons_inj_of_notMem hbefore hafter).mp hitems
    rw [hsplit, hleft, hrest, hright]
  · intro hcolor
    rw [← hplug] at hcolor
    have hout := spliceOut_color hcolor
    rw [hsplice, color_plug] at hout
    rw [color_plug]
    exact hout
  · intro hnrr
    rw [← hplug] at hnrr
    have hout := spliceOut_noRedRed hnrr
    rw [hsplice] at hout
    exact (noRedRed_plug_item hs d x y l₁ r₁).mp hout
  · intro hrb
    rw [← hplug] at hrb
    have hiff := spliceOut_redBlack_iff hrb hgap
    rw [hsplice] at hiff
    rw [h, ← redBlack_plug_item hs d x y]
    exact hiff

end ColorTree
