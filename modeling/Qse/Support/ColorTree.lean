import Mathlib.Data.Int.Notation
import Mathlib.Data.List.Basic

/-!
# Coloured binary trees with a hole

A binary tree whose nodes carry a colour and an item, and the zipper over it: a `Frame` is a node
with one subtree taken out, and a list of frames, innermost first, is a tree with a hole. `NoRedRed`
and `HasHeight` are the two balance conditions of a red-black tree.
-/

open List

namespace ColorTree

inductive Color where
  | red
  | black
deriving DecidableEq

inductive Side where
  | left
  | right
deriving DecidableEq

def Side.other : Side → Side
  | .left => .right
  | .right => .left

@[simp] theorem Side.other_other (s : Side) : s.other.other = s := by
  cases s <;> rfl

theorem Side.eq_or_eq_other (s t : Side) : s = t ∨ s = t.other := by
  cases s <;> cases t <;> decide

inductive RbTree (α : Type) where
  | nil
  | node (color : Color) (item : α) (left right : RbTree α)
deriving DecidableEq

structure Frame (α : Type) where
  side : Side
  color : Color
  item : α
  sib : RbTree α

variable {α β : Type}

namespace RbTree

def color : RbTree α → Color
  | nil => .black
  | node c _ _ _ => c

/-- The tree with its root coloured `c`. -/
def paint (c : Color) : RbTree α → RbTree α
  | nil => nil
  | node _ x l r => node c x l r

def kid : Side → RbTree α → RbTree α
  | _, nil => nil
  | .left, node _ _ l _ => l
  | .right, node _ _ _ r => r

def items : RbTree α → List α
  | nil => []
  | node _ x l r => l.items ++ x :: r.items

def count (t : RbTree α) : ℕ := t.items.length

def NoRedRed : RbTree α → Prop
  | nil => True
  | node c _ l r =>
    (c = .red → l.color = .black ∧ r.color = .black) ∧ l.NoRedRed ∧ r.NoRedRed

end RbTree

def Color.weight : Color → ℕ
  | .red => 0
  | .black => 1

def RbTree.pathWeights : RbTree α → List ℕ
  | nil => [0]
  | node c _ l r => (l.pathWeights ++ r.pathWeights).map (c.weight + ·)

/-- Every path from the root to an empty subtree has `n` black nodes. -/
def RbTree.HasHeight (t : RbTree α) (n : ℕ) : Prop := ∀ m ∈ t.pathWeights, m = n

/-- A red-black tree: the root is black, no red node has a red child, and all
paths carry the same number of black nodes. -/
def RbTree.RedBlack (t : RbTree α) : Prop :=
  t.color = .black ∧ t.NoRedRed ∧ ∃ n, t.HasHeight n

namespace Frame

/-- The node of the frame with `t` put back. -/
def fill (f : Frame α) (t : RbTree α) : RbTree α :=
  match f.side with
  | .left => .node f.color f.item t f.sib
  | .right => .node f.color f.item f.sib t

def before (f : Frame α) : List α :=
  match f.side with
  | .left => []
  | .right => f.sib.items ++ [f.item]

def after (f : Frame α) : List α :=
  match f.side with
  | .left => f.item :: f.sib.items
  | .right => []

def paint (c : Color) (f : Frame α) : Frame α := { f with color := c }

def flip (f : Frame α) (t : RbTree α) : Frame α :=
  { f with side := f.side.other, sib := t }

end Frame

/-- The tree with `t` in the hole of `fs`. -/
def plug : List (Frame α) → RbTree α → RbTree α
  | [], t => t
  | f :: fs, t => plug fs (f.fill t)

def RbTree.frameAt (s : Side) (c : Color) (x : α) (l r : RbTree α) : Frame α :=
  { side := s, color := c, item := x, sib := (RbTree.node c x l r).kid s.other }

/-! ## Plugging -/

@[simp] theorem RbTree.items_nil : (RbTree.nil : RbTree α).items = [] := rfl

@[simp] theorem RbTree.items_node (c : Color) (x : α) (l r : RbTree α) :
    (RbTree.node c x l r).items = l.items ++ x :: r.items := rfl

@[simp] theorem RbTree.color_nil : (RbTree.nil : RbTree α).color = .black := rfl

@[simp] theorem RbTree.color_node (c : Color) (x : α) (l r : RbTree α) :
    (RbTree.node c x l r).color = c := rfl

@[simp] theorem RbTree.items_paint (c : Color) (t : RbTree α) : (t.paint c).items = t.items := by
  cases t <;> rfl

variable {t : RbTree α} {c : Color} {fs : List (Frame α)} {n : ℕ}

theorem RbTree.ne_nil_of_red (h : t.color = .red) : t ≠ .nil := by
  rintro rfl
  simp at h

@[simp] theorem plug_nil (t : RbTree α) : plug [] t = t := rfl

theorem plug_cons (f : Frame α) (fs : List (Frame α)) (t : RbTree α) :
    plug (f :: fs) t = plug fs (f.fill t) := rfl

theorem plug_append (fs gs : List (Frame α)) (t : RbTree α) :
    plug (fs ++ gs) t = plug gs (plug fs t) := by
  induction fs generalizing t with
  | nil => rfl
  | cons f fs ih => exact ih (f.fill t)

@[simp] theorem Frame.items_fill (f : Frame α) (t : RbTree α) :
    (f.fill t).items = f.before ++ t.items ++ f.after := by
  obtain ⟨side, c, x, sib⟩ := f
  cases side <;> simp [fill, before, after]

@[simp] theorem Frame.color_fill (f : Frame α) (t : RbTree α) : (f.fill t).color = f.color := by
  obtain ⟨side, c, x, sib⟩ := f
  cases side <;> rfl

theorem Frame.fill_ne_nil (f : Frame α) (t : RbTree α) : f.fill t ≠ .nil := by
  obtain ⟨side, c, x, sib⟩ := f
  cases side <;> simp [fill]

theorem Frame.flip_fill (f : Frame α) (s t : RbTree α) :
    (f.flip s).fill t = Frame.fill { f with sib := t } s := by
  obtain ⟨side, c, x, sib⟩ := f
  cases side <;> rfl

theorem Frame.fill_flip (f : Frame α) (t : RbTree α) : (f.flip t).fill f.sib = f.fill t :=
  f.flip_fill t f.sib

theorem Frame.fill_paint (f : Frame α) (c : Color) (t : RbTree α) :
    (f.paint c).fill t = (f.fill t).paint c := by
  obtain ⟨side, c', x, sib⟩ := f
  cases side <;> rfl

theorem fill_frameAt (s : Side) (c : Color) (x : α) (l r : RbTree α) :
    (RbTree.frameAt s c x l r).fill ((RbTree.node c x l r).kid s) = .node c x l r := by
  cases s <;> rfl

theorem Frame.items_fill_congr (f : Frame α) {s s' t' : RbTree α} {d : Color}
    (hs : s.items = s'.items) (ht : t.items = t'.items) :
    (Frame.fill { f with color := c, sib := t } s).items =
      (Frame.fill { f with color := d, sib := t' } s').items := by
  obtain ⟨side, c', x, sib⟩ := f
  cases side <;> simp [before, after, hs, ht]

@[grind =] def itemsBefore : List (Frame α) → List α
  | [] => []
  | f :: fs => itemsBefore fs ++ f.before

def itemsAfter : List (Frame α) → List α
  | [] => []
  | f :: fs => f.after ++ itemsAfter fs

theorem items_plug (fs : List (Frame α)) (t : RbTree α) :
    (plug fs t).items = itemsBefore fs ++ t.items ++ itemsAfter fs := by
  induction fs generalizing t with
  | nil => simp [itemsBefore, itemsAfter]
  | cons f fs ih => simp [plug_cons, ih, itemsBefore, itemsAfter]

theorem items_plug_congr (fs : List (Frame α)) {s : RbTree α} (h : s.items = t.items) :
    (plug fs s).items = (plug fs t).items := by
  rw [items_plug, items_plug, h]

theorem items_rotate {f g : Frame α} (h : f.side = g.side.other) (t : RbTree α) :
    (g.fill (f.fill t)).items = (f.fill (g.fill t)).items := by
  obtain ⟨side, c, x, sib⟩ := g
  simp only at h
  cases side <;> simp [Frame.before, Frame.after, h, Side.other]

def rootColor : List (Frame α) → Color → Color
  | [], c => c
  | f :: fs, _ => rootColor fs f.color

theorem color_plug (fs : List (Frame α)) (t : RbTree α) :
    (plug fs t).color = rootColor fs t.color := by
  induction fs generalizing t with
  | nil => rfl
  | cons f fs ih => rw [plug_cons, ih, Frame.color_fill, rootColor]

theorem rootColor_congr (h : fs ≠ []) (c d : Color) : rootColor fs c = rootColor fs d := by
  cases fs with
  | nil => exact absurd rfl h
  | cons f fs => rfl

theorem plug_ne_nil (h : t ≠ .nil) : plug fs t ≠ .nil := by
  induction fs generalizing t with
  | nil => exact h
  | cons f fs ih => exact ih (f.fill_ne_nil t)

theorem plug_cons_ne_nil (f : Frame α) (fs : List (Frame α)) (t : RbTree α) :
    plug (f :: fs) t ≠ .nil := by
  rw [plug_cons]
  exact plug_ne_nil (f.fill_ne_nil t)

theorem exists_plug_of_mem {x : α} (h : x ∈ t.items) : ∃ fs c l r, t = plug fs (.node c x l r) := by
  induction t with
  | nil => simp at h
  | node c y l r ihl ihr =>
    rcases mem_append.mp h with h | h
    · obtain ⟨fs, d, l', r', rfl⟩ := ihl h
      exact ⟨fs ++ [⟨.left, c, y, r⟩], d, l', r', by rw [plug_append]; rfl⟩
    rcases mem_cons.mp h with rfl | h
    · exact ⟨[], c, l, r, rfl⟩
    · obtain ⟨fs, d, l', r', rfl⟩ := ihr h
      exact ⟨fs ++ [⟨.right, c, y, l⟩], d, l', r', by rw [plug_append]; rfl⟩

/-- A tree with a hole has no red node below a red one when the hole is filled
with colour `c`. -/
def NoRedRedAt : List (Frame α) → Color → Prop
  | [], _ => True
  | f :: fs, c =>
    (f.color = .red → c = .black ∧ f.sib.color = .black) ∧ f.sib.NoRedRed ∧ NoRedRedAt fs f.color

theorem Frame.noRedRed_fill (f : Frame α) (t : RbTree α) :
    (f.fill t).NoRedRed ↔
      (f.color = .red → t.color = .black ∧ f.sib.color = .black) ∧ f.sib.NoRedRed ∧ t.NoRedRed := by
  obtain ⟨side, c, x, sib⟩ := f
  cases side <;> simp only [fill, RbTree.NoRedRed] <;> tauto

theorem noRedRed_plug (fs : List (Frame α)) (t : RbTree α) :
    (plug fs t).NoRedRed ↔ t.NoRedRed ∧ NoRedRedAt fs t.color := by
  induction fs generalizing t with
  | nil => simp [NoRedRedAt]
  | cons f fs ih =>
    rw [plug_cons, ih, Frame.noRedRed_fill, Frame.color_fill, NoRedRedAt]
    tauto

theorem NoRedRedAt.black (h : NoRedRedAt fs c) : NoRedRedAt fs .black := by
  cases fs with
  | nil => trivial
  | cons f fs => exact ⟨fun hc => ⟨rfl, (h.1 hc).2⟩, h.2⟩

theorem RbTree.NoRedRed.paint_black (h : t.NoRedRed) : (t.paint .black).NoRedRed := by
  cases t with
  | nil => trivial
  | node c x l r => exact ⟨fun hc => absurd hc (by decide), h.2⟩

/-! ## Heights along a hole -/

theorem RbTree.pathWeights_ne_nil (t : RbTree α) : t.pathWeights ≠ [] := by
  induction t with
  | nil => simp [pathWeights]
  | node c x l r ihl ihr => simp [pathWeights, ihl]

@[simp] theorem RbTree.hasHeight_nil : (RbTree.nil : RbTree α).HasHeight n ↔ n = 0 := by
  simp [HasHeight, pathWeights, eq_comm]

theorem RbTree.hasHeight_node {x : α} {l r : RbTree α} :
    (RbTree.node c x l r).HasHeight n ↔ ∃ m, n = c.weight + m ∧ l.HasHeight m ∧ r.HasHeight m := by
  constructor
  · intro h
    obtain ⟨k, hk⟩ := exists_mem_of_ne_nil _ l.pathWeights_ne_nil
    have hshift : ∀ m ∈ l.pathWeights ++ r.pathWeights, c.weight + m = n := by
      intro m hm
      exact h _ (mem_map_of_mem hm)
    have hkn : c.weight + k = n := hshift k (mem_append_left _ hk)
    refine ⟨k, hkn.symm, ?_, ?_⟩
    · intro m hm
      have hmn := hshift m (mem_append_left _ hm)
      omega
    · intro m hm
      have hmn := hshift m (mem_append_right _ hm)
      omega
  · rintro ⟨m, rfl, hl, hr⟩ k hk
    obtain ⟨j, hj, rfl⟩ := mem_map.mp hk
    rcases mem_append.mp hj with hj | hj
    · rw [hl j hj]
    · rw [hr j hj]

theorem RbTree.HasHeight.unique {m : ℕ} (hm : t.HasHeight m) (hn : t.HasHeight n) : m = n := by
  obtain ⟨k, hk⟩ := exists_mem_of_ne_nil _ t.pathWeights_ne_nil
  rw [← hm k hk, ← hn k hk]

/-- A tree with a hole has height `n` when the hole is filled with a tree of
height `m`. -/
def HasHeightAt : List (Frame α) → ℕ → ℕ → Prop
  | [], m, n => m = n
  | f :: fs, m, n => f.sib.HasHeight m ∧ HasHeightAt fs (f.color.weight + m) n

theorem Frame.hasHeight_fill (f : Frame α) (t : RbTree α) (n : ℕ) :
    (f.fill t).HasHeight n ↔ ∃ m, n = f.color.weight + m ∧ f.sib.HasHeight m ∧ t.HasHeight m := by
  obtain ⟨side, c, x, sib⟩ := f
  cases side <;> simp only [fill, RbTree.hasHeight_node, and_comm]

theorem hasHeight_plug (fs : List (Frame α)) (t : RbTree α) (n : ℕ) :
    (plug fs t).HasHeight n ↔ ∃ m, t.HasHeight m ∧ HasHeightAt fs m n := by
  induction fs generalizing t with
  | nil => simp [HasHeightAt]
  | cons f fs ih =>
    rw [plug_cons, ih]
    constructor
    · rintro ⟨k, hk, hfs⟩
      obtain ⟨m, rfl, hsib, ht⟩ := (f.hasHeight_fill t k).mp hk
      exact ⟨m, ht, hsib, hfs⟩
    · rintro ⟨m, ht, hsib, hfs⟩
      exact ⟨_, (f.hasHeight_fill t _).mpr ⟨m, rfl, hsib, ht⟩, hfs⟩

theorem HasHeightAt.unique {m m' n' : ℕ} (hne : fs ≠ []) (h : HasHeightAt fs m n)
    (h' : HasHeightAt fs m' n') : m = m' := by
  cases fs with
  | nil => exact absurd rfl hne
  | cons f fs => exact h.1.unique h'.1

theorem RbTree.HasHeight.paint_black (h : t.HasHeight n) : ∃ m, (t.paint .black).HasHeight m := by
  cases t with
  | nil => exact ⟨n, h⟩
  | node c x l r =>
    obtain ⟨m, -, hl, hr⟩ := hasHeight_node.mp h
    exact ⟨_, hasHeight_node.mpr ⟨m, rfl, hl, hr⟩⟩

end ColorTree

/-!
## Searching an ordered tree

`descend` walks from a subtree down to the item that a comparison `cmp` finds
equal to what is looked for, or to the empty subtree where such an item would
go. In a tree whose items are ordered and on which `cmp` changes sign once, the
items left of the place reached compare positive and those right of it negative.
-/

namespace ColorTree

variable {α : Type}

/-- Walk down to the place of `cmp`: right when it is positive, left when it is
negative. -/
@[grind =] def descend (cmp : α → ℤ) : List (Frame α) → RbTree α → List (Frame α) × RbTree α
  | fs, .nil => (fs, .nil)
  | fs, .node c x l r =>
    if cmp x = 0 then (fs, .node c x l r)
    else if 0 < cmp x then descend cmp (⟨.right, c, x, l⟩ :: fs) r
    else descend cmp (⟨.left, c, x, r⟩ :: fs) l

/-- `cmp` is positive up to some place of the order and negative from there
on. -/
def Cuts (lt : α → α → Prop) (cmp : α → ℤ) : Prop :=
  ∀ x y, lt x y → cmp x ≤ 0 → cmp y < 0

/-- The items around a hole compare as if the hole were the place of `cmp`. -/
def Brackets (cmp : α → ℤ) (fs : List (Frame α)) : Prop :=
  (∀ x ∈ itemsBefore fs, 0 < cmp x) ∧ ∀ x ∈ itemsAfter fs, cmp x < 0

variable {cmp : α → ℤ}

theorem plug_descend (cmp : α → ℤ) (fs : List (Frame α)) (t : RbTree α) :
    plug (descend cmp fs t).1 (descend cmp fs t).2 = plug fs t := by
  induction fs, t using descend.induct cmp with
  | case1 fs => rfl
  | case2 fs c x l r h => rw [descend, if_pos h]
  | case3 fs c x l r h hpos ih =>
    rw [descend, if_neg h, if_pos hpos, ih]
    rfl
  | case4 fs c x l r h hpos ih =>
    rw [descend, if_neg h, if_neg hpos, ih]
    rfl

theorem descend_found (cmp : α → ℤ) (fs : List (Frame α)) (t : RbTree α) :
    (descend cmp fs t).2 = .nil ∨ ∃ c x l r, (descend cmp fs t).2 = .node c x l r ∧ cmp x = 0 := by
  induction fs, t using descend.induct cmp with
  | case1 fs => exact .inl rfl
  | case2 fs c x l r h =>
    rw [descend, if_pos h]
    exact .inr ⟨c, x, l, r, rfl, h⟩
  | case3 fs c x l r h hpos ih =>
    rw [descend, if_neg h, if_pos hpos]
    exact ih
  | case4 fs c x l r h hpos ih =>
    rw [descend, if_neg h, if_neg hpos]
    exact ih

theorem count_node (c : Color) (x : α) (l r : RbTree α) :
    (RbTree.node c x l r).count = l.count + r.count + 1 := by
  simp only [RbTree.count, RbTree.items_node, length_append, length_cons]
  omega

theorem descend_length (cmp : α → ℤ) (fs : List (Frame α)) (t : RbTree α) :
    (descend cmp fs t).1.length ≤ fs.length + t.count := by
  induction fs, t using descend.induct cmp with
  | case1 fs => exact Nat.le_add_right _ _
  | case2 fs c x l r h =>
    rw [descend, if_pos h]
    exact Nat.le_add_right _ _
  | case3 fs c x l r h hpos ih =>
    rw [descend, if_neg h, if_pos hpos]
    rw [count_node]
    simp only [length_cons] at ih
    omega
  | case4 fs c x l r h hpos ih =>
    rw [descend, if_neg h, if_neg hpos]
    rw [count_node]
    simp only [length_cons] at ih
    omega

def Points (cmp : α → ℤ) : List (Frame α) → Prop
  | [] => True
  | f :: _ => f.side = if 0 < cmp f.item then .right else .left

theorem descend_points (cmp : α → ℤ) (fs : List (Frame α)) (t : RbTree α) (h : Points cmp fs) :
    Points cmp (descend cmp fs t).1 := by
  induction fs, t using descend.induct cmp with
  | case1 fs => exact h
  | case2 fs c x l r hx =>
    rw [descend, if_pos hx]
    exact h
  | case3 fs c x l r hx hpos ih =>
    rw [descend, if_neg hx, if_pos hpos]
    exact ih (by simp [Points, hpos])
  | case4 fs c x l r hx hpos ih =>
    rw [descend, if_neg hx, if_neg hpos]
    exact ih (by simp [Points, hpos])

theorem descend_brackets {lt : α → α → Prop} (hcut : Cuts lt cmp) (fs : List (Frame α))
    (t : RbTree α) (hord : t.items.Pairwise lt) (h : Brackets cmp fs) :
    Brackets cmp (descend cmp fs t).1 := by
  induction fs, t using descend.induct cmp with
  | case1 fs => exact h
  | case2 fs c x l r hx =>
    rw [descend, if_pos hx]
    exact h
  | case3 fs c x l r hx hpos ih =>
    rw [descend, if_neg hx, if_pos hpos]
    obtain ⟨-, hxr, hlx⟩ := pairwise_append.mp hord
    refine ih (pairwise_cons.mp hxr).2 ⟨?_, h.2⟩
    intro y hy
    simp only [itemsBefore, Frame.before, mem_append, mem_singleton] at hy
    rcases hy with hy | hy | rfl
    · exact h.1 y hy
    · by_contra hneg
      have hlt := hcut y x (hlx y hy x (.head _)) (by omega)
      omega
    · exact hpos
  | case4 fs c x l r hx hpos ih =>
    rw [descend, if_neg hx, if_neg hpos]
    obtain ⟨hl, hxr, -⟩ := pairwise_append.mp hord
    refine ih hl ⟨by simpa [itemsBefore, Frame.before] using h.1, ?_⟩
    intro y hy
    simp only [itemsAfter, Frame.after, mem_append, mem_cons] at hy
    rcases hy with (rfl | hy) | hy
    · omega
    · exact hcut x y ((pairwise_cons.mp hxr).1 y hy) (by omega)
    · exact h.2 y hy

variable {t : RbTree α} {n : ℕ}

def RbTree.depth : RbTree α → ℕ
  | nil => 0
  | node _ _ l r => max l.depth r.depth + 1

theorem RbTree.depth_le_count (t : RbTree α) : t.depth ≤ t.count := by
  induction t with
  | nil => exact Nat.le_refl 0
  | node c x l r ihl ihr =>
    rw [depth, count_node]
    omega

/-- A path has at most one red node above each black one, and a tree with `n` black nodes on each
path has at least `2 ^ n - 1` items. -/
theorem RbTree.NoRedRed.bounds (h : t.NoRedRed) (hn : t.HasHeight n) :
    t.depth + t.color.weight ≤ 2 * n + 1 ∧ n ≤ Nat.log2 (t.count + 1) := by
  induction t generalizing n with
  | nil =>
    obtain rfl := hasHeight_nil.mp hn
    exact ⟨Nat.le_refl 1, Nat.zero_le _⟩
  | node c x l r ihl ihr =>
    obtain ⟨m, rfl, hl, hr⟩ := hasHeight_node.mp hn
    obtain ⟨hred, hnl, hnr⟩ := h
    obtain ⟨hdl, hcl⟩ := ihl hnl hl
    obtain ⟨hdr, hcr⟩ := ihr hnr hr
    rw [Nat.le_log2 (Nat.succ_ne_zero _)] at hcl hcr ⊢
    rw [depth, count_node, color]
    cases c with
    | red =>
      obtain ⟨hlb, hrb⟩ := hred rfl
      rw [hlb, Color.weight] at hdl
      rw [hrb, Color.weight] at hdr
      rw [Color.weight, Nat.zero_add]
      omega
    | black =>
      rw [Color.weight, Nat.add_comm 1 m, Nat.pow_succ]
      omega

theorem RbTree.RedBlack.depth_le (h : t.RedBlack) : t.depth ≤ 2 * Nat.log2 (t.count + 1) := by
  obtain ⟨hroot, hnrr, n, hn⟩ := h
  obtain ⟨hdepth, hcount⟩ := hnrr.bounds hn
  rw [hroot, Color.weight] at hdepth
  omega

end ColorTree
