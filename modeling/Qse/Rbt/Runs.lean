import Qse.Rbt.Delete

/-!
# Runs of a red-black tree

The calls of the interface as one type, what they answer, and the states that sequences of them lead
to.
-/

open Option

namespace Qse.Rbt

open ColorTree StateProgram

variable {κ : Type}

inductive Op (κ : Type) where
  | insert (opt : InsertOpt) (env : PairEnv κ) (key : κ) (val : Buffer)
  | cbsert (out : Cbserted κ) (key : κ)
  | delete (key : κ)
  | search (key : κ)
  | clear

inductive Outcome (κ : Type) where
  | pair (d : Option (PairData κ))
  | status (ok : Bool)
  | done
deriving DecidableEq

def answer (p : Ref) : RbtM κ (Outcome κ) := do
  let t ← get
  pure (.pair ((t.mem p).map Pair.data))

def Op.exec : Op κ → RbtM κ (Outcome κ)
  | .insert opt env key val => do
    let p ← Rbt.insert env key val opt
    answer p
  | .cbsert out key => do
    let p ← Rbt.cbsert out key
    answer p
  | .delete key => do
    let ok ← Rbt.delete key
    pure (.status ok)
  | .search key => do
    let p ← Rbt.search key
    answer p
  | .clear => do
    Rbt.clear
    pure .done

def Op.granted (t : Rbt κ) : Op κ → Bool
  | .insert _ env _ _ => t.mmgrAlloc env.block ≠ .null
  | _ => true

/-- `Runs style ok log t`: calls that `ok` allows lead from a new tree to `t`; `log`
lists them, whether a block was granted, and what they returned. -/
inductive Runs [Inhabited κ] (style : PairStyle κ) (ok : Rbt κ → Op κ → Prop) :
    List (Bool × Op κ × Outcome κ) → Rbt κ → Prop where
  | init : Runs style ok [] (init style)
  | step {log : List (Bool × Op κ × Outcome κ)} {t t' : Rbt κ} {op : Op κ} {r : Outcome κ}
      (h : Runs style ok log t) (hop : ok t op) (hrun : op.exec.run t = some (r, t')) :
      Runs style ok (log ++ [(op.granted t, op, r)]) t'

theorem Runs.imp [Inhabited κ] {style : PairStyle κ} {ok ok' : Rbt κ → Op κ → Prop}
    {log : List (Bool × Op κ × Outcome κ)} {t : Rbt κ} (himp : ∀ t op, ok t op → ok' t op)
    (h : Runs style ok log t) : Runs style ok' log t := by
  induction h with
  | init => exact .init
  | step _ hop hrun ih => exact ih.step (himp _ _ hop) hrun

theorem init_holds [Inhabited κ] (style : PairStyle κ) : Holds (init style) .nil where
  shape := ⟨rfl, trivial, List.nodup_nil, rfl, ⟨_, rfl, rfl, rfl, rfl, rfl⟩⟩
  size := rfl
  root := rfl

/-! ## Balance -/

def LosesLeaf (style : PairStyle κ) (key : κ) (T : RbTree (Entry κ)) : Prop :=
  let place := descend (keyCmp style key) [] T
  LosesBlack (takenOut place.1 place.2).1 (takenOut place.1 place.2).2

/-- The call does not take a black leaf out from below another pair. -/
def Op.KeepsBlack (t : Rbt κ) : Op κ → Prop
  | .delete key => ∀ T, Shape t T → ¬LosesLeaf t.style key T
  | _ => True

theorem added_noRedRed {fs : List (Frame (Entry κ))} (e : Entry κ)
    (h : (plug fs (.nil : RbTree (Entry κ))).NoRedRed) : (added fs e).NoRedRed := by
  have hfs := ((noRedRed_plug fs _).mp h).2
  exact insertFix_noRedRed fs (leaf e) rfl ⟨fun _ => ⟨rfl, rfl⟩, trivial, trivial⟩ hfs

theorem added_redBlack {fs : List (Frame (Entry κ))} (e : Entry κ)
    (h : (plug fs (.nil : RbTree (Entry κ))).RedBlack) : (added fs e).RedBlack := by
  obtain ⟨-, hnrr, n, hn⟩ := h
  have hfs := ((noRedRed_plug fs _).mp hnrr).2
  have hleaf (m : ℕ) : (leaf e).HasHeight m ↔ (RbTree.nil : RbTree (Entry κ)).HasHeight m := by
    rw [leaf, RbTree.hasHeight_node]
    simp [Color.weight]
  have hheight := (insertFix_hasHeight fs (leaf e) rfl hfs n).mpr
    ((hasHeight_plug_congr hleaf).mpr hn)
  exact ⟨RbTree.color_paint_black _, added_noRedRed e hnrr, hheight.paint_black⟩

structure Balanced (T T' : RbTree (Entry κ)) : Prop where
  noRedRed : T.NoRedRed → T'.NoRedRed
  redBlack : T.RedBlack → T'.RedBlack

theorem Balanced.refl (T : RbTree (Entry κ)) : Balanced T T := ⟨id, id⟩

theorem balanced_replaced (fs : List (Frame (Entry κ))) (c : Color) (e : Entry κ)
    (l r : RbTree (Entry κ)) (e' : Option (Entry κ)) :
    Balanced (plug fs (.node c e l r)) (replaced fs c e l r e') :=
  ⟨(noRedRed_plug_item fs c _ _ l r).mp, (redBlack_plug_item fs c _ _ l r).mp⟩

theorem balanced_added (fs : List (Frame (Entry κ))) (e : Entry κ) :
    Balanced (plug fs .nil) (added fs e) :=
  ⟨added_noRedRed e, added_redBlack e⟩

theorem balanced_inserted (t : Rbt κ) (T : RbTree (Entry κ)) (env : PairEnv κ) (key : κ)
    (val : Buffer) (opt : InsertOpt) : Balanced T (inserted t T env key val opt).2 := by
  have hplug := plug_descend (keyCmp t.style key) [] T
  rw [inserted]
  cases hplace : descend (keyCmp t.style key) [] T with
  | mk fs s =>
  rw [hplace, plug_nil] at hplug
  rw [← hplug]
  cases s with
  | node c e l r =>
    cases opt with
    | upsert | update => exact balanced_replaced fs c e l r _
    | ensert | insert => exact Balanced.refl _
  | nil =>
    simp only
    split
    · exact Balanced.refl _
    · cases made t env key val with
      | none => exact Balanced.refl _
      | some e => exact balanced_added fs e

theorem balanced_cbserted (t : Rbt κ) (T : RbTree (Entry κ)) (out : Cbserted κ) (key : κ) :
    Balanced T (cbserted t T out key).2 := by
  have hplug := plug_descend (keyCmp t.style key) [] T
  rw [cbserted]
  cases hplace : descend (keyCmp t.style key) [] T with
  | mk fs s =>
  rw [hplace, plug_nil] at hplug
  rw [← hplug]
  cases s with
  | node c e l r => exact balanced_replaced fs c e l r _
  | nil =>
    cases cbMade t out with
    | none => exact Balanced.refl _
    | some e => exact balanced_added fs e

variable {T T' : RbTree (Entry κ)} {t : Rbt κ}

theorem Deleted.balanced {style : PairStyle κ} {key : κ} {ok : Bool}
    (h : Deleted style key T T' ok) :
    (T.NoRedRed → T'.NoRedRed) ∧ (T.RedBlack → (T'.RedBlack ↔ ¬LosesLeaf style key T)) := by
  have hplug := plug_descend (keyCmp style key) [] T
  rw [Deleted] at h
  rw [LosesLeaf]
  cases hplace : descend (keyCmp style key) [] T with
  | mk fs s =>
  rw [hplace] at h hplug
  rw [plug_nil] at hplug
  cases s with
  | nil =>
    obtain ⟨-, rfl⟩ := h
    refine ⟨id, fun hrb => iff_of_true hrb ?_⟩
    rintro ⟨-, x, hx⟩
    simp [takenOut] at hx
  | node c e l r =>
    obtain ⟨-, hremoved⟩ := h
    simp only at hplug
    rw [← hplug]
    exact ⟨hremoved.noRedRed, hremoved.redBlack⟩

theorem returns_answer {p : Ref} {Q : Outcome κ → Rbt κ → Prop} :
    Returns (answer p) t Q ↔ Q (.pair ((t.mem p).map Pair.data)) t := by
  rw [answer, returns_bind, returns_get, returns_pure]

theorem Stored.unique {mem : Ref → Option (Pair κ)} {par : Ref} (h : Stored mem par T)
    (h' : Stored mem par T') (href : treeRef T = treeRef T') : T = T' := by
  induction T generalizing par T' with
  | nil => exact (treeRef_eq_xnil.mp href.symm).symm
  | node c e l r ihl ihr =>
    cases T' with
    | nil => simp at href
    | node c' e' l' r' =>
      obtain ⟨he, hl, hr⟩ := h
      obtain ⟨he', hl', hr'⟩ := h'
      have haddr : e.addr = e'.addr := by simpa using href
      rw [haddr] at he hl hr
      rw [he] at he'
      obtain ⟨hdata, rfl, -, hleft, hright⟩ := Pair.mk.inj (some.inj he')
      have heq : e = e' := by
        cases e
        cases e'
        simp only at haddr hdata
        rw [haddr, hdata]
      rw [heq, ihl hl hl' hleft, ihr hr hr' hright]

theorem Shape.unique (h : Shape t T) (h' : Shape t T') : T = T' :=
  h.stored.unique h'.stored (h.root.symm.trans h'.root)

theorem Op.exec_returns (h : Holds t T) (op : Op κ) :
    Returns op.exec t fun _ t' => ∃ T', Holds t' T' ∧ (T.NoRedRed → T'.NoRedRed) ∧
      (T.RedBlack → (T'.RedBlack ↔ op.KeepsBlack t)) := by
  have hkept {T' : RbTree (Entry κ)} (hb : Balanced T T') (hop : op.KeepsBlack t) :
      (T.NoRedRed → T'.NoRedRed) ∧ (T.RedBlack → (T'.RedBlack ↔ op.KeepsBlack t)) :=
    ⟨hb.noRedRed, fun hrb => iff_of_true (hb.redBlack hrb) hop⟩
  cases op with
  | insert opt env key val =>
    rw [Op.exec, returns_bind]
    refine (h.insert_returns env key val opt).mono fun p t' ⟨_, hT', _⟩ => ?_
    exact returns_answer.mpr ⟨_, hT', hkept (balanced_inserted t T env key val opt) trivial⟩
  | cbsert out key =>
    rw [Op.exec, returns_bind]
    refine (h.cbsert_returns out key).mono fun p t' ⟨_, hT', _⟩ => ?_
    exact returns_answer.mpr ⟨_, hT', hkept (balanced_cbserted t T out key) trivial⟩
  | delete key =>
    rw [Op.exec, returns_bind]
    refine (h.delete_returns key).mono fun ok t' ⟨T', hT', hdel, _⟩ => ?_
    obtain ⟨hnrr, hrb⟩ := hdel.balanced
    refine returns_pure.mpr ⟨T', hT', hnrr, fun h0 => (hrb h0).trans ?_⟩
    constructor
    · intro hk T₀ hT₀
      rw [hT₀.unique h.shape]
      exact hk
    · exact fun hk => hk T h.shape
  | search key =>
    rw [Op.exec, returns_bind]
    refine (h.search_returns key).mono fun p t' ⟨_, hsame⟩ => ?_
    exact returns_answer.mpr ⟨T, hsame ▸ h, hkept (Balanced.refl T) trivial⟩
  | clear =>
    rw [Op.exec, returns_bind]
    refine h.clear_returns.mono fun _ t' ⟨hT', _⟩ => ?_
    have hnil : (RbTree.nil : RbTree (Entry κ)).RedBlack :=
      ⟨rfl, trivial, 0, RbTree.hasHeight_nil.mpr rfl⟩
    exact returns_pure.mpr ⟨.nil, hT', hkept ⟨fun _ => trivial, fun _ => hnil⟩ trivial⟩

section Reachable

variable [Inhabited κ] {style : PairStyle κ} {log : List (Bool × Op κ × Outcome κ)} {t : Rbt κ}

theorem Runs.noRedRed {ok : Rbt κ → Op κ → Prop} (h : Runs style ok log t) :
    ∃ T, Holds t T ∧ T.NoRedRed := by
  induction h with
  | init => exact ⟨.nil, init_holds style, trivial⟩
  | step h hop hrun ih =>
    obtain ⟨T, hT, hnrr⟩ := ih
    obtain ⟨T', hT', hkeep, -⟩ := (Op.exec_returns hT _).of_run hrun
    exact ⟨T', hT', hkeep hnrr⟩

theorem Runs.redBlack (h : Runs style Op.KeepsBlack log t) : ∃ T, Holds t T ∧ T.RedBlack := by
  induction h with
  | init => exact ⟨.nil, init_holds style, rfl, trivial, 0, RbTree.hasHeight_nil.mpr rfl⟩
  | step h hop hrun ih =>
    obtain ⟨T, hT, hrb⟩ := ih
    obtain ⟨T', hT', -, hkeep⟩ := (Op.exec_returns hT _).of_run hrun
    exact ⟨T', hT', (hkeep hrb).mpr hop⟩

/-- While no call takes a black leaf out from below another pair, the tree is a
red-black tree; the next call returns, and leaves one exactly if it does not
either. -/
theorem redBlack_of_runs (h : Runs style Op.KeepsBlack log t) :
    (∃ T, Shape t T ∧ T.RedBlack) ∧
      ∀ op : Op κ, ∃ r t', op.exec.run t = some (r, t') ∧
        ((∃ T, Shape t' T ∧ T.RedBlack) ↔ op.KeepsBlack t) := by
  obtain ⟨T, hT, hrb⟩ := h.redBlack
  refine ⟨⟨T, hT.shape, hrb⟩, fun op => ?_⟩
  obtain ⟨r, t', hrun, T', hT', -, hiff⟩ := Op.exec_returns hT op
  refine ⟨r, t', hrun, ?_⟩
  rw [← hiff hrb]
  constructor
  · rintro ⟨T₀, hT₀, hrb₀⟩
    rw [hT'.shape.unique hT₀]
    exact hrb₀
  · exact fun hrb' => ⟨T', hT'.shape, hrb'⟩

/-- While no call takes a black leaf out from below another pair, the loop of `qse_rbt_search` ends
after at most two rounds for each doubling of the number of pairs. -/
theorem search_logarithmic (h : Runs style Op.KeepsBlack log t) (key : κ) :
    ∃ p, (search key).run t = some (p, t) ∧
      (searchFrom key (2 * Nat.log2 (t.size + 1) + 1) t.root).run t = some (p, t) := by
  obtain ⟨T, hT, hrb⟩ := h.redBlack
  obtain ⟨p, t', hrun, rfl, rfl⟩ := hT.search_returns key
  refine ⟨_, hrun, ?_⟩
  have hdepth : T.depth < 2 * Nat.log2 (t'.size + 1) + 1 := by
    rw [hT.size]
    exact Nat.lt_succ_of_le hrb.depth_le
  have hloop := @Shape.searchFrom_returns κ t' [] T hT.shape key _ hdepth
  rw [← hT.shape.root] at hloop
  obtain ⟨p, t'', hrun', rfl, rfl⟩ := hloop
  exact hrun'

end Reachable

/-! ## A deletion that loses a black leaf -/

def runOps : List (Op κ) → Rbt κ → Option (Rbt κ)
  | [], t => some t
  | op :: ops, t => (op.exec.run t).bind fun p => runOps ops p.2

/-- The tree found in the heap below `p`. -/
def readTree (mem : Ref → Option (Pair κ)) : ℕ → Ref → Option (RbTree (Entry κ))
  | 0, _ => none
  | _ + 1, .null => none
  | _ + 1, .xnil => some .nil
  | fuel + 1, .pair a =>
    (mem (.pair a)).bind fun n =>
      (readTree mem fuel n.left).bind fun l =>
        (readTree mem fuel n.right).map fun r => .node n.color ⟨a, n.data⟩ l r

theorem Stored.readTree_eq {mem : Ref → Option (Pair κ)} {par : Ref} {fuel : ℕ}
    (h : Stored mem par T) (hread : readTree mem fuel (treeRef T) = some T') :
    T = T' := by
  induction T generalizing par fuel T' with
  | nil =>
    cases fuel with
    | zero => cases hread
    | succ fuel => exact some.inj hread
  | node c e l r ihl ihr =>
    obtain ⟨he, hl, hr⟩ := h
    cases fuel with
    | zero => cases hread
    | succ fuel =>
      rw [treeRef_node, readTree, he, bind_some] at hread
      obtain ⟨l', hl', hread⟩ := bind_eq_some_iff.mp hread
      obtain ⟨r', hr', hread⟩ := map_eq_some_iff.mp hread
      rw [ihl hl hl', ihr hr hr', ← hread]

theorem Runs.of_runOps [Inhabited κ] {style : PairStyle κ} {ok : Rbt κ → Op κ → Prop}
    {ops : List (Op κ)} {log : List (Bool × Op κ × Outcome κ)} {t' : Rbt κ}
    (h : Runs style ok log t) (hok : ∀ t, ∀ op ∈ ops, ok t op)
    (hrun : runOps ops t = some t') : ∃ log', Runs style ok log' t' := by
  induction ops generalizing log t with
  | nil =>
    cases hrun
    exact ⟨log, h⟩
  | cons op ops ih =>
    obtain ⟨⟨r, t1⟩, hexec, hrest⟩ := bind_eq_some_iff.mp hrun
    exact ih (h.step (hok t op (.head _)) hexec)
      (fun t op hmem => hok t op (.tail _ hmem)) hrest

def plainStyle : PairStyle ℕ where
  kcop := .simple
  vcop := .simple
  freeKey := false
  freeVal := false
  keeper := false
  comper a b := (a : ℤ) - b

def plainInsert (key : ℕ) : Op ℕ :=
  .insert .insert ⟨some key, none, 0, 0, []⟩ key ⟨0, 0, []⟩

/-- The root is a black leaf that may go. -/
theorem redBlack_of_runs_delete_root : ∃ log t, Runs plainStyle Op.KeepsBlack log t ∧
    log.length = 2 ∧ ∃ T, Shape t T ∧ T.RedBlack := by
  let T₁ : RbTree (Entry ℕ) := .node .black ⟨1, 1, 0, 0, []⟩ .nil .nil
  have hfirst : (runOps [plainInsert 1] (init plainStyle)).bind
      (fun t => (readTree t.mem 3 t.root).map fun T => (T, t.style.comper 1 1)) =
        some (T₁, 0) := by decide +kernel
  obtain ⟨t₁, hrun, hread⟩ := bind_eq_some_iff.mp hfirst
  obtain ⟨T, hread, hpair⟩ := map_eq_some_iff.mp hread
  obtain ⟨rfl, hcmp⟩ := Prod.mk.inj hpair
  obtain ⟨⟨r₁, t₁'⟩, hexec, hlast⟩ := bind_eq_some_iff.mp hrun
  cases hlast
  have hfree : (plainInsert 1).KeepsBlack (init plainStyle) := trivial
  have hruns := Runs.init.step hfree hexec
  have hkeeps : (Op.delete 1).KeepsBlack t₁' := by
    intro T hT hloses
    obtain rfl : T = T₁ := hT.stored.readTree_eq (hT.root ▸ hread)
    have hplace : descend (keyCmp t₁'.style 1) [] T₁ = ([], T₁) := by
      simp only [T₁, descend, keyCmp]
      exact if_pos hcmp
    rw [LosesLeaf, hplace] at hloses
    exact hloses.1 rfl
  obtain ⟨-, hnext⟩ := redBlack_of_runs hruns
  obtain ⟨r₂, t₂, hdelete, -⟩ := hnext (.delete 1)
  have hruns₂ := hruns.step hkeeps hdelete
  exact ⟨_, t₂, hruns₂, rfl, (redBlack_of_runs hruns₂).1⟩

/-- Of four pairs a red leaf is deleted, and the three that are left are searched in five
rounds. -/
theorem search_logarithmic_one : ∃ log t p, Runs plainStyle Op.KeepsBlack log t ∧
    log.length = 5 ∧ t.size = 3 ∧ (search 1).run t = some (p, t) ∧
    (searchFrom 1 5 t.root).run t = some (p, t) := by
  let d (n : ℕ) : Entry ℕ := ⟨n, n, 0, 0, []⟩
  let T₄ : RbTree (Entry ℕ) := .node .black (d 2) (.node .black (d 1) .nil .nil)
    (.node .black (d 3) .nil (.node .red (d 4) .nil .nil))
  have hcompute : ((plainInsert 1).exec.run (init plainStyle)).bind (fun p₁ =>
      ((plainInsert 2).exec.run p₁.2).bind fun p₂ =>
        ((plainInsert 3).exec.run p₂.2).bind fun p₃ =>
          ((plainInsert 4).exec.run p₃.2).bind fun p₄ =>
            (readTree p₄.2.mem 5 p₄.2.root).bind fun T =>
              ((Op.delete 4).exec.run p₄.2).map fun p₅ =>
                (T, p₄.2.style.comper 4 2, p₄.2.style.comper 4 3, p₄.2.style.comper 4 4,
                  p₅.2.size)) = some (T₄, 2, 1, 0, 3) := by decide +kernel
  obtain ⟨⟨r₁, t₁⟩, hrun₁, hrest⟩ := bind_eq_some_iff.mp hcompute
  obtain ⟨⟨r₂, t₂⟩, hrun₂, hrest⟩ := bind_eq_some_iff.mp hrest
  obtain ⟨⟨r₃, t₃⟩, hrun₃, hrest⟩ := bind_eq_some_iff.mp hrest
  obtain ⟨⟨r₄, t₄⟩, hrun₄, hrest⟩ := bind_eq_some_iff.mp hrest
  obtain ⟨T, hread, hrest⟩ := bind_eq_some_iff.mp hrest
  obtain ⟨⟨r₅, t₅⟩, hrun₅, hends⟩ := map_eq_some_iff.mp hrest
  simp only [Prod.mk.injEq] at hends
  obtain ⟨rfl, hcmp₂, hcmp₃, hcmp₄, hsize⟩ := hends
  have hinsert (n : ℕ) (t : Rbt ℕ) : (plainInsert n).KeepsBlack t := trivial
  have hkeeps : (Op.delete 4).KeepsBlack t₄ := by
    intro T hT hloses
    obtain rfl : T = T₄ := hT.stored.readTree_eq (hT.root ▸ hread)
    rw [LosesLeaf] at hloses
    simp [T₄, descend, keyCmp, d, hcmp₂, hcmp₃, hcmp₄, takenOut, LosesBlack] at hloses
  have hruns := ((((Runs.init.step (hinsert 1 _) hrun₁).step (hinsert 2 _) hrun₂).step
    (hinsert 3 _) hrun₃).step (hinsert 4 _) hrun₄).step hkeeps hrun₅
  obtain ⟨p, hsearch, hloop⟩ := search_logarithmic hruns 1
  rw [hsize] at hloop
  exact ⟨_, t₅, p, hruns, rfl, hsize, hsearch, hloop⟩

/-- After the keys 1 to 4 the leaf of 1 is black, and nothing replaces it. -/
theorem not_redBlack_delete_leaf : ∃ log t, Runs plainStyle (fun _ _ => True) log t ∧
    ∀ T, Shape t T → ¬T.RedBlack := by
  let ops := [plainInsert 1, plainInsert 2, plainInsert 3, plainInsert 4, .delete 1]
  let d (n : ℕ) : Entry ℕ := ⟨n, n, 0, 0, []⟩
  let T' : RbTree (Entry ℕ) := .node .black (d 2) .nil (.node .black (d 3) .nil
    (.node .red (d 4) .nil .nil))
  have hcompute : (runOps ops (init plainStyle)).bind
      (fun t => readTree t.mem 5 t.root) = some T' := by decide +kernel
  obtain ⟨t, hrun, hread⟩ := bind_eq_some_iff.mp hcompute
  have hinit : Runs plainStyle (fun _ _ => True) [] (init plainStyle) := Runs.init
  obtain ⟨log, hlog⟩ := hinit.of_runOps (fun _ _ _ => trivial) hrun
  refine ⟨log, t, hlog, fun T hT hrb => ?_⟩
  have heq : T = T' := hT.stored.readTree_eq (hT.root ▸ hread)
  obtain ⟨-, -, n, hn⟩ := heq ▸ hrb
  have hone : 1 = n := hn 1 (by decide)
  have htwo : 2 = n := hn 2 (by decide)
  omega

end Qse.Rbt
