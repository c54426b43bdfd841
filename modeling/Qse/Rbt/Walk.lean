import Qse.Rbt.KeyOrder

/-!
# Walking over the tree

`walk` keeps no stack: where it goes next follows from the pair it comes from. The walker is a
function of the tree, the pair and the context, and cannot change the tree.
-/

open List

namespace Qse.Rbt

open ColorTree StateProgram

variable {κ σ : Type}

/-- `qse_rbt_walk_t` -/
inductive WalkAnswer where
  | stop
  | forward
deriving DecidableEq

/-- `qse_rbt_walker_t`: the answer to a pair, and the context afterwards. -/
abbrev Walker (κ σ : Type) := Rbt κ → Ref → σ → WalkAnswer × σ

/-- The variables of `walk`. `called` is a ghost record of the pairs that the walker
has been called with. -/
structure Walking (σ : Type) where
  xCur : Ref
  prev : Ref
  called : List Ref
  ctx : σ

/-- `prev = x_cur; x_cur = p;` -/
def Walking.goTo (w : Walking σ) (p : Ref) : Walking σ :=
  { w with prev := w.xCur, xCur := p }

/-- Call the walker; unless it asks to stop, go down to `child[r]` or move up to the
parent. The flag tells whether the loop is left. -/
def callWalker (walker : Walker κ σ) (r : Side) (n : Pair κ) (w : Walking σ) :
    RbtM κ (Bool × Walking σ) := do
  let t ← get
  let (answer, ctx) := walker t w.xCur w.ctx
  let w := { w with called := w.called ++ [w.xCur], ctx := ctx }
  if answer = .stop then pure (true, w)
  else if n.child r ≠ .xnil then pure (false, w.goTo (n.child r))
  else pure (false, w.goTo n.parent)

def walkStep (walker : Walker κ σ) (l r : Side) (w : Walking σ) :
    RbtM κ (Bool × Walking σ) := do
  let n ← load w.xCur
  if w.prev = n.parent then
    if n.child l ≠ .xnil then pure (false, w.goTo (n.child l))
    else callWalker walker r n w
  else if w.prev = n.child l then callWalker walker r n w
  else pure (false, w.goTo n.parent)

def walkFrom (walker : Walker κ σ) (l r : Side) : ℕ → Walking σ → RbtM κ (List Ref × σ)
  | 0, _ => failure
  | fuel + 1, w =>
    if w.xCur = .null ∨ w.xCur = .xnil then pure (w.called, w.ctx)
    else do
      let (left, w) ← walkStep walker l r w
      if left then pure (w.called, w.ctx) else walkFrom walker l r fuel w

def walk (walker : Walker κ σ) (ctx : σ) (l r : Side) : RbtM κ (List Ref × σ) := do
  let t ← get
  let n ← load t.root
  walkFrom walker l r (2 * t.size + 1) ⟨t.root, n.parent, [], ctx⟩

def rbtWalk (walker : Walker κ σ) (ctx : σ) : RbtM κ (List Ref × σ) :=
  walk walker ctx .left .right

def rbtRwalk (walker : Walker κ σ) (ctx : σ) : RbtM κ (List Ref × σ) :=
  walk walker ctx .right .left

def sweep (walker : Walker κ σ) (t : Rbt κ) : List Ref → List Ref × σ → Bool × (List Ref × σ)
  | [], v => (false, v)
  | p :: ps, v =>
    match walker t p v.2 with
    | (.stop, ctx) => (true, (v.1 ++ [p], ctx))
    | (.forward, ctx) => sweep walker t ps (v.1 ++ [p], ctx)

def unlessStopped (t : Rbt κ) (v : Bool × (List Ref × σ))
    (next : List Ref × σ → Option ((List Ref × σ) × Rbt κ)) : Option ((List Ref × σ) × Rbt κ) :=
  if v.1 then some (v.2, t) else next v.2

theorem unlessStopped_append (walker : Walker κ σ) (t : Rbt κ) (ps qs : List Ref)
    (v : List Ref × σ) (next : List Ref × σ → Option ((List Ref × σ) × Rbt κ)) :
    unlessStopped t (sweep walker t (ps ++ qs) v) next =
      unlessStopped t (sweep walker t ps v)
        fun v => unlessStopped t (sweep walker t qs v) next := by
  induction ps generalizing v with
  | nil => rfl
  | cons p ps ih =>
    rw [cons_append, sweep, sweep]
    cases hw : walker t p v.2 with
    | mk answer ctx =>
    cases answer with
    | stop => rfl
    | forward => exact ih _

def goesOn (walker : Walker κ σ) (t : Rbt κ) : List Ref → σ → Option σ
  | [], ctx => some ctx
  | p :: ps, ctx =>
    match walker t p ctx with
    | (.stop, _) => none
    | (.forward, ctx) => goesOn walker t ps ctx

variable {walker : Walker κ σ} {t : Rbt κ} {ps : List Ref} {ctx : σ}

theorem sweep_goesOn {ctx' : σ} (h : goesOn walker t ps ctx = some ctx') (called : List Ref) :
    sweep walker t ps (called, ctx) = (false, (called ++ ps, ctx')) := by
  induction ps generalizing ctx called with
  | nil =>
    cases h
    rw [sweep, append_nil]
  | cons p ps ih =>
    rw [goesOn] at h
    rw [sweep]
    cases hw : walker t p ctx with
    | mk answer mid =>
    rw [hw] at h
    cases answer with
    | stop => exact absurd h (by simp)
    | forward =>
      simp only at h ⊢
      rw [ih h (called ++ [p])]
      simp

theorem sweep_stops {qs : List Ref} {p : Ref} {mid : σ} (h : goesOn walker t ps ctx = some mid)
    (hstop : (walker t p mid).1 = .stop) (called : List Ref) :
    sweep walker t (ps ++ p :: qs) (called, ctx) =
      (true, (called ++ (ps ++ [p]), (walker t p mid).2)) := by
  induction ps generalizing ctx called with
  | nil =>
    cases h
    rw [nil_append, sweep]
    cases hw : walker t p mid with
    | mk answer ctx' =>
    rw [hw] at hstop
    cases hstop
    rfl
  | cons q ps ih =>
    rw [goesOn] at h
    rw [cons_append, sweep]
    cases hw : walker t q ctx with
    | mk answer ctx' =>
    rw [hw] at h
    cases answer with
    | stop => exact absurd h (by simp)
    | forward =>
      simp only at h ⊢
      rw [ih h (called ++ [q])]
      simp

/-- The pairs of the tree, from the side `s` on. -/
def refsFrom (s : Side) (T : RbTree (Entry κ)) : List Ref :=
  match s with
  | .left => T.items.map fun e => .pair e.addr
  | .right => (T.items.map fun e => Ref.pair e.addr).reverse

@[simp] theorem refsFrom_nil (s : Side) : refsFrom s (.nil : RbTree (Entry κ)) = [] := by
  cases s <;> rfl

theorem refsFrom_node (s : Side) (c : Color) (e : Entry κ) (a b : RbTree (Entry κ)) :
    refsFrom s (.node c e a b) =
      refsFrom s ((RbTree.node c e a b).kid s) ++
        .pair e.addr :: refsFrom s ((RbTree.node c e a b).kid s.other) := by
  cases s <;> simp [refsFrom, RbTree.kid, Side.other]

theorem count_kids (s : Side) (c : Color) (e : Entry κ) (a b : RbTree (Entry κ)) :
    (RbTree.node c e a b).count =
      ((RbTree.node c e a b).kid s).count + ((RbTree.node c e a b).kid s.other).count + 1 := by
  rw [count_node]
  cases s
  · rfl
  · rw [Nat.add_comm a.count]
    rfl

theorem child_kid (s : Side) (c : Color) (e : Entry κ) (a b : RbTree (Entry κ)) (par : Ref) :
    (⟨e.data, c, par, treeRef a, treeRef b⟩ : Pair κ).child s =
      treeRef ((RbTree.node c e a b).kid s) := by
  cases s <;> rfl

section Step

variable {t : Rbt κ} {fs : List (Frame (Entry κ))} {c : Color} {e : Entry κ}
  {a b : RbTree (Entry κ)}

theorem run_load {p : Ref} {n : Pair κ} (h : t.mem p = some n) : (load p).run t = some (n, t) := by
  obtain ⟨m, t', hrun, hm⟩ :=
    (returns_load (Q := fun m t' => m = n ∧ t' = t)).mpr ⟨n, h, rfl, rfl⟩
  rw [hrun, hm.1, hm.2]

theorem Shape.kid_apart (h : Shape t (plug fs (.node c e a b))) (s : Side) {p : ℕ}
    (hp : treeRef ((RbTree.node c e a b).kid s) = .pair p) :
    p ∉ ctxAddrs fs ∧ p ∉ addrs ((RbTree.node c e a b).kid s.other) := by
  have hnd := h.nodup_plug
  have hmem := mem_addrs_of_treeRef hp
  simp only [addrs_node, nodup_append, nodup_cons, mem_append, mem_cons]
    at hnd
  cases s <;> simp only [RbTree.kid, Side.other] at hmem ⊢ <;> grind

theorem Shape.kid_ne_ctxRef (h : Shape t (plug fs (.node c e a b))) {s : Side}
    (hs : (RbTree.node c e a b).kid s ≠ .nil) :
    treeRef ((RbTree.node c e a b).kid s) ≠ ctxRef fs := by
  cases href : treeRef ((RbTree.node c e a b).kid s) with
  | null => exact absurd href (treeRef_ne_null _)
  | xnil => exact absurd (treeRef_eq_xnil.mp href) hs
  | pair p => exact ctxRef_ne_of_not_mem (h.kid_apart s href).1

theorem Shape.kid_ne_other (h : Shape t (plug fs (.node c e a b))) {s : Side}
    (hs : (RbTree.node c e a b).kid s ≠ .nil) :
    treeRef ((RbTree.node c e a b).kid s) ≠ treeRef ((RbTree.node c e a b).kid s.other) := by
  cases href : treeRef ((RbTree.node c e a b).kid s) with
  | null => exact absurd href (treeRef_ne_null _)
  | xnil => exact absurd (treeRef_eq_xnil.mp href) hs
  | pair p => exact (treeRef_ne_of_not_mem (h.kid_apart s href).2).symm

def callThen (t : Rbt κ) (walker : Walker κ σ) (l r : Side) (fuel : ℕ) (p : Ref) (n : Pair κ)
    (v : List Ref × σ) : Option ((List Ref × σ) × Rbt κ) :=
  unlessStopped t (sweep walker t [p] v) fun v =>
    (walkFrom walker l r fuel
      ⟨if n.child r ≠ .xnil then n.child r else n.parent, p, v.1, v.2⟩).run t

theorem callWalker_run (walker : Walker κ σ) (l r : Side) (fuel : ℕ) (n : Pair κ) (w : Walking σ) :
    ((callWalker walker r n w >>= fun q =>
        if q.1 then pure (q.2.called, q.2.ctx) else walkFrom walker l r fuel q.2).run t) =
      callThen t walker l r fuel w.xCur n (w.called, w.ctx) := by
  rw [StateT.run_bind, callWalker, StateT.run_bind, callThen, sweep]
  simp only [StateT.run_get, Option.pure_def, Option.bind_eq_bind, Option.bind_some]
  cases hw : walker t w.xCur w.ctx with
  | mk answer ctx =>
  cases answer with
  | stop => rfl
  | forward =>
    simp only [sweep, unlessStopped]
    by_cases hr : n.child r ≠ .xnil
    · simp only [if_pos hr]
      rfl
    · simp only [if_neg hr]
      rfl

theorem walkFrom_pair {p : ℕ} {n : Pair κ} (hn : t.mem (.pair p) = some n)
    (walker : Walker κ σ) (l r : Side) (fuel : ℕ) (prev : Ref) (v : List Ref × σ) :
    (walkFrom walker l r (fuel + 1) ⟨.pair p, prev, v.1, v.2⟩).run t =
      if prev = n.parent then
        if n.child l ≠ .xnil then
          (walkFrom walker l r fuel ⟨n.child l, .pair p, v.1, v.2⟩).run t
        else callThen t walker l r fuel (.pair p) n v
      else if prev = n.child l then callThen t walker l r fuel (.pair p) n v
      else (walkFrom walker l r fuel ⟨n.parent, .pair p, v.1, v.2⟩).run t := by
  have hcall := callWalker_run (t := t) walker l r fuel n ⟨.pair p, prev, v.1, v.2⟩
  rw [walkFrom, if_neg (by simp), walkStep, bind_assoc, StateT.run_bind, run_load hn]
  simp only [Option.bind_eq_bind, Option.bind_some]
  by_cases hprev : prev = n.parent
  · simp only [if_pos hprev]
    by_cases hchild : n.child l ≠ .xnil
    · simp only [if_pos hchild]
      rfl
    · simp only [if_neg hchild]
      exact hcall
  · simp only [if_neg hprev]
    by_cases hleft : prev = n.child l
    · simp only [if_pos hleft]
      exact hcall
    · simp only [if_neg hleft]
      rfl

theorem Shape.callThen_eq (h : Shape t (plug fs (.node c e a b))) (walker : Walker κ σ)
    (l : Side) (fuel : ℕ) (hsecond : (RbTree.node c e a b).kid l.other ≠ .nil → ∀ v : List Ref × σ,
      (walkFrom walker l l.other (fuel + 2 * ((RbTree.node c e a b).kid l.other).count)
          ⟨treeRef ((RbTree.node c e a b).kid l.other), .pair e.addr, v.1, v.2⟩).run t =
        unlessStopped t (sweep walker t (refsFrom l ((RbTree.node c e a b).kid l.other)) v) fun v =>
          (walkFrom walker l l.other (fuel + 1)
            ⟨.pair e.addr, treeRef ((RbTree.node c e a b).kid l.other), v.1, v.2⟩).run t)
    (v : List Ref × σ) :
    callThen t walker l l.other (fuel + 2 * ((RbTree.node c e a b).kid l.other).count)
        (.pair e.addr) ⟨e.data, c, ctxRef fs, treeRef a, treeRef b⟩ v =
      unlessStopped t (sweep walker t
          (.pair e.addr :: refsFrom l ((RbTree.node c e a b).kid l.other)) v) fun v =>
        (walkFrom walker l l.other fuel ⟨ctxRef fs, .pair e.addr, v.1, v.2⟩).run t := by
  rw [← singleton_append, unlessStopped_append, callThen]
  congr 1
  funext v
  rw [child_kid]
  by_cases hnil : (RbTree.node c e a b).kid l.other = .nil
  · rw [hnil, treeRef_nil, if_neg (by simp), refsFrom_nil]
    rfl
  have hchild : treeRef ((RbTree.node c e a b).kid l.other) ≠ .xnil :=
    fun heq => hnil (treeRef_eq_xnil.mp heq)
  have hne := h.kid_ne_other hnil
  rw [Side.other_other] at hne
  rw [if_pos hchild, hsecond hnil v]
  congr 1
  funext v
  rw [walkFrom_pair h.node_eq, if_neg (h.kid_ne_ctxRef hnil), child_kid, if_neg hne]

theorem Shape.walkFrom_subtree {s : RbTree (Entry κ)} (h : Shape t (plug fs s)) (hs : s ≠ .nil)
    (walker : Walker κ σ) (l : Side) {fuel fuel' : ℕ} (hfuel : fuel' + 1 = fuel + 2 * s.count)
    (v : List Ref × σ) :
    (walkFrom walker l l.other fuel' ⟨treeRef s, ctxRef fs, v.1, v.2⟩).run t =
      unlessStopped t (sweep walker t (refsFrom l s) v) fun v =>
        (walkFrom walker l l.other fuel ⟨ctxRef fs, treeRef s, v.1, v.2⟩).run t := by
  induction s generalizing fs fuel fuel' v with
  | nil => exact absurd rfl hs
  | node c e a b iha ihb =>
    -- a subtree on either side is walked over by the induction hypothesis
    have hkid (side : Side) (hne : (RbTree.node c e a b).kid side ≠ .nil) {k k' : ℕ}
        (hk : k' + 1 = k + 2 * ((RbTree.node c e a b).kid side).count) (v : List Ref × σ) :
        (walkFrom walker l l.other k'
            ⟨treeRef ((RbTree.node c e a b).kid side), .pair e.addr, v.1, v.2⟩).run t =
          unlessStopped t (sweep walker t (refsFrom l ((RbTree.node c e a b).kid side)) v)
            fun v => (walkFrom walker l l.other k
              ⟨.pair e.addr, treeRef ((RbTree.node c e a b).kid side), v.1, v.2⟩).run t := by
      cases side with
      | left =>
        have hleft : Shape t (plug (⟨.left, c, e, b⟩ :: fs) a) := h
        exact iha hleft hne hk v
      | right =>
        have hright : Shape t (plug (⟨.right, c, e, a⟩ :: fs) b) := h
        exact ihb hright hne hk v
    have hcall := h.callThen_eq walker l fuel fun hne v => hkid l.other hne (by omega) v
    have hcount := count_kids l c e a b
    rw [refsFrom_node, unlessStopped_append, treeRef_node]
    simp only [← hcall]
    by_cases hnil : (RbTree.node c e a b).kid l = .nil
    · rw [hnil] at hcount ⊢
      obtain rfl : fuel' = fuel + 2 * ((RbTree.node c e a b).kid l.other).count + 1 := by
        simp only [RbTree.count, RbTree.items_nil, length_nil] at hcount hfuel ⊢
        omega
      rw [walkFrom_pair h.node_eq, if_pos rfl, child_kid, hnil, if_neg (by simp), refsFrom_nil]
      rfl
    · have hchild : treeRef ((RbTree.node c e a b).kid l) ≠ .xnil :=
        fun heq => hnil (treeRef_eq_xnil.mp heq)
      obtain ⟨k, rfl⟩ : ∃ k, fuel' = k + 1 := ⟨fuel' - 1, by omega⟩
      rw [walkFrom_pair h.node_eq, if_pos rfl, child_kid, if_pos hchild]
      rw [@hkid l hnil (fuel + 2 * ((RbTree.node c e a b).kid l.other).count + 1) k
        (by omega) v]
      congr 1
      funext v
      rw [walkFrom_pair h.node_eq, if_neg (h.kid_ne_ctxRef hnil), child_kid, if_pos rfl]

end Step

theorem Holds.walk_run {T : RbTree (Entry κ)} (h : Holds t T) (walker : Walker κ σ) (ctx : σ)
    (l : Side) :
    (walk walker ctx l l.other).run t = some ((sweep walker t (refsFrom l T) ([], ctx)).2, t) := by
  have hroot : ∃ n, t.mem t.root = some n ∧ n.parent = .null := by
    rw [h.shape.root]
    cases T with
    | nil =>
      obtain ⟨n, hn, hnil⟩ := h.shape.xnil
      exact ⟨n, hn, hnil.parent⟩
    | node c e a b => exact ⟨_, h.shape.stored.1, rfl⟩
  obtain ⟨n, hn, hparent⟩ := hroot
  rw [walk, StateT.run_bind]
  simp only [StateT.run_get, Option.pure_def, Option.bind_eq_bind, Option.bind_some]
  rw [StateT.run_bind, run_load hn]
  simp only [Option.bind_eq_bind, Option.bind_some, hparent, h.shape.root, h.size]
  by_cases hnil : T = .nil
  · subst hnil
    rw [treeRef_nil, walkFrom, if_pos (.inr rfl), refsFrom_nil]
    rfl
  · have hsub := @Shape.walkFrom_subtree κ σ t [] T h.shape hnil walker l 2 (2 * T.count + 1)
      (by omega) ([], ctx)
    refine hsub.trans ?_
    rw [unlessStopped]
    split
    · rfl
    · rw [ctxRef, walkFrom, if_pos (.inl rfl)]
      rfl

/-- `c` calls the walker once for each of the pairs `ps`, in order, up to the first at
which the walker asks to stop, and returns with the tree as it was. -/
structure CallsInOrder (walker : Walker κ σ) (t : Rbt κ) (ps : List Ref) (ctx : σ)
    (c : RbtM κ (List Ref × σ)) : Prop where
  returns : ∃ called ctx', c.run t = some ((called, ctx'), t)
  all : ∀ ctx', goesOn walker t ps ctx = some ctx' → c.run t = some ((ps, ctx'), t)
  upTo : ∀ before p after mid, ps = before ++ p :: after →
    goesOn walker t before ctx = some mid → (walker t p mid).1 = .stop →
    c.run t = some ((before ++ [p], (walker t p mid).2), t)

theorem CallsInOrder.of_run {c : RbtM κ (List Ref × σ)}
    (h : c.run t = some ((sweep walker t ps ([], ctx)).2, t)) :
    CallsInOrder walker t ps ctx c where
  returns := ⟨_, _, h⟩
  all := by
    intro ctx' hgoes
    rw [h, sweep_goesOn hgoes, nil_append]
  upTo := by
    intro before p after mid hps hgoes hstop
    rw [h, hps, sweep_stops hgoes hstop, nil_append]

/-- In every state that calls lead to, `qse_rbt_walk` calls a walker for the pairs from
left to right and `qse_rbt_rwalk` from right to left, each of them once; from left to
right the keys increase. -/
theorem walk_of_runs [Inhabited κ] {style : PairStyle κ} {ok : Rbt κ → Op κ → Prop}
    {log : List (Bool × Op κ × Outcome κ)} {t : Rbt κ} (h : Runs style ok log t)
    (walker : Walker κ σ) (ctx : σ) :
    ∃ T, Shape t T ∧ t.size = T.count ∧ (refsFrom .left T).Nodup ∧
      (KeyOrder style.comper → (∀ t op, t.style = style → ok t op → op.KeepsKeys t) →
        Ordered style T) ∧
      CallsInOrder walker t (refsFrom .left T) ctx (rbtWalk walker ctx) ∧
      CallsInOrder walker t (refsFrom .right T) ctx (rbtRwalk walker ctx) := by
  obtain ⟨T, hT, -⟩ := h.noRedRed
  refine ⟨T, hT.shape, hT.size, ?_, ?_, ?_, ?_⟩
  · have hrefs : refsFrom .left T = (addrs T).map Ref.pair := by
      rw [refsFrom, addrs, map_map]
      rfl
    rw [hrefs]
    refine hT.shape.nodup.map ?_
    intro p q hpq
    exact Ref.pair.inj hpq
  · intro hs hok
    obtain ⟨-, T', hT', hord⟩ := h.ordered hs hok
    rw [hT.shape.unique hT'.shape]
    exact hord
  · exact .of_run (hT.walk_run walker ctx .left)
  · exact .of_run (hT.walk_run walker ctx .right)

def stopAtSecond : Walker ℕ ℕ := fun _ _ n => (if n = 1 then .stop else .forward, n + 1)

/-- Three pairs inserted out of order, walked over in decreasing order up to the
second. -/
theorem walk_of_runs_three : ∃ log t T,
    Runs plainStyle (fun t op => t.style = plainStyle → op.KeepsKeys t) log t ∧
      (rbtRwalk stopAtSecond 0).run t = some (([.pair 3, .pair 2], 2), t) ∧
      Ordered plainStyle T ∧
      CallsInOrder stopAtSecond t (refsFrom .right T) 0 (rbtRwalk stopAtSecond 0) := by
  let ops := [plainInsert 2, plainInsert 3, plainInsert 1]
  have hcompute : (runOps ops (init plainStyle)).bind (fun t =>
      ((rbtRwalk stopAtSecond 0).run t).map (·.1)) = some ([.pair 3, .pair 2], 2) := by
    decide +kernel
  obtain ⟨t, hrun, hwalk⟩ := Option.bind_eq_some_iff.mp hcompute
  have hcalls : ∀ t, ∀ op ∈ ops, t.style = plainStyle → op.KeepsKeys t := by
    intro t op hop hstyle
    have hself (key : ℕ) : (plainInsert key).KeepsKeys t := by
      refine ⟨fun k hk => ?_, fun _ _ hv => ?_⟩
      · rw [hstyle] at hk ⊢
        cases hk
        exact Int.sub_self _
      · rw [hstyle] at hv
        cases hv
    simp only [ops, mem_cons, not_mem_nil, or_false] at hop
    rcases hop with rfl | rfl | rfl <;> exact hself _
  have hinit : Runs plainStyle (fun t op => t.style = plainStyle → op.KeepsKeys t) []
      (init plainStyle) := Runs.init
  obtain ⟨log, hlog⟩ := hinit.of_runOps hcalls hrun
  obtain ⟨T, -, -, -, hord, -, hrwalk⟩ := walk_of_runs hlog stopAtSecond 0
  obtain ⟨called, ctx, hreturns⟩ := hrwalk.returns
  rw [hreturns] at hwalk
  have hpair : (called, ctx) = ([.pair 3, .pair 2], 2) := Option.some.inj hwalk
  rw [hpair] at hreturns
  refine ⟨log, t, T, hlog, hreturns, hord ?_ fun t op hstyle hop => hop hstyle, hrwalk⟩
  constructor
  · intro a b
    simp only [plainStyle]
    omega
  · intro a b c
    simp only [plainStyle]
    omega

end Qse.Rbt
