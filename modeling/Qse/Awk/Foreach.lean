import Qse.Awk.CallStack
import Qse.Htb.Layout

/-!
# `for (k in m)`

A translation of `walk_foreach` and `run_foreach` of `lib/awk/run.c`, over the walk of
`lib/cmn/htb.c`. The body of the loop runs in the middle of the walk and gets at the map through
`qse_htb_upsert`, `qse_htb_delete`, `qse_htb_clear` and `qse_htb_search` only. All else that the
body does is a parameter.
-/

open List

namespace Qse.Awk

open StateProgram
open Htb (Walk Position WalkSignal Walking walkBucket walkStep walkFrom)

structure MapKey (scale : ℕ) where
  bytes : List UInt8
  whole : bytes.length % scale = 0
deriving DecidableEq

/-- `KLEN(pair)` -/
def MapKey.klen {scale : ℕ} (key : MapKey scale) : ℕ := key.bytes.length / scale

def memcmp : ℕ → List UInt8 → List UInt8 → ℤ
  | n + 1, b1 :: s1, b2 :: s2 => if b1 ≠ b2 then b1.toNat - b2.toNat else memcmp n s1 s2
  | _, _, _ => 0

/-- `QSE_HASH_VALUE(hv,v)` -/
def hashValue (hv : UInt64) (v : UInt8) : UInt64 := (hv ^^^ v.toUInt64) * 0x100000001B3

/-- `qse_htb_dflhash`, which takes the length in characters for one in bytes. -/
def dflhash {scale : ℕ} (key : MapKey scale) : ℕ :=
  ((key.bytes.take key.klen).foldl hashValue 0xCBF29CE484222325).toNat

def dflcomp {scale : ℕ} (key1 key2 : MapKey scale) : ℤ :=
  if key1.klen = key2.klen then memcmp (key1.klen * scale) key1.bytes key2.bytes else 1

/-- The style that `qse_awk_rtx_makemapval` sets. -/
def mapStyle (scale : ℕ) : PairStyle (MapKey scale) where
  kcop := .inline
  vcop := .simple
  freeKey := false
  freeVal := true
  keeper := true
  comper := dflcomp

/-- The table of `qse_awk_rtx_makemapval`. -/
def makemapval {scale : ℕ} (env : BucketEnv) : Option (Htb (MapKey scale)) :=
  Htb.init (mapStyle scale) dflhash false env 256 70

inductive MapCall (scale : ℕ) where
  | upsert (env : PairEnv (MapKey scale)) (benv : BucketEnv) (key : MapKey scale) (val : Buffer)
  | delete (key : MapKey scale)
  | clear
  | search (key : MapKey scale)

def MapCall.run {scale : ℕ} : MapCall scale → HtbM (MapKey scale) PUnit
  | .upsert env benv key val => do
    let _ ← Htb.insert env benv key val .upsert
  | .delete key => do
    let _ ← Htb.delete key
  | .clear => Htb.clear
  | .search key => do
    let _ ← Htb.search key

def runCalls {scale : ℕ} : List (MapCall scale) → HtbM (MapKey scale) PUnit
  | [] => pure ⟨⟩
  | c :: calls => do
    c.run
    runCalls calls

def MapCall.removes {scale : ℕ} (key : MapKey scale) : MapCall scale → Bool
  | .delete key' => key = key'
  | .clear => true
  | _ => false

def IsMap {scale : ℕ} (t : Htb (MapKey scale)) : Prop :=
  ∃ env t0 calls, makemapval env = some t0 ∧ (runCalls calls).run t0 = some (⟨⟩, t)

structure LoopRtx (σ : Type) where
  exitLevel : ExitLevel
  rest : σ

/-- What the parts of a loop do: `false` for a null pointer or -1. The calls that the body
makes on the map depend on all that it finds when it begins. -/
structure Foreach (scale : ℕ) (σ : Type) where
  makestrval : MapKey scale → LoopRtx σ → Bool × LoopRtx σ
  doAssignment : MapKey scale → LoopRtx σ → Bool × LoopRtx σ
  runStatement : Htb (MapKey scale) → LoopRtx σ → List (MapCall scale) × Bool × LoopRtx σ

/-- A run of the body: the key, the map before, and the calls that are made on it. -/
structure Visit (scale : ℕ) where
  key : MapKey scale
  table : Htb (MapKey scale)
  calls : List (MapCall scale)

/-- `struct foreach_walker_t`. -/
structure ForeachWalker (scale : ℕ) (σ : Type) where
  rtx : LoopRtx σ
  ret : ℤ
  visits : List (Visit scale)

variable {scale : ℕ} {σ : Type}

def walkForeach (loop : Foreach scale σ) : Htb.Walker (MapKey scale) (ForeachWalker scale σ) :=
  fun w a => do
    let n ← Htb.load a
    let (made, rtx) := loop.makestrval n.item.key w.rtx
    if ¬made then pure (.stop, { w with rtx := rtx, ret := -1 })
    else
      let (assigned, rtx) := loop.doAssignment n.item.key rtx
      if ¬assigned then pure (.stop, { w with rtx := rtx, ret := -1 })
      else
        let t ← get
        let (calls, ok, rtx) := loop.runStatement t rtx
        runCalls calls
        let w := { w with rtx := rtx, visits := w.visits ++ [⟨n.item.key, t, calls⟩] }
        if ¬ok then pure (.stop, { w with ret := -1 })
        else
          match rtx.exitLevel with
          | .exitBreak => pure (.stop, { w with rtx := { rtx with exitLevel := .exitNone } })
          | .exitContinue => pure (.forward, { w with rtx := { rtx with exitLevel := .exitNone } })
          | .exitNone => pure (.forward, w)
          | _ => pure (.stop, w)

/-- What `test->right` evaluates to. -/
inductive Collection where
  | failed
  | nil
  | map
  | other
deriving DecidableEq

def runForeach (loop : Foreach scale σ) (rv : Collection) (fuel : ℕ) (rtx : LoopRtx σ) :
    HtbM (MapKey scale) (Walk (ForeachWalker scale σ)) :=
  match rv with
  | .failed => pure (.over .stop ⟨rtx, -1, []⟩)
  | .nil => pure (.over .forward ⟨rtx, 0, []⟩)
  | .map => Htb.walk (walkForeach loop) fuel ⟨rtx, 0, []⟩
  | .other => pure (.over .stop ⟨rtx, -1, []⟩)

def Stays (t : Htb (MapKey scale)) (visits : List (Visit scale)) (key : MapKey scale) : Prop :=
  t.lookup key ≠ none ∧ ∀ v ∈ visits, ∀ c ∈ v.calls, c.removes key = false

def visitCount (visits : List (Visit scale)) (key : MapKey scale) : ℕ :=
  (visits.map Visit.key).count key

/-- The loop ends without getting at a pair that has been freed. It visits only keys that
are in the map when their turn comes, a key that stays in the map once at most, and, if
it is not left early, exactly once. -/
def Traverses (loop : Foreach scale σ) (rv : Collection) (rtx : LoopRtx σ)
    (t : Htb (MapKey scale)) : Prop :=
  ∃ fuel signal w t', (runForeach loop rv fuel rtx).run t = some (.over signal w, t') ∧
    (∀ v ∈ w.visits, v.table.lookup v.key ≠ none) ∧
    (rv ≠ .map → w.visits = []) ∧
    (rv = .map → ∀ key, Stays t w.visits key → visitCount w.visits key ≤ 1 ∧
      (signal = .forward → visitCount w.visits key = 1))

def Foreach.GoesOn (loop : Foreach scale σ) (key : MapKey scale) (rtx : LoopRtx σ)
    (t : Htb (MapKey scale)) (calls : List (MapCall scale)) : Prop :=
  (loop.makestrval key rtx).1 = true ∧
    (loop.doAssignment key (loop.makestrval key rtx).2).1 = true ∧
    ∃ rtx', loop.runStatement t (loop.doAssignment key (loop.makestrval key rtx).2).2 =
        (calls, true, rtx') ∧
      (rtx'.exitLevel = .exitNone ∨ rtx'.exitLevel = .exitContinue)

/-- The body that is run at a position, if the loop goes on, leaves the pair that follows in
the map, and the bucket as large as it is. -/
def Undisturbed (loop : Foreach scale σ) (pos : Position (ForeachWalker scale σ))
    (t : Htb (MapKey scale)) : Prop :=
  ∀ a n calls, pos.pair = some a → t.mem a = some n → loop.GoesOn n.item.key pos.ctx.rtx t calls →
    (∀ b m, n.next = some b → t.mem b = some m → ∀ c ∈ calls, c.removes m.item.key = false) ∧
      ∀ t', (runCalls calls).run t = some (⟨⟩, t') → t'.capa = t.capa

theorem memcmp_eq_zero (s1 s2 : List UInt8) (hlen : s1.length = s2.length) :
    memcmp s1.length s1 s2 = 0 ↔ s1 = s2 := by
  induction s1 generalizing s2 with
  | nil =>
    obtain rfl := length_eq_zero_iff.mp hlen.symm
    exact ⟨fun _ => rfl, fun _ => rfl⟩
  | cons b1 s1 ih =>
    obtain ⟨b2, s2, rfl⟩ := exists_cons_of_length_eq_add_one hlen.symm
    rw [length_cons, length_cons, Nat.add_right_cancel_iff] at hlen
    rw [length_cons, memcmp, List.cons.injEq]
    by_cases hb : b1 = b2
    · rw [if_neg (not_not_intro hb), ih s2 hlen]
      exact ⟨fun h => ⟨hb, h⟩, fun h => h.2⟩
    · rw [if_pos hb]
      refine ⟨fun h => absurd ?_ hb, fun h => absurd h.1 hb⟩
      exact UInt8.toNat_inj.mp (by omega)

theorem MapKey.length_eq (key : MapKey scale) : key.bytes.length = key.klen * scale := by
  have hdiv := Nat.div_add_mod key.bytes.length scale
  rw [key.whole, add_zero, mul_comm] at hdiv
  exact hdiv.symm

theorem dflcomp_eq_zero (key1 key2 : MapKey scale) : dflcomp key1 key2 = 0 ↔ key1 = key2 := by
  rw [dflcomp]
  by_cases hlen : key1.klen = key2.klen
  · have hbytes : key1.bytes.length = key2.bytes.length := by
      rw [key1.length_eq, key2.length_eq, hlen]
    rw [if_pos hlen, ← key1.length_eq, memcmp_eq_zero _ _ hbytes]
    cases key1
    cases key2
    simp
  · rw [if_neg hlen]
    refine ⟨fun h => absurd h (by decide), ?_⟩
    rintro rfl
    exact absurd rfl hlen

theorem agrees_dfl : Htb.Agrees (@dflcomp scale) dflhash where
  refl a := (dflcomp_eq_zero a a).mpr rfl
  symm a b h := (dflcomp_eq_zero b a).mpr ((dflcomp_eq_zero a b).mp h).symm
  trans a b c h h' := (dflcomp_eq_zero a c).mpr
    (((dflcomp_eq_zero a b).mp h).trans ((dflcomp_eq_zero b c).mp h'))
  hash a b h := congrArg dflhash ((dflcomp_eq_zero a b).mp h)

/-! ## Maps and their chains -/

/-- A map with the chains `cs`. -/
structure MapShape (t : Htb (MapKey scale)) (cs : List (List (Htb.Entry (MapKey scale)))) :
    Prop where
  shape : Htb.Shape t cs
  style : t.style = mapStyle scale
  hasher : t.hasher = dflhash
  sizer : t.sizer = false
  distinct : Htb.Distinct t.style cs.flatten

section Calls

variable {t t' : Htb (MapKey scale)} {cs cs' : List (List (Htb.Entry (MapKey scale)))}
  {key : MapKey scale}

theorem MapShape.agrees (hm : MapShape t cs) : Htb.Agrees t.style.comper t.hasher := by
  rw [hm.style, hm.hasher]
  exact agrees_dfl

theorem MapShape.hasKey_iff (hm : MapShape t cs) {e : Htb.Entry (MapKey scale)} :
    t.HasKey key e ↔ e.2.key = key := by
  rw [Htb.HasKey, hm.style]
  exact dflcomp_eq_zero _ _

theorem MapShape.lookup_iff (hm : MapShape t cs) :
    t.lookup key ≠ none ↔ Htb.Holds (Htb.layout cs) key := by
  rw [Htb.lookup_ne_none hm.shape hm.agrees, Htb.holds_layout]
  simp only [hm.hasKey_iff]

/-- The map after some calls: its bucket is no smaller, and if it has not grown, a place in
a chain is kept. -/
structure Changed (t : Htb (MapKey scale)) (cs : List (List (Htb.Entry (MapKey scale))))
    (calls : List (MapCall scale)) (t' : Htb (MapKey scale))
    (cs' : List (List (Htb.Entry (MapKey scale)))) : Prop where
  map : MapShape t' cs'
  capa : t.capa ≤ t'.capa
  passes : t'.capa = t.capa →
    Htb.Passes (fun key => ∀ c ∈ calls, c.removes key = false) (Htb.layout cs) (Htb.layout cs')

theorem MapShape.changed (hm : MapShape t cs) {kept : MapKey scale → Bool} {c : MapCall scale}
    (hkept : ∀ k, kept k = !c.removes k) (h : Htb.Moved t cs key kept t' cs') :
    Changed t cs [c] t' cs' := by
  refine ⟨⟨h.left.shape, h.left.style.trans hm.style, h.left.hasher.trans hm.hasher, h.sizer, ?_⟩,
    h.capa, fun hcapa => ?_⟩
  · rw [h.left.style]
    exact h.distinct hm.distinct
  · have hstays : (fun k => ∀ c' ∈ [c], c'.removes k = false) = fun k => kept k = true := by
      funext k
      simp [hkept]
    rw [hstays]
    rcases h.layout hm.distinct hcapa with hsame | ⟨hno, hpushed⟩
    · rw [hsame]
      exact Htb.passes_filter kept _
    · refine Htb.passes_pushed (fun hholds => ?_) hpushed
      obtain ⟨e, he, hkey⟩ := Htb.holds_layout.mp hholds
      exact hno e he (hm.hasKey_iff.mpr hkey)

theorem MapCall.run_returns (hm : MapShape t cs) (c : MapCall scale) :
    Returns c.run t fun _ t' => ∃ cs', Changed t cs [c] t' cs' := by
  cases c with
  | upsert env benv key val =>
    rw [MapCall.run, returns_bind]
    refine (Htb.upsert_moves hm.shape hm.agrees hm.sizer (by rw [hm.style]; rfl)
      (by rw [hm.style]; rfl) env benv key val).mono ?_
    rintro - t' ⟨cs', h⟩
    exact returns_pure.mpr ⟨cs', hm.changed (fun _ => rfl) h⟩
  | delete key =>
    rw [MapCall.run, returns_bind]
    refine (Htb.delete_moves hm.shape hm.agrees hm.sizer key).mono ?_
    rintro - t' ⟨cs', h⟩
    refine returns_pure.mpr ⟨cs', hm.changed (fun k => ?_) h⟩
    have hiff : t.style.comper k key ≠ 0 ↔ ¬k = key := by
      rw [hm.style]
      exact (dflcomp_eq_zero k key).not
    simp only [hiff, MapCall.removes, decide_not]
  | clear =>
    -- any key will do, as nothing is put into the map
    refine (Htb.clear_moves hm.shape hm.sizer ⟨[], Nat.zero_mod _⟩).mono ?_
    rintro - t' ⟨cs', h⟩
    exact ⟨cs', hm.changed (fun _ => rfl) h⟩
  | search key =>
    rw [MapCall.run, returns_bind]
    refine (Htb.search_moves hm.shape hm.agrees hm.sizer key).mono ?_
    rintro - t' ⟨cs', h⟩
    exact returns_pure.mpr ⟨cs', hm.changed (fun _ => rfl) h⟩

theorem runCalls_returns (hm : MapShape t cs) (calls : List (MapCall scale)) :
    Returns (runCalls calls) t fun _ t' => ∃ cs', Changed t cs calls t' cs' := by
  induction calls generalizing t cs with
  | nil =>
    exact returns_pure.mpr ⟨cs, hm, le_rfl, fun _ => Htb.Passes.refl _ _⟩
  | cons c calls ih =>
    rw [runCalls, returns_bind]
    refine (c.run_returns hm).mono ?_
    rintro - t1 ⟨cs1, h1⟩
    refine (ih h1.map).mono ?_
    rintro - t2 ⟨cs2, h2⟩
    refine ⟨cs2, h2.map, le_trans h1.capa h2.capa, fun hcapa => ?_⟩
    have hcapa1 : t1.capa = t.capa := le_antisymm (hcapa ▸ h2.capa) h1.capa
    have hpasses := (h1.passes hcapa1).trans (h2.passes (hcapa.trans hcapa1.symm))
    have hstays : (fun k => ∀ c' ∈ c :: calls, c'.removes k = false) = fun k =>
        (∀ c' ∈ [c], c'.removes k = false) ∧ ∀ c' ∈ calls, c'.removes k = false := by
      funext k
      simp
    rw [hstays]
    exact hpasses

theorem makemapval_shape {env : BucketEnv} (h : makemapval env = some t) : ∃ cs, MapShape t cs := by
  obtain ⟨hstyle, hhasher, cs, hshape, hdistinct, -⟩ := Htb.init_models (by decide) h
  exact ⟨cs, hshape, hstyle, hhasher, Htb.init_sizer h, hdistinct⟩

theorem IsMap.shape (h : IsMap t) : ∃ cs, MapShape t cs := by
  obtain ⟨env, t0, calls, hmake, hrun⟩ := h
  obtain ⟨cs, hm⟩ := makemapval_shape hmake
  obtain ⟨cs', h'⟩ := (runCalls_returns hm calls).of_run hrun
  exact ⟨cs', h'.map⟩

end Calls

/-! ## The walk -/

section Walk

variable {loop : Foreach scale σ} {t t' : Htb (MapKey scale)}
  {cs cs' : List (List (Htb.Entry (MapKey scale)))} {key : MapKey scale}

theorem MapShape.place (hm : MapShape t cs) {i : ℕ} {done rest : List (ℕ × MapKey scale)}
    {x : ℕ × MapKey scale} (hi : (Htb.layout cs)[i]? = some (done ++ x :: rest)) :
    ∃ n, t.mem x.1 = some n ∧ n.item.key = x.2 ∧ n.next = rest.head?.map Prod.fst := by
  obtain ⟨l, hl, hmap⟩ := Option.map_eq_some_iff.mp (getElem?_map ▸ hi)
  obtain ⟨pre, l', rfl, -, hl'⟩ := map_eq_append_iff.mp hmap
  obtain ⟨e, post, rfl, rfl, rfl⟩ := map_eq_cons_iff.mp hl'
  obtain ⟨-, next, -, -, hcell, hpost⟩ := hm.shape.split hl
  refine ⟨_, hcell, rfl, hpost.eq_first.trans ?_⟩
  cases post with
  | nil => rfl
  | cons e' post => rfl

/-- What is known at a place of a walk: the keys that stay are counted once as soon as they
are no longer ahead. -/
structure Going (t0 : Htb (MapKey scale)) (visits : List (Visit scale))
    (ks : List (List (ℕ × MapKey scale))) (i : ℕ) (rest : List (ℕ × MapKey scale)) : Prop where
  present : ∀ v ∈ visits, v.table.lookup v.key ≠ none
  held : ∀ key, Stays t0 visits key → Htb.Holds ks key
  ahead : ∀ key, Stays t0 visits key → Htb.Ahead ks i rest key → visitCount visits key = 0
  behind : ∀ key, Stays t0 visits key → ¬Htb.Ahead ks i rest key → visitCount visits key = 1

structure Stands (loop : Foreach scale σ) (t0 : Htb (MapKey scale)) (rtx : LoopRtx σ) (m n : ℕ)
    (pos : Position (ForeachWalker scale σ)) (t : Htb (MapKey scale)) : Prop where
  walking : Walking (walkForeach loop) t0 ⟨rtx, 0, []⟩ pos t
  place : ∃ cs done rest, MapShape t cs ∧ (Htb.layout cs)[pos.i]? = some (done ++ rest) ∧
    pos.pair = rest.head?.map Prod.fst ∧ m = t.capa - pos.i ∧ n = rest.length ∧
    Going t0 pos.ctx.visits (Htb.layout cs) pos.i rest

def Traversed (t0 : Htb (MapKey scale)) (signal : WalkSignal) (visits : List (Visit scale)) :
    Prop :=
  (∀ v ∈ visits, v.table.lookup v.key ≠ none) ∧
    ∀ key, Stays t0 visits key → visitCount visits key ≤ 1 ∧
      (signal = .forward → visitCount visits key = 1)

section Place

variable {t0 : Htb (MapKey scale)} {visits : List (Visit scale)}
  {ks ks' : List (List (ℕ × MapKey scale))} {i i' : ℕ}
  {done rest rest' : List (ℕ × MapKey scale)} {x : ℕ × MapKey scale}
  {calls : List (MapCall scale)}

theorem Going.stopped (h : Going t0 visits ks i rest) : Traversed t0 .stop visits := by
  refine ⟨h.present, fun key hstays => ⟨?_, fun hsignal => by cases hsignal⟩⟩
  by_cases hahead : Htb.Ahead ks i rest key
  · rw [h.ahead key hstays hahead]
    exact Nat.zero_le 1
  · exact le_of_eq (h.behind key hstays hahead)

theorem Going.move (h : Going t0 visits ks i rest)
    (hahead : ∀ key, Htb.Ahead ks i' rest' key ↔ Htb.Ahead ks i rest key) :
    Going t0 visits ks i' rest' :=
  ⟨h.present, h.held, fun key hstays ha => h.ahead key hstays ((hahead key).mp ha),
    fun key hstays ha => h.behind key hstays fun ha' => ha ((hahead key).mpr ha')⟩

theorem Going.ended (h : Going t0 visits ks i rest) (hnone : ∀ key, ¬Htb.Ahead ks i rest key)
    (signal : WalkSignal) : Traversed t0 signal visits :=
  ⟨h.present, fun key hstays =>
    have hone := h.behind key hstays (hnone key)
    ⟨le_of_eq hone, fun _ => hone⟩⟩

theorem ahead_next {ks : List (List (ℕ × MapKey scale))} {i : ℕ} {l : List (ℕ × MapKey scale)}
    (hl : ks[i + 1]? = some l) : Htb.Ahead ks (i + 1) l key ↔ Htb.Ahead ks i [] key := by
  constructor
  · rintro (hx | ⟨j, l', hij, hj, hx⟩)
    · exact .inr ⟨i + 1, l, lt_add_one i, hl, hx⟩
    · exact .inr ⟨j, l', Nat.lt_of_succ_lt hij, hj, hx⟩
  · rintro (⟨x, hx, -⟩ | ⟨j, l', hij, hj, hx⟩)
    · exact absurd hx not_mem_nil
    · rcases Nat.eq_or_lt_of_le hij with heq | hlt
      · subst heq
        obtain rfl := Option.some.inj (hl.symm.trans hj)
        exact .inl hx
      · exact .inr ⟨j, l', hlt, hj, hx⟩

theorem not_ahead_end {ks : List (List (ℕ × MapKey scale))} {i : ℕ} (hi : ks.length ≤ i + 1) :
    ¬Htb.Ahead ks i [] key := by
  rintro (⟨x, hx, -⟩ | ⟨j, l, hij, hj, -⟩)
  · exact absurd hx not_mem_nil
  · have hlt := (List.getElem?_eq_some_iff.mp hj).1
    omega

end Place

/-! ### A run of the body -/

section Visit

variable {t0 : Htb (MapKey scale)} {visits : List (Visit scale)} {i : ℕ}
  {done rest : List (ℕ × MapKey scale)} {x : ℕ × MapKey scale} {calls : List (MapCall scale)}

theorem visitCount_concat (visits : List (Visit scale)) (v : Visit scale) (key : MapKey scale) :
    visitCount (visits ++ [v]) key = visitCount visits key + if v.key = key then 1 else 0 := by
  rw [visitCount, map_append, count_append, map_singleton, count_singleton, visitCount]
  simp only [beq_iff_eq]

theorem Stays.before {v : Visit scale} (h : Stays t0 (visits ++ [v]) key) : Stays t0 visits key :=
  ⟨h.1, fun v' hv' => h.2 v' (mem_append_left _ hv')⟩

theorem Going.visit (hm : MapShape t cs) (hi : (Htb.layout cs)[i]? = some (done ++ x :: rest))
    (h : Going t0 visits (Htb.layout cs) i (x :: rest)) (calls : List (MapCall scale)) :
    Going t0 (visits ++ [⟨x.2, t, calls⟩]) (Htb.layout cs) i rest := by
  have hbehind : ¬Htb.Ahead (Htb.layout cs) i rest x.2 :=
    Htb.not_ahead_again hm.agrees.refl hm.distinct hi
  refine ⟨fun v hv => ?_, fun key hstays => h.held key hstays.before,
    fun key hstays hahead => ?_, fun key hstays hahead => ?_⟩
  · rcases mem_append.mp hv with hv | hv
    · exact h.present v hv
    · obtain rfl := mem_singleton.mp hv
      refine hm.lookup_iff.mpr ⟨i, _, hi, x, ?_, rfl⟩
      simp
  · have hne : x.2 ≠ key := by
      rintro rfl
      exact hbehind hahead
    have hbefore : Htb.Ahead (Htb.layout cs) i (x :: rest) key := by
      rcases hahead with ⟨y, hy, hkey⟩ | hlater
      · exact .inl ⟨y, .tail _ hy, hkey⟩
      · exact .inr hlater
    rw [visitCount_concat, if_neg hne, h.ahead key hstays.before hbefore]
  · rw [visitCount_concat]
    by_cases hkey : x.2 = key
    · rw [if_pos hkey, h.ahead key hstays.before (.inl ⟨x, .head _, hkey⟩)]
    rw [if_neg hkey, h.behind key hstays.before]
    rintro (⟨y, hy, hkey'⟩ | hlater)
    · rcases mem_cons.mp hy with rfl | hy
      · exact hkey hkey'
      · exact hahead (.inl ⟨y, hy, hkey'⟩)
    · exact hahead (.inr hlater)

theorem Going.passes {ks ks' : List (List (ℕ × MapKey scale))} {v : Visit scale}
    (h : Going t0 (visits ++ [v]) ks i rest) (hi : ks[i]? = some (done ++ rest))
    (hpasses : Htb.Passes (fun key => ∀ c ∈ v.calls, c.removes key = false) ks ks')
    (hhead : ∀ x : ℕ × MapKey scale, x ∈ rest.head? → ∀ c ∈ v.calls, c.removes x.2 = false) :
    ∃ done' rest', ks'[i]? = some (done' ++ rest') ∧ rest'.head? = rest.head? ∧
      rest'.length ≤ rest.length ∧ Going t0 (visits ++ [v]) ks' i rest' := by
  obtain ⟨done', rest', hi', hhead', hlen, hkeys⟩ := hpasses i done rest hi hhead
  have hstay (key : MapKey scale) (hstays : Stays t0 (visits ++ [v]) key) :=
    hkeys key (hstays.2 v (mem_append_right _ (.head _))) (h.held key hstays)
  refine ⟨done', rest', hi', hhead', hlen, h.present, fun key hstays => (hstay key hstays).1,
    fun key hstays ha => h.ahead key hstays ((hstay key hstays).2.mp ha),
    fun key hstays ha => h.behind key hstays fun ha' => ha ((hstay key hstays).2.mpr ha')⟩

theorem walkForeach_returns (loop : Foreach scale σ) (w : ForeachWalker scale σ)
    (hm : MapShape t cs) {a : ℕ} {n : Htb.Pair (MapKey scale)} (hcell : t.mem a = some n) :
    Returns (walkForeach loop w a) t fun r t' =>
      (r.1 = .stop ∧ r.2.visits = w.visits) ∨
        ∃ calls, r.2.visits = w.visits ++ [⟨n.item.key, t, calls⟩] ∧
          (runCalls calls).run t = some (⟨⟩, t') ∧
          (r.1 = .forward → loop.GoesOn n.item.key w.rtx t calls) := by
  rw [walkForeach, returns_bind, Htb.returns_load hcell]
  refine returns_ite (fun _ => returns_pure.mpr (.inl ⟨rfl, rfl⟩)) fun hmade => ?_
  refine returns_ite (fun _ => returns_pure.mpr (.inl ⟨rfl, rfl⟩)) fun hassigned => ?_
  rw [returns_bind, returns_get]
  generalize hran : loop.runStatement t _ = ran
  obtain ⟨calls, ok, rtx⟩ := ran
  simp only
  rw [returns_bind]
  refine (runCalls_returns hm calls).withRun.mono ?_
  rintro ⟨⟩ t' ⟨hrun, -⟩
  refine returns_ite (fun _ => ?_) fun hok => ?_
  · exact returns_pure.mpr (.inr ⟨calls, rfl, hrun, fun h => by cases h⟩)
  · have hgoes (hlevel : rtx.exitLevel = .exitNone ∨ rtx.exitLevel = .exitContinue) :
        loop.GoesOn n.item.key w.rtx t calls := by
      refine ⟨not_not.mp hmade, not_not.mp hassigned, rtx, ?_, hlevel⟩
      rw [hran, not_not.mp hok]
    cases hlevel : rtx.exitLevel with
    | exitNone => exact returns_pure.mpr (.inr ⟨calls, rfl, hrun, fun _ => hgoes (.inl hlevel)⟩)
    | exitContinue => exact returns_pure.mpr (.inr ⟨calls, rfl, hrun, fun _ => hgoes (.inr hlevel)⟩)
    | exitBreak | exitFunction | exitNext | exitGlobal | exitAbort =>
      exact returns_pure.mpr (.inr ⟨calls, rfl, hrun, fun h => by cases h⟩)

end Visit

/-! ### Steps and runs -/

section Runs

variable {t0 : Htb (MapKey scale)} {rtx : LoopRtx σ} {m n : ℕ}
  {pos : Position (ForeachWalker scale σ)}

variable {w : ForeachWalker scale σ}

theorem walkBucket_returns (hm : MapShape t cs) (i : ℕ)
    {Q : Walk (ForeachWalker scale σ) → Htb (MapKey scale) → Prop}
    (hat : ∀ l, (Htb.layout cs)[i]? = some l → i < t.capa → Q (.at ⟨i, l.head?.map Prod.fst, w⟩) t)
    (hover : t.capa ≤ i → Q (.over .forward w) t) : Returns (walkBucket i w) t Q := by
  rw [walkBucket, returns_bind, returns_get]
  refine returns_ite (fun hlt => ?_) fun hge => returns_pure.mpr (hover (Nat.le_of_not_lt hge))
  have hbucket : i < t.bucket.length := by rw [hm.shape.block]; exact hlt
  have hchain : i < cs.length := by rw [hm.shape.len]; exact hlt
  have hp := getElem?_eq_getElem hbucket
  have hl := getElem?_eq_getElem hchain
  rw [returns_bind, Htb.returns_loadBucket hp, returns_pure]
  have hfirst := (hm.shape.chains i _ _ hp hl).eq_first
  have hsame : t.bucket[i] = ((cs[i].map fun e => (e.1, e.2.key)).head?).map Prod.fst := by
    rw [hfirst]
    cases cs[i] with
    | nil => rfl
    | cons e l => rfl
  rw [hsame]
  exact hat _ (Htb.getElem?_layout hl) hlt

def Lands (t0 : Htb (MapKey scale)) (m n : ℕ) :
    Walk (ForeachWalker scale σ) → Htb (MapKey scale) → Prop
  | .over signal w, _ => Traversed t0 signal w.visits
  | .at pos, t => ∃ cs done rest, MapShape t cs ∧ (Htb.layout cs)[pos.i]? = some (done ++ rest) ∧
      pos.pair = rest.head?.map Prod.fst ∧
      (t.capa - pos.i < m ∨ t.capa - pos.i = m ∧ rest.length < n) ∧
      Going t0 pos.ctx.visits (Htb.layout cs) pos.i rest

theorem nextBucket_lands {i : ℕ} (hm : MapShape t cs)
    (hgoing : Going t0 w.visits (Htb.layout cs) i []) :
    Returns (walkBucket (i + 1) w) t (Lands t0 (t.capa - i) 0) := by
  have hlen : (Htb.layout cs).length = t.capa := by rw [Htb.layout, length_map, hm.shape.len]
  refine walkBucket_returns hm (i + 1) (fun l hl hlt => ?_) fun hge => ?_
  · refine ⟨cs, [], l, hm, hl, rfl, .inl ?_, hgoing.move fun key => ahead_next hl⟩
    show t.capa - (i + 1) < t.capa - i
    omega
  · exact hgoing.ended (fun key => not_ahead_end (by omega)) .forward

theorem nextPair_lands {i : ℕ} {done rest : List (ℕ × MapKey scale)} {x : ℕ × MapKey scale}
    (hm : MapShape t cs) (hi : (Htb.layout cs)[i]? = some (done ++ x :: rest))
    (hgoing : Going t0 w.visits (Htb.layout cs) i (x :: rest))
    (hquiet : Undisturbed loop ⟨i, some x.1, w⟩ t) :
    Returns (walkStep (walkForeach loop) ⟨i, some x.1, w⟩) t
      (Lands t0 (t.capa - i) (rest.length + 1)) := by
  obtain ⟨n, hcell, hkey, hnext⟩ := hm.place hi
  rw [walkStep, returns_bind, Htb.returns_load hcell, returns_bind]
  refine (walkForeach_returns loop w hm hcell).mono ?_
  rintro ⟨signal, w'⟩ t' (⟨rfl, hvisits⟩ | ⟨calls, hvisits, hrun, hforward⟩)
  · refine returns_pure.mpr ?_
    show Traversed t0 .stop w'.visits
    rw [hvisits]
    exact hgoing.stopped
  · rw [hkey] at hvisits hforward
    have hvisit := hgoing.visit hm hi calls
    cases signal with
    | stop =>
      refine returns_pure.mpr ?_
      show Traversed t0 .stop w'.visits
      rw [hvisits]
      exact hvisit.stopped
    | forward =>
      refine returns_pure.mpr ?_
      obtain ⟨cs', hchanged⟩ := (runCalls_returns hm calls).of_run hrun
      obtain ⟨hspared, hcapa⟩ := hquiet x.1 n calls rfl hcell (hkey ▸ hforward rfl)
      have hsame := hcapa t' hrun
      have hi' : (Htb.layout cs)[i]? = some ((done ++ [x]) ++ rest) := by
        rw [hi, append_assoc, singleton_append]
      have hhead : ∀ y : ℕ × MapKey scale, y ∈ rest.head? → ∀ c ∈ calls, c.removes y.2 = false := by
        intro y hy c hc
        obtain ⟨rest', rfl⟩ := head?_eq_some_iff.mp hy
        obtain ⟨n', hcell', hkey', -⟩ := hm.place hi'
        rw [← hkey']
        exact hspared y.1 n' hnext hcell' c hc
      obtain ⟨done', rest', hplace, hhead', hlen, hgoing'⟩ :=
        hvisit.passes hi' (hchanged.passes hsame) hhead
      refine ⟨cs', done', rest', hchanged.map, hplace, ?_, .inr ⟨?_, ?_⟩, ?_⟩
      · rw [hhead']
        exact hnext
      · show t'.capa - i = t.capa - i
        rw [hsame]
      · exact Nat.lt_succ_of_le hlen
      · show Going t0 w'.visits (Htb.layout cs') i rest'
        rw [hvisits]
        exact hgoing'

theorem Stands.step
    (hquiet : ∀ pos t, Walking (walkForeach loop) t0 ⟨rtx, 0, []⟩ pos t → Undisturbed loop pos t)
    (h : Stands loop t0 rtx m n pos t) :
    Returns (walkStep (walkForeach loop) pos) t
      (Htb.Descends (Stands loop t0 rtx) (fun signal w _ => Traversed t0 signal w.visits) m n) := by
  obtain ⟨hwalking, cs, done, rest, hm, hi, hpair, rfl, rfl, hgoing⟩ := h
  obtain ⟨i, pair, w⟩ := pos
  have hlands : Returns (walkStep (walkForeach loop) ⟨i, pair, w⟩) t
      (Lands t0 (t.capa - i) rest.length) := by
    cases rest with
    | nil =>
      obtain rfl : pair = none := hpair
      exact nextBucket_lands hm hgoing
    | cons x rest =>
      obtain rfl : pair = some x.1 := hpair
      exact nextPair_lands hm hi hgoing (hquiet _ _ hwalking)
  refine hlands.withRun.mono ?_
  rintro next t' ⟨hrun, hnext⟩
  cases next with
  | «over» signal w' => exact hnext
  | «at» pos' =>
    obtain ⟨cs', done', rest', hm', hi', hpair', hless, hgoing'⟩ := hnext
    exact ⟨_, _, hless, hwalking.next hrun, cs', done', rest', hm', hi', hpair', rfl, rfl, hgoing'⟩

theorem Going.start (hm : MapShape t cs) {l : List (ℕ × MapKey scale)}
    (hl : (Htb.layout cs)[0]? = some l) : Going t [] (Htb.layout cs) 0 l := by
  refine ⟨fun v hv => absurd hv not_mem_nil, fun key hstays => hm.lookup_iff.mp hstays.1,
    fun key _ _ => rfl, fun key hstays hahead => absurd ?_ hahead⟩
  obtain ⟨j, l', hj, hx⟩ := hm.lookup_iff.mp hstays.1
  rcases Nat.eq_zero_or_pos j with rfl | hpos
  · obtain rfl := Option.some.inj (hl.symm.trans hj)
    exact .inl hx
  · exact .inr ⟨j, l', hpos, hj, hx⟩

theorem walk_traverses (hm : MapShape t cs)
    (hquiet : ∀ pos t', Walking (walkForeach loop) t ⟨rtx, 0, []⟩ pos t' →
      Undisturbed loop pos t') :
    ∃ fuel, Returns (Htb.walk (walkForeach loop) fuel ⟨rtx, 0, []⟩) t fun next _ =>
      ∃ signal w, next = .over signal w ∧ Traversed t signal w.visits := by
  have hpos := hm.shape.capa_pos
  obtain ⟨next, t', hrun, l, hl, rfl, rfl⟩ :
      Returns (walkBucket 0 (⟨rtx, 0, []⟩ : ForeachWalker scale σ)) t fun next t' =>
        ∃ l, (Htb.layout cs)[0]? = some l ∧ next = .at ⟨0, l.head?.map Prod.fst, ⟨rtx, 0, []⟩⟩ ∧
          t' = t :=
    walkBucket_returns hm 0 (fun l hl _ => ⟨l, hl, rfl, rfl⟩) fun hge => absurd hge (by omega)
  have hwalking : Walking (walkForeach loop) t' ⟨rtx, 0, []⟩ _ t' := .first hrun
  have hstands : Stands loop t' rtx _ _ _ t' :=
    ⟨hwalking, cs, [], l, hm, hl, rfl, rfl, rfl, Going.start hm hl⟩
  obtain ⟨fuel, hends⟩ := Htb.walkFrom_ends (fun hstands => hstands.step hquiet) hstands
  refine ⟨fuel, ?_⟩
  rw [Htb.walk, returns_bind]
  exact ⟨_, _, hrun, hends⟩

end Runs

/-- A loop over a map does what is expected if at every place that it comes to the body is
one that leaves the walk alone. -/
theorem foreach_traverses (loop : Foreach scale σ) (rv : Collection) (rtx : LoopRtx σ)
    {t : Htb (MapKey scale)} (hmap : IsMap t)
    (hquiet : rv = .map → ∀ pos t', Walking (walkForeach loop) t ⟨rtx, 0, []⟩ pos t' →
      Undisturbed loop pos t') : Traverses loop rv rtx t := by
  obtain ⟨cs, hm⟩ := hmap.shape
  have hnone : ∀ v ∈ ([] : List (Visit scale)), v.table.lookup v.key ≠ none :=
    fun v hv => absurd hv not_mem_nil
  cases rv with
  | failed | nil | other => exact ⟨0, _, _, t, rfl, hnone, fun _ => rfl, fun h => by cases h⟩
  | map =>
    obtain ⟨fuel, -, t', hrun, signal, w, rfl, hpresent, hcounts⟩ :=
      walk_traverses hm (hquiet rfl)
    exact ⟨fuel, signal, w, t', hrun, hpresent, fun h => absurd rfl h, fun _ => hcounts⟩

end Walk

/-! ## A map with two keys in one chain -/

/-- `m["68"]; m["86"]`, as far as the table is concerned. -/
def twoKeys : List (MapCall 1) :=
  [.upsert ⟨some 1, none, 0, 0, []⟩ Htb.plainEnv ⟨[0x36, 0x38], rfl⟩ ⟨1, 0, []⟩,
    .upsert ⟨some 2, none, 0, 0, []⟩ Htb.plainEnv ⟨[0x38, 0x36], rfl⟩ ⟨1, 0, []⟩]

def twoKeyMap : Option (Htb (MapKey 1)) :=
  (makemapval Htb.plainEnv).bind fun t => ((runCalls twoKeys).run t).map Prod.snd

def callingLoop (calls : List (MapCall 1)) : Foreach 1 Unit where
  makestrval _ rtx := (true, rtx)
  doAssignment _ rtx := (true, rtx)
  runStatement _ rtx := (calls, true, rtx)

theorem twoKeyMap_isMap {t : Htb (MapKey 1)} (h : twoKeyMap = some t) : IsMap t := by
  obtain ⟨t0, hmake, hrun⟩ := Option.bind_eq_some_iff.mp h
  obtain ⟨⟨⟨⟩, t'⟩, hcalls, rfl⟩ := Option.map_eq_some_iff.mp hrun
  exact ⟨Htb.plainEnv, t0, twoKeys, hmake, hcalls⟩

theorem twoKeyMap_exists : ∃ t, twoKeyMap = some t :=
  Option.isSome_iff_exists.mp (by decide +kernel)

/-- What the first body does: `delete m[k]; m["99"]`. -/
def replacingCalls : List (MapKey 1) → List (MapCall 1)
  | [key] => [.delete key,
      .upsert ⟨some 3, none, 0, 0, []⟩ Htb.plainEnv ⟨[0x39, 0x39], rfl⟩ ⟨1, 0, []⟩]
  | _ => []

/-- A loop whose first body puts another key in the place of the one that is visited. -/
def replacingLoop : Foreach 1 (List (MapKey 1)) where
  makestrval _ rtx := (true, rtx)
  doAssignment key rtx := (true, { rtx with rest := key :: rtx.rest })
  runStatement _ rtx := (replacingCalls rtx.rest, true, rtx)

theorem replacing_assigns (w : ForeachWalker 1 (List (MapKey 1))) (a : ℕ) (t : Htb (MapKey 1)) :
    Yields (walkForeach replacingLoop w a) t fun r _ => r.1 = .forward → r.2.rtx.rest ≠ [] := by
  refine Yields.skip fun n t1 => yields_get (Yields.skip fun _ t2 => ?_)
  simp only [replacingLoop]
  cases w.rtx.exitLevel <;> exact yields_pure (fun _ => cons_ne_nil _ _)

section

variable {t t' : Htb (MapKey 1)} {pos : Position (ForeachWalker 1 (List (MapKey 1)))}

theorem walkBucket_pair (i : ℕ) (w : ForeachWalker 1 (List (MapKey 1))) (t : Htb (MapKey 1)) :
    Yields (walkBucket i w) t fun next t' =>
      ∀ pos, next = .at pos → t' = t ∧ pos.ctx = w ∧ pos.pair ∈ t.bucket := by
  refine yields_get (yields_ite (fun _ => ?_) fun _ => yields_pure (by rintro pos ⟨⟩))
  rw [Htb.loadBucket, bind_assoc]
  refine yields_get ?_
  cases hp : t.bucket[i]? with
  | none => exact yields_failure
  | some p =>
    refine yields_pure ?_
    rintro pos ⟨⟩
    exact ⟨rfl, rfl, mem_of_getElem? hp⟩

theorem walking_replacing
    (h : Walking (walkForeach replacingLoop) t ⟨⟨.exitNone, []⟩, 0, []⟩ pos t') :
    pos.ctx.rtx.rest = [] → t' = t ∧ pos.pair ∈ t.bucket := by
  induction h with
  | first hrun =>
    obtain ⟨rfl, -, hpair⟩ := walkBucket_pair 0 _ _ _ _ hrun _ rfl
    exact fun _ => ⟨rfl, hpair⟩
  | @next pos pos' t₁ t₂ _ hrun ih =>
    obtain ⟨i, pair, w⟩ := pos
    intro hrest
    cases pair with
    | none =>
      obtain ⟨rfl, rfl, hpair⟩ := walkBucket_pair (i + 1) w _ _ _ hrun _ rfl
      obtain ⟨rfl, -⟩ := ih hrest
      exact ⟨rfl, hpair⟩
    | some a =>
      have hruns : Yields (walkStep (walkForeach replacingLoop) ⟨i, some a, w⟩) t₁ fun next _ =>
          ∀ pos, next = .at pos → pos.ctx.rtx.rest ≠ [] := by
        refine Yields.skip fun n t => (replacing_assigns w a t).bind fun r t hr => ?_
        obtain ⟨signal, ctx⟩ := r
        cases signal with
        | stop => exact yields_pure (by rintro pos ⟨⟩)
        | forward =>
          refine yields_pure ?_
          rintro pos ⟨⟩
          exact hr rfl
      exact absurd hrest (hruns _ _ hrun _ rfl)

/-- `for (k in m) if (n++ == 0) { delete m[k]; m["99"] }` -/
theorem foreach_traverses_replacing :
    ∃ t, twoKeyMap = some t ∧ Traverses replacingLoop .map ⟨.exitNone, []⟩ t := by
  let key86 : MapKey 1 := ⟨[0x38, 0x36], rfl⟩
  let key68 : MapKey 1 := ⟨[0x36, 0x38], rfl⟩
  have hcompute : (twoKeyMap.bind fun t =>
      ((runCalls (replacingCalls [key86])).run t).map fun p =>
        (t.bucket.all fun p => decide (p = none ∨ p = some 2),
          (t.mem 2).map fun n => (n.item.key, n.next), (t.mem 1).map fun n => n.item.key,
          decide (p.2.capa = t.capa))) =
      some (true, some (key86, some 1), some key68, true) := by decide +kernel
  obtain ⟨t, ht, hrest⟩ := Option.bind_eq_some_iff.mp hcompute
  obtain ⟨⟨⟨⟩, t₁⟩, hrun, hends⟩ := Option.map_eq_some_iff.mp hrest
  simp only [Prod.mk.injEq, all_eq_true, decide_eq_true_eq, Option.map_eq_some_iff] at hends
  obtain ⟨hheads, ⟨n₂, hn₂, hkey₂, hnext₂⟩, ⟨n₁, hn₁, hkey₁⟩, hcapa⟩ := hends
  refine ⟨t, ht, foreach_traverses _ .map _ (twoKeyMap_isMap ht) fun _ pos t' hwalking => ?_⟩
  rintro a n calls hpair hn ⟨-, -, rtx', hran, -⟩
  have hcalls : replacingCalls (n.item.key :: pos.ctx.rtx.rest) = calls := congrArg Prod.fst hran
  by_cases hfirst : pos.ctx.rtx.rest = []
  · -- the first body: the walk is at the pair of `"86"`, and that of `"68"` is next
    obtain ⟨rfl, hmem⟩ := walking_replacing hwalking hfirst
    obtain rfl : a = 2 := by simpa [hpair] using hheads _ hmem
    obtain rfl := Option.some.inj (hn₂.symm.trans hn)
    rw [hfirst, hkey₂] at hcalls
    obtain rfl := hcalls
    refine ⟨fun b m hb hm c hc => ?_, fun t'' hrun' => ?_⟩
    · rw [hnext₂] at hb
      cases hb
      obtain rfl := Option.some.inj (hn₁.symm.trans hm)
      rw [hkey₁]
      rcases mem_pair.1 hc with rfl | rfl
      · decide
      · rfl
    · rw [hrun] at hrun'
      cases hrun'
      exact hcapa
  · obtain ⟨key, keys, hkeys⟩ := exists_cons_of_ne_nil hfirst
    rw [hkeys] at hcalls
    obtain rfl : calls = [] := hcalls.symm
    refine ⟨fun b m _ _ c hc => absurd hc not_mem_nil, ?_⟩
    rintro t'' ⟨⟩
    rfl

end

/-- `for (k in m) delete m["68"];` -/
def deletingLoop : Foreach 1 Unit := callingLoop [.delete ⟨[0x36, 0x38], rfl⟩]

/-- The walk goes on with a pair that has been freed. -/
theorem not_traverses_delete : ∃ t, IsMap t ∧ ¬Traverses deletingLoop .map ⟨.exitNone, ()⟩ t := by
  obtain ⟨t, ht⟩ := twoKeyMap_exists
  refine ⟨t, twoKeyMap_isMap ht, ?_⟩
  have hfails : (Htb.walk (walkForeach deletingLoop) 5 ⟨⟨.exitNone, ()⟩, 0, []⟩).run t = none := by
    have hall : (twoKeyMap.bind fun t =>
        (Htb.walk (walkForeach deletingLoop) 5 ⟨⟨.exitNone, ()⟩, 0, []⟩).run t).isNone = true := by
      decide +kernel
    rw [ht, Option.bind_some] at hall
    exact Option.isNone_iff_eq_none.mp hall
  rintro ⟨fuel, signal, w, t', hrun, -⟩
  have hover := Htb.walk_over_add hrun 5
  rw [add_comm, Htb.walk_fails_add hfails fuel] at hover
  cases hover

end Qse.Awk
