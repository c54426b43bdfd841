import Qse.Htb.FiniteMap
import Qse.Rbt.FiniteMap

/-!
# Either table as `qse_map_t`

`include/qse/cmn/map.h` makes `qse_map_t` a hash table or a red-black tree. When values are
copied by their pointers, both give the answers of one map, which is a function of the calls.
-/

open Function List

namespace Qse.MapHeader

variable {κ : Type}

/-- What the macros read of a pair: `QSE_MAP_KPTR`, `QSE_MAP_VPTR` and `QSE_MAP_VLEN`. -/
structure Seen (κ : Type) where
  key : κ
  vptr : ℕ
  vlen : ℕ

def see (d : PairData κ) : Seen κ := ⟨d.key, d.vptr, d.vlen⟩

/-- The calls but for `qse_map_cbsert` -/
inductive Call (κ : Type) where
  | insert (opt : InsertOpt) (key : κ) (val : Buffer)
  | delete (key : κ)
  | search (key : κ)
  | clear

inductive Answer (κ : Type) where
  | pair (d : Option (Seen κ))
  | status (ok : Bool)
  | done

section Reference

variable [DecidableEq κ]

/-- What a call answers, and the map behind it, when `granted` tells whether a block is handed
out. -/
def Call.run (granted : Bool) (m : κ → Option (Seen κ)) : Call κ → Answer κ × (κ → Option (Seen κ))
  | .insert opt key val =>
    let d : Seen κ := ⟨key, val.ptr, val.len⟩
    match m key with
    | none =>
      if opt = .update ∨ granted = false then (.pair none, m)
      else (.pair (some d), update m key (some d))
    | some old =>
      if opt = .insert then (.pair none, m)
      else if opt = .ensert then (.pair (some old), m)
      else (.pair (some d), update m key (some d))
  | .delete key => (.status (m key).isSome, update m key none)
  | .search key => (.pair (m key), m)
  | .clear => (.done, fun _ => none)

def runCalls (calls : List (Bool × Call κ)) : List (Answer κ) × (κ → Option (Seen κ)) :=
  calls.foldl (fun s c => (s.1 ++ [(c.2.run c.1 s.2).1], (c.2.run c.1 s.2).2)) ([], fun _ => none)

theorem runCalls_append (calls : List (Bool × Call κ)) (c : Bool × Call κ) :
    runCalls (calls ++ [c]) = ((runCalls calls).1 ++ [(c.2.run c.1 (runCalls calls).2).1],
      (c.2.run c.1 (runCalls calls).2).2) := by
  rw [runCalls, foldl_append]
  rfl

end Reference

def htbCall : Htb.Op κ → Option (Call κ)
  | .insert opt _ _ key val => some (.insert opt key val)
  | .cbsert _ _ _ => none
  | .delete key => some (.delete key)
  | .search key => some (.search key)
  | .clear => some .clear

def htbAnswer : Htb.Outcome κ → Answer κ
  | .pair d => .pair (d.map see)
  | .status ok => .status ok
  | .done => .done

def rbtCall : Rbt.Op κ → Option (Call κ)
  | .insert opt _ key val => some (.insert opt key val)
  | .cbsert _ _ => none
  | .delete key => some (.delete key)
  | .search key => some (.search key)
  | .clear => some .clear

def rbtAnswer : Rbt.Outcome κ → Answer κ
  | .pair d => .pair (d.map see)
  | .status ok => .status ok
  | .done => .done

def calls {ω ρ : Type} (call : ω → Option (Call κ)) (log : List (Bool × ω × ρ)) :
    List (Option (Bool × Call κ)) :=
  log.map fun e => (call e.2.1).map (e.1, ·)

def answers {ω ρ : Type} (answer : ρ → Answer κ) (log : List (Bool × ω × ρ)) : List (Answer κ) :=
  log.map fun e => answer e.2.2

def seen (m : κ → Option (PairData κ)) : κ → Option (Seen κ) := fun k => (m k).map see

section Steps

variable [DecidableEq κ] {style : PairStyle κ} {granted : Bool} {m m' : κ → Option (PairData κ)}
  {key : κ} {c : Call κ}

theorem seen_update (m : κ → Option (PairData κ)) (key : κ) (v : Option (PairData κ)) :
    seen (update m key v) = update (seen m) key (v.map see) := by
  funext k
  rw [seen]
  by_cases hk : k = key
  · rw [hk, update_self, update_self]
  · rw [update_of_ne hk, update_of_ne hk]
    rfl

theorem seen_rebind (hs : Rbt.MapStyle style) (m : κ → Option (PairData κ)) (key : κ)
    (v : Option (PairData κ)) :
    seen (Htb.rebind style m key v) = update (seen m) key (v.map see) := by
  rw [← seen_update]
  congr 1
  funext k
  rw [Htb.rebind]
  by_cases hk : k = key
  · rw [hk, update_self, if_pos (hs.order.self key)]
  · rw [update_of_ne hk, if_neg fun hzero => hk ((hs.order.eq_zero_iff _ _).mp hzero).symm]

omit [DecidableEq κ] in
theorem seen_none (h : m key = none) : seen m key = none := congrArg (Option.map see) h

omit [DecidableEq κ] in
theorem seen_some {d : PairData κ} (h : m key = some d) : seen m key = some (see d) :=
  congrArg (Option.map see) h

theorem htb_step (hs : Rbt.MapStyle style) (hv : style.vcop = .simple) {op : Htb.Op κ}
    {r : Htb.Outcome κ} (h : Htb.MapStep style granted m op r m') (hc : htbCall op = some c) :
    c.run granted (seen m) = (htbAnswer r, seen m') := by
  have hsee {key : κ} {d : PairData κ} {val : Buffer} (hkey : style.comper d.key key = 0)
      (hptr : d.vptr = val.ptr) (hlen : d.vlen = val.len) : see d = ⟨key, val.ptr, val.len⟩ := by
    rw [see, (hs.order.eq_zero_iff _ _).mp hkey, hptr, hlen]
  have hmakes (env : PairEnv κ) : Htb.Makes style env granted ↔ granted = true := by
    simp [Htb.Makes, hs.kcop, hs.vcop]
  cases h with
  | created hnew hopt hm hkey hval =>
    cases hc
    rw [Htb.Written, hv] at hval
    simp [Call.run, seen_none hnew, hopt, (hmakes _).mp hm, htbAnswer, seen_rebind hs,
      hsee hkey hval.2 hval.1]
  | refused hnew hopt =>
    cases hc
    rw [hmakes, Bool.not_eq_true] at hopt
    simp [Call.run, seen_none hnew, hopt, htbAnswer]
  | occupied hold | ensured hold =>
    cases hc
    simp [Call.run, seen_some hold, htbAnswer]
  | @changed opt env benv key val d d' hold hopt hable hkey hval =>
    cases hc
    have hd' : see d' = ⟨key, val.ptr, val.len⟩ := by
      rw [Htb.Written, hv] at hval
      rcases hval with hval | ⟨rfl, hptr, hlen⟩
      · exact hsee hkey hval.2 hval.1
      · exact hsee hkey hptr hlen
    rcases hopt with rfl | rfl <;>
      simp [Call.run, seen_some hold, htbAnswer, seen_rebind hs, hd']
  | unchanged hold hopt hstuck => simp [Htb.Stuck, hv] at hstuck
  | given | kept | declined => cases hc
  | deleted =>
    cases hc
    simp [Call.run, seen_rebind hs, seen, htbAnswer]
  | found | cleared =>
    cases hc
    rfl

def Keyed (m : κ → Option (PairData κ)) : Prop := ∀ k d, m k = some d → d.key = k

theorem rbt_step (hv : style.vcop = .simple) (hm : Keyed m) {op : Rbt.Op κ}
    {r : Rbt.Outcome κ} (h : Rbt.MapStep style granted m op r m') (hc : rbtCall op = some c) :
    c.run granted (seen m) = (rbtAnswer r, seen m') ∧ Keyed m' := by
  have hkeyed (key : κ) (v : Option (PairData κ)) (hkey : ∀ d, v = some d → d.key = key) :
      Keyed (update m key v) := by
    intro k d hd
    by_cases hk : k = key
    · rw [hk, update_self] at hd
      rw [hk, hkey d hd]
    · rw [update_of_ne hk] at hd
      exact hm k d hd
  cases h with
  | @created opt env key val d hnew hopt hgranted hkey hval =>
    cases hc
    rw [Rbt.Written, hv] at hval
    have hd : see d = ⟨key, val.ptr, val.len⟩ := by rw [see, hkey, hval.1, hval.2]
    refine ⟨?_, hkeyed _ _ fun e he => by rw [← Option.some.inj he, hkey]⟩
    simp [Call.run, seen_none hnew, hopt, hgranted, rbtAnswer, seen_update, hd]
  | refused hnew hopt =>
    cases hc
    refine ⟨?_, hm⟩
    simp [Call.run, seen_none hnew, hopt, rbtAnswer]
  | occupied hold | ensured hold =>
    cases hc
    refine ⟨?_, hm⟩
    simp [Call.run, seen_some hold, rbtAnswer]
  | @changed opt env key val d d' hold hopt hgranted hval =>
    cases hc
    rw [Rbt.Rewritten, Rbt.Written, hv, hm _ _ hold] at hval
    have hd' : see d' = ⟨key, val.ptr, val.len⟩ := by
      obtain ⟨hkey, ⟨hlen, hptr⟩ | ⟨rfl, hptr, hlen⟩⟩ := hval <;> rw [see, hkey, hptr, hlen]
    refine ⟨?_, hkeyed _ _ fun e he => by rw [← Option.some.inj he, hval.1]⟩
    rcases hopt with rfl | rfl <;>
      simp [Call.run, seen_some hold, rbtAnswer, seen_update, hd']
  | unchanged hold hopt hneeds hrefused => simp [Rbt.NeedsBlock, hv] at hneeds
  | deleted =>
    cases hc
    refine ⟨?_, hkeyed _ _ fun d hd => by cases hd⟩
    simp [Call.run, seen_update, seen, rbtAnswer]
  | found =>
    cases hc
    exact ⟨rfl, hm⟩
  | cleared =>
    cases hc
    exact ⟨rfl, fun k d hd => by cases hd⟩

end Steps

theorem calls_snoc {ω ρ : Type} {call : ω → Option (Call κ)} {log : List (Bool × ω × ρ)}
    {granted : Bool} {op : ω} {r : ρ} {cs : List (Bool × Call κ)}
    (h : calls call (log ++ [(granted, op, r)]) = cs.map some) :
    ∃ cs' c, cs = cs' ++ [(granted, c)] ∧ calls call log = cs'.map some ∧ call op = some c := by
  rw [calls, map_append, append_eq_map_iff] at h
  obtain ⟨cs', ds, rfl, hlog, hlast⟩ := h
  obtain ⟨d, rfl, hd⟩ := map_eq_singleton_iff.mp hlast
  obtain ⟨c, hc, rfl⟩ := Option.map_eq_some_iff.mp hd.symm
  exact ⟨cs', c, rfl, hlog.symm, hc⟩

section Runs

variable [DecidableEq κ] {style : PairStyle κ} {m : κ → Option (PairData κ)}
  {cs : List (Bool × Call κ)}

theorem htb_answers (hs : Rbt.MapStyle style) (hv : style.vcop = .simple)
    {log : List (Bool × Htb.Op κ × Htb.Outcome κ)} (h : Htb.MapRuns style log m)
    (hcs : calls htbCall log = cs.map some) : runCalls cs = (answers htbAnswer log, seen m) := by
  induction h generalizing cs with
  | nil =>
    obtain rfl : cs = [] := map_eq_nil_iff.mp hcs.symm
    rfl
  | snoc _ hstep ih =>
    obtain ⟨cs, c, rfl, hlog, hc⟩ := calls_snoc hcs
    rw [runCalls_append, ih hlog, htb_step hs hv hstep hc, answers, answers, map_append]
    rfl

theorem rbt_answers (hv : style.vcop = .simple)
    {log : List (Bool × Rbt.Op κ × Rbt.Outcome κ)} (h : Rbt.MapRuns style log m)
    (hcs : calls rbtCall log = cs.map some) :
    runCalls cs = (answers rbtAnswer log, seen m) ∧ Keyed m := by
  induction h generalizing cs with
  | nil =>
    obtain rfl : cs = [] := map_eq_nil_iff.mp hcs.symm
    exact ⟨rfl, fun k d hd => by cases hd⟩
  | snoc _ hstep ih =>
    obtain ⟨cs, c, rfl, hlog, hc⟩ := calls_snoc hcs
    obtain ⟨hruns, hm⟩ := ih hlog
    obtain ⟨hrun, hm'⟩ := rbt_step hv hm hstep hc
    refine ⟨?_, hm'⟩
    rw [runCalls_append, hruns, hrun, answers, answers, map_append]
    rfl

omit [DecidableEq κ] in
theorem size_agrees (hs : Rbt.MapStyle style) {htb : Htb κ} {rbt : Rbt κ}
    {m' : κ → Option (PairData κ)} (h : Htb.Models htb m) (hstyle : htb.style = style)
    (h' : Rbt.Models rbt m') (hstyle' : rbt.style = style) (hseen : seen m = seen m') :
    htb.size = rbt.size := by
  obtain ⟨l, hshape, hdistinct, hrep⟩ := h
  obtain ⟨T, hholds, hord, hrep'⟩ := h'
  rw [hstyle] at hdistinct hrep
  rw [hstyle'] at hord
  have hnodup : (l.flatten.map fun e => e.2.key).Nodup :=
    pairwise_map.mpr (hdistinct.imp fun hne heq => hne ((hs.order.eq_zero_iff _ _).mpr heq))
  have hnodup' : (Rbt.keys T).Nodup :=
    hord.imp fun hlt heq => Int.ne_of_lt hlt ((hs.order.eq_zero_iff _ _).mpr heq)
  have hkeys (k : κ) : (k ∈ l.flatten.map fun e => e.2.key) ↔ (seen m k).isSome = true := by
    rw [seen, Option.isSome_map, Option.isSome_iff_exists, mem_map]
    constructor
    · rintro ⟨e, he, rfl⟩
      exact ⟨e.2, (hrep _ _).mpr ⟨hs.order.self _, e, he, rfl⟩⟩
    · rintro ⟨d, hd⟩
      obtain ⟨hkey, e, he, rfl⟩ := (hrep k d).mp hd
      exact ⟨e, he, (hs.order.eq_zero_iff _ _).mp hkey⟩
  have hkeys' (k : κ) : k ∈ Rbt.keys T ↔ (seen m' k).isSome = true := by
    rw [seen, Option.isSome_map, Option.isSome_iff_exists, Rbt.keys, mem_map]
    constructor
    · rintro ⟨e, he, hkey⟩
      exact ⟨e.data, (hrep' k _).mpr ⟨hkey, e, he, rfl⟩⟩
    · rintro ⟨d, hd⟩
      obtain ⟨hkey, e, he, rfl⟩ := (hrep' k d).mp hd
      exact ⟨e, he, hkey⟩
  have hperm : (l.flatten.map fun e => e.2.key).Perm (Rbt.keys T) :=
    (perm_ext_iff_of_nodup hnodup hnodup').mpr fun k => by rw [hkeys, hkeys', hseen]
  have hlength := hperm.length_eq
  rwa [length_map, Rbt.keys, length_map, ← hshape.size, ← ColorTree.RbTree.count, ← hholds.size]
    at hlength

/-- Whatever the hasher, the capacities and the callbacks are, and whichever requests for memory
fail, the same calls are answered in the same way by a hash table and by a red-black tree, and lead
to as many pairs. -/
theorem answers_agree [Inhabited κ] (hs : Rbt.MapStyle style) (hv : style.vcop = .simple)
    {hasher : κ → ℕ} {sizer : Bool} {capa factor : ℕ} (hcapa : capa * 8 < 2 ^ 64)
    {htbLog : List (Bool × Htb.Op κ × Htb.Outcome κ)} {htb : Htb κ}
    (hhtb : Htb.Runs style hasher sizer capa factor Htb.Op.Sound htbLog htb)
    {rbtLog : List (Bool × Rbt.Op κ × Rbt.Outcome κ)} {rbt : Rbt κ}
    (hrbt : Rbt.Runs style Rbt.MapCall rbtLog rbt) (hhtbCalls : calls htbCall htbLog = cs.map some)
    (hrbtCalls : calls rbtCall rbtLog = cs.map some) :
    answers htbAnswer htbLog = (runCalls cs).1 ∧ answers rbtAnswer rbtLog = (runCalls cs).1 ∧
      htb.size = rbt.size := by
  have hag : Htb.Agrees style.comper hasher := by
    refine ⟨hs.order.self, fun a b h => ?_, fun a b c h h' => ?_, fun a b h => ?_⟩ <;>
      rw [hs.order.eq_zero_iff] at *
    · exact h.symm
    · exact h.trans h'
    · rw [h]
  obtain ⟨hstyle, -, m, hmodels, hruns⟩ := hhtb.models hag hcapa
  obtain ⟨hstyle', m', hmodels', hruns'⟩ := hrbt.models hs
  have hanswers := htb_answers hs hv hruns hhtbCalls
  have hanswers' := (rbt_answers hv hruns' hrbtCalls).1
  refine ⟨by rw [hanswers], by rw [hanswers'], ?_⟩
  have hseen := hanswers.symm.trans hanswers'
  exact size_agrees hs hmodels hstyle hmodels' hstyle' (Prod.mk.inj hseen).2

end Runs

/-- Three keys are put into both tables, and one of them is deleted and looked for. -/
theorem answers_agree_delete : ∃ htbLog rbtLog t u,
    Htb.Runs Rbt.plainStyle id false 1 70 Htb.Op.Sound htbLog t ∧
      Rbt.Runs Rbt.plainStyle Rbt.MapCall rbtLog u ∧
      answers htbAnswer htbLog = [.pair (some ⟨1, 0, 0⟩), .pair (some ⟨3, 0, 0⟩),
        .pair (some ⟨2, 0, 0⟩), .status true, .pair none] ∧
      answers rbtAnswer rbtLog = answers htbAnswer htbLog ∧ t.size = u.size := by
  have hhtb : ((Htb.init Rbt.plainStyle id false Htb.plainEnv 1 70).bind fun t =>
      ((Htb.plainInsert 1).exec.run t).bind fun p₁ =>
        ((Htb.plainInsert 3).exec.run p₁.2).bind fun p₂ =>
          ((Htb.plainInsert 2).exec.run p₂.2).bind fun p₃ =>
            ((Htb.Op.delete 1).exec.run p₃.2).bind fun p₄ =>
              ((Htb.Op.search 1).exec.run p₄.2).map fun _ =>
                ((Htb.plainInsert 1).granted t, (Htb.plainInsert 3).granted p₁.2,
                  (Htb.plainInsert 2).granted p₂.2, (Htb.Op.delete 1).granted p₃.2,
                  (Htb.Op.search 1).granted p₄.2)) = some (true, true, true, true, true) := by
    decide +kernel
  obtain ⟨t, hinit, hrest⟩ := Option.bind_eq_some_iff.mp hhtb
  obtain ⟨⟨r₁, t₁⟩, hrun₁, hrest⟩ := Option.bind_eq_some_iff.mp hrest
  obtain ⟨⟨r₂, t₂⟩, hrun₂, hrest⟩ := Option.bind_eq_some_iff.mp hrest
  obtain ⟨⟨r₃, t₃⟩, hrun₃, hrest⟩ := Option.bind_eq_some_iff.mp hrest
  obtain ⟨⟨r₄, t₄⟩, hrun₄, hrest⟩ := Option.bind_eq_some_iff.mp hrest
  obtain ⟨⟨r₅, t₅⟩, hrun₅, hgranted⟩ := Option.map_eq_some_iff.mp hrest
  simp only [Prod.mk.injEq] at hgranted
  obtain ⟨hg₁, hg₂, hg₃, hg₄, hg₅⟩ := hgranted
  have hrbt : ((Rbt.plainInsert 1).exec.run (Rbt.init Rbt.plainStyle)).bind (fun p₁ =>
      ((Rbt.plainInsert 3).exec.run p₁.2).bind fun p₂ =>
        ((Rbt.plainInsert 2).exec.run p₂.2).bind fun p₃ =>
          ((Rbt.Op.delete 1).exec.run p₃.2).bind fun p₄ =>
            ((Rbt.Op.search 1).exec.run p₄.2).map fun _ =>
              ((Rbt.plainInsert 1).granted (Rbt.init Rbt.plainStyle),
                (Rbt.plainInsert 3).granted p₁.2, (Rbt.plainInsert 2).granted p₂.2,
                (Rbt.Op.delete 1).granted p₃.2, (Rbt.Op.search 1).granted p₄.2)) =
      some (true, true, true, true, true) := by
    decide +kernel
  obtain ⟨⟨s₁, u₁⟩, hexec₁, hrest⟩ := Option.bind_eq_some_iff.mp hrbt
  obtain ⟨⟨s₂, u₂⟩, hexec₂, hrest⟩ := Option.bind_eq_some_iff.mp hrest
  obtain ⟨⟨s₃, u₃⟩, hexec₃, hrest⟩ := Option.bind_eq_some_iff.mp hrest
  obtain ⟨⟨s₄, u₄⟩, hexec₄, hrest⟩ := Option.bind_eq_some_iff.mp hrest
  obtain ⟨⟨s₅, u₅⟩, hexec₅, hlent⟩ := Option.map_eq_some_iff.mp hrest
  simp only [Prod.mk.injEq] at hlent
  obtain ⟨hl₁, hl₂, hl₃, hl₄, hl₅⟩ := hlent
  have hag := Htb.plainStyle_agrees .simple
  have hinsert {log t} (hruns : Htb.Runs Rbt.plainStyle id false 1 70 Htb.Op.Sound log t)
      (key : ℕ) : (Htb.plainInsert key).Sound t :=
    Htb.plainInsert_sound (hruns.models hag (by decide)).1 key
  have hruns₁ := (Htb.Runs.init hinit).step (hinsert (.init hinit) 1) hrun₁
  have hruns₂ := hruns₁.step (hinsert hruns₁ 3) hrun₂
  have hruns₃ := hruns₂.step (hinsert hruns₂ 2) hrun₃
  have hdelete : (Htb.Op.delete 1).Sound t₃ := trivial
  have hsearch : (Htb.Op.search 1).Sound t₄ := trivial
  have hruns := (hruns₃.step hdelete hrun₄).step hsearch hrun₅
  have hcall {t : Rbt ℕ} {op : Rbt.Op ℕ} (hop : (rbtCall op).isSome = true) : Rbt.MapCall t op := by
    rintro out key rfl
    cases hop
  have hexecs := ((((Rbt.Runs.init.step (hcall rfl) hexec₁).step (hcall rfl) hexec₂).step
    (hcall rfl) hexec₃).step (hcall rfl) hexec₄).step (hcall rfl) hexec₅
  rw [hg₁, hg₂, hg₃, hg₄, hg₅] at hruns
  rw [hl₁, hl₂, hl₃, hl₄, hl₅] at hexecs
  have hcalls : calls htbCall [(true, Htb.plainInsert 1, r₁), (true, Htb.plainInsert 3, r₂),
      (true, Htb.plainInsert 2, r₃), (true, .delete 1, r₄), (true, .search 1, r₅)] =
    [(true, .insert .insert 1 ⟨0, 0, []⟩), (true, .insert .insert 3 ⟨0, 0, []⟩),
      (true, .insert .insert 2 ⟨0, 0, []⟩), (true, .delete 1), (true, .search 1)].map some := rfl
  obtain ⟨hhtb, hrbt, hsize⟩ :=
    answers_agree Rbt.plainStyle_mapStyle rfl (by decide) hruns hexecs hcalls rfl
  exact ⟨_, _, t₅, u₅, hruns, hexecs, hhtb, hrbt.trans hhtb.symm, hsize⟩

end Qse.MapHeader
