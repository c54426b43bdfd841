import Qse.Tmr.Operations
import Mathlib.Data.Multiset.Filter

/-!
# Runs of a timer

The operations as one type of calls. A round of `qse_tmr_fire` up to the call of the handler is a
call of its own, so a handler may make any calls between two rounds.
-/

open List Option

namespace Qse.Tmr

open BinaryHeap StateProgram

/-! ## Calls -/

inductive Call where
  | insert (env : TmrEnv) (event : Event)
  | update (index : ℕ) (event : Event)
  | delete (index : ℕ)
  | expire (now : NTime)

inductive Answer where
  | index (k : ℕ)
  | done
  | fired (due : Option Entry)
deriving DecidableEq

def learn (id index : ℕ) : TmrM PUnit :=
  modify fun t =>
    if index = invalidIndex then t else { t with news := t.news ++ [.answer id index] }

def Call.exec : Call → TmrM Answer
  | .insert env event => do
    let t ← get
    let k ← Tmr.insert env event
    learn t.next k
    pure (.index k)
  | .update index event => do
    let e ← load index
    let k ← Tmr.update index event
    learn e.id k
    pure (.index k)
  | .delete index => do
    Tmr.delete index
    pure .done
  | .expire now => do
    let due ← Tmr.expire now
    pure (.fired due)

/-- The index is that of an event in the timer, `ok` allows the time of the event, and a time to
fire at can be compared with all that `ok` allows. -/
def Call.Ok (ok : NTime → Prop) (t : Tmr) : Call → Prop
  | .insert _ event => ok event.when
  | .update index event => index < t.size ∧ ok event.when
  | .delete index => index < t.size
  | .expire now => ∀ a, ok a → a.Comparable now

inductive TmrStep (t : Tmr) : Call → Answer → Multiset Entry → Multiset Entry → Prop where
  | inserted {env : TmrEnv} {event : Event} {k : ℕ} {c : Multiset Entry} (hk : k ≠ invalidIndex) :
      TmrStep t (.insert env event) (.index k) c (⟨t.next, event⟩ ::ₘ c)
  | refused {env : TmrEnv} {event : Event} {c : Multiset Entry} (hfull : t.capa = t.size)
      (hgrant : env.grant (blockBytes (t.capa * 2 % 2 ^ 64)) = false) :
      TmrStep t (.insert env event) (.index invalidIndex) c c
  | updated {index k : ℕ} {event : Event} {x : Entry} {c : Multiset Entry}
      (hx : t.event[index]? = some x) (hk : k ≠ invalidIndex) :
      TmrStep t (.update index event) (.index k) (x ::ₘ c) (⟨x.id, event⟩ ::ₘ c)
  | deleted {index : ℕ} {x : Entry} {c : Multiset Entry} (hx : t.event[index]? = some x) :
      TmrStep t (.delete index) .done (x ::ₘ c) c
  | fired {now : NTime} {x : Entry} {c : Multiset Entry}
      (hdue : ¬now.Before x.event.when) (hfirst : ∀ y ∈ c, ¬y.Before x) :
      TmrStep t (.expire now) (.fired (some x)) (x ::ₘ c) c
  | idle {now : NTime} {c : Multiset Entry}
      (hlater : ∀ x, t.size ≠ 0 → t.event[0]? = some x → now.Before x.event.when) :
      TmrStep t (.expire now) (.fired none) c c

/-- The timer holds the events `c` in a heap. -/
def QueueOf (ok : NTime → Prop) (t : Tmr) (c : Multiset Entry) : Prop :=
  ∃ l : List Entry, (l : Multiset Entry) = c ∧ Holds ok t l ∧ IsHeap Entry.Before l

variable {ok : NTime → Prop} {t s : Tmr}

theorem Queue.queueOf {l : List Entry} (h : Queue ok t l) : QueueOf ok t l := by
  obtain ⟨l', hperm, hholds, hheap⟩ := h
  exact ⟨l', Multiset.coe_eq_coe.mpr hperm, hholds, hheap⟩

theorem returns_learn {id k : ℕ} (hk : k ≠ invalidIndex) {Q : PUnit → Tmr → Prop} :
    Returns (learn id k) t Q ↔ Q ⟨⟩ { t with news := t.news ++ [.answer id k] } := by
  rw [learn, returns_modify, if_neg hk]

theorem Call.exec_returns (hok : ∀ a b, ok a → ok b → a.Comparable b) {c : Multiset Entry}
    (h : QueueOf ok t c) {call : Call} (hcall : call.Ok ok t) :
    Returns call.exec t fun r t' => ∃ c', TmrStep t call r c c' ∧ QueueOf ok t' c' := by
  obtain ⟨l, rfl, hholds, hheap⟩ := h
  have hitem : ∀ i, i < t.size → ∃ x, l[i]? = some x := by
    intro i hi
    rw [hholds.size] at hi
    exact ⟨l[i], getElem?_eq_getElem hi⟩
  cases call with
  | insert env event =>
    rw [Call.exec, returns_bind, returns_get, returns_bind]
    refine (insert_returns hok hholds hheap env hcall).mono ?_
    rintro k t' (⟨hk, -, hseated⟩ | ⟨rfl, rfl, hfull, hgrant⟩)
    · have hcoe : ((l ++ [⟨t.next, event⟩] : List Entry) : Multiset Entry) =
          ⟨t.next, event⟩ ::ₘ l := by
        rw [Multiset.cons_coe]
        exact Multiset.coe_eq_coe.mpr (perm_append_singleton _ l)
      rw [returns_bind, returns_learn hk, returns_pure]
      exact ⟨_, .inserted hk, hcoe ▸ (hseated.answered rfl).queueOf⟩
    · rw [returns_bind, learn, returns_modify, if_pos rfl, returns_pure]
      exact ⟨_, .refused hfull hgrant, l, rfl, hholds, hheap⟩
  | update index event =>
    obtain ⟨x, hx⟩ := hitem index hcall.1
    have hi := (List.getElem?_eq_some_iff.mp hx).1
    rw [Call.exec, returns_bind, returns_load (hholds.slot hx), returns_bind]
    refine (update_returns hok hholds hheap hx hcall.2).mono ?_
    rintro k t' ⟨hk, -, hseated⟩
    have hperm : (l.set index ⟨x.id, event⟩).Perm (⟨x.id, event⟩ :: l.eraseIdx index) :=
      set_perm_cons_eraseIdx hi _
    have hold : (l : Multiset Entry) = x ::ₘ l.eraseIdx index := by
      rw [getElem?_eq_getElem hi] at hx
      cases hx
      rw [Multiset.cons_coe]
      exact (Multiset.coe_eq_coe.mpr (getElem_cons_eraseIdx_perm hi)).symm
    have hnew : ((l.set index ⟨x.id, event⟩ : List Entry) : Multiset Entry) =
        ⟨x.id, event⟩ ::ₘ l.eraseIdx index := by
      rw [Multiset.cons_coe]
      exact Multiset.coe_eq_coe.mpr hperm
    rw [returns_bind, returns_learn hk, returns_pure, hold]
    exact ⟨_, .updated (hholds.slot hx) hk, hnew ▸ (hseated.answered rfl).queueOf⟩
  | delete index =>
    obtain ⟨x, hx⟩ := hitem index hcall
    rw [Call.exec, returns_bind]
    refine (delete_returns hok hholds hheap hx).mono ?_
    rintro - t' ⟨l', hperm, hqueue, -⟩
    rw [← Multiset.coe_eq_coe.mpr hperm, ← Multiset.cons_coe]
    exact returns_pure.mpr ⟨_, .deleted (hholds.slot hx), hqueue.queueOf⟩
  | expire now =>
    rw [Call.exec, returns_bind]
    refine (expire_returns hok hholds hheap hcall).mono ?_
    rintro due t' (⟨rfl, rfl, hlater⟩ | ⟨x, l', rfl, hx, hdue, hperm, hqueue, -⟩)
    · refine returns_pure.mpr ⟨_, .idle fun x hsize hx => ?_, l, rfl, hholds, hheap⟩
      obtain ⟨y, hy⟩ := hitem 0 (Nat.pos_of_ne_zero hsize)
      rw [hholds.slot hy] at hx
      cases hx
      exact hlater _ hy
    · rw [← Multiset.coe_eq_coe.mpr hperm, ← Multiset.cons_coe]
      refine returns_pure.mpr ⟨_, .fired hdue fun y hy => ?_, hqueue.queueOf⟩
      have hmem : y ∈ l := hperm.mem_iff.mp (mem_cons_of_mem x (Multiset.mem_coe.mp hy))
      obtain ⟨j, hj⟩ := getElem?_of_mem hmem
      exact hheap.root entry_strictWeak hx hj

/-! ## Runs -/

/-- `TmrRuns ok s log t`: calls that `ok` allows lead from `s` to `t`; `log` lists the
timer before each call, the call, and what it returned. -/
inductive TmrRuns (ok : NTime → Prop) (s : Tmr) : List (Tmr × Call × Answer) → Tmr → Prop where
  | init : TmrRuns ok s [] s
  | step {log : List (Tmr × Call × Answer)} {t t' : Tmr} {call : Call} {r : Answer}
      (h : TmrRuns ok s log t) (hcall : call.Ok ok t) (hrun : call.exec.run t = some (r, t')) :
      TmrRuns ok s (log ++ [(t, call, r)]) t'

inductive Scheduled : List (Tmr × Call × Answer) → Multiset Entry → Prop where
  | nil : Scheduled [] 0
  | snoc {log : List (Tmr × Call × Answer)} {t : Tmr} {call : Call} {r : Answer}
      {c c' : Multiset Entry} (h : Scheduled log c) (hstep : TmrStep t call r c c') :
      Scheduled (log ++ [(t, call, r)]) c'

theorem init_queueOf (ok : NTime → Prop) {env : TmrEnv} {capa : ℕ}
    (hcapa : capa * sizeofEvent < 2 ^ 64) (hinit : init env capa = some s) :
    QueueOf ok s 0 := by
  rw [init] at hinit
  have hpos : 0 < (if capa = 0 then 1 else capa) := by
    split <;> omega
  have hbytes : (if capa = 0 then 1 else capa) * sizeofEvent < 2 ^ 64 := by
    split
    · decide
    · exact hcapa
  generalize (if capa = 0 then 1 else capa) = n at hinit hpos hbytes
  have hlen := newBlock_length env [] hbytes
  split at hinit
  · rename_i hgrant
    have hlt := env.grant_lt _ hgrant
    rw [blockBytes, Nat.mod_eq_of_lt hbytes] at hlt
    cases hinit
    refine ⟨[], rfl, ⟨⟨hpos, Nat.zero_le n, hlen, hlt⟩, rfl, ?_, ?_, nodup_nil, ⟨?_, ?_, ?_⟩,
      ?_⟩, ?_⟩
    · simp
    · simp
    · simp
    · exact fun id hid => absurd hid (Nat.not_lt_zero id)
    · exact fun id _ => rfl
    · simp [TracksBut]
    · simp [IsHeap, Edge]
  · cases hinit

theorem TmrRuns.queueOf (hok : ∀ a b, ok a → ok b → a.Comparable b) (hs : QueueOf ok s 0)
    {log : List (Tmr × Call × Answer)}
    (h : TmrRuns ok s log t) : ∃ c, Scheduled log c ∧ QueueOf ok t c := by
  induction h with
  | init => exact ⟨0, .nil, hs⟩
  | step _ hcall hrun ih =>
    obtain ⟨c, hc, hqueue⟩ := ih
    obtain ⟨c', hstep, hqueue'⟩ := (Call.exec_returns hok hqueue hcall).of_run hrun
    exact ⟨c', hc.snoc hstep, hqueue'⟩

def Interface (ok : NTime → Prop) (s : Tmr) (handler : NTime → Entry → TmrM PUnit) : Prop :=
  ∀ now e log u r u', TmrRuns ok s log u → (handler now e).run u = some (r, u') →
    ∃ log', TmrRuns ok s log' u'

theorem fireLoop_runs {handler : NTime → Entry → TmrM PUnit} (hhandler : Interface ok s handler)
    {now : NTime} (hnow : ∀ a, ok a → a.Comparable now) {fuel count : ℕ}
    {log : List (Tmr × Call × Answer)} (h : TmrRuns ok s log t) :
    Yields (fireLoop handler now fuel count) t fun _ t' => ∃ log', TmrRuns ok s log' t' := by
  induction fuel generalizing t log count with
  | zero => exact yields_failure
  | succ fuel ih =>
    refine Yields.bind (R := fun due t1 => (expire now).run t = some (due, t1))
      (fun due t1 hrun => hrun) fun due t1 hrun => ?_
    have hexec : (Call.expire now).exec.run t = some (.fired due, t1) := by
      rw [Call.exec, StateT.run_bind, hrun]
      rfl
    have hcall : (Call.expire now).Ok ok t := hnow
    have hnext := h.step hcall hexec
    cases due with
    | none => exact yields_pure ⟨_, hnext⟩
    | some e =>
      refine Yields.bind (R := fun _ t2 => ∃ log', TmrRuns ok s log' t2)
        (fun r t2 hrun2 => hhandler now e _ t1 r t2 hnext hrun2) fun _ t2 ⟨log', h2⟩ => ?_
      exact ih h2

/-- If no two times overflow when they are subtracted, then after any calls the events are
those scheduled, in a heap; each owner knows where its event is and has not been reported
the invalid index, and the owners of the events that have left have been once. The next
call returns, and `qse_tmr_fire` leads to such states again. -/
theorem queue_of_runs {ok : NTime → Prop} (hok : ∀ a b, ok a → ok b → a.Comparable b)
    {env : TmrEnv} {capa : ℕ} {s t : Tmr} (hcapa : capa * sizeofEvent < 2 ^ 64)
    (hinit : init env capa = some s) {log : List (Tmr × Call × Answer)} (h : TmrRuns ok s log t) :
    (∃ (l : List Entry) (c : Multiset Entry), t.event.take t.size = l ∧ Scheduled log c ∧
        (l : Multiset Entry) = c ∧ IsHeap Entry.Before l ∧
        (∀ (j : ℕ) (e : Entry), l[j]? = some e → known t.news e.id = j ∧ invalids t.news e.id = 0) ∧
        ∀ id, id < t.next → (∀ e ∈ l, e.id ≠ id) →
          invalids t.news id = 1 ∧ known t.news id = invalidIndex) ∧
      (∀ call : Call, call.Ok ok t → ∃ r t', call.exec.run t = some (r, t')) ∧
      ∀ handler now fuel count t', Interface ok s handler → (∀ a, ok a → a.Comparable now) →
        (fire handler now fuel).run t = some (count, t') → ∃ log', TmrRuns ok s log' t' := by
  obtain ⟨c, hc, hqueue⟩ := h.queueOf hok (init_queueOf ok hcapa hinit)
  refine ⟨?_, fun call hcall => ?_, fun handler now fuel count t' hhandler hnow hrun => ?_⟩
  · obtain ⟨l, hl, hholds, hheap⟩ := hqueue
    refine ⟨l, c, hholds.take_event, hc, hl, hheap, fun j e he => ?_, fun id hid hnot => ?_⟩
    · exact ⟨hholds.position j e he, (hholds.accounted.inside e.id (hholds.mem_ids he)).2⟩
    · refine hholds.accounted.outside id hid fun hmem => ?_
      obtain ⟨e, he, hide⟩ := mem_map.mp hmem
      exact hnot e he hide
  · obtain ⟨r, t', hrun, -⟩ := Call.exec_returns hok hqueue hcall
    exact ⟨r, t', hrun⟩
  · exact fireLoop_runs hhandler hnow h count t' hrun

def smallEnv : TmrEnv where
  grant bytes := decide (bytes < 1000)
  grant_lt bytes h := by
    rw [decide_eq_true_eq] at h
    omega
  junk _ := ⟨0, ⟨0, 0, 0, ⟨0, 0⟩, 0, 0⟩⟩

/-- An event at the second `sec`. -/
def plainEvent (sec : Int64) : Event := ⟨0, 0, 0, ⟨sec, 0⟩, 0, 0⟩

def oneTmr : Tmr := ⟨1, 0, [⟨0, ⟨0, 0, 0, ⟨0, 0⟩, 0, 0⟩⟩], 0, []⟩

def Early (a : NTime) : Prop :=
  0 ≤ a.sec.toInt ∧ a.sec.toInt ≤ 100 ∧ 0 ≤ a.nsec.toInt ∧ a.nsec.toInt < 10 ^ 9

theorem early_comparable (a b : NTime) (ha : Early a) (hb : Early b) : a.Comparable b := by
  rw [Early] at ha hb
  rw [NTime.Comparable]
  split <;> omega

theorem plain_early {sec : Int64} (hlow : 0 ≤ sec.toInt) (hup : sec.toInt ≤ 100) :
    Early (plainEvent sec).when := by
  have hnsec : 0 ≤ (0 : Int32).toInt ∧ (0 : Int32).toInt < 10 ^ 9 := by decide
  exact ⟨hlow, hup, hnsec⟩

/-- The earlier of two events is deleted after the other one has been moved in front of it. -/
theorem queue_of_runs_two : ∃ log t, TmrRuns Early oneTmr log t ∧
    t.event.take t.size = [⟨0, plainEvent 1⟩] ∧
    ∃ (l : List Entry) (c : Multiset Entry), t.event.take t.size = l ∧ Scheduled log c ∧
      (l : Multiset Entry) = c ∧ IsHeap Entry.Before l ∧
      (∀ (j : ℕ) (e : Entry), l[j]? = some e → known t.news e.id = j ∧ invalids t.news e.id = 0) ∧
      ∀ id, id < t.next → (∀ e ∈ l, e.id ≠ id) →
        invalids t.news id = 1 ∧ known t.news id = invalidIndex := by
  have hcompute : ((Call.insert smallEnv (plainEvent 5)).exec.run oneTmr).bind (fun p =>
      ((Call.insert smallEnv (plainEvent 3)).exec.run p.2).bind fun q =>
        ((Call.update 1 (plainEvent 1)).exec.run q.2).bind fun u =>
          ((Call.delete 1).exec.run u.2).map fun v =>
            (q.2.size, u.2.size, v.2.event.take v.2.size)) =
      some (2, 2, [⟨0, plainEvent 1⟩]) := by
    decide +kernel
  obtain ⟨⟨r₁, t₁⟩, hrun₁, hrest⟩ := bind_eq_some_iff.mp hcompute
  obtain ⟨⟨r₂, t₂⟩, hrun₂, hrest⟩ := bind_eq_some_iff.mp hrest
  obtain ⟨⟨r₃, t₃⟩, hrun₃, hrest⟩ := bind_eq_some_iff.mp hrest
  obtain ⟨⟨r₄, t₄⟩, hrun₄, hends⟩ := map_eq_some_iff.mp hrest
  simp only [Prod.mk.injEq] at hends
  obtain ⟨hsize₂, hsize₃, hevents⟩ := hends
  have hok₁ : (Call.insert smallEnv (plainEvent 5)).Ok Early oneTmr :=
    plain_early (by decide) (by decide)
  have hok₂ : (Call.insert smallEnv (plainEvent 3)).Ok Early t₁ :=
    plain_early (by decide) (by decide)
  have hok₃ : (Call.update 1 (plainEvent 1)).Ok Early t₂ :=
    ⟨by omega, plain_early (by decide) (by decide)⟩
  have hok₄ : (Call.delete 1).Ok Early t₃ := by
    change 1 < t₃.size
    omega
  have hruns := (((TmrRuns.init.step hok₁ hrun₁).step hok₂ hrun₂).step hok₃ hrun₃).step hok₄ hrun₄
  have hinit : init smallEnv 1 = some oneTmr := by rfl
  exact ⟨_, t₄, hruns, hevents, (queue_of_runs early_comparable (by decide) hinit hruns).1⟩

def wideCapa : ℕ := 2 ^ 61 + 1

def wideTmr : Tmr := ⟨wideCapa, 0, [⟨0, ⟨0, 0, 0, ⟨0, 0⟩, 0, 0⟩⟩], 0, []⟩

theorem init_wide : init smallEnv wideCapa = some wideTmr := by rfl

/-- The block of a timer for `2 ^ 61 + 1` events has room for one: the second insertion writes
behind it. -/
theorem not_queue_small_block : ¬∀ (env : TmrEnv) (capa : ℕ) (s t : Tmr)
    (log : List (Tmr × Call × Answer)), init env capa = some s → TmrRuns Early s log t →
    ∀ call : Call, call.Ok Early t → ∃ r t', call.exec.run t = some (r, t') := by
  intro hclaim
  have hcompute : ((Call.insert smallEnv (plainEvent 5)).exec.run wideTmr).map (fun p =>
      ((Call.insert smallEnv (plainEvent 3)).exec.run p.2).isNone) = some true := by
    decide +kernel
  obtain ⟨⟨r₁, t₁⟩, hrun₁, hnone⟩ := map_eq_some_iff.mp hcompute
  have hok₁ : (Call.insert smallEnv (plainEvent 5)).Ok Early wideTmr :=
    plain_early (by decide) (by decide)
  have hok₂ : (Call.insert smallEnv (plainEvent 3)).Ok Early t₁ :=
    plain_early (by decide) (by decide)
  obtain ⟨r, t', hrun⟩ := hclaim smallEnv wideCapa wideTmr t₁ _ init_wide
    (TmrRuns.init.step hok₁ hrun₁) _ hok₂
  rw [hrun] at hnone
  cases hnone

/-! ## Firing the events that are due -/

/-- `Fires handler now t fired t'`: the rounds of the loop of `qse_tmr_fire` lead from `t` to
`t'`, and the handlers called are those of the events `fired`, in this order. -/
inductive Fires (handler : NTime → Entry → TmrM PUnit) (now : NTime) :
    Tmr → List Entry → Tmr → Prop where
  | done {t t' : Tmr} (hround : (expire now).run t = some (none, t')) : Fires handler now t [] t'
  | round {t t₁ t₂ t' : Tmr} {e : Entry} {fired : List Entry}
      (hround : (expire now).run t = some (some e, t₁))
      (hcall : (handler now e).run t₁ = some (⟨⟩, t₂)) (hrest : Fires handler now t₂ fired t') :
      Fires handler now t (e :: fired) t'

section Rounds

variable {ok : NTime → Prop} {t : Tmr} {c : Multiset Entry} {now : NTime}
  {handler : NTime → Entry → TmrM PUnit}

theorem expire_due (hok : ∀ a b, ok a → ok b → a.Comparable b)
    (hnow : ∀ a, ok a → a.Comparable now) (h : QueueOf ok t c) :
    Returns (expire now) t fun due t' =>
      (due = none ∧ t' = t ∧ ∀ e ∈ c, now.Before e.event.when) ∨
        ∃ e c', due = some e ∧ c = e ::ₘ c' ∧ ¬now.Before e.event.when ∧
          (∀ y ∈ c', ¬y.Before e) ∧ QueueOf ok t' c' := by
  obtain ⟨l, rfl, hholds, hheap⟩ := h
  refine (expire_returns hok hholds hheap hnow).mono ?_
  rintro due t' (⟨rfl, rfl, hnone⟩ | ⟨e, l', rfl, he, hdue, hperm, hqueue, -⟩)
  · refine .inl ⟨rfl, rfl, fun e he => ?_⟩
    obtain ⟨j, hj⟩ := getElem?_of_mem (Multiset.mem_coe.mp he)
    have hpos : 0 < l.length := length_pos_of_mem (Multiset.mem_coe.mp he)
    have htop : l[0]? = some l[0] := getElem?_eq_getElem hpos
    have hroot : now.Before l[0].event.when := hnone _ htop
    by_contra hnot
    exact before_strictWeak.trans_not _ _ _ hnot (hheap.root entry_strictWeak htop hj) hroot
  · refine .inr ⟨e, l', rfl, ?_, hdue, ?_, hqueue.queueOf⟩
    · rw [Multiset.cons_coe]
      exact (Multiset.coe_eq_coe.mpr hperm).symm
    · intro y hy
      have hyl : y ∈ l := hperm.mem_iff.mp (mem_cons_of_mem e (Multiset.mem_coe.mp hy))
      obtain ⟨j, hj⟩ := getElem?_of_mem hyl
      exact hheap.root entry_strictWeak he hj

structure FiredDue (ok : NTime → Prop) (handler : NTime → Entry → TmrM PUnit) (now : NTime)
    (t : Tmr) (c : Multiset Entry) (fired : List Entry) (t' : Tmr) : Prop where
  fires : Fires handler now t fired t'
  ordered : fired.Pairwise fun x y => ¬y.Before x
  due : (fired : Multiset Entry) = c.filter fun e => ¬now.Before e.event.when
  left : QueueOf ok t' (c.filter fun e => now.Before e.event.when)

theorem FiredDue.done (h : QueueOf ok t c) (hround : (expire now).run t = some (none, t))
    (hlater : ∀ e ∈ c, now.Before e.event.when) : FiredDue ok handler now t c [] t where
  fires := .done hround
  ordered := List.Pairwise.nil
  due := (Multiset.filter_eq_nil.mpr fun e he => not_not.mpr (hlater e he)).symm
  left := by rwa [Multiset.filter_eq_self.mpr hlater]

theorem FiredDue.round {t₁ t' : Tmr} {e : Entry} {fired : List Entry}
    (hrest : FiredDue ok handler now t₁ c fired t')
    (hround : (expire now).run t = some (some e, t₁))
    (hcall : (handler now e).run t₁ = some (⟨⟩, t₁)) (hdue : ¬now.Before e.event.when)
    (hfirst : ∀ y ∈ c, ¬y.Before e) :
    FiredDue ok handler now t (e ::ₘ c) (e :: fired) t' where
  fires := .round hround hcall hrest.fires
  ordered := by
    refine List.Pairwise.cons (fun y hy => hfirst y ?_) hrest.ordered
    have hmem : y ∈ c.filter fun e => ¬now.Before e.event.when := by
      rw [← hrest.due]
      exact Multiset.mem_coe.mpr hy
    exact (Multiset.mem_filter.mp hmem).1
  due := by
    rw [Multiset.filter_cons_of_pos c hdue, ← hrest.due]
    rfl
  left := by
    rw [Multiset.filter_cons_of_neg c hdue]
    exact hrest.left

theorem fireLoop_due (hok : ∀ a b, ok a → ok b → a.Comparable b)
    (hnow : ∀ a, ok a → a.Comparable now)
    (hidle : ∀ e u, (handler now e).run u = some (⟨⟩, u)) {n count : ℕ} (hn : c.card = n)
    (h : QueueOf ok t c) :
    ∃ fired t', (∀ fuel, n < fuel →
        (fireLoop handler now fuel count).run t = some (count + fired.length, t')) ∧
      FiredDue ok handler now t c fired t' := by
  induction n generalizing t c count with
  | zero =>
    obtain ⟨due, t₁, hround, ⟨rfl, rfl, hlater⟩ | ⟨e, c', rfl, rfl, -⟩⟩ := expire_due hok hnow h
    · refine ⟨[], t₁, fun fuel hfuel => ?_, .done h hround hlater⟩
      obtain ⟨fuel, rfl⟩ := Nat.exists_eq_succ_of_ne_zero (Nat.ne_of_gt hfuel)
      rw [fireLoop, StateT.run_bind, hround]
      rfl
    · simp at hn
  | succ n ih =>
    obtain ⟨due, t₁, hround, ⟨rfl, rfl, hlater⟩ | ⟨e, c', rfl, rfl, hdue, hfirst, hrest⟩⟩ :=
      expire_due hok hnow h
    · refine ⟨[], t₁, fun fuel hfuel => ?_, .done h hround hlater⟩
      obtain ⟨fuel, rfl⟩ := Nat.exists_eq_succ_of_ne_zero
        (Nat.ne_of_gt (Nat.zero_lt_of_lt hfuel))
      rw [fireLoop, StateT.run_bind, hround]
      rfl
    have hcard : c'.card = n := by simpa using hn
    obtain ⟨fired, t', hrun, hfired⟩ := @ih t₁ c' (count + 1) hcard hrest
    refine ⟨e :: fired, t', fun fuel hfuel => ?_, hfired.round hround (hidle e t₁) hdue hfirst⟩
    obtain ⟨fuel, rfl⟩ := Nat.exists_eq_succ_of_ne_zero
      (Nat.ne_of_gt (Nat.zero_lt_of_lt hfuel))
    have hcall : (fireLoop handler now (fuel + 1) count).run t =
        (fireLoop handler now fuel (count + 1)).run t₁ := by
      rw [fireLoop, StateT.run_bind, hround]
      change ((handler now e).run t₁).bind _ = _
      rw [hidle]
      rfl
    rw [hcall, hrun fuel (Nat.lt_of_succ_lt_succ hfuel), length_cons]
    congr 2
    omega

end Rounds

/-- If no two of the times scheduled overflow when they are subtracted, nor one of them and `now`,
and the handlers leave the timer alone, then from every timer that calls lead to
`qse_tmr_fire` returns; the events fired are those not later than `now`, each once and an
earlier one first, it returns their number, and the later ones are left. -/
theorem fires_due {ok : NTime → Prop} (hok : ∀ a b, ok a → ok b → a.Comparable b) {env : TmrEnv}
    {capa : ℕ} {s t : Tmr} (hcapa : capa * sizeofEvent < 2 ^ 64) (hinit : init env capa = some s)
    {log : List (Tmr × Call × Answer)} (h : TmrRuns ok s log t)
    {handler : NTime → Entry → TmrM PUnit} {now : NTime} (hnow : ∀ a, ok a → a.Comparable now)
    (hidle : ∀ e u, (handler now e).run u = some (⟨⟩, u)) :
    ∃ fired t', (∀ fuel, t.size < fuel → (fire handler now fuel).run t = some (fired.length, t')) ∧
      Fires handler now t fired t' ∧ fired.Pairwise (fun x y => ¬y.Before x) ∧
      fired.Perm ((t.event.take t.size).filter fun e => ¬now.Before e.event.when) ∧
      (t'.event.take t'.size).Perm
        ((t.event.take t.size).filter fun e => now.Before e.event.when) := by
  obtain ⟨c, -, hqueue⟩ := h.queueOf hok (init_queueOf ok hcapa hinit)
  obtain ⟨l, rfl, hholds, -⟩ := id hqueue
  obtain ⟨fired, t', hrun, hfired⟩ := @fireLoop_due ok t l now handler hok hnow hidle t.size 0
    hholds.size.symm hqueue
  obtain ⟨l', hl', hholds', -⟩ := hfired.left
  refine ⟨fired, t', fun fuel hfuel => ?_, hfired.fires, hfired.ordered, ?_, ?_⟩
  · rw [fire, hrun fuel hfuel, zero_add]
  · rw [hholds.take_event]
    exact Multiset.coe_eq_coe.mp hfired.due
  · rw [hholds.take_event, hholds'.take_event]
    exact Multiset.coe_eq_coe.mp hl'

def idleHandler (_ : NTime) (_ : Entry) : TmrM PUnit := pure ⟨⟩

/-- At the fourth second the event of the third is fired, and that of the fifth is left. -/
theorem fires_due_first : ∃ log t, TmrRuns Early oneTmr log t ∧
    t.event.take t.size = [⟨1, plainEvent 3⟩, ⟨0, plainEvent 5⟩] ∧
    ∃ fired t', (∀ fuel, t.size < fuel →
        (fire idleHandler ⟨4, 0⟩ fuel).run t = some (fired.length, t')) ∧
      Fires idleHandler ⟨4, 0⟩ t fired t' ∧ fired.Pairwise (fun x y => ¬y.Before x) ∧
      fired.Perm ((t.event.take t.size).filter fun e => ¬NTime.Before ⟨4, 0⟩ e.event.when) ∧
      (t'.event.take t'.size).Perm
        ((t.event.take t.size).filter fun e => NTime.Before ⟨4, 0⟩ e.event.when) := by
  have hcompute : ((Call.insert smallEnv (plainEvent 5)).exec.run oneTmr).bind (fun p =>
      ((Call.insert smallEnv (plainEvent 3)).exec.run p.2).map fun q =>
        q.2.event.take q.2.size) = some [⟨1, plainEvent 3⟩, ⟨0, plainEvent 5⟩] := by
    decide +kernel
  obtain ⟨⟨r₁, t₁⟩, hrun₁, hrest⟩ := bind_eq_some_iff.mp hcompute
  obtain ⟨⟨r₂, t₂⟩, hrun₂, hevents⟩ := map_eq_some_iff.mp hrest
  have hok₁ : (Call.insert smallEnv (plainEvent 5)).Ok Early oneTmr :=
    plain_early (by decide) (by decide)
  have hok₂ : (Call.insert smallEnv (plainEvent 3)).Ok Early t₁ :=
    plain_early (by decide) (by decide)
  have hruns := (TmrRuns.init.step hok₁ hrun₁).step hok₂ hrun₂
  have hinit : init smallEnv 1 = some oneTmr := by rfl
  have hnow : Early (plainEvent 4).when := plain_early (by decide) (by decide)
  exact ⟨_, t₂, hruns, hevents, fires_due early_comparable (by decide) hinit hruns
    (fun a ha => early_comparable a _ ha hnow) fun _ _ => rfl⟩

/-- Two insertions and `qse_tmr_fire` go behind the block of a timer for `2 ^ 61 + 1` events, and
whether an event of the far future is due is a difference that overflows. -/
theorem not_fires_due_small_block :
    (¬∀ (env : TmrEnv) (capa : ℕ) (s : Tmr) (e₁ e₂ : Event) (now : NTime),
      init env capa = some s → Early e₁.when → Early e₂.when → Early now →
        ∃ n t', (do
          let _ ← insert env e₁
          let _ ← insert env e₂
          fire idleHandler now 3).run s = some (n, t')) ∧
      ¬∀ (env : TmrEnv) (s : Tmr) (e : Event) (now : NTime), init env 1 = some s →
        ∃ n t', (do
          let _ ← insert env e
          fire idleHandler now 2).run s = some (n, t') := by
  constructor
  · intro hclaim
    have hearly (sec : Int64) (hlow : 0 ≤ sec.toInt) (hup : sec.toInt ≤ 100) : Early ⟨sec, 0⟩ :=
      plain_early hlow hup
    have hnone : ((do
        let _ ← insert smallEnv (plainEvent 5)
        let _ ← insert smallEnv (plainEvent 3)
        fire idleHandler ⟨4, 0⟩ 3).run wideTmr).isNone = true := by decide +kernel
    obtain ⟨n, t', hrun⟩ := hclaim smallEnv wideCapa wideTmr (plainEvent 5) (plainEvent 3) ⟨4, 0⟩
      init_wide (hearly 5 (by decide) (by decide)) (hearly 3 (by decide) (by decide))
      (hearly 4 (by decide) (by decide))
    rw [hrun] at hnone
    cases hnone
  · intro hclaim
    have hinit : init smallEnv 1 = some oneTmr := by rfl
    have hnone : ((do
        let _ ← insert smallEnv (plainEvent 9223372036854775807)
        fire idleHandler ⟨-2, 0⟩ 2).run oneTmr).isNone = true := by decide +kernel
    obtain ⟨n, t', hrun⟩ := hclaim smallEnv oneTmr (plainEvent 9223372036854775807) ⟨-2, 0⟩ hinit
    rw [hrun] at hnone
    cases hnone

end Qse.Tmr
