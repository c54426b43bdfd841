import Qse.Htb.Operations

/-!
# A hash table is a finite map

Two keys that compare equal are one key of the map. `MapStep` prescribes what each call returns and
does to the map.
-/

open List Option

namespace Qse.Htb

open ForwardChain StateProgram

variable {κ : Type}

inductive Op (κ : Type) where
  | insert (opt : InsertOpt) (env : PairEnv κ) (benv : BucketEnv) (key : κ) (val : Buffer)
  | cbsert (out : Cbserted κ) (benv : BucketEnv) (key : κ)
  | delete (key : κ)
  | search (key : κ)
  | clear

inductive Outcome (κ : Type) where
  | pair (d : Option (PairData κ))
  | status (ok : Bool)
  | done

/-- The contents of the pair that `p` points to. -/
def contents (t : Htb κ) (p : Option ℕ) : Option (PairData κ) :=
  p.bind fun a => (t.mem a).map Cell.item

def answer (p : Option ℕ) : HtbM κ (Outcome κ) := do
  let t ← get
  pure (.pair (t.contents p))

def Op.exec : Op κ → HtbM κ (Outcome κ)
  | .insert opt env benv key val => do
    let p ← Htb.insert env benv key val opt
    answer p
  | .cbsert out benv key => do
    let p ← Htb.cbsert out benv key
    answer p
  | .delete key => do
    let ok ← Htb.delete key
    pure (.status ok)
  | .search key => do
    let p ← Htb.search key
    answer p
  | .clear => do
    Htb.clear
    pure .done

def Op.granted (t : Htb κ) : Op κ → Bool
  | .insert _ env _ _ _ => (t.mmgrAlloc env.block).isSome
  | .cbsert (.make block _) _ _ => (t.mmgrAlloc block).isSome
  | _ => true

/-! ## The reference map -/

/-- All keys equal to `key` are bound to `v`. -/
@[grind =] def rebind (style : PairStyle κ) (m : κ → Option (PairData κ)) (key : κ)
    (v : Option (PairData κ)) : κ → Option (PairData κ) :=
  fun k => if style.comper key k = 0 then v else m k

def Makes (style : PairStyle κ) (env : PairEnv κ) (granted : Bool) : Prop :=
  granted = true ∧ (style.kcop = .custom → env.kcopy ≠ none) ∧
    (style.vcop = .custom → env.vcopy ≠ 0)

/-- The contents of a pair hold the value `val`: its pointer, its copy, or its bytes
unless there is nothing to copy, and its length. -/
def Written (style : PairStyle κ) (env : PairEnv κ) (val : Buffer) (d : PairData κ) : Prop :=
  d.vlen = val.len ∧ match style.vcop with
    | .simple => d.vptr = val.ptr
    | .inline => val.ptr ≠ 0 → d.vbuf = val.bytes
    | .custom => d.vptr = env.vcopy

/-- The value of `d` cannot be replaced by `val`: that takes a new pair or a copy, and
none can be made. -/
def Stuck (style : PairStyle κ) (env : PairEnv κ) (granted : Bool) (val : Buffer)
    (d : PairData κ) : Prop :=
  (style.vcop = .inline ∧ d.vlen ≠ val.len ∧ ¬Makes style env granted) ∨
    (style.vcop = .custom ∧ ¬(d.vptr = val.ptr ∧ d.vlen = val.len) ∧ env.vcopy = 0)

/-- What a call does to the map `m`, and what it returns, when `granted` tells whether
a block is handed out. -/
inductive MapStep (style : PairStyle κ) (granted : Bool) (m : κ → Option (PairData κ)) :
    Op κ → Outcome κ → (κ → Option (PairData κ)) → Prop where
  | created {opt : InsertOpt} {env : PairEnv κ} {benv : BucketEnv} {key : κ} {val : Buffer}
      {d : PairData κ} (hnew : m key = none) (hopt : opt ≠ .update)
      (hmakes : Makes style env granted) (hkey : style.comper d.key key = 0)
      (hval : Written style env val d) :
      MapStep style granted m (.insert opt env benv key val) (.pair (some d))
        (rebind style m key (some d))
  | refused {opt : InsertOpt} {env : PairEnv κ} {benv : BucketEnv} {key : κ} {val : Buffer}
      (hnew : m key = none) (hopt : opt = .update ∨ ¬Makes style env granted) :
      MapStep style granted m (.insert opt env benv key val) (.pair none) m
  | occupied {env : PairEnv κ} {benv : BucketEnv} {key : κ} {val : Buffer} {d : PairData κ}
      (hold : m key = some d) :
      MapStep style granted m (.insert .insert env benv key val) (.pair none) m
  | ensured {env : PairEnv κ} {benv : BucketEnv} {key : κ} {val : Buffer} {d : PairData κ}
      (hold : m key = some d) :
      MapStep style granted m (.insert .ensert env benv key val) (.pair (some d)) m
  | changed {opt : InsertOpt} {env : PairEnv κ} {benv : BucketEnv} {key : κ} {val : Buffer}
      {d d' : PairData κ} (hold : m key = some d) (hopt : opt = .upsert ∨ opt = .update)
      (hable : ¬Stuck style env granted val d) (hkey : style.comper d'.key key = 0)
      (hval : Written style env val d' ∨ (d' = d ∧ d.vptr = val.ptr ∧ d.vlen = val.len)) :
      MapStep style granted m (.insert opt env benv key val) (.pair (some d'))
        (rebind style m key (some d'))
  | unchanged {opt : InsertOpt} {env : PairEnv κ} {benv : BucketEnv} {key : κ} {val : Buffer}
      {d : PairData κ} (hold : m key = some d) (hopt : opt = .upsert ∨ opt = .update)
      (hstuck : Stuck style env granted val d) :
      MapStep style granted m (.insert opt env benv key val) (.pair none) m
  | given {block : Option ℕ} {d : PairData κ} {benv : BucketEnv} {key : κ}
      (hgranted : granted = true) :
      MapStep style granted m (.cbsert (.make block d) benv key) (.pair (some d))
        (rebind style m key (some d))
  | kept {vptr vlen : ℕ} {vbuf : List UInt8} {benv : BucketEnv} {key : κ} {d : PairData κ}
      (hold : m key = some d) :
      MapStep style granted m (.cbsert (.keep vptr vlen vbuf) benv key)
        (.pair (some { d with vptr := vptr, vlen := vlen, vbuf := vbuf }))
        (rebind style m key (some { d with vptr := vptr, vlen := vlen, vbuf := vbuf }))
  | declined {out : Cbserted κ} {benv : BucketEnv} {key : κ}
      (hout : match out with
        | .fail => True
        | .keep _ _ _ => m key = none
        | .make _ _ => granted = false) :
      MapStep style granted m (.cbsert out benv key) (.pair none) m
  | deleted {key : κ} :
      MapStep style granted m (.delete key) (.status (m key).isSome) (rebind style m key none)
  | found {key : κ} : MapStep style granted m (.search key) (.pair (m key)) m
  | cleared : MapStep style granted m .clear .done fun _ => none

inductive MapRuns (style : PairStyle κ) :
    List (Bool × Op κ × Outcome κ) → (κ → Option (PairData κ)) → Prop where
  | nil : MapRuns style [] fun _ => none
  | snoc {log : List (Bool × Op κ × Outcome κ)} {m m' : κ → Option (PairData κ)}
      {granted : Bool} {op : Op κ} {r : Outcome κ} (h : MapRuns style log m)
      (hstep : MapStep style granted m op r m') :
      MapRuns style (log ++ [(granted, op, r)]) m'

def Distinct (style : PairStyle κ) (l : List (Entry κ)) : Prop :=
  l.Pairwise fun x y => style.comper x.2.key y.2.key ≠ 0

/-- The bindings of the pairs are those of `m`. -/
def Represents (style : PairStyle κ) (l : List (Entry κ)) (m : κ → Option (PairData κ)) : Prop :=
  ∀ k d, m k = some d ↔ style.comper d.key k = 0 ∧ ∃ e ∈ l, e.2 = d

section Bindings

variable {style : PairStyle κ} {hasher : κ → ℕ} {l l' rest : List (Entry κ)}
  {m : κ → Option (PairData κ)} {key : κ}

theorem Distinct.perm (hag : Agrees style.comper hasher) (h : Distinct style l)
    (hperm : l'.Perm l) : Distinct style l' :=
  (hperm.pairwise_iff fun hxy hyx => hxy (hag.symm _ _ hyx)).mpr h

theorem Represents.perm (h : Represents style l m) (hperm : l'.Perm l) : Represents style l' m := by
  intro k d
  rw [h k d]
  simp only [hperm.mem_iff]

theorem Represents.congr (hag : Agrees style.comper hasher) (h : Represents style l m) {k : κ}
    (hk : style.comper key k = 0) : m k = m key := by
  refine ext fun d => ?_
  rw [h k d, h key d]
  refine and_congr ⟨fun hd => ?_, fun hd => ?_⟩ Iff.rfl
  · exact hag.trans _ _ _ hd (hag.symm _ _ hk)
  · exact hag.trans _ _ _ hd hk

theorem Represents.rebind_self (hag : Agrees style.comper hasher) (h : Represents style l m)
    (key : κ) : rebind style m key (m key) = m := by
  funext k
  rw [rebind]
  split
  · exact (h.congr hag ‹_›).symm
  · rfl

theorem Represents.eq_some (h : Represents style l m) {e : Entry κ} (he : e ∈ l)
    (hkey : style.comper e.2.key key = 0) : m key = some e.2 :=
  (h key e.2).mpr ⟨hkey, e, he, rfl⟩

theorem Represents.eq_none (h : Represents style l m)
    (hno : ∀ e ∈ l, ¬style.comper e.2.key key = 0) : m key = none := by
  refine eq_none_iff_forall_ne_some.mpr fun d hd => ?_
  obtain ⟨hkey, e, he, rfl⟩ := (h key d).mp hd
  exact hno e he hkey

theorem Distinct.apart (hag : Agrees style.comper hasher) {e : Entry κ}
    (h : Distinct style (e :: rest)) (hkey : style.comper e.2.key key = 0) :
    ∀ x ∈ rest, ¬style.comper x.2.key key = 0 := by
  intro x hx hxkey
  refine (pairwise_cons.mp h).1 x hx ?_
  exact hag.trans _ _ _ hkey (hag.symm _ _ hxkey)

theorem Represents.update (hag : Agrees style.comper hasher) (old new : Option (Entry κ))
    (h : Represents style (old.toList ++ rest) m) (hold : ∀ e ∈ old, style.comper e.2.key key = 0)
    (hnew : ∀ e ∈ new, style.comper e.2.key key = 0)
    (hapart : ∀ x ∈ rest, ¬style.comper x.2.key key = 0) :
    Represents style (new.toList ++ rest) (rebind style m key (new.map Prod.snd)) := by
  intro k d
  rw [rebind]
  by_cases hk : style.comper key k = 0
  · rw [if_pos hk, map_eq_some_iff]
    constructor
    · rintro ⟨e, he, rfl⟩
      exact ⟨hag.trans _ _ _ (hnew e he) hk, e, by simp [mem_def.mp he], rfl⟩
    · rintro ⟨hd, e, he, rfl⟩
      refine ⟨e, ?_, rfl⟩
      rcases mem_append.mp he with he | he
      · exact mem_toList.mp he
      · exact absurd (hag.trans _ _ _ hd (hag.symm _ _ hk)) (hapart e he)
  rw [if_neg hk, h k d]
  refine and_congr_right fun hd => ?_
  have hne : ∀ e ∈ (old.toList ++ new.toList : List (Entry κ)), e.2 ≠ d := by
    rintro e he rfl
    refine hk (hag.trans _ _ _ (hag.symm _ _ ?_) hd)
    rcases mem_append.mp he with he | he
    · exact hold e (mem_toList.mp he)
    · exact hnew e (mem_toList.mp he)
  constructor
  · rintro ⟨e, he, hed⟩
    refine ⟨e, ?_, hed⟩
    rcases mem_append.mp he with he | he
    · exact absurd hed (hne e (mem_append_left _ he))
    · exact mem_append_right _ he
  · rintro ⟨e, he, hed⟩
    refine ⟨e, ?_, hed⟩
    rcases mem_append.mp he with he | he
    · exact absurd hed (hne e (mem_append_right _ he))
    · exact mem_append_right _ he

theorem Distinct.add (hag : Agrees style.comper hasher) (new : Option (Entry κ))
    (h : Distinct style rest) (hnew : ∀ e ∈ new, style.comper e.2.key key = 0)
    (hapart : ∀ x ∈ rest, ¬style.comper x.2.key key = 0) :
    Distinct style (new.toList ++ rest) := by
  cases new with
  | none => exact h
  | some e =>
    refine pairwise_cons.mpr ⟨fun x hx hzero => hapart x hx ?_, h⟩
    exact hag.trans _ _ _ (hag.symm _ _ hzero) (hnew e rfl)

end Bindings

/-- The table has the bindings of `m`. -/
def Models (t : Htb κ) (m : κ → Option (PairData κ)) : Prop :=
  ∃ cs, Shape t cs ∧ Distinct t.style cs.flatten ∧ Represents t.style cs.flatten m

def rebound (style : PairStyle κ) (m : κ → Option (PairData κ)) (key : κ)
    (r : Option (Entry κ)) : κ → Option (PairData κ) :=
  match r with
  | none => m
  | some e => rebind style m key (some e.2)

variable {t : Htb κ}

theorem Bound.refines {cs cs' : List (List (Entry κ))} {m : κ → Option (PairData κ)} {key : κ}
    {f : Entry κ → Option (Entry κ)} {g r : Option (Entry κ)} (h : Bound t cs key f g r cs')
    (hag : Agrees t.style.comper t.hasher) (hdistinct : Distinct t.style cs.flatten)
    (hrep : Represents t.style cs.flatten m)
    (hf : ∀ e, t.HasKey key e → ∀ e' ∈ f e, t.HasKey key e') (hg : ∀ e ∈ g, t.HasKey key e) :
    Distinct t.style cs'.flatten ∧ Represents t.style cs'.flatten (rebound t.style m key r) ∧
      (∀ e ∈ r, e ∈ cs'.flatten) ∧
      ((∃ e, m key = some e.2 ∧ r = f e) ∨ (m key = none ∧ r = g)) := by
  rcases h with ⟨e, rest, hperm, he, hr, hperm'⟩ | ⟨hno, hr, hperm'⟩
  · have hmem : e ∈ cs.flatten := hperm.mem_iff.mpr (.head _)
    have hdistinct' := hdistinct.perm hag hperm.symm
    have hapart := hdistinct'.apart hag he
    have hcase : (∃ e, m key = some e.2 ∧ r = f e) ∨ (m key = none ∧ r = g) :=
      .inl ⟨e, hrep.eq_some hmem he, hr⟩
    cases r with
    | none =>
      have hsame : cs'.flatten.Perm cs.flatten := hperm'.trans hperm.symm
      exact ⟨hdistinct.perm hag hsame, hrep.perm hsame, fun e he => absurd he (by simp), hcase⟩
    | some e' =>
      have he' : ∀ x ∈ some e', t.HasKey key x := hr ▸ hf e he
      have hold : ∀ x ∈ some e, t.HasKey key x := by
        intro x hx
        cases hx
        exact he
      refine ⟨?_, ?_, ?_, hcase⟩
      · exact Distinct.perm hag (Distinct.add hag (some e') hdistinct'.of_cons he' hapart) hperm'
      · exact (Represents.update hag (some e) (some e') (hrep.perm hperm.symm) hold he'
          hapart).perm hperm'
      · intro x hx
        cases hx
        exact hperm'.mem_iff.mpr (.head _)
  · have hcase : (∃ e, m key = some e.2 ∧ r = f e) ∨ (m key = none ∧ r = g) :=
      .inr ⟨hrep.eq_none hno, hr⟩
    cases r with
    | none => exact ⟨hdistinct.perm hag hperm', hrep.perm hperm', fun e he => absurd he (by simp),
        hcase⟩
    | some e' =>
      have he' : ∀ x ∈ some e', t.HasKey key x := hr ▸ hg
      refine ⟨?_, ?_, ?_, hcase⟩
      · exact Distinct.perm hag (Distinct.add hag (some e') hdistinct he' hno) hperm'
      · exact (Represents.update hag none (some e') hrep (fun x hx => absurd hx (by simp)) he'
          hno).perm hperm'
      · intro x hx
        cases hx
        exact hperm'.mem_iff.mpr (.head _)

theorem Shape.contents_eq {cs : List (List (Entry κ))} (hs : Shape t cs) {r : Option (Entry κ)}
    (hr : ∀ e ∈ r, e ∈ cs.flatten) :
    t.contents (r.map Prod.fst) = r.map Prod.snd := by
  cases r with
  | none => rfl
  | some e =>
    obtain ⟨next, hcell⟩ := hs.mem_eq (hr e rfl)
    simp [contents, hcell]

theorem returns_answer {p : Option ℕ} {Q : Outcome κ → Htb κ → Prop} :
    Returns (answer p) t Q ↔ Q (.pair (t.contents p)) t := by
  rw [answer, returns_bind, returns_get, returns_pure]

/-! ## What the surroundings have to do -/

def lookup (t : Htb κ) (key : κ) : Option (PairData κ) :=
  ((search key).run t).bind fun r => t.contents r.1

/-- The conditions under which an insertion does what is prescribed. A custom copier
copies keys, the sizer asks for a bucket whose size fits in a word, and no value of a
new pair has to be copied by a custom copier. A pair that shares the pointer to its
key with the caller is not made anew when the old one, which is then freed, takes the
key with it. -/
structure Insertion (t : Htb κ) (opt : InsertOpt) (env : PairEnv κ) (benv : BucketEnv)
    (key : κ) (val : Buffer) : Prop where
  copies : ∀ k, env.kcopy = some k → t.style.comper k key = 0
  sized : benv.sized * 8 < 2 ^ 64
  custom : t.style.vcop = .custom → opt = .update ∨ (t.lookup key).isSome = true ∨
    t.mmgrAlloc env.block = none ∨ (t.style.kcop = .custom ∧ env.kcopy = none)
  shared : t.style.kcop = .simple → t.style.freeKey = true → t.style.vcop = .inline →
    opt = .ensert ∨ opt = .insert ∨ t.mmgrAlloc env.block = none ∨
      ∀ d, t.lookup key = some d → d.vlen = val.len

/-- The conditions under which a call does what is prescribed; a `cbserter` makes a pair
that has the key. -/
def Op.Sound (t : Htb κ) : Op κ → Prop
  | .insert opt env benv key val => Insertion t opt env benv key val
  | .cbsert out benv key => benv.sized * 8 < 2 ^ 64 ∧
      ∀ block d, out = .make block d → t.style.comper d.key key = 0
  | _ => True

section Make

variable {t : Htb κ} {cs : List (List (Entry κ))} {m : κ → Option (PairData κ)}

theorem lookup_eq (hs : Shape t cs) (hag : Agrees t.style.comper t.hasher)
    (hdistinct : Distinct t.style cs.flatten) (hrep : Represents t.style cs.flatten m) (key : κ) :
    t.lookup key = m key := by
  obtain ⟨p, t', hrun, rfl, r, rfl, hbound⟩ := search_returns hs hag key
  have hself : ∀ e, t'.HasKey key e → ∀ e' ∈ some e, t'.HasKey key e' := by
    rintro e he e' he'
    cases he'
    exact he
  obtain ⟨-, -, hmem, hcase⟩ := hbound.refines hag hdistinct hrep hself
    (fun e he => absurd he (by simp))
  rw [lookup, hrun, bind_some, hs.contents_eq hmem]
  rcases hcase with ⟨e, hm, hr⟩ | ⟨hm, hr⟩
  · rw [hm, hr]
    rfl
  · rw [hm, hr]
    rfl

theorem made_hasKey {env : PairEnv κ} {key key' : κ} {val : Buffer}
    (hkey' : t.style.comper key' key = 0)
    (hcopies : ∀ k, env.kcopy = some k → t.style.comper k key = 0) :
    ∀ e ∈ made t env key' val, t.HasKey key e := by
  intro e he
  obtain ⟨a, -, he⟩ := bind_eq_some_iff.mp he
  obtain ⟨d, hd, rfl⟩ := map_eq_some_iff.mp he
  have hcopy : ∀ k, copyKey t.style env key' = some k → t.style.comper k key = 0 := by
    intro k hk
    rw [copyKey] at hk
    cases hkcop : t.style.kcop with
    | simple | inline =>
      rw [hkcop] at hk
      cases hk
      exact hkey'
    | custom =>
      rw [hkcop] at hk
      exact hcopies k hk
  rw [fillPair] at hd
  cases hk : copyKey t.style env key' with
  | none =>
    rw [hk] at hd
    cases hd
  | some k =>
    have hdk : d.key = k := by
      rw [hk] at hd
      cases hv : t.style.vcop with
      | simple | inline =>
        simp only [hv] at hd
        cases hd
        rfl
      | custom =>
        simp only [hv] at hd
        split at hd
        · cases hd
        · cases hd
          rfl
    rw [HasKey, hdk]
    exact hcopy k hk

theorem made_cases {env : PairEnv κ} {key key' : κ}
    {val : Buffer} (hkey' : t.style.comper key' key = 0)
    (hcopies : ∀ k, env.kcopy = some k → t.style.comper k key = 0)
    (hcustom : t.style.vcop = .custom → t.mmgrAlloc env.block = none ∨
      (t.style.kcop = .custom ∧ env.kcopy = none)) :
    (¬Makes t.style env (t.mmgrAlloc env.block).isSome ∧ made t env key' val = none) ∨
      (Makes t.style env (t.mmgrAlloc env.block).isSome ∧
        ∃ e, made t env key' val = some e ∧ t.HasKey key e ∧ Written t.style env val e.2) := by
  rw [made]
  rcases t.mmgrAlloc_cases env.block with hnull | ⟨a, ha, -⟩
  · rw [hnull]
    exact .inl ⟨fun h => absurd h.1 (by simp), rfl⟩
  rw [ha] at hcustom ⊢
  have hcopy : (copyKey t.style env key' = none ∧ t.style.kcop = .custom ∧ env.kcopy = none) ∨
      ∃ k, copyKey t.style env key' = some k ∧ t.style.comper k key = 0 ∧
        (t.style.kcop = .custom → env.kcopy ≠ none) := by
    rw [copyKey]
    cases hk : t.style.kcop with
    | simple | inline => exact .inr ⟨key', rfl, hkey', fun h => absurd h (by simp)⟩
    | custom =>
      cases henv : env.kcopy with
      | none => exact .inl ⟨rfl, rfl, rfl⟩
      | some k => exact .inr ⟨k, rfl, hcopies k henv, fun _ => by simp⟩
  rcases hcopy with ⟨hnone, hk, hfail⟩ | ⟨k, hsome, hkey, hk⟩
  · refine .inl ⟨fun h => h.2.1 hk hfail, ?_⟩
    simp [fillPair, hnone]
  have hnot : t.style.vcop ≠ .custom := by
    intro hv
    rcases hcustom hv with h | ⟨h, h'⟩
    · exact absurd h (by simp)
    · exact hk h h'
  refine .inr ⟨⟨rfl, hk, fun h => absurd h hnot⟩, ?_⟩
  simp only [fillPair, hsome, bind_some, Written, HasKey]
  cases hv : t.style.vcop with
  | simple => exact ⟨_, rfl, hkey, rfl, rfl⟩
  | inline => exact ⟨_, rfl, hkey, rfl, fun hptr => if_pos hptr⟩
  | custom => exact absurd hv hnot

theorem changed_cases {env : PairEnv κ} {key : κ} {val : Buffer} {e : Entry κ}
    (he : t.HasKey key e) (hcopies : ∀ k, env.kcopy = some k → t.style.comper k key = 0) :
    (Stuck t.style env (t.mmgrAlloc env.block).isSome val e.2 ∧ changed t env e val = none) ∨
      (¬Stuck t.style env (t.mmgrAlloc env.block).isSome val e.2 ∧
        ∃ e', changed t env e val = some e' ∧ t.HasKey key e' ∧
          (Written t.style env val e'.2 ∨
            (e'.2 = e.2 ∧ e.2.vptr = val.ptr ∧ e.2.vlen = val.len))) := by
  rw [changed, changeOf]
  by_cases hsame : e.2.vptr = val.ptr ∧ e.2.vlen = val.len
  · rw [if_pos hsame]
    refine .inr ⟨?_, e, rfl, he, .inr ⟨rfl, hsame⟩⟩
    rintro (⟨-, hlen, -⟩ | ⟨-, hne, -⟩)
    · exact hlen hsame.2
    · exact hne hsame
  rw [if_neg hsame]
  cases hv : t.style.vcop with
  | simple =>
    refine .inr ⟨by simp [Stuck, hv], _, rfl, he, .inl ⟨rfl, ?_⟩⟩
    rw [hv]
  | custom =>
    by_cases hcopy : env.vcopy = 0
    · simp only [hcopy, if_true]
      exact .inl ⟨.inr ⟨hv, hsame, hcopy⟩, trivial⟩
    · simp only [hcopy, if_false]
      refine .inr ⟨by simp [Stuck, hv, hcopy], _, rfl, he, .inl ⟨rfl, ?_⟩⟩
      rw [hv]
  | inline =>
    by_cases hlen : e.2.vlen = val.len
    · simp only [hlen, if_true]
      refine .inr ⟨by simp [Stuck, hv, hlen], _, rfl, ?_, .inl ⟨?_, ?_⟩⟩
      · rw [HasKey]
        split <;> exact he
      · split
        · rfl
        · exact hlen
      · rw [hv]
        intro hptr
        rw [if_pos hptr]
    · simp only [hlen, if_false]
      have hcustom : t.style.vcop = .custom → t.mmgrAlloc env.block = none ∨
          (t.style.kcop = .custom ∧ env.kcopy = none) := by
        rw [hv]
        exact fun h => absurd h (by decide)
      rcases @made_cases _ t env key e.2.key val he hcopies hcustom with
        ⟨hno, hmade⟩ | ⟨hyes, e', hmade, hkey, hval⟩
      · exact .inl ⟨.inl ⟨hv, hlen, hno⟩, hmade⟩
      · refine .inr ⟨?_, e', hmade, hkey, .inl hval⟩
        rintro (⟨-, -, hno⟩ | ⟨hc, -⟩)
        · exact hno hyes
        · rw [hv] at hc
          exact absurd hc (by decide)

end Make

/-! ## One call -/

section Call

variable {t : Htb κ} {m : κ → Option (PairData κ)}

section

variable (hag : Agrees t.style.comper t.hasher) (h : Models t m)
include hag h

theorem insert_refines
    {opt : InsertOpt} {env : PairEnv κ} {benv : BucketEnv} {key : κ} {val : Buffer}
    (hop : Insertion t opt env benv key val) :
    Returns (Op.insert opt env benv key val).exec t fun r t' =>
      ∃ m', Models t' m' ∧
        MapStep t.style (t.mmgrAlloc env.block).isSome m (.insert opt env benv key val) r m' ∧
        t'.style = t.style ∧ t'.hasher = t.hasher := by
  obtain ⟨cs, hs, hdistinct, hrep⟩ := h
  have hlookup := lookup_eq hs hag hdistinct hrep key
  have hchanged : ∀ e, t.HasKey key e → ∀ e' ∈ changed t env e val, t.HasKey key e' := by
    intro e he e' he'
    rcases changed_cases he hop.copies with ⟨-, hnone⟩ | ⟨-, e'', hsome, hkey, -⟩
    · rw [hnone] at he'
      cases he'
    · rw [hsome] at he'
      cases he'
      exact hkey
  have hmade : ∀ e ∈ made t env key val, t.HasKey key e :=
    made_hasKey (hag.refl key) hop.copies
  have hgiven : ∀ e, t.HasKey key e → ∀ e' ∈ given t env val opt e, t.HasKey key e' := by
    intro e he e' he'
    cases opt with
    | ensert =>
      cases he'
      exact he
    | insert => cases he'
    | upsert | update => exact hchanged e he e' he'
  have hnew : ∀ e ∈ (if opt = .update then none else made t env key val), t.HasKey key e := by
    intro e he
    split at he
    · cases he
    · exact hmade e he
  rw [Op.exec, returns_bind]
  refine (insert_returns hs hag hop.sized hchanged hmade).mono ?_
  rintro - t' ⟨r, cs', rfl, hleft, hbound⟩
  obtain ⟨hdistinct', hrep', hmem, hcase⟩ := hbound.refines hag hdistinct hrep hgiven hnew
  rw [← hleft.style] at hdistinct' hrep'
  rw [returns_answer, hleft.shape.contents_eq hmem]
  refine ⟨_, ⟨cs', hleft.shape, hdistinct', hrep'⟩, ?_, hleft.style, hleft.hasher⟩
  rw [hleft.style]
  rcases hcase with ⟨e, hm, rfl⟩ | ⟨hm, rfl⟩
  · have hkey : t.HasKey key e := ((hrep key e.2).mp hm).1
    have hchange (hopt : opt = .upsert ∨ opt = .update) :
        MapStep t.style (t.mmgrAlloc env.block).isSome m (.insert opt env benv key val)
          (.pair ((changed t env e val).map Prod.snd))
          (rebound t.style m key (changed t env e val)) := by
      rcases changed_cases hkey hop.copies with ⟨hstuck, hnone⟩ | ⟨hable, e', hsome, hkey', hval⟩
      · rw [hnone]
        exact .unchanged hm hopt hstuck
      · rw [hsome]
        exact .changed hm hopt hable hkey' hval
    cases opt with
    | ensert =>
      rw [given, rebound, ← hm, hrep.rebind_self hag]
      exact .ensured hm
    | insert => exact .occupied hm
    | upsert => exact hchange (.inl rfl)
    | update => exact hchange (.inr rfl)
  · by_cases hopt : opt = .update
    · simp only [hopt, if_true]
      exact .refused hm (.inl rfl)
    · simp only [hopt, if_false]
      have hcustom : t.style.vcop = .custom → t.mmgrAlloc env.block = none ∨
          (t.style.kcop = .custom ∧ env.kcopy = none) := by
        intro hv
        rcases hop.custom hv with h | h | h
        · exact absurd h hopt
        · rw [hlookup, hm] at h
          cases h
        · exact h
      rcases made_cases (hag.refl key) hop.copies hcustom with
        ⟨hno, hnone⟩ | ⟨hyes, e, hsome, hkey, hval⟩
      · rw [hnone]
        exact .refused hm (.inr hno)
      · rw [hsome]
        exact .created hm hopt hyes hkey hval

theorem cbsert_refines
    {out : Cbserted κ} {benv : BucketEnv} {key : κ} (hop : (Op.cbsert out benv key).Sound t) :
    Returns (Op.cbsert out benv key).exec t fun r t' =>
      ∃ m', Models t' m' ∧
        MapStep t.style ((Op.cbsert out benv key).granted t) m (.cbsert out benv key) r m' ∧
        t'.style = t.style ∧ t'.hasher = t.hasher := by
  obtain ⟨cs, hs, hdistinct, hrep⟩ := h
  obtain ⟨hsized, hkeys⟩ := hop
  have hchanged : ∀ e, t.HasKey key e → ∀ e' ∈ cbChanged t e out, t.HasKey key e' := by
    intro e he e' he'
    cases out with
    | fail => cases he'
    | keep vptr vlen vbuf =>
      cases he'
      exact he
    | make block d =>
      obtain ⟨a, -, rfl⟩ := map_eq_some_iff.mp he'
      exact hkeys block d rfl
  have hmade : ∀ e ∈ cbMade t out, t.HasKey key e := by
    intro e he
    cases out with
    | fail | keep vptr vlen vbuf => cases he
    | make block d =>
      obtain ⟨a, -, rfl⟩ := map_eq_some_iff.mp he
      exact hkeys block d rfl
  rw [Op.exec, returns_bind]
  refine (cbsert_returns hs hag hsized hchanged hmade).mono ?_
  rintro - t' ⟨r, cs', rfl, hleft, hbound⟩
  obtain ⟨hdistinct', hrep', hmem, hcase⟩ := hbound.refines hag hdistinct hrep hchanged hmade
  rw [← hleft.style] at hdistinct' hrep'
  rw [returns_answer, hleft.shape.contents_eq hmem]
  refine ⟨_, ⟨cs', hleft.shape, hdistinct', hrep'⟩, ?_, hleft.style, hleft.hasher⟩
  rw [hleft.style]
  have hblock (block : Option ℕ) (d : PairData κ) :
      MapStep t.style ((Op.cbsert (.make block d) benv key).granted t) m
        (.cbsert (.make block d) benv key)
        (.pair (((t.mmgrAlloc block).map fun a => (a, d)).map Prod.snd))
        (rebound t.style m key ((t.mmgrAlloc block).map fun a => (a, d))) := by
    rw [Op.granted]
    cases t.mmgrAlloc block with
    | none => exact .declined rfl
    | some a => exact .given rfl
  rcases hcase with ⟨e, hm, rfl⟩ | ⟨hm, rfl⟩
  · cases out with
    | fail => exact .declined trivial
    | keep vptr vlen vbuf => exact .kept hm
    | make block d => exact hblock block d
  · cases out with
    | fail => exact .declined trivial
    | keep vptr vlen vbuf => exact .declined hm
    | make block d => exact hblock block d

theorem Op.exec_refines {op : Op κ} (hop : op.Sound t) :
    Returns op.exec t fun r t' =>
      ∃ m', Models t' m' ∧ MapStep t.style (op.granted t) m op r m' ∧ t'.style = t.style ∧
        t'.hasher = t.hasher := by
  cases op with
  | insert opt env benv key val => exact insert_refines hag h hop
  | cbsert out benv key => exact cbsert_refines hag h hop
  | delete key =>
    obtain ⟨cs, hs, hdistinct, hrep⟩ := h
    rw [Op.exec, returns_bind]
    refine (delete_returns hs hag key).mono ?_
    rintro ok t' ⟨cs', hleft, ⟨e, rest, hperm, he, rfl, hperm'⟩ | ⟨hno, rfl, rfl⟩⟩
    · have hdistinct' := hdistinct.perm hag hperm.symm
      have hmem : e ∈ cs.flatten := hperm.mem_iff.mpr (.head _)
      have hold : ∀ x ∈ some e, t.style.comper x.2.key key = 0 := by
        intro x hx
        cases hx
        exact he
      have hrep' := (Represents.update hag (some e) none (hrep.perm hperm.symm) hold
        (fun x hx => absurd hx (by simp)) (hdistinct'.apart hag he)).perm hperm'
      refine returns_pure.mpr ⟨rebind t.style m key none, ⟨cs', hleft.shape, ?_, ?_⟩, ?_,
        hleft.style, hleft.hasher⟩
      · rw [hleft.style]
        exact Distinct.perm hag hdistinct'.of_cons hperm'
      · rw [hleft.style]
        exact hrep'
      · have hsome : (m key).isSome = true := by rw [hrep.eq_some hmem he]; rfl
        rw [← hsome]
        exact .deleted
    · have hnone : m key = none := hrep.eq_none hno
      have hsame : rebind t.style m key none = m := by
        rw [← hnone, hrep.rebind_self hag]
      refine returns_pure.mpr ⟨m, ⟨_, hleft.shape, ?_, ?_⟩, ?_, hleft.style, hleft.hasher⟩
      · rw [hleft.style]
        exact hdistinct
      · rw [hleft.style]
        exact hrep
      · have hstep : MapStep t.style ((Op.delete key).granted t) m (.delete key)
            (.status (m key).isSome) (rebind t.style m key none) := .deleted
        rw [hsame, hnone] at hstep
        exact hstep
  | search key =>
    obtain ⟨cs, hs, hdistinct, hrep⟩ := h
    have hlookup := lookup_eq hs hag hdistinct hrep key
    rw [Op.exec, returns_bind]
    obtain ⟨p, t', hrun, rfl, -⟩ := search_returns hs hag key
    refine ⟨p, t', hrun, ?_⟩
    rw [lookup, hrun, bind_some] at hlookup
    refine returns_answer.mpr ⟨m, ⟨cs, hs, hdistinct, hrep⟩, ?_, rfl, rfl⟩
    rw [hlookup]
    exact .found
  | clear =>
    obtain ⟨cs, hs, -, -⟩ := h
    have hempty : (List.replicate t.capa ([] : List (Entry κ))).flatten = [] := by simp
    rw [Op.exec, returns_bind]
    refine (clear_returns hs).mono fun _ t' hleft => ?_
    refine returns_pure.mpr ⟨_, ⟨_, hleft.shape, ?_, ?_⟩, .cleared, hleft.style, hleft.hasher⟩
    · rw [hempty]
      exact Pairwise.nil
    · rw [hempty]
      intro k d
      simp

end

end Call

/-! ## Runs -/

/-- `Runs style hasher sizer capa factor ok log t`: calls that `ok` allows lead from a
new table to `t`; `log` lists them, whether a block was granted, and what they
returned. -/
inductive Runs (style : PairStyle κ) (hasher : κ → ℕ) (sizer : Bool) (capa factor : ℕ)
    (ok : Htb κ → Op κ → Prop) : List (Bool × Op κ × Outcome κ) → Htb κ → Prop where
  | init {env : BucketEnv} {t : Htb κ}
      (hinit : Htb.init style hasher sizer env capa factor = some t) :
      Runs style hasher sizer capa factor ok [] t
  | step {log : List (Bool × Op κ × Outcome κ)} {t t' : Htb κ} {op : Op κ} {r : Outcome κ}
      (h : Runs style hasher sizer capa factor ok log t) (hop : ok t op)
      (hrun : op.exec.run t = some (r, t')) :
      Runs style hasher sizer capa factor ok (log ++ [(op.granted t, op, r)]) t'

section Reachable

variable {style : PairStyle κ} {hasher : κ → ℕ} {sizer : Bool} {capa factor : ℕ}

variable {t : Htb κ}

theorem init_models {env : BucketEnv} (hcapa : capa * 8 < 2 ^ 64)
    (hinit : Htb.init style hasher sizer env capa factor = some t) :
    t.style = style ∧ t.hasher = hasher ∧ Models t fun _ => none := by
  obtain ⟨n, hn⟩ : ∃ n, n = if capa = 0 then 1 else capa := ⟨_, rfl⟩
  have hpos : 0 < n := by
    rw [hn]
    split <;> omega
  have hlt : n * 8 < 2 ^ 64 := by
    rw [hn]
    split <;> omega
  simp only [Htb.init, ← hn] at hinit
  split at hinit
  · cases hinit
    have hgrant := env.grant_lt _ ‹_›
    have hsmall : n * 8 < 2 ^ 63 := by rwa [Nat.mod_eq_of_lt hlt] at hgrant
    have hempty : (List.replicate n ([] : List (Entry κ))).flatten = [] := by simp
    have hhung := newBucket_hung (fun _ => none) hasher hsmall
    refine ⟨rfl, rfl, List.replicate n [], ⟨hpos, hhung.block, hsmall, hhung.len, hhung.chains,
      ?_, ?_, hhung.placed⟩, ?_, ?_⟩
    · rw [hempty]
      exact nodup_nil
    · rw [hempty]
      rfl
    · rw [hempty]
      exact Pairwise.nil
    · rw [hempty]
      intro k d
      simp
  · cases hinit

theorem Runs.models (hag : Agrees style.comper hasher) (hcapa : capa * 8 < 2 ^ 64)
    {log : List (Bool × Op κ × Outcome κ)}
    (h : Runs style hasher sizer capa factor Op.Sound log t) :
    t.style = style ∧ t.hasher = hasher ∧ ∃ m, Models t m ∧ MapRuns style log m := by
  induction h with
  | init hinit =>
    obtain ⟨hstyle, hhasher, hm⟩ := init_models hcapa hinit
    exact ⟨hstyle, hhasher, _, hm, .nil⟩
  | step h hop hrun ih =>
    obtain ⟨rfl, rfl, m, hm, hruns⟩ := ih
    obtain ⟨m', hm', hstep, hstyle, hhasher⟩ := (Op.exec_refines hag hm hop).of_run hrun
    exact ⟨hstyle, hhasher, m', hm', hruns.snoc hstep⟩

def runOps : List (Op κ) → Htb κ → Option (Htb κ)
  | [], t => some t
  | op :: ops, t => (op.exec.run t).bind fun p => runOps ops p.2

theorem Runs.of_runOps (hag : Agrees style.comper hasher) (hcapa : capa * 8 < 2 ^ 64)
    {ops : List (Op κ)} {log : List (Bool × Op κ × Outcome κ)} {t' : Htb κ}
    (h : Runs style hasher sizer capa factor Op.Sound log t)
    (hok : ∀ t, t.style = style → ∀ op ∈ ops, op.Sound t) (hrun : runOps ops t = some t') :
    ∃ log', Runs style hasher sizer capa factor Op.Sound log' t' := by
  induction ops generalizing log t with
  | nil =>
    cases hrun
    exact ⟨log, h⟩
  | cons op ops ih =>
    obtain ⟨⟨r, t1⟩, hexec, hrest⟩ := bind_eq_some_iff.mp hrun
    obtain ⟨hstyle, -⟩ := h.models hag hcapa
    exact ih (h.step (hok t hstyle op (.head _)) hexec)
      (fun t ht op hmem => hok t ht op (.tail _ hmem)) hrest

end Reachable

/-! ## A run, and one with a custom value copier -/

def plainStyle (vcop : Copier) : PairStyle ℕ where
  kcop := .simple
  vcop := vcop
  freeKey := false
  freeVal := false
  keeper := false
  comper a b := (a : ℤ) - b

/-- Blocks below `2 ^ 63` bytes are handed out. -/
def plainEnv : BucketEnv := ⟨fun bytes => bytes < 2 ^ 63, fun _ => by simp, 0⟩

@[grind =] def plainInsert (key : ℕ) : Op ℕ :=
  .insert .insert ⟨some key, none, 7, 0, []⟩ plainEnv key ⟨0, 0, []⟩

theorem plainStyle_agrees (vcop : Copier) : Agrees (plainStyle vcop).comper id where
  refl a := by simp [plainStyle]
  symm a b h := by
    simp only [plainStyle] at h ⊢
    omega
  trans a b c h h' := by
    simp only [plainStyle] at h h' ⊢
    omega
  hash a b h := by
    simp only [plainStyle, id] at h ⊢
    omega

theorem plainInsert_sound {t : Htb ℕ} (ht : t.style = plainStyle .simple) (key : ℕ) :
    (plainInsert key).Sound t where
  copies k hk := by cases hk
  sized := by decide
  custom h := by
    rw [ht] at h
    cases h
  shared _ h := by
    rw [ht] at h
    cases h

end Qse.Htb
