import Qse.Rbt.KeyOrder

/-!
# A red-black tree is a finite map

With a comparator that is a total order the bindings of the tree follow those of a map. `MapStep`
prescribes what each call returns and does to the map.
-/

open Function List Option

namespace Qse.Rbt

open ColorTree StateProgram

variable {κ : Type} [DecidableEq κ]

structure TotalOrder (comper : κ → κ → ℤ) : Prop where
  eq_zero_iff : ∀ a b, comper a b = 0 ↔ a = b
  pos_iff : ∀ a b, 0 < comper a b ↔ comper b a < 0
  trans : ∀ a b c, comper a b < 0 → comper b c < 0 → comper a c < 0

/-- A style with a total order and with the copiers `COPIER_SIMPLE` and
`COPIER_INLINE`. -/
structure MapStyle (style : PairStyle κ) : Prop where
  order : TotalOrder style.comper
  kcop : style.kcop ≠ .custom
  vcop : style.vcop ≠ .custom

/-- The contents of a pair hold the value `val`: its pointer and length, or with an
inline copier its bytes, unless there is nothing to copy. -/
def Written (style : PairStyle κ) (val : Buffer) (d : PairData κ) : Prop :=
  d.vlen = val.len ∧ match style.vcop with
    | .simple => d.vptr = val.ptr
    | _ => val.ptr ≠ 0 → d.vbuf = val.bytes

def Rewritten (style : PairStyle κ) (val : Buffer) (d d' : PairData κ) : Prop :=
  d'.key = d.key ∧ (Written style val d' ∨ (d' = d ∧ d.vptr = val.ptr ∧ d.vlen = val.len))

/-- Replacing the value of `d` by `val` takes a new block: the value space is inside
the pair and has another length. -/
def NeedsBlock (style : PairStyle κ) (val : Buffer) (d : PairData κ) : Prop :=
  style.vcop = .inline ∧ d.vlen ≠ val.len

/-- What a call does to the map `m`, and what it returns, when `granted` tells whether
a block is handed out. -/
inductive MapStep (style : PairStyle κ) (granted : Bool) (m : κ → Option (PairData κ)) :
    Op κ → Outcome κ → (κ → Option (PairData κ)) → Prop where
  | created {opt : InsertOpt} {env : PairEnv κ} {key : κ} {val : Buffer} {d : PairData κ}
      (hnew : m key = none) (hopt : opt ≠ .update) (hgranted : granted = true)
      (hkey : d.key = key) (hval : Written style val d) :
      MapStep style granted m (.insert opt env key val) (.pair (some d))
        (update m key (some d))
  | refused {opt : InsertOpt} {env : PairEnv κ} {key : κ} {val : Buffer}
      (hnew : m key = none) (hopt : opt = .update ∨ granted = false) :
      MapStep style granted m (.insert opt env key val) (.pair none) m
  | occupied {env : PairEnv κ} {key : κ} {val : Buffer} {d : PairData κ}
      (hold : m key = some d) :
      MapStep style granted m (.insert .insert env key val) (.pair none) m
  | ensured {env : PairEnv κ} {key : κ} {val : Buffer} {d : PairData κ}
      (hold : m key = some d) :
      MapStep style granted m (.insert .ensert env key val) (.pair (some d)) m
  | changed {opt : InsertOpt} {env : PairEnv κ} {key : κ} {val : Buffer} {d d' : PairData κ}
      (hold : m key = some d) (hopt : opt = .upsert ∨ opt = .update)
      (hgranted : NeedsBlock style val d → granted = true) (hval : Rewritten style val d d') :
      MapStep style granted m (.insert opt env key val) (.pair (some d'))
        (update m key (some d'))
  | unchanged {opt : InsertOpt} {env : PairEnv κ} {key : κ} {val : Buffer} {d : PairData κ}
      (hold : m key = some d) (hopt : opt = .upsert ∨ opt = .update)
      (hneeds : NeedsBlock style val d) (hrefused : granted = false) :
      MapStep style granted m (.insert opt env key val) (.pair none) m
  | deleted {key : κ} :
      MapStep style granted m (.delete key) (.status (m key).isSome)
        (update m key none)
  | found {key : κ} : MapStep style granted m (.search key) (.pair (m key)) m
  | cleared : MapStep style granted m .clear .done fun _ => none

inductive MapRuns (style : PairStyle κ) :
    List (Bool × Op κ × Outcome κ) → (κ → Option (PairData κ)) → Prop where
  | nil : MapRuns style [] fun _ => none
  | snoc {log : List (Bool × Op κ × Outcome κ)} {m m' : κ → Option (PairData κ)}
      {granted : Bool} {op : Op κ} {r : Outcome κ} (h : MapRuns style log m)
      (hstep : MapStep style granted m op r m') :
      MapRuns style (log ++ [(granted, op, r)]) m'

/-! ## Ordered trees and their bindings -/

/-- The bindings of the tree are those of `m`. -/
def Represents (T : RbTree (Entry κ)) (m : κ → Option (PairData κ)) : Prop :=
  ∀ k d, m k = some d ↔ d.key = k ∧ ∃ e ∈ T.items, e.data = d

omit [DecidableEq κ] in
theorem TotalOrder.self {comper : κ → κ → ℤ} (h : TotalOrder comper) (a : κ) : comper a a = 0 :=
  (h.eq_zero_iff a a).mpr rfl

omit [DecidableEq κ] in
theorem TotalOrder.keyOrder {comper : κ → κ → ℤ} (h : TotalOrder comper) : KeyOrder comper where
  pos_iff := h.pos_iff
  trans := by
    intro a b c hab hbc
    by_cases hab0 : comper a b = 0
    · rw [(h.eq_zero_iff a b).mp hab0]
      exact hbc
    by_cases hbc0 : comper b c = 0
    · rw [← (h.eq_zero_iff b c).mp hbc0]
      exact hab
    exact Int.le_of_lt (h.trans a b c (by omega) (by omega))

variable {style : PairStyle κ} {T : RbTree (Entry κ)} {m : κ → Option (PairData κ)} {t : Rbt κ}

omit [DecidableEq κ] in
theorem Ordered.apart (hord : TotalOrder style.comper) (h : Ordered style T) {A B : List (Entry κ)}
    {e : Entry κ} (hT : T.items = A ++ e :: B) : ∀ x ∈ A ++ B, x.data.key ≠ e.data.key := by
  have hpair := h.pairwise
  rw [hT] at hpair
  obtain ⟨-, hright, hcross⟩ := pairwise_append.mp hpair
  have hne {a b : κ} (hlt : style.comper a b < 0) : a ≠ b := by
    rintro rfl
    rw [hord.self] at hlt
    exact absurd hlt (by decide)
  intro x hx
  rcases mem_append.mp hx with hx | hx
  · exact hne (hcross x hx e (.head _))
  · exact (hne ((pairwise_cons.mp hright).1 x hx)).symm

theorem Represents.update {T' : RbTree (Entry κ)} (h : Represents T m) {A B : List (Entry κ)}
    (old new : Option (Entry κ)) {key : κ} (hT : T.items = A ++ (old.toList ++ B))
    (hT' : T'.items = A ++ (new.toList ++ B)) (hold : ∀ e ∈ old, e.data.key = key)
    (hnew : ∀ e ∈ new, e.data.key = key) (hapart : ∀ x ∈ A ++ B, x.data.key ≠ key) :
    Represents T' (update m key (new.map Entry.data)) := by
  intro k d
  by_cases hk : k = key
  · subst hk
    rw [update_self, map_eq_some_iff, hT']
    constructor
    · rintro ⟨e, he, rfl⟩
      exact ⟨hnew e he, e, by simp [he], rfl⟩
    · rintro ⟨hkey, e, he, rfl⟩
      refine ⟨e, ?_, rfl⟩
      by_contra hne
      refine hapart e ?_ hkey
      simp only [mem_append, mem_toList] at he ⊢
      tauto
  · rw [update_of_ne hk, h k d, hT, hT']
    refine and_congr_right fun hkey => exists_congr fun e => and_congr_left fun hd => ?_
    have hek : e.data.key ≠ key := by
      rw [hd, hkey]
      exact hk
    have ho : e ∉ old.toList := fun he => hek (hold e (by simpa using he))
    have hn : e ∉ new.toList := fun he => hek (hnew e (by simpa using he))
    simp only [mem_append, ho, hn, false_or]

omit [DecidableEq κ] in
theorem descend_cases (hord : TotalOrder style.comper) (h : Ordered style T) (hrep : Represents T m)
    (key : κ) :
    (∃ fs c e l r, descend (keyCmp style key) [] T = (fs, .node c e l r) ∧
        e.data.key = key ∧ m key = some e.data ∧
        T.items = (itemsBefore fs ++ l.items) ++ e :: (r.items ++ itemsAfter fs)) ∨
      ∃ fs, descend (keyCmp style key) [] T = (fs, .nil) ∧ m key = none ∧
        T.items = itemsBefore fs ++ itemsAfter fs ∧
        (∀ x ∈ itemsBefore fs, 0 < keyCmp style key x) ∧
        ∀ x ∈ itemsAfter fs, keyCmp style key x < 0 := by
  have hplug := plug_descend (keyCmp style key) [] T
  have hbrackets := descend_brackets (hord.keyOrder.cuts key) [] T h.pairwise
    ⟨fun _ hx => absurd hx not_mem_nil, fun _ hx => absurd hx not_mem_nil⟩
  cases hplace : descend (keyCmp style key) [] T with
  | mk fs s =>
  rw [hplace] at hplug hbrackets
  simp only [plug_nil] at hplug
  have hitems := congrArg RbTree.items hplug
  rw [items_plug] at hitems
  cases s with
  | nil =>
    rw [RbTree.items_nil, append_nil] at hitems
    refine .inr ⟨fs, rfl, ?_, hitems.symm, hbrackets.1, hbrackets.2⟩
    refine eq_none_iff_forall_ne_some.mpr fun d hd => ?_
    obtain ⟨hkey, e, he, rfl⟩ := (hrep key d).mp hd
    have hzero : keyCmp style key e = 0 := (hord.eq_zero_iff _ _).mpr hkey.symm
    rw [← hitems, mem_append] at he
    rcases he with he | he
    · exact absurd (hbrackets.1 e he) (by omega)
    · exact absurd (hbrackets.2 e he) (by omega)
  | node c e l r =>
    have hkey : e.data.key = key := by
      rcases descend_found (keyCmp style key) [] T with hnil | ⟨c', e', l', r', hnode, hzero⟩
      · rw [hplace] at hnil
        simp at hnil
      · rw [hplace] at hnode
        cases hnode
        exact ((hord.eq_zero_iff _ _).mp hzero).symm
    have hsplit : T.items = (itemsBefore fs ++ l.items) ++ e :: (r.items ++ itemsAfter fs) := by
      rw [← hitems]
      simp
    refine .inl ⟨fs, c, e, l, r, rfl, hkey, ?_, hsplit⟩
    refine (hrep key e.data).mpr ⟨hkey, e, ?_, rfl⟩
    rw [hsplit]
    simp

omit [DecidableEq κ] in
theorem fillPair_written (hs : MapStyle style) (env : PairEnv κ) (key : κ) (val : Buffer) :
    ∃ d, (fillPair style env key val).1 = some d ∧ d.key = key ∧ Written style val d := by
  have hkey : copyKey style env key = some key := by
    rw [copyKey]
    cases hk : style.kcop with
    | simple => rfl
    | inline => rfl
    | custom => exact absurd hk hs.kcop
  rw [fillPair, hkey]
  simp only [Written]
  cases hv : style.vcop with
  | simple => exact ⟨_, rfl, rfl, rfl, rfl⟩
  | inline => exact ⟨_, rfl, rfl, rfl, fun hptr => if_pos hptr⟩
  | custom => exact absurd hv hs.vcop

omit [DecidableEq κ] in
theorem made_cases {t : Rbt κ} (hs : MapStyle t.style) (opt : InsertOpt) (env : PairEnv κ)
    (key : κ) (val : Buffer) :
    (Op.granted t (.insert opt env key val) = false ∧ made t env key val = none) ∨
      (Op.granted t (.insert opt env key val) = true ∧
        ∃ e, made t env key val = some e ∧ e.data.key = key ∧ Written t.style val e.data) := by
  obtain ⟨d, hfill, hkey, hval⟩ := fillPair_written hs env key val
  rw [made, hfill, Op.granted]
  rcases t.mmgrAlloc_cases env.block with hnull | ⟨a, -, ha, -⟩
  · rw [hnull]
    exact .inl ⟨by simp, rfl⟩
  · rw [ha]
    exact .inr ⟨by simp, _, rfl, hkey, hval⟩

omit [DecidableEq κ] in
theorem changed_cases (hs : MapStyle t.style) (opt : InsertOpt) (env : PairEnv κ) (key : κ)
    (val : Buffer) (e : Entry κ) :
    (NeedsBlock t.style val e.data ∧ Op.granted t (.insert opt env key val) = false ∧
        changed t env e val = none) ∨
      ((NeedsBlock t.style val e.data → Op.granted t (.insert opt env key val) = true) ∧
        ∃ e', changed t env e val = some e' ∧ Rewritten t.style val e.data e'.data) := by
  rw [changed, changeOf]
  by_cases hsame : e.data.vptr = val.ptr ∧ e.data.vlen = val.len
  · rw [if_pos hsame]
    refine .inr ⟨fun hneeds => absurd hsame.2 hneeds.2, e, rfl, rfl, .inr ⟨rfl, hsame⟩⟩
  rw [if_neg hsame]
  cases hv : t.style.vcop with
  | custom => exact absurd hv hs.vcop
  | simple =>
    refine .inr ⟨fun hneeds => absurd hneeds.1 (by simp [hv]), _, rfl, rfl, .inl ⟨rfl, ?_⟩⟩
    rw [hv]
  | inline =>
    by_cases hlen : e.data.vlen = val.len
    · simp only [hlen, if_true]
      refine .inr ⟨fun hneeds => absurd hlen hneeds.2, _, rfl, ?_, .inl ⟨?_, ?_⟩⟩
      · split <;> rfl
      · split
        · rfl
        · exact hlen
      · rw [hv]
        intro hptr
        rw [if_pos hptr]
    · simp only [hlen, if_false]
      rcases made_cases hs opt env e.data.key val with ⟨hg, hm⟩ | ⟨hg, e', hm, hkey, hval⟩
      · exact .inl ⟨⟨hv, hlen⟩, hg, hm⟩
      · exact .inr ⟨fun _ => hg, e', hm, hkey, .inl hval⟩

/-! ## One call -/

omit [DecidableEq κ] in
theorem Holds.answer_eq (h : Holds t T) {e : Option (Entry κ)} (he : ∀ x ∈ e, x ∈ T.items) :
    (t.mem (entryRef e)).map Pair.data = e.map Entry.data := by
  cases e with
  | none => rw [entryRef, h.shape.null]; rfl
  | some e =>
    obtain ⟨fs, c, l, r, rfl⟩ := exists_plug_of_mem (he e rfl)
    rw [entryRef, h.shape.node_eq]
    rfl

def Prescribed (t : Rbt κ) (op : Op κ) (m : κ → Option (PairData κ))
    (p : Option (Entry κ) × RbTree (Entry κ)) : Prop :=
  (∀ x ∈ p.1, x ∈ p.2.items) ∧ ∃ m', Ordered t.style p.2 ∧ Represents p.2 m' ∧
    MapStep t.style (op.granted t) m op (.pair (p.1.map Entry.data)) m'

section Insert

variable {t : Rbt κ} {T : RbTree (Entry κ)} {m : κ → Option (PairData κ)}

section

variable (hs : MapStyle t.style) (hord : Ordered t.style T) (hrep : Represents T m)
include hs hord hrep

theorem prescribed_changed {fs : List (Frame (Entry κ))} {c : Color} {e : Entry κ}
    {l r : RbTree (Entry κ)} (hT : plug fs (.node c e l r) = T) (hm : m e.data.key = some e.data)
    {opt : InsertOpt} (hopt : opt = .upsert ∨ opt = .update) (env : PairEnv κ) (val : Buffer) :
    Prescribed t (.insert opt env e.data.key val) m
      (changed t env e val, replaced fs c e l r (changed t env e val)) := by
  have hreplaced (e' : Entry κ) : (replaced fs c e l r (some e')).items =
      (itemsBefore fs ++ l.items) ++ e' :: (r.items ++ itemsAfter fs) :=
    replaced_items fs c e l r (some e')
  have hitems : T.items = (itemsBefore fs ++ l.items) ++ e :: (r.items ++ itemsAfter fs) :=
    hT ▸ hreplaced e
  rcases changed_cases hs opt env e.data.key val e with
    ⟨hneeds, hrefused, hfail⟩ | ⟨hgranted, e', he', hval⟩
  · have hsame : replaced fs c e l r none = T := hT
    rw [hfail, hsame]
    exact ⟨fun x hx => absurd hx (by simp), m, hord, hrep, .unchanged hm hopt hneeds hrefused⟩
  rw [he']
  refine ⟨?_, _, ?_, ?_, .changed hm hopt hgranted hval⟩
  · intro x hx
    cases hx
    rw [hreplaced]
    simp
  · refine hord.of_keys ?_
    rw [keys, keys, hreplaced, hitems]
    simp [hval.1]
  · refine hrep.update (some e) (some e') hitems (hreplaced e') ?_ ?_ (hord.apart hs.order hitems)
    · intro x hx
      cases hx
      rfl
    · intro x hx
      cases hx
      exact hval.1

theorem prescribed_added {fs : List (Frame (Entry κ))} {e : Entry κ}
    (hitems : T.items = itemsBefore fs ++ itemsAfter fs) (hm : m e.data.key = none)
    (hbefore : ∀ x ∈ itemsBefore fs, 0 < keyCmp t.style e.data.key x)
    (hafter : ∀ x ∈ itemsAfter fs, keyCmp t.style e.data.key x < 0) {opt : InsertOpt}
    (hopt : opt ≠ .update) {env : PairEnv κ} {val : Buffer}
    (hgranted : Op.granted t (.insert opt env e.data.key val) = true)
    (hval : Written t.style val e.data) :
    Prescribed t (.insert opt env e.data.key val) m (some e, added fs e) := by
  have hadded := added_items fs e
  refine ⟨?_, _, hord.insert hs.order.keyOrder hitems hadded hbefore hafter, ?_,
    .created hm hopt hgranted rfl hval⟩
  · intro x hx
    cases hx
    rw [hadded]
    simp
  · refine hrep.update none (some e) hitems hadded (fun x hx => absurd hx (by simp)) ?_ ?_
    · intro x hx
      cases hx
      rfl
    · intro x hx hkey
      have hzero : keyCmp t.style e.data.key x = 0 := (hs.order.eq_zero_iff _ _).mpr hkey.symm
      rcases mem_append.mp hx with hx | hx
      · exact absurd (hbefore x hx) (by omega)
      · exact absurd (hafter x hx) (by omega)

theorem prescribed_inserted (opt : InsertOpt) (env : PairEnv κ) (key : κ) (val : Buffer) :
    Prescribed t (.insert opt env key val) m (inserted t T env key val opt) := by
  have hnone : ∀ x ∈ (none : Option (Entry κ)), x ∈ T.items := fun x hx => absurd hx (by simp)
  rw [inserted]
  rcases descend_cases hs.order hord hrep key with
    ⟨fs, c, e, l, r, hplace, rfl, hm, hitems⟩ | ⟨fs, hplace, hm, hitems, hbefore, hafter⟩
  · have hT := plug_descend (keyCmp t.style e.data.key) [] T
    rw [hplace] at hT ⊢
    simp only [plug_nil] at hT
    cases opt with
    | upsert => exact prescribed_changed hs hord hrep hT hm (.inl rfl) env val
    | update => exact prescribed_changed hs hord hrep hT hm (.inr rfl) env val
    | ensert =>
      refine ⟨?_, m, hord, hrep, .ensured hm⟩
      intro x hx
      cases hx
      rw [hitems]
      simp
    | insert => exact ⟨hnone, m, hord, hrep, .occupied hm⟩
  · rw [hplace]
    by_cases hupdate : opt = .update
    · simp only [hupdate, if_true]
      exact ⟨hnone, m, hord, hrep, .refused hm (.inl rfl)⟩
    simp only [hupdate, if_false]
    rcases made_cases hs opt env key val with ⟨hrefused, hmade⟩ | ⟨hgranted, e, hmade, rfl, hval⟩
    · rw [hmade]
      exact ⟨hnone, m, hord, hrep, .refused hm (.inr hrefused)⟩
    · rw [hmade]
      exact prescribed_added hs hord hrep hitems hm hbefore hafter hupdate hgranted hval

end

end Insert

def Models (t : Rbt κ) (m : κ → Option (PairData κ)) : Prop :=
  ∃ T, Holds t T ∧ Ordered t.style T ∧ Represents T m

theorem Deleted.refines (hs : MapStyle style) {T' : RbTree (Entry κ)} (hord : Ordered style T)
    (hrep : Represents T m) {key : κ} {ok : Bool} (h : Deleted style key T T' ok) :
    ok = (m key).isSome ∧ Ordered style T' ∧ Represents T' (update m key none) := by
  rw [Deleted] at h
  rcases descend_cases hs.order hord hrep key with
    ⟨fs, c, e, l, r, hplace, rfl, hm, hitems⟩ | ⟨fs, hplace, hm, -, -, -⟩
  · rw [hplace] at h
    obtain ⟨rfl, hremoved⟩ := h
    refine ⟨by rw [hm]; rfl, hord.remove hitems hremoved.items, ?_⟩
    refine hrep.update (some e) none hitems hremoved.items ?_
      (fun x hx => absurd hx (by simp)) (hord.apart hs.order hitems)
    intro x hx
    cases hx
    rfl
  · rw [hplace] at h
    obtain ⟨rfl, rfl⟩ := h
    refine ⟨by rw [hm]; rfl, hord, ?_⟩
    rw [← hm, update_eq_self]
    exact hrep

theorem Op.exec_refines (hs : MapStyle t.style) (h : Models t m) {op : Op κ}
    (hop : ∀ out key, op ≠ .cbsert out key) :
    Returns op.exec t fun r t' =>
      ∃ m', Models t' m' ∧ MapStep t.style (op.granted t) m op r m' ∧ t'.style = t.style := by
  obtain ⟨T, hT, hord, hrep⟩ := h
  cases op with
  | insert opt env key val =>
    rw [Op.exec, returns_bind]
    refine (hT.insert_returns env key val opt).mono ?_
    rintro - t' ⟨rfl, hT', -, hstyle⟩
    obtain ⟨hmem, m', hord', hrep', hstep⟩ := prescribed_inserted hs hord hrep opt env key val
    rw [returns_answer, hT'.answer_eq hmem]
    exact ⟨m', ⟨_, hT', hstyle ▸ hord', hrep'⟩, hstep, hstyle⟩
  | cbsert out key => exact absurd rfl (hop out key)
  | delete key =>
    rw [Op.exec, returns_bind]
    refine (hT.delete_returns key).mono ?_
    rintro ok t' ⟨T', hT', hdel, hstyle⟩
    obtain ⟨rfl, hord', hrep'⟩ := hdel.refines hs hord hrep
    exact returns_pure.mpr ⟨_, ⟨T', hT', hstyle ▸ hord', hrep'⟩, .deleted, hstyle⟩
  | search key =>
    rw [Op.exec, returns_bind]
    refine (hT.search_returns key).mono ?_
    rintro - t' ⟨rfl, hsame⟩
    obtain rfl : t = t' := hsame.symm
    refine returns_answer.mpr ⟨m, ⟨T, hT, hord, hrep⟩, ?_, rfl⟩
    have hfound : (t.mem (foundRef (descend (keyCmp t.style key) [] T).2)).map Pair.data =
        m key := by
      rcases descend_cases hs.order hord hrep key with
        ⟨fs, c, e, l, r, hplace, rfl, hm, hitems⟩ | ⟨fs, hplace, hm, -, -, -⟩
      · have hmem : ∀ x ∈ some e, x ∈ T.items := by
          intro x hx
          cases hx
          rw [hitems]
          simp
        rw [hplace, hm]
        exact hT.answer_eq hmem
      · rw [hplace, hm, foundRef, hT.shape.null]
        rfl
    rw [hfound]
    exact .found
  | clear =>
    rw [Op.exec, returns_bind]
    refine hT.clear_returns.mono ?_
    rintro - t' ⟨hT', hstyle⟩
    refine returns_pure.mpr ⟨_, ⟨.nil, hT', Pairwise.nil, ?_⟩, .cleared, hstyle⟩
    intro k d
    simp

/-- Calls other than `qse_rbt_cbsert`. -/
def MapCall (_ : Rbt κ) (op : Op κ) : Prop := ∀ out key, op ≠ .cbsert out key

theorem Runs.models [Inhabited κ] (hs : MapStyle style) {log : List (Bool × Op κ × Outcome κ)}
    (h : Runs style MapCall log t) :
    t.style = style ∧ ∃ m, Models t m ∧ MapRuns style log m := by
  induction h with
  | init =>
    refine ⟨rfl, fun _ => none, ⟨.nil, init_holds style, Pairwise.nil, ?_⟩, .nil⟩
    intro k d
    simp
  | step h hop hrun ih =>
    obtain ⟨rfl, m, hm, hruns⟩ := ih
    obtain ⟨m', hm', hstep, hstyle⟩ := (Op.exec_refines hs hm hop).of_run hrun
    exact ⟨hstyle, m', hm', hruns.snoc hstep⟩

/-! ## Keys that are freed -/

/-- The call is not `qse_rbt_cbsert`, and frees no key that a pair shares. -/
def Op.Sound (t : Rbt κ) (op : Op κ) : Prop := MapCall t op ∧ op.KeepsShared t

theorem plainStyle_mapStyle : MapStyle plainStyle where
  order := by
    refine ⟨fun a b => ?_, fun a b => ?_, fun a b c => ?_⟩ <;> simp only [plainStyle] <;> omega
  kcop := by decide
  vcop := by decide

end Qse.Rbt
