import Qse.Awk.Targets

/-!
# How often an index is evaluated

The index of a target is evaluated once when a reference is taken of it, and again each time it is
read or written.
-/

open List

namespace Qse.Awk

open Logged

section Events

variable {Expr : Type}

def indexAt (n : ℕ) (l : List (Event Expr)) : List Expr :=
  l.filterMap fun
    | .index m e => if m = n then some e else none
    | .place _ _ => none

def placesAt (n : ℕ) (l : List (Event Expr)) : List Place :=
  l.filterMap fun
    | .index _ _ => none
    | .place m p => if m = n then some p else none

def Target.indices : Target Expr → List Expr
  | .var _ => []
  | .idx _ e es => e :: es
  | .pos e => [e]

def Once (n : ℕ) (t : Target Expr) (l : List (Event Expr)) : Prop :=
  indexAt n l = t.indices ∧ ∀ p ∈ placesAt n l, ∀ q ∈ placesAt n l, p = q

variable {n m : ℕ} {l l' : List (Event Expr)}

theorem indexAt_append : indexAt n (l ++ l') = indexAt n l ++ indexAt n l' :=
  filterMap_append

theorem placesAt_append : placesAt n (l ++ l') = placesAt n l ++ placesAt n l' :=
  filterMap_append

def Tagged (n : ℕ) (l : List (Event Expr)) : Prop :=
  ∀ m, m ≠ n → indexAt m l = [] ∧ placesAt m l = []

theorem tagged_nil : Tagged n ([] : List (Event Expr)) := fun _ _ => ⟨rfl, rfl⟩

theorem Tagged.append (h : Tagged n l) (h' : Tagged n l') : Tagged n (l ++ l') := by
  intro m hm
  rw [indexAt_append, placesAt_append, (h m hm).1, (h m hm).2, (h' m hm).1, (h' m hm).2]
  exact ⟨rfl, rfl⟩

theorem tagged_index (e : Expr) : Tagged n [.index n e] := by
  intro m hm
  simp [indexAt, placesAt, hm.symm]

theorem tagged_place (p : Place) : Tagged n ([.place n p] : List (Event Expr)) := by
  intro m hm
  simp [indexAt, placesAt, hm.symm]

structure Visited (n : ℕ) (t : Target Expr) (p : Place) (l : List (Event Expr)) : Prop where
  tagged : Tagged n l
  index : indexAt n l = t.indices
  places : placesAt n l = [p]
  var : ∀ v, t = .var v → p = .var v

/-- Only index expressions have been evaluated. -/
structure Evaluated (n : ℕ) (es : List Expr) (l : List (Event Expr)) : Prop where
  tagged : Tagged n l
  index : indexAt n l = es
  places : placesAt n l = []

theorem Evaluated.append {es es' : List Expr} (h : Evaluated n es l) (h' : Evaluated n es' l') :
    Evaluated n (es ++ es') (l ++ l') where
  tagged := h.tagged.append h'.tagged
  index := by rw [indexAt_append, h.index, h'.index]
  places := by rw [placesAt_append, h.places, h'.places]; rfl

theorem evaluated_nil : Evaluated n [] ([] : List (Event Expr)) := ⟨tagged_nil, rfl, rfl⟩

theorem evaluated_index (e : Expr) : Evaluated n [e] [.index n e] where
  tagged := tagged_index e
  index := by simp [indexAt]
  places := rfl

theorem Evaluated.visited {t : Target Expr} {p : Place} (h : Evaluated n t.indices l)
    (hvar : ∀ v, t = .var v → p = .var v) : Visited n t p (l ++ [.place n p]) where
  tagged := h.tagged.append (tagged_place p)
  index := by
    rw [indexAt_append, h.index]
    exact append_nil _
  places := by
    rw [placesAt_append, h.places]
    simp [placesAt]
  var := hvar

end Events

/-! ## Access to a target -/

section Access

variable {S V E Expr Op : Type} {sem : Sem S V E Expr Op} {n : ℕ}

theorem leaves_evalIndex (e : Expr) : Leaves (evalIndex sem n e) fun _ l => Evaluated n [e] l := by
  refine leaves_bind (leaves_note (P := fun _ l => l = [.index n e]) rfl) ?_
  rintro _ _ rfl
  exact leaves_silent fun _ => evaluated_index e

theorem leaves_restToStr (es : List Expr) (str : List Char) :
    Leaves (restToStr sem n es str) fun _ l => Evaluated n es l := by
  induction es generalizing str with
  | nil => exact leaves_pure evaluated_nil
  | cons e es ih =>
    refine leaves_bind (leaves_evalIndex e) fun _ l hl => ?_
    refine leaves_bind (leaves_ask (P := fun _ l => l = []) fun _ => rfl) ?_
    rintro _ _ rfl
    refine leaves_bind (leaves_silent (P := fun _ l => l = []) fun _ => rfl) ?_
    rintro _ _ rfl
    exact leaves_mono (ih _) fun _ _ hmore => hl.append hmore

theorem leaves_idxndeToStr (e : Expr) (es : List Expr) :
    Leaves (idxndeToStr sem n e es) fun _ l => Evaluated n (e :: es) l := by
  refine leaves_bind (leaves_evalIndex e) fun _ l hl => ?_
  refine leaves_bind (leaves_silent (P := fun _ l => l = []) fun _ => rfl) ?_
  rintro _ _ rfl
  exact leaves_mono (leaves_restToStr es _) fun _ _ hmore => hl.append hmore

theorem leaves_evalPosition (e : Expr) :
    Leaves (evalPosition sem n e) fun _ l => Evaluated n [e] l := by
  refine leaves_bind (leaves_evalIndex e) fun _ l hl => leaves_silent fun _ => ?_
  rwa [append_nil]

variable {α : Type}

theorem leaves_silent_bind {β : Type} {f : S → Except E (α × S)} {g : α → Comp S E (Event Expr) β}
    {Q : β → List (Event Expr) → Prop} (h : ∀ a, Leaves (g a) Q) : Leaves (silent f >>= g) Q := by
  refine leaves_bind (leaves_silent (P := fun _ l => l = []) fun _ => rfl) ?_
  rintro a _ rfl
  exact h a

theorem leaves_place (t : Target Expr) {x : Comp S E (Event Expr) α} {p : Place}
    {l : List (Event Expr)} {P : α → Prop} (hl : Evaluated n t.indices l)
    (hvar : ∀ v, t = .var v → p = .var v) (hx : Leaves x fun a l => P a ∧ l = []) :
    Leaves (note (.place n p) >>= fun _ => x) fun a l' => P a ∧ Visited n t p (l ++ l') := by
  refine leaves_bind (leaves_note (P := fun _ l => l = [.place n p]) rfl) ?_
  rintro _ _ rfl
  refine leaves_mono hx ?_
  rintro a _ ⟨ha, rfl⟩
  exact ⟨ha, hl.visited hvar⟩

theorem leaves_visit (t : Target Expr) {x : Comp S E (Event Expr) α} {p : Place}
    {l : List (Event Expr)} (hl : Evaluated n t.indices l) (hvar : ∀ v, t = .var v → p = .var v)
    (hx : Leaves x fun _ l => l = []) :
    Leaves (note (.place n p) >>= fun _ => x) fun _ l' => ∃ p, Visited n t p (l ++ l') := by
  refine leaves_mono (leaves_place t (P := fun _ => True) hl hvar ?_) fun _ _ h => ⟨p, h.2⟩
  exact leaves_mono hx fun _ _ hnil => ⟨trivial, hnil⟩

theorem leaves_evalTarget (t : Target Expr) :
    Leaves (evalTarget sem n t) fun _ l => ∃ p, Visited n t p l := by
  cases t with
  | var v =>
    refine leaves_visit (.var v) evaluated_nil (fun w h => ?_) (leaves_ask fun _ => rfl)
    cases h
    rfl
  | idx v e es =>
    refine leaves_silent_bind fun _ => leaves_silent_bind fun _ => ?_
    refine leaves_bind (leaves_idxndeToStr e es) fun str l hl => ?_
    exact leaves_visit (.idx v e es) hl (fun w h => by cases h) (leaves_ask fun _ => rfl)
  | pos e =>
    refine leaves_bind (leaves_evalPosition e) fun lv l hl => ?_
    refine leaves_ite (fun _ => leaves_fail) fun _ => ?_
    exact leaves_visit (.pos e) hl (fun w h => by cases h) (leaves_ask fun _ => rfl)

theorem leaves_doAssignment (val : V) (t : Target Expr) :
    Leaves (doAssignment sem n val t) fun _ l => ∃ p, Visited n t p l := by
  cases t with
  | var v =>
    refine leaves_visit (.var v) evaluated_nil (fun w h => ?_) (leaves_silent fun _ => rfl)
    cases h
    rfl
  | idx v e es =>
    refine leaves_ite (fun _ => leaves_fail) fun _ => leaves_silent_bind fun _ => ?_
    refine leaves_bind (leaves_idxndeToStr e es) fun str l hl => ?_
    exact leaves_visit (.idx v e es) hl (fun w h => by cases h) (leaves_silent fun _ => rfl)
  | pos e =>
    refine leaves_ite (fun _ => leaves_fail) fun _ => ?_
    refine leaves_bind (leaves_evalPosition e) fun lv l hl => ?_
    refine leaves_ite (fun _ => ?_) fun _ => leaves_fail
    exact leaves_visit (.pos e) hl (fun w h => by cases h) (leaves_silent fun _ => rfl)

theorem leaves_getReference (t : Target Expr) :
    Leaves (getReference sem n t) fun p l => Visited n t p l := by
  have hpure : ∀ p : Place, Leaves (pure p : Comp S E (Event Expr) Place)
      fun q l => q = p ∧ l = [] := fun p => leaves_pure ⟨rfl, rfl⟩
  cases t with
  | var v =>
    refine leaves_silent_bind fun _ => ?_
    refine leaves_mono (leaves_place (.var v) evaluated_nil (fun w h => ?_) (hpure _)) ?_
    · cases h
      rfl
    · rintro _ _ ⟨rfl, h⟩
      exact h
  | idx v e es =>
    refine leaves_silent_bind fun _ => leaves_silent_bind fun _ => ?_
    refine leaves_bind (leaves_idxndeToStr e es) fun str l hl => leaves_silent_bind fun _ => ?_
    refine leaves_mono (leaves_place (.idx v e es) hl (fun w h => by cases h) (hpure _)) ?_
    rintro _ _ ⟨rfl, h⟩
    exact h
  | pos e =>
    refine leaves_bind (leaves_evalPosition e) fun lv l hl => ?_
    refine leaves_ite (fun _ => ?_) fun _ => leaves_fail
    refine leaves_mono (leaves_place (.pos e) hl (fun w h => by cases h) (hpure _)) ?_
    rintro _ _ ⟨rfl, h⟩
    exact h

end Access

/-! ## Lists of arguments -/

def Spread {β Expr : Type} (P : ℕ → β → List (Event Expr) → Prop) :
    ℕ → List β → List (Event Expr) → Prop
  | _, [], l => l = []
  | n, b :: bs, l =>
    ∃ l₁ l₂, l = l₁ ++ l₂ ∧ Tagged n l₁ ∧ P n b l₁ ∧ Spread P (n + 1) bs l₂

theorem Spread.before {β Expr : Type} {P : ℕ → β → List (Event Expr) → Prop} {bs : List β}
    {n m : ℕ} {l : List (Event Expr)} (h : Spread P n bs l) (hm : m < n) :
    indexAt m l = [] ∧ placesAt m l = [] := by
  induction bs generalizing n l with
  | nil =>
    cases h
    exact ⟨rfl, rfl⟩
  | cons b bs ih =>
    obtain ⟨l₁, l₂, rfl, htagged, -, hrest⟩ := h
    obtain ⟨hindex, hplaces⟩ := htagged m (by omega)
    obtain ⟨hindex', hplaces'⟩ := ih hrest (by omega)
    rw [indexAt_append, placesAt_append, hindex, hplaces, hindex', hplaces']
    exact ⟨rfl, rfl⟩

theorem Spread.at {β Expr : Type} {P : ℕ → β → List (Event Expr) → Prop} {bs : List β} {n i : ℕ}
    {l : List (Event Expr)} {b : β} (h : Spread P n bs l) (hb : bs[i]? = some b) :
    ∃ l', P (n + i) b l' ∧ indexAt (n + i) l = indexAt (n + i) l' ∧
      placesAt (n + i) l = placesAt (n + i) l' := by
  induction bs generalizing n i l with
  | nil => cases hb
  | cons c bs ih =>
    obtain ⟨l₁, l₂, rfl, htagged, hc, hrest⟩ := h
    rw [indexAt_append, placesAt_append]
    cases i with
    | zero =>
      cases hb
      obtain ⟨hindex, hplaces⟩ := hrest.before (Nat.lt_succ_self n)
      refine ⟨l₁, hc, ?_, ?_⟩
      · rw [Nat.add_zero, hindex, append_nil]
      · rw [Nat.add_zero, hplaces, append_nil]
    | succ i =>
      obtain ⟨hindex, hplaces⟩ := htagged (n + (i + 1)) (by omega)
      obtain ⟨l', hb', hindex', hplaces'⟩ := ih hrest hb
      have hnum : n + 1 + i = n + (i + 1) := by omega
      rw [hnum] at hb' hindex' hplaces'
      refine ⟨l', hb', ?_, ?_⟩
      · rw [hindex, hindex', nil_append]
      · rw [hplaces, hplaces', nil_append]

section Args

variable {S V E Expr Op : Type} {sem : Sem S V E Expr Op} {n : ℕ}

def ArgVisited (n : ℕ) : Arg Expr → List (Event Expr) → Prop
  | .target t, l => ∃ p, Visited n t p l
  | .other _, l => l = []

variable {a : Arg Expr}

theorem ArgVisited.tagged {l : List (Event Expr)} (h : ArgVisited n a l) : Tagged n l := by
  cases a with
  | target t =>
    obtain ⟨p, hp⟩ := h
    exact hp.tagged
  | other e =>
    cases h
    exact tagged_nil

theorem leaves_evalArg (a : Arg Expr) : Leaves (evalArg sem n a) fun _ l => ArgVisited n a l := by
  cases a with
  | target t => exact leaves_evalTarget t
  | other e => exact leaves_silent fun _ => rfl

def RefVisited (n : ℕ) (a : Arg Expr) (p : Place) (l : List (Event Expr)) : Prop :=
  ∃ t, a = .target t ∧ Visited n t p l

theorem leaves_refArg (a : Arg Expr) : Leaves (refArg sem n a) fun p l => RefVisited n a p l := by
  cases a with
  | target t => exact leaves_mono (leaves_getReference t) fun p l h => ⟨t, rfl, h⟩
  | other e => exact leaves_fail

def Pushed (spec : ℕ → Bool) (n : ℕ) (a : Arg Expr × ArgVal V) (l : List (Event Expr)) : Prop :=
  if spec n then ∃ p, a.2 = .ref p ∧ RefVisited n a.1 p l else ArgVisited n a.1 l

theorem leaves_pushArg (spec : ℕ → Bool) (a : Arg Expr) :
    Leaves (pushArg sem spec n a) fun v l => Tagged n l ∧ Pushed spec n (a, v) l := by
  refine leaves_ite (fun hspec => ?_) fun hspec => ?_
  · refine leaves_bind (leaves_refArg a) fun p l hl => leaves_pure ?_
    rw [append_nil, Pushed, if_pos hspec]
    obtain ⟨t, -, hvisited⟩ := id hl
    exact ⟨hvisited.tagged, p, rfl, hl⟩
  · refine leaves_bind (leaves_evalArg a) fun v l hl => leaves_pure ?_
    rw [append_nil, Pushed, if_neg hspec]
    exact ⟨hl.tagged, hl⟩

theorem leaves_pushArgs (spec : ℕ → Bool) (as : List (Arg Expr)) :
    Leaves (pushArgs sem spec n as) fun vs l =>
      vs.length = as.length ∧ Spread (Pushed spec) n (as.zip vs) l := by
  induction as generalizing n with
  | nil => exact leaves_pure ⟨rfl, rfl⟩
  | cons a as ih =>
    refine leaves_bind (leaves_pushArg spec a) fun v l₁ hl₁ => ?_
    refine leaves_bind ih fun vs l₂ hl₂ => leaves_pure ?_
    rw [append_nil]
    exact ⟨congrArg Nat.succ hl₂.1, l₁, l₂, rfl, hl₁.1, hl₁.2, hl₂.2⟩

def Referred (spec : ℕ → Bool) (n : ℕ) (a : Arg Expr) (l : List (Event Expr)) : Prop :=
  if spec n then ∃ p, RefVisited n a p l else l = []

theorem spread_cons {spec : ℕ → Bool} {as : List (Arg Expr)} {l₁ l₂ : List (Event Expr)} {p : Place}
    (hspec : spec n = true) (h : RefVisited n a p l₁)
    (hrest : Spread (Referred spec) (n + 1) as l₂) :
    Spread (Referred spec) n (a :: as) (l₁ ++ l₂) := by
  obtain ⟨t, -, hvisited⟩ := id h
  refine ⟨l₁, l₂, rfl, hvisited.tagged, ?_, hrest⟩
  rw [Referred, if_pos hspec]
  exact ⟨p, h⟩

theorem spread_skip {spec : ℕ → Bool} {as : List (Arg Expr)} {l : List (Event Expr)}
    (hspec : ¬spec n = true) (hrest : Spread (Referred spec) (n + 1) as l) :
    Spread (Referred spec) n (a :: as) l := by
  refine ⟨[], l, rfl, tagged_nil, ?_, hrest⟩
  rw [Referred, if_neg hspec]

theorem leaves_checkArgs (spec : ℕ → Bool) (as : List (Arg Expr)) :
    Leaves (checkArgs sem spec n as) fun _ l => Spread (Referred spec) n as l := by
  induction as generalizing n with
  | nil => exact leaves_pure rfl
  | cons a as ih =>
    refine leaves_ite (fun hspec => ?_) fun hspec => ?_
    · refine leaves_bind (leaves_refArg a) fun p l₁ hl₁ => ?_
      exact leaves_mono ih fun _ l₂ hl₂ => spread_cons hspec hl₁ hl₂
    · exact leaves_mono ih fun _ l hl => spread_skip hspec hl

theorem leaves_setBack (spec : ℕ → Bool) (param : ℕ → V) (as : List (Arg Expr)) :
    Leaves (setBack sem spec param n as) fun _ l => Spread (Referred spec) n as l := by
  induction as generalizing n with
  | nil => exact leaves_pure rfl
  | cons a as ih =>
    refine leaves_ite (fun hspec => ?_) fun hspec => ?_
    · refine leaves_bind (leaves_refArg a) fun p l₁ hl₁ => leaves_silent_bind fun _ => ?_
      exact leaves_mono ih fun _ l₂ hl₂ => spread_cons hspec hl₁ hl₂
    · exact leaves_mono ih fun _ l hl => spread_skip hspec hl

theorem leaves_assignRefs (vals : List (ArgVal V)) (assigned : List (ℕ × V)) :
    Leaves (assignRefs sem vals assigned) fun _ (l : List (Event Expr)) =>
      ∀ n, indexAt n l = [] ∧ ∀ p ∈ placesAt n l, vals[n]? = some (.ref p) := by
  induction assigned with
  | nil => exact leaves_pure fun n => ⟨rfl, fun p hp => by cases hp⟩
  | cons nv more ih =>
    obtain ⟨m, v⟩ := nv
    rw [assignRefs]
    split
    · rename_i p hval
      refine leaves_bind (leaves_note (P := fun _ l => l = [.place m p]) rfl) ?_
      rintro _ _ rfl
      refine leaves_silent_bind fun _ => leaves_mono ih fun _ l hl n => ?_
      obtain ⟨hindex, hplaces⟩ := hl n
      rw [indexAt_append, placesAt_append]
      refine ⟨hindex, fun q hq => ?_⟩
      obtain hnew | hold := mem_append.1 hq
      · by_cases hmn : m = n
        · subst hmn
          have hsame : q = p := by simpa [placesAt] using hnew
          rw [hsame, hval]
        · simp [placesAt, hmn] at hnew
      · exact hplaces q hold
    · exact ih

end Args

/-! ## Operations -/

inductive Operation (S V E Expr Op : Type) where
  | compound (t : Target Expr) (op : Op) (right : Expr)
  | incpre (t : Target Expr) (plus : Bool)
  | incpst (t : Target Expr) (plus : Bool)
  | callFun (args : List (Arg Expr)) (argspec : ℕ → Bool)
      (body : List (ArgVal V) → S → Except E ((V × (ℕ → V)) × S))
  | callFnc (args : List (Arg Expr)) (spec : ℕ → Bool)
      (impl : List (ArgVal V) → S → Except E ((V × List (ℕ × V)) × S))

namespace Operation

variable {S V E Expr Op : Type}

def run (sem : Sem S V E Expr Op) : Operation S V E Expr Op → Comp S E (Event Expr) V
  | compound t op right => evalAssignment sem t (some op) right
  | incpre t plus => evalIncpre sem t plus
  | incpst t plus => evalIncpst sem t plus
  | callFun args argspec body => Awk.callFun sem args argspec body
  | callFnc args spec impl => Awk.callFnc sem args spec impl

def refTarget (args : List (Arg Expr)) (spec : ℕ → Bool) (n : ℕ) : Option (Target Expr) :=
  match spec n, args[n]? with
  | true, some (.target t) => some t
  | _, _ => none

def target : Operation S V E Expr Op → ℕ → Option (Target Expr)
  | compound t _ _, n => if n = 0 then some t else none
  | incpre t _, n => if n = 0 then some t else none
  | incpst t _, n => if n = 0 then some t else none
  | callFun args argspec _, n => refTarget args argspec n
  | callFnc args spec _, n => refTarget args spec n

/-- How often the index is evaluated: when it is read and when it is written; or in a check, for its
value and to set it back; or when a reference is taken of it -/
def times : Operation S V E Expr Op → ℕ
  | compound _ _ _ => 2
  | incpre _ _ => 2
  | incpst _ _ => 2
  | callFun _ _ _ => 3
  | callFnc _ _ _ => 1

def IsCallFnc (op : Operation S V E Expr Op) : Prop :=
  ∃ args spec impl, op = callFnc args spec impl

variable {sem : Sem S V E Expr Op} {n : ℕ} {t : Target Expr}

variable {args : List (Arg Expr)} {spec : ℕ → Bool} {l : List (Event Expr)}

theorem refTarget_eq
    (h : refTarget args spec n = some t) : spec n = true ∧ args[n]? = some (.target t) := by
  rw [refTarget] at h
  split at h
  · rename_i t' hspec harg
    cases h
    exact ⟨hspec, harg⟩
  · cases h

structure Trace (k : ℕ) (n : ℕ) (t : Target Expr) (l : List (Event Expr)) : Prop where
  index : indexAt n l = (List.replicate k t.indices).flatten
  var : ∀ v, t = .var v → ∀ p ∈ placesAt n l, p = .var v

theorem trace_two {p q : Place} {l' : List (Event Expr)} (h : Visited n t p l)
    (h' : Visited n t q l') : Trace 2 n t (l ++ l') where
  index := by
    rw [indexAt_append, h.index, h'.index]
    simp [List.replicate]
  var := by
    intro v hv r hr
    rw [placesAt_append, h.places, h'.places] at hr
    rw [h.var v hv, h'.var v hv] at hr
    simpa using hr

theorem leaves_compound (t : Target Expr) (op : Op) (right : Expr) :
    Leaves (evalAssignment sem t (some op) right) fun _ l => Trace 2 0 t l := by
  refine leaves_silent_bind fun val => ?_
  refine leaves_bind (leaves_evalTarget t) fun val2 l hl => leaves_silent_bind fun tmp => ?_
  obtain ⟨p, hp⟩ := hl
  refine leaves_mono (leaves_doAssignment tmp t) ?_
  rintro _ l' ⟨q, hq⟩
  exact trace_two hp hq

theorem leaves_inc (t : Target Expr) (plus : Bool) (choose : V × V → V) :
    Leaves (do
      let left ← evalTarget sem 0 t
      let res ← silent (sem.number plus left)
      let _ ← doAssignment sem 0 res.2 t
      pure (choose res)) fun _ l => Trace 2 0 t l := by
  refine leaves_bind (leaves_evalTarget t) fun left l hl => leaves_silent_bind fun res => ?_
  obtain ⟨p, hp⟩ := hl
  refine leaves_bind (leaves_doAssignment res.2 t) ?_
  rintro _ l' ⟨q, hq⟩
  refine leaves_pure ?_
  rw [append_nil]
  exact trace_two hp hq

theorem trace_one_of_referred {as : List (Arg Expr)} (h : Spread (Referred spec) 0 as l)
    (hspec : spec n = true) (harg : as[n]? = some (.target t)) : Trace 1 n t l := by
  obtain ⟨l', hreferred, hindex, hplaces⟩ := h.at harg
  rw [Nat.zero_add, Referred, if_pos hspec] at hreferred
  rw [Nat.zero_add] at hindex hplaces
  obtain ⟨p, t', heq, hvisited⟩ := hreferred
  cases heq
  refine ⟨?_, fun v hv q hq => ?_⟩
  · rw [hindex, hvisited.index]
    simp [List.replicate]
  · rw [hplaces, hvisited.places, mem_singleton] at hq
    rw [hq]
    exact hvisited.var v hv

theorem trace_append {j k : ℕ} {l' : List (Event Expr)} (h : Trace j n t l)
    (h' : Trace k n t l') : Trace (j + k) n t (l ++ l') where
  index := by rw [indexAt_append, h.index, h'.index, replicate_add, flatten_append]
  var := by
    intro v hv p hp
    rw [placesAt_append] at hp
    obtain hfirst | hsecond := mem_append.1 hp
    · exact h.var v hv p hfirst
    · exact h'.var v hv p hsecond

theorem leaves_callFun {argspec : ℕ → Bool}
    (body : List (ArgVal V) → S → Except E ((V × (ℕ → V)) × S))
    (ht : refTarget args argspec n = some t) :
    Leaves (Awk.callFun sem args argspec body) fun _ l => Trace 3 n t l := by
  obtain ⟨hspec, harg⟩ := refTarget_eq ht
  refine leaves_bind (leaves_pushArgs _ args) fun vals l₁ hl₁ => ?_
  refine leaves_bind (leaves_checkArgs argspec args) fun _ l₂ hl₂ => leaves_silent_bind fun res =>
    ?_
  refine leaves_bind (leaves_setBack argspec res.2 args) fun _ l₃ hl₃ => leaves_pure ?_
  obtain ⟨hlength, hpushed⟩ := hl₁
  have hn : n < vals.length := by
    rw [hlength]
    exact (List.getElem?_eq_some_iff.1 harg).1
  have hzip : (args.zip vals)[n]? = some (.target t, vals[n]) := by
    rw [getElem?_zip_eq_some]
    exact ⟨harg, getElem?_eq_getElem hn⟩
  obtain ⟨l', hvisit, hindex, hplaces⟩ := hpushed.at hzip
  rw [Nat.zero_add] at hvisit hindex hplaces
  obtain ⟨p, hvisited⟩ : ∃ p, Visited n t p l' := hvisit
  have hfirst : Trace 1 n t l₁ := by
    refine ⟨?_, fun v hv q hq => ?_⟩
    · rw [hindex, hvisited.index]
      simp [List.replicate]
    · rw [hplaces, hvisited.places, mem_singleton] at hq
      rw [hq]
      exact hvisited.var v hv
  rw [append_nil, ← append_assoc]
  exact trace_append (trace_append hfirst (trace_one_of_referred hl₂ hspec harg))
    (trace_one_of_referred hl₃ hspec harg)

theorem leaves_callFnc (impl : List (ArgVal V) → S → Except E ((V × List (ℕ × V)) × S))
    (ht : refTarget args spec n = some t) :
    Leaves (Awk.callFnc sem args spec impl) fun _ l => Once n t l := by
  obtain ⟨hspec, harg⟩ := refTarget_eq ht
  refine leaves_bind (leaves_pushArgs spec args) fun vals l₁ hl₁ => leaves_silent_bind fun res => ?_
  refine leaves_bind (leaves_assignRefs vals res.2) fun _ l₂ hl₂ => leaves_pure ?_
  obtain ⟨hlength, hpushed⟩ := hl₁
  have hn : n < vals.length := by
    rw [hlength]
    exact (List.getElem?_eq_some_iff.1 harg).1
  have hzip : (args.zip vals)[n]? = some (.target t, vals[n]) := by
    rw [getElem?_zip_eq_some]
    exact ⟨harg, getElem?_eq_getElem hn⟩
  obtain ⟨l', hvisit, hindex, hplaces⟩ := hpushed.at hzip
  rw [Nat.zero_add] at hvisit hindex hplaces
  rw [Pushed, if_pos hspec] at hvisit
  obtain ⟨p, hval, t', heq, hvisited⟩ := hvisit
  cases heq
  obtain ⟨hindex₂, hplaces₂⟩ := hl₂ n
  have hplace : ∀ q ∈ placesAt n (l₁ ++ l₂), q = p := by
    intro q hq
    rw [placesAt_append, hplaces, hvisited.places] at hq
    obtain hfirst | hsecond := mem_append.1 hq
    · exact mem_singleton.1 hfirst
    · have hsame := hplaces₂ q hsecond
      have hval' : vals[n] = .ref p := hval
      rw [getElem?_eq_getElem hn, hval'] at hsame
      cases hsame
      rfl
  rw [append_nil]
  refine ⟨?_, fun q hq r hr => (hplace q hq).trans (hplace r hr).symm⟩
  rw [indexAt_append, hindex, hvisited.index, hindex₂, append_nil]

theorem leaves_run {op : Operation S V E Expr Op} (ht : op.target n = some t)
    (hmore : ¬op.IsCallFnc) : Leaves (op.run sem) fun _ l => Trace op.times n t l := by
  have hzero : ∀ {u : Target Expr}, (if n = 0 then some u else none) = some t → n = 0 ∧ u = t := by
    intro u hu
    split at hu
    · cases hu
      exact ⟨‹_›, rfl⟩
    · cases hu
  cases op with
  | compound u op right =>
    obtain ⟨rfl, rfl⟩ := hzero ht
    exact leaves_compound u op right
  | incpre u plus =>
    obtain ⟨rfl, rfl⟩ := hzero ht
    exact leaves_inc u plus Prod.snd
  | incpst u plus =>
    obtain ⟨rfl, rfl⟩ := hzero ht
    exact leaves_inc u plus Prod.fst
  | callFun args argspec body => exact leaves_callFun body ht
  | callFnc args spec impl => exact absurd ⟨args, spec, impl, rfl⟩ hmore

theorem once_iff_of_trace {k : ℕ} (h : Trace k n t l) (hk : k ≠ 1) :
    Once n t l ↔ t.indices = [] := by
  constructor
  · rintro ⟨hindex, -⟩
    have hlength := congrArg List.length (h.index.symm.trans hindex)
    rw [length_flatten, map_replicate, sum_replicate_nat] at hlength
    by_contra hne
    have hpos := length_pos_of_ne_nil hne
    exact hk (Nat.eq_of_mul_eq_mul_right hpos (hlength.trans (Nat.one_mul _).symm))
  · intro hnil
    have hvar : ∃ v, t = .var v := by
      cases t with
      | var v => exact ⟨v, rfl⟩
      | idx v e es | pos e => cases hnil
    obtain ⟨v, hv⟩ := hvar
    refine ⟨?_, fun p hp q hq => (h.var v hv p hp).trans (h.var v hv q hq).symm⟩
    rw [h.index, hnil]
    simp

/-- The index or position of an operand is evaluated once,
and the place that is read is the one that
is written, just if the operand is a variable or the call is one of an intrinsic function. -/
theorem once_iff {op : Operation S V E Expr Op} (ht : op.target n = some t) {s s' : S} {v : V}
    {l : List (Event Expr)} (hrun : op.run sem s = .ok (v, s', l)) :
    Once n t l ↔ t.indices = [] ∨ op.IsCallFnc := by
  by_cases hfnc : op.IsCallFnc
  · refine iff_of_true ?_ (.inr hfnc)
    obtain ⟨args, spec, impl, rfl⟩ := hfnc
    exact leaves_callFnc impl ht s v s' l hrun
  · have hone : op.times ≠ 1 := by
      intro htimes
      cases op with
      | callFnc args spec impl => exact hfnc ⟨args, spec, impl, rfl⟩
      | compound u op right | incpre u plus | incpst u plus | callFun args argspec body =>
        cases htimes
    rw [once_iff_of_trace (leaves_run ht hfnc s v s' l hrun) hone]
    exact (or_iff_left hfnc).symm

def countSem : Sem ℕ ℕ Unit Unit Unit where
  eval _ i := .ok (i, i + 1)
  valtostr v i := .ok (List.replicate v '1', i)
  valtoint v i := .ok (v, i)
  subsep _ := []
  isMap _ := false
  isValidPosidx lv := 0 ≤ lv
  eposidx := ()
  emaptoidx := ()
  emaptopos := ()
  enotref := ()
  getVar _ _ := 0
  setVar _ v i := .ok (v, i)
  makeVar _ i := .ok ((), i)
  useMap _ i := .ok ((), i)
  assignMap _ i := .ok ((), i)
  getElem _ _ _ := 0
  setElem _ _ v i := .ok (v, i)
  makeElem _ _ i := .ok ((), i)
  getField _ _ := 0
  setField _ v i := .ok (v, i)
  binop _ v v' i := .ok (v + v', i)
  number _ v i := .ok ((v, v + 1), i)
  setRef _ _ i := .ok ((), i)

/-- `a[i++]++` -/
theorem not_once_incpst : ¬∀ (op : Operation ℕ ℕ Unit Unit Unit) (n : ℕ) (t : Target Unit)
    (s s' : ℕ) (v : ℕ) (l : List (Event Unit)), op.target n = some t →
      op.run countSem s = .ok (v, s', l) → Once n t l := by
  intro hclaim
  have honce := hclaim (.incpst (.idx (.gbl 0) () []) true) 0 (.idx (.gbl 0) () []) 0 2 0
    [.index 0 (), .place 0 (.elem (.gbl 0) []), .index 0 (), .place 0 (.elem (.gbl 0) ['1'])]
    rfl rfl
  have hsame := honce.2 (.elem (.gbl 0) []) (by decide) (.elem (.gbl 0) ['1']) (by decide)
  cases hsame

/-- A call of an intrinsic function that assigns to `a[i++]` -/
theorem once_iff_callFnc :
    Once 0 (.idx (.gbl 0) () [] : Target Unit) [.index 0 (), .place 0 (.elem (.gbl 0) []),
      .place 0 (.elem (.gbl 0) [])] := by
  have hrun : (callFnc [.target (.idx (.gbl 0) () [])] (fun _ => true)
      fun _ i => .ok ((0, [(0, 5)]), i) : Operation ℕ ℕ Unit Unit Unit).run countSem 0 =
        .ok (0, 1, [.index 0 (), .place 0 (.elem (.gbl 0) []), .place 0 (.elem (.gbl 0) [])]) :=
    rfl
  exact (once_iff rfl hrun).2 (.inr ⟨_, _, _, rfl⟩)

end Operation

end Qse.Awk
