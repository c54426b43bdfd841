import Mathlib.Data.List.Perm.Basic
import Mathlib.Data.List.Nodup
import Qse.Xli.Nodes

/-!
# What belongs to a value

A store tells the sequence of atoms of every list and the segments of every string.
-/

open Function List Option

namespace Qse.Xli

abbrev Entry := Addr × Body

structure Store where
  lists : Addr → Option (List Entry)
  strs : Addr → Option (List (Addr × Str))

def Body.val? : Body → Option ValPtr
  | .pair _ _ _ val => some val
  | _ => none

def vals (items : List Entry) : List ValPtr := items.filterMap fun e => e.2.val?

def addrs {α : Type} (items : List (Addr × α)) : List Addr := items.map Prod.fst

variable {α : Type}

@[simp] theorem addrs_nil : addrs ([] : List (Addr × α)) = [] := rfl

@[simp] theorem addrs_cons (e : Addr × α) (items : List (Addr × α)) :
    addrs (e :: items) = e.1 :: addrs items := rfl

@[simp] theorem addrs_append (items items' : List (Addr × α)) :
    addrs (items ++ items') = addrs items ++ addrs items' := map_append

@[simp] theorem vals_nil : vals [] = [] := rfl

theorem vals_append (items items' : List Entry) :
    vals (items ++ items') = vals items ++ vals items' :=
  filterMap_append

theorem vals_cons (e : Entry) (items : List Entry) :
    vals (e :: items) = vals [e] ++ vals items := by
  rw [← singleton_append, vals_append]

theorem vals_singleton (a : Addr) (body : Body) : vals [(a, body)] = body.val?.toList := by
  cases body <;> rfl

def ValPtr.IsConst : ValPtr → Prop
  | .nil => True
  | .true => True
  | .false => True
  | _ => False

inductive Owns (st : Store) : List ValPtr → List Addr → Prop
  | nil : Owns st [] []
  | const {v : ValPtr} {vs : List ValPtr} {as : List Addr} :
      v.IsConst → Owns st vs as → Owns st (v :: vs) as
  | str {s : Addr} {str : Str} {segs : List (Addr × Str)} {vs : List ValPtr} {as : List Addr} :
      st.strs s = some ((s, str) :: segs) → Owns st vs as →
      Owns st (.str s :: vs) (s :: (addrs segs ++ as))
  | list {l : Addr} {items : List Entry} {vs : List ValPtr} {as : List Addr} :
      st.lists l = some items → Owns st (vals items ++ vs) as →
      Owns st (.list l :: vs) (l :: (addrs items ++ as))

variable {st st' : Store} {vs ws : List ValPtr} {as bs : List Addr}

theorem Owns.append (h : Owns st vs as) (h' : Owns st ws bs) : Owns st (vs ++ ws) (as ++ bs) := by
  induction h with
  | nil => exact h'
  | const hv _ ih => exact .const hv ih
  | str hs _ ih =>
    rw [cons_append, cons_append, append_assoc]
    exact .str hs ih
  | list hl _ ih =>
    rw [cons_append, cons_append, append_assoc]
    exact .list hl (by rwa [← append_assoc])

theorem owns_append (h : Owns st (vs ++ ws) as) :
    ∃ as₁ as₂, Owns st vs as₁ ∧ Owns st ws as₂ ∧ as = as₁ ++ as₂ := by
  generalize hall : vs ++ ws = all at h
  induction h generalizing vs with
  | nil =>
    obtain ⟨rfl, rfl⟩ := append_eq_nil_iff.1 hall
    exact ⟨[], [], .nil, .nil, rfl⟩
  | const hv hrest ih =>
    rcases append_eq_cons_iff.1 hall with ⟨rfl, rfl⟩ | ⟨vs', rfl, rfl⟩
    · exact ⟨[], _, .nil, .const hv hrest, rfl⟩
    · obtain ⟨as₁, as₂, h₁, h₂, rfl⟩ := ih rfl
      exact ⟨as₁, as₂, .const hv h₁, h₂, rfl⟩
  | str hs hrest ih =>
    rcases append_eq_cons_iff.1 hall with ⟨rfl, rfl⟩ | ⟨vs', rfl, rfl⟩
    · exact ⟨[], _, .nil, .str hs hrest, rfl⟩
    · obtain ⟨as₁, as₂, h₁, h₂, rfl⟩ := ih rfl
      exact ⟨_, as₂, .str hs h₁, h₂, by rw [cons_append, append_assoc]⟩
  | list hl hrest ih =>
    rcases append_eq_cons_iff.1 hall with ⟨rfl, rfl⟩ | ⟨vs', rfl, rfl⟩
    · exact ⟨[], _, .nil, .list hl hrest, rfl⟩
    · obtain ⟨as₁, as₂, h₁, h₂, rfl⟩ := ih (append_assoc ..)
      exact ⟨_, as₂, .list hl h₁, h₂, by rw [cons_append, append_assoc]⟩

theorem owns_cons {v : ValPtr} (h : Owns st (v :: vs) as) :
    ∃ as₁ as₂, Owns st [v] as₁ ∧ Owns st vs as₂ ∧ as = as₁ ++ as₂ :=
  @owns_append st [v] vs as h

theorem Owns.unique (h : Owns st vs as) (h' : Owns st vs bs) : as = bs := by
  induction h generalizing bs with
  | nil =>
    cases h'
    rfl
  | const hv _ ih =>
    cases h' with
    | const _ hrest => exact ih hrest
    | str | list => cases hv
  | str hs _ ih =>
    cases h' with
    | const hv => cases hv
    | str hs' hrest =>
      obtain ⟨-, rfl⟩ := List.cons.inj (some.inj (hs.symm.trans hs'))
      rw [ih hrest]
  | list hl _ ih =>
    cases h' with
    | const hv => cases hv
    | list hl' hrest =>
      obtain rfl := some.inj (hl.symm.trans hl')
      rw [ih hrest]

theorem Owns.congr (h : Owns st vs as) (hlists : ∀ a ∈ as, st'.lists a = st.lists a)
    (hstrs : ∀ a ∈ as, st'.strs a = st.strs a) : Owns st' vs as := by
  induction h with
  | nil => exact .nil
  | const hv _ ih => exact .const hv (ih hlists hstrs)
  | str hs _ ih =>
    refine .str ((hstrs _ (.head _)).trans hs) (ih ?_ ?_)
    · exact fun a ha => hlists a (.tail _ (mem_append_right _ ha))
    · exact fun a ha => hstrs a (.tail _ (mem_append_right _ ha))
  | list hl _ ih =>
    refine .list ((hlists _ (.head _)).trans hl) (ih ?_ ?_)
    · exact fun a ha => hlists a (.tail _ (mem_append_right _ ha))
    · exact fun a ha => hstrs a (.tail _ (mem_append_right _ ha))

theorem Owns.perm (h : Owns st vs as) (hperm : vs.Perm ws) : ∃ bs, Owns st ws bs ∧ bs.Perm as := by
  induction hperm generalizing as with
  | nil => exact ⟨as, h, .refl _⟩
  | cons v _ ih =>
    obtain ⟨as₁, as₂, h₁, h₂, rfl⟩ := owns_cons h
    obtain ⟨bs, hbs, hperm⟩ := ih h₂
    exact ⟨as₁ ++ bs, h₁.append hbs, hperm.append_left as₁⟩
  | swap v w vs =>
    obtain ⟨as₁, as₂, h₁, h₂, rfl⟩ := owns_cons h
    obtain ⟨as₃, as₄, h₃, h₄, rfl⟩ := owns_cons h₂
    refine ⟨as₃ ++ (as₁ ++ as₄), h₃.append (h₁.append h₄), ?_⟩
    rw [← append_assoc, ← append_assoc]
    exact perm_append_comm.append_right as₄
  | trans _ _ ih₁ ih₂ =>
    obtain ⟨bs, hbs, hperm₁⟩ := ih₁ h
    obtain ⟨cs, hcs, hperm₂⟩ := ih₂ hbs
    exact ⟨cs, hcs, hperm₂.trans hperm₁⟩

def Store.Apart (st : Store) (l : Addr) : Prop :=
  (∀ l' items, st.lists l' = some items → l ∉ addrs items) ∧
    ∀ s segs, st.strs s = some segs → l ∉ addrs segs

theorem mem_behind {a b : Addr} {cs : List Addr} (h : a ∈ b :: (cs ++ as)) (hne : a ≠ b)
    (hnot : a ∉ cs) : a ∈ as :=
  (mem_append.1 ((mem_cons.1 h).resolve_left hne)).resolve_left hnot

theorem perm_behind {a : Addr} {cs as' : List Addr} (ds : List Addr) (h : as'.Perm (ds ++ as)) :
    (a :: (cs ++ as')).Perm (ds ++ a :: (cs ++ as)) := by
  rw [perm_iff_count] at h ⊢
  intro x
  have hx := h x
  simp only [count_append, count_cons] at hx ⊢
  omega

theorem Owns.atoms {l : Addr} {items : List Entry} (h : Owns st vs as)
    (hlist : st.lists l = some items) (hl : l ∈ as) (hapart : st.Apart l) :
    (l :: addrs items).Sublist as := by
  induction h with
  | nil => cases hl
  | const _ _ ih => exact ih hl
  | @str s str segs vs as hs _ ih =>
    have hnot := hapart.2 _ _ hs
    rw [addrs_cons, mem_cons, not_or] at hnot
    have hmem := mem_behind hl hnot.1 hnot.2
    exact ((ih hmem).trans (sublist_append_right _ _)).trans (sublist_cons_self _ _)
  | @list l₀ items₀ vs as hl₀ _ ih =>
    by_cases heq : l₀ = l
    · subst heq
      obtain rfl := some.inj (hl₀.symm.trans hlist)
      exact (sublist_append_left _ _).cons_cons _
    · have hmem := mem_behind hl (Ne.symm heq) (hapart.1 _ _ hl₀)
      exact ((ih hmem).trans (sublist_append_right _ _)).trans (sublist_cons_self _ _)

theorem Owns.segments {s : Addr} {segs : List (Addr × Str)} (h : Owns st vs as)
    (hstr : st.strs s = some segs) (hs : s ∈ as)
    (hlists : ∀ l items, st.lists l = some items → s ≠ l ∧ s ∉ addrs items)
    (hhead : ∀ s' segs', st.strs s' = some segs' → s ∈ addrs segs' → s = s') :
    (addrs segs).Sublist as := by
  induction h with
  | nil => cases hs
  | const _ _ ih => exact ih hs
  | @str s₀ str segs₀ vs as hs₀ _ ih =>
    by_cases heq : s = s₀
    · subst heq
      obtain rfl := some.inj (hs₀.symm.trans hstr)
      exact (sublist_append_left _ _).cons_cons _
    · have hnot : s ∉ addrs ((s₀, str) :: segs₀) := fun hin => heq (hhead s₀ _ hs₀ hin)
      rw [addrs_cons, mem_cons, not_or] at hnot
      have hmem := mem_behind hs heq hnot.2
      exact ((ih hmem).trans (sublist_append_right _ _)).trans (sublist_cons_self _ _)
  | @list l items vs as hl _ ih =>
    obtain ⟨hne, hnot⟩ := hlists l items hl
    have hmem := mem_behind hs hne hnot
    exact ((ih hmem).trans (sublist_append_right _ _)).trans (sublist_cons_self _ _)

/-! ## Changes to a list -/

def Store.setList (st : Store) (l : Addr) (items : Option (List Entry)) : Store :=
  { st with lists := update st.lists l items }

def Store.setStr (st : Store) (s : Addr) (segs : Option (List (Addr × Str))) : Store :=
  { st with strs := update st.strs s segs }

def Store.drop (st : Store) (as : List Addr) : Store where
  lists l := if l ∈ as then none else st.lists l
  strs s := if s ∈ as then none else st.strs s

@[simp] theorem Store.setList_lists (l l' : Addr) (items : Option (List Entry)) :
    (st.setList l items).lists l' = if l' = l then items else st.lists l' :=
  update_apply ..

@[simp] theorem Store.setList_strs (l : Addr) (items : Option (List Entry)) :
    (st.setList l items).strs = st.strs := rfl

@[simp] theorem Store.setStr_strs (s s' : Addr) (segs : Option (List (Addr × Str))) :
    (st.setStr s segs).strs s' = if s' = s then segs else st.strs s' :=
  update_apply ..

@[simp] theorem Store.setStr_lists (s : Addr) (segs : Option (List (Addr × Str))) :
    (st.setStr s segs).lists = st.lists := rfl

@[simp] theorem Store.drop_lists (as : List Addr) (l : Addr) :
    (st.drop as).lists l = if l ∈ as then none else st.lists l := rfl

@[simp] theorem Store.drop_strs (as : List Addr) (s : Addr) :
    (st.drop as).strs s = if s ∈ as then none else st.strs s := rfl

variable {l : Addr} {e : Entry} {xs ys : List Entry}

theorem Owns.drop (h : Owns st vs as) (hnot : ∀ a ∈ as, a ∉ bs) : Owns (st.drop bs) vs as :=
  h.congr (fun a ha => if_neg (hnot a ha)) fun a ha => if_neg (hnot a ha)

theorem Owns.setList (h : Owns st vs as) (hl : l ∉ as) (items : Option (List Entry)) :
    Owns (st.setList l items) vs as := by
  refine h.congr (fun a ha => update_of_ne ?_ ..) fun _ _ => rfl
  rintro rfl
  exact hl ha

theorem Owns.insert (h : Owns st vs as) (hlist : st.lists l = some (xs ++ ys)) (hl : l ∈ as)
    (hnodup : as.Nodup) (hapart : st.Apart l) (hval : Owns st (vals [e]) bs) (hlb : l ∉ bs) :
    ∃ as', Owns (st.setList l (some (xs ++ e :: ys))) vs as' ∧ as'.Perm (e.1 :: (bs ++ as)) := by
  induction h with
  | nil => cases hl
  | const hv _ ih =>
    obtain ⟨as', hrest, hperm⟩ := ih hl hnodup
    exact ⟨as', .const hv hrest, hperm⟩
  | @str s str segs vs as hs _ ih =>
    have hnot := hapart.2 _ _ hs
    rw [addrs_cons, mem_cons, not_or] at hnot
    have hmem := mem_behind hl hnot.1 hnot.2
    obtain ⟨as', hrest, hperm⟩ := ih hmem (nodup_append.1 (nodup_cons.1 hnodup).2).2.1
    exact ⟨_, .str hs hrest, perm_behind (e.1 :: bs) hperm⟩
  | @list l₀ items vs as hl₀ hrest ih =>
    obtain ⟨hfirst, hnodup'⟩ := nodup_cons.1 hnodup
    obtain ⟨-, hnodup₀, -⟩ := nodup_append.1 hnodup'
    by_cases heq : l₀ = l
    · subst heq
      obtain rfl := some.inj (hl₀.symm.trans hlist)
      have hnot : l₀ ∉ as := fun ha => hfirst (mem_append_right _ ha)
      rw [vals_append, append_assoc] at hrest
      obtain ⟨as₁, as₂, h₁, h₂, rfl⟩ := owns_append hrest
      have hnew : Owns (st.setList l₀ (some (xs ++ e :: ys)))
          (vals (xs ++ e :: ys) ++ vs) (as₁ ++ (bs ++ as₂)) := by
        have hall := h₁.append (hval.append h₂)
        have hvals : vals (xs ++ e :: ys) ++ vs = vals xs ++ (vals [e] ++ (vals ys ++ vs)) := by
          rw [← singleton_append, vals_append, vals_append, append_assoc, append_assoc]
        rw [hvals]
        refine hall.setList ?_ _
        simp only [mem_append, not_or] at hnot ⊢
        exact ⟨hnot.1, hlb, hnot.2⟩
      refine ⟨_, .list (update_self ..) hnew, ?_⟩
      rw [perm_iff_count]
      intro x
      simp only [addrs_append, addrs_cons, count_append, count_cons]
      omega
    · have hmem := mem_behind hl (Ne.symm heq) (hapart.1 _ _ hl₀)
      obtain ⟨as', hrest', hperm⟩ := ih hmem hnodup₀
      exact ⟨_, .list ((update_of_ne heq ..).trans hl₀) hrest', perm_behind (e.1 :: bs) hperm⟩

theorem Owns.remove (h : Owns st vs as) (hlist : st.lists l = some (xs ++ e :: ys)) (hl : l ∈ as)
    (hnodup : as.Nodup) (hapart : st.Apart l) :
    ∃ as' bs, Owns (st.setList l (some (xs ++ ys))) vs as' ∧ Owns st (vals [e]) bs ∧ l ∉ bs ∧
      as.Perm (e.1 :: (bs ++ as')) := by
  induction h with
  | nil => cases hl
  | const hv _ ih =>
    obtain ⟨as', bs, hrest, hrest'⟩ := ih hl hnodup
    exact ⟨as', bs, .const hv hrest, hrest'⟩
  | @str s str segs vs as hs _ ih =>
    have hnot := hapart.2 _ _ hs
    rw [addrs_cons, mem_cons, not_or] at hnot
    have hmem := mem_behind hl hnot.1 hnot.2
    obtain ⟨as', bs, hrest, hval, hlb, hperm⟩ :=
      ih hmem (nodup_append.1 (nodup_cons.1 hnodup).2).2.1
    exact ⟨_, bs, .str hs hrest, hval, hlb, perm_behind (e.1 :: bs) hperm⟩
  | @list l₀ items vs as hl₀ hrest ih =>
    obtain ⟨hfirst, hnodup'⟩ := nodup_cons.1 hnodup
    obtain ⟨-, hnodup₀, -⟩ := nodup_append.1 hnodup'
    by_cases heq : l₀ = l
    · subst heq
      obtain rfl := some.inj (hl₀.symm.trans hlist)
      have hnot : l₀ ∉ as := fun ha => hfirst (mem_append_right _ ha)
      have hvals : vals (xs ++ e :: ys) ++ vs = vals xs ++ (vals [e] ++ (vals ys ++ vs)) := by
        rw [← singleton_append, vals_append, vals_append, append_assoc, append_assoc]
      rw [hvals] at hrest
      obtain ⟨as₁, as₂, h₁, h₂, rfl⟩ := owns_append hrest
      obtain ⟨bs, as₃, hval, h₃, rfl⟩ := owns_append h₂
      simp only [mem_append, not_or] at hnot
      have hnew : Owns (st.setList l₀ (some (xs ++ ys))) (vals (xs ++ ys) ++ vs) (as₁ ++ as₃) := by
        rw [vals_append, append_assoc]
        refine (h₁.append h₃).setList ?_ _
        simp only [mem_append, not_or]
        exact ⟨hnot.1, hnot.2.2⟩
      refine ⟨_, bs, .list (update_self ..) hnew, hval, hnot.2.1, ?_⟩
      rw [perm_iff_count]
      intro x
      simp only [addrs_append, addrs_cons, count_append, count_cons]
      omega
    · have hmem := mem_behind hl (Ne.symm heq) (hapart.1 _ _ hl₀)
      obtain ⟨as', bs, hrest', hval, hlb, hperm⟩ := ih hmem hnodup₀
      exact ⟨_, bs, .list ((update_of_ne heq ..).trans hl₀) hrest',
        hval, hlb, perm_behind (e.1 :: bs) hperm⟩

theorem Owns.addseg {s a : Addr} {str : Str} {segs : List (Addr × Str)} (h : Owns st vs as)
    (hstr : st.strs s = some segs) (hs : s ∈ as) (hnodup : as.Nodup)
    (hlists : ∀ l items, st.lists l = some items → s ≠ l ∧ s ∉ addrs items)
    (hhead : ∀ s' segs', st.strs s' = some segs' → s ∈ addrs segs' → s = s') :
    ∃ as', Owns (st.setStr s (some (segs ++ [(a, str)]))) vs as' ∧ as'.Perm (a :: as) := by
  induction h with
  | nil => cases hs
  | const hv _ ih =>
    obtain ⟨as', hrest, hperm⟩ := ih hs hnodup
    exact ⟨as', .const hv hrest, hperm⟩
  | @str s₀ str₀ segs₀ vs as hs₀ hrest ih =>
    obtain ⟨hfirst, hnodup'⟩ := nodup_cons.1 hnodup
    by_cases heq : s = s₀
    · subst heq
      obtain rfl := some.inj (hs₀.symm.trans hstr)
      have hnot : s ∉ as := fun ha => hfirst (mem_append_right _ ha)
      have hkept : Owns (st.setStr s (some ((s, str₀) :: segs₀ ++ [(a, str)]))) vs as := by
        refine hrest.congr (fun _ _ => rfl) fun b hb => ?_
        rw [Store.setStr_strs, if_neg]
        rintro rfl
        exact hnot hb
      have hself : (st.setStr s (some ((s, str₀) :: segs₀ ++ [(a, str)]))).strs s =
          some ((s, str₀) :: (segs₀ ++ [(a, str)])) := by simp
      refine ⟨_, .str hself hkept, ?_⟩
      rw [perm_iff_count]
      intro x
      simp only [addrs_append, addrs_cons, addrs_nil, count_append, count_cons, count_nil]
      omega
    · have hnot : s ∉ addrs ((s₀, str₀) :: segs₀) := fun hin => heq (hhead s₀ _ hs₀ hin)
      rw [addrs_cons, mem_cons, not_or] at hnot
      have hmem := mem_behind hs heq hnot.2
      obtain ⟨as', hrest', hperm⟩ := ih hmem (nodup_append.1 hnodup').2.1
      have hs₀' : (st.setStr s (some (segs ++ [(a, str)]))).strs s₀ =
          some ((s₀, str₀) :: segs₀) := by
        rw [Store.setStr_strs, if_neg fun h => heq h.symm, hs₀]
      exact ⟨_, .str hs₀' hrest', perm_behind [a] hperm⟩
  | @list l items vs as hl _ ih =>
    obtain ⟨hne, hnot⟩ := hlists l items hl
    have hmem := mem_behind hs hne hnot
    obtain ⟨as', hrest', hperm⟩ := ih hmem (nodup_append.1 (nodup_cons.1 hnodup).2).2.1
    exact ⟨_, .list hl hrest', perm_behind [a] hperm⟩

end Qse.Xli
