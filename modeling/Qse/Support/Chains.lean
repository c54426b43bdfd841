import Qse.Support.ByteMemory
import Mathlib.Data.List.Nodup

/-!
# Chains linked forward

A cell holds an item and the pointer to the next cell. `Segment mem p l q` says that
the cells met from `p` until `q` are those of `l`, each given with its address.
-/

open List Option

namespace ForwardChain

structure Cell (β : Type) where
  item : β
  next : Option ℕ
deriving DecidableEq

variable {β : Type} {mem mem' : ℕ → Option (Cell β)} {p q r : Option ℕ} {l l' : List (ℕ × β)}

def Segment (mem : ℕ → Option (Cell β)) : Option ℕ → List (ℕ × β) → Option ℕ → Prop
  | p, [], q => p = q
  | p, x :: l, q => p = some x.1 ∧ ∃ next, mem x.1 = some ⟨x.2, next⟩ ∧ Segment mem next l q

def first : List (ℕ × β) → Option ℕ → Option ℕ
  | [], q => q
  | x :: _, _ => some x.1

def last (r : Option ℕ) : List (ℕ × β) → Option ℕ
  | [] => r
  | x :: l => last (some x.1) l

def addrs (l : List (ℕ × β)) : List ℕ := l.map Prod.fst

@[simp] theorem addrs_cons (x : ℕ × β) (l : List (ℕ × β)) : addrs (x :: l) = x.1 :: addrs l :=
  rfl

@[simp] theorem addrs_append (l l' : List (ℕ × β)) : addrs (l ++ l') = addrs l ++ addrs l' :=
  map_append

theorem last_concat (r : Option ℕ) (l : List (ℕ × β)) (x : ℕ × β) :
    last r (l ++ [x]) = some x.1 := by
  induction l generalizing r with
  | nil => rfl
  | cons y l ih => exact ih _

@[simp] theorem segment_nil : Segment mem p [] q ↔ p = q := Iff.rfl

variable {x : ℕ × β} {a : ℕ}

@[simp] theorem segment_cons :
    Segment mem p (x :: l) q ↔
      p = some x.1 ∧ ∃ next, mem x.1 = some ⟨x.2, next⟩ ∧ Segment mem next l q :=
  Iff.rfl

theorem segment_append :
    Segment mem p (l ++ l') q ↔ ∃ r, Segment mem p l r ∧ Segment mem r l' q := by
  induction l generalizing p with
  | nil => simp
  | cons x l ih =>
    simp only [cons_append, segment_cons, ih]
    constructor
    · rintro ⟨hp, next, hx, r, hl, hl'⟩
      exact ⟨r, ⟨hp, next, hx, hl⟩, hl'⟩
    · rintro ⟨r, ⟨hp, next, hx, hl⟩, hl'⟩
      exact ⟨hp, next, hx, r, hl, hl'⟩

theorem Segment.eq_first (h : Segment mem p l q) : p = first l q := by
  cases l with
  | nil => exact h
  | cons x l => exact h.1

theorem Segment.congr (h : Segment mem p l q) (hmem : ∀ a ∈ addrs l, mem' a = mem a) :
    Segment mem' p l q := by
  induction l generalizing p with
  | nil => exact h
  | cons x l ih =>
    obtain ⟨hp, next, hx, hl⟩ := h
    refine ⟨hp, next, ?_, ih hl fun a ha => hmem a (.tail _ ha)⟩
    rw [hmem x.1 (.head _), hx]

theorem Segment.mem_eq (h : Segment mem p l q) (hx : x ∈ l) :
    ∃ next, mem x.1 = some ⟨x.2, next⟩ := by
  induction l generalizing p with
  | nil => exact absurd hx not_mem_nil
  | cons y l ih =>
    obtain ⟨-, next, hy, hl⟩ := h
    rcases mem_cons.mp hx with rfl | hx
    · exact ⟨next, hy⟩
    · exact ih hl hx

theorem Segment.update (h : Segment mem p l q) (ha : a ∉ addrs l)
    (c : Option (Cell β)) : Segment (Function.update mem a c) p l q := by
  refine h.congr fun b hb => Function.update_of_ne ?_ _ _
  rintro rfl
  exact ha hb

theorem Segment.redirect (h : Segment mem p (l ++ [x]) q) (hx : x.1 ∉ addrs l) (r : Option ℕ) :
    Segment (Function.update mem x.1 (some ⟨x.2, r⟩)) p (l ++ [x]) r := by
  obtain ⟨s, hl, hs, next, hcell, -⟩ := segment_append.mp h
  refine segment_append.mpr ⟨s, hl.update hx _, hs, r, ?_, rfl⟩
  exact Function.update_self _ _ _

theorem Segment.edit {b : β} {next : Option ℕ} (h : Segment mem p (l ++ (a, b) :: l') q)
    (hl : a ∉ addrs l) (hl' : a ∉ addrs l') (hcell : mem a = some ⟨b, next⟩) (c : β) :
    Segment (Function.update mem a (some ⟨c, next⟩)) p (l ++ (a, c) :: l') q := by
  obtain ⟨s, hseg, hs, next', hcell', hrest⟩ := segment_append.mp h
  obtain ⟨-, rfl⟩ := Cell.mk.inj (some.inj (hcell.symm.trans hcell'))
  refine segment_append.mpr ⟨s, hseg.update hl _, hs, next, ?_, hrest.update hl' _⟩
  exact Function.update_self _ _ _

theorem Segment.join {b : β} {next : Option ℕ} (h : Segment mem p l (some a))
    (hcell : mem a = some ⟨b, next⟩) (hrest : Segment mem next l' q) :
    Segment mem p (l ++ (a, b) :: l') q :=
  segment_append.mpr ⟨some a, h, rfl, next, hcell, hrest⟩

end ForwardChain

/-!
## Chains linked both ways

A chain of cells is seen through the pointers to the cells behind them and in front of them.
`Chain prev next p as n` says that the cells `as` stand one behind the other between `p` and `n`.
Cells in the middle of a chain are replaced with `Chain.splice`.
-/

namespace TwoWayChain

variable {α : Type*} {prev next prev' next' : α → Option α} {p q n m : Option α} {as bs : List α}

def first (as : List α) (n : Option α) : Option α := as.head?.or n

def last (p : Option α) (as : List α) : Option α := as.getLast?.or p

def Chain (prev next : α → Option α) : Option α → List α → Option α → Prop
  | _, [], _ => True
  | p, a :: as, n => prev a = p ∧ next a = first as n ∧ Chain prev next (some a) as n

@[simp] theorem first_nil : first [] n = n := rfl

@[simp] theorem first_cons (a : α) : first (a :: as) n = some a := rfl

@[simp] theorem last_nil : last p ([] : List α) = p := rfl

theorem last_cons (a : α) : last p (a :: as) = last (some a) as := by
  rw [last, last, getLast?_cons]
  cases as.getLast? <;> rfl

theorem first_append : first (as ++ bs) n = first as (first bs n) := by
  cases as with
  | nil => rfl
  | cons a as => rfl

theorem last_append : last p (as ++ bs) = last (last p as) bs := by
  induction as generalizing p with
  | nil => rfl
  | cons a as ih => rw [cons_append, last_cons, last_cons, ih]

theorem first_eq_or : first as n = (first as none).or n := by
  cases as <;> rfl

variable {a : α}

theorem first_mem (h : first as none = some a) : a ∈ as := by
  cases as with
  | nil => cases h
  | cons b as =>
    cases h
    exact .head _

theorem last_mem (h : last none as = some a) : a ∈ as := by
  rw [last, or_none] at h
  exact mem_of_getLast? h

@[simp] theorem first_eq_none : first as none = none ↔ as = [] := by
  rw [first, or_none, head?_eq_none_iff]

@[simp] theorem last_eq_none : last none as = none ↔ as = [] := by
  rw [last, or_none, getLast?_eq_none_iff]

theorem first_of_last (h : last none as = some a) (n : Option α) : first as n = first as none := by
  cases as with
  | nil => cases h
  | cons b as => rfl

theorem last_of_first (h : first as none = some a) (p : Option α) : last p as = last none as := by
  cases as with
  | nil => cases h
  | cons b as => rw [last_cons, last_cons]

theorem last_concat (a : α) : last p (as ++ [a]) = some a := by
  rw [last_append, last_cons, last_nil]

theorem chain_cons (a : α) : Chain prev next p (a :: as) n ↔
    prev a = p ∧ next a = first as n ∧ Chain prev next (some a) as n := Iff.rfl

theorem chain_append : Chain prev next p (as ++ bs) n ↔
    Chain prev next p as (first bs n) ∧ Chain prev next (last p as) bs n := by
  induction as generalizing p with
  | nil => simp [Chain]
  | cons a as ih =>
    rw [cons_append, chain_cons, chain_cons, ih, first_append, last_cons, and_assoc, and_assoc]

theorem Chain.congr (h : Chain prev next p as n) (hprev : ∀ a ∈ as, prev' a = prev a)
    (hnext : ∀ a ∈ as, next' a = next a) : Chain prev' next' p as n := by
  induction as generalizing p with
  | nil => trivial
  | cons a as ih =>
    obtain ⟨hp, hn, hrest⟩ := h
    refine ⟨(hprev a (.head _)).trans hp, (hnext a (.head _)).trans hn, ?_⟩
    exact ih hrest (fun b hb => hprev b (.tail _ hb))
      fun b hb => hnext b (.tail _ hb)

theorem Chain.retail [DecidableEq α] (h : Chain prev next p as n) (hnodup : as.Nodup)
    (hprev : ∀ a ∈ as, prev' a = prev a)
    (hnext : ∀ a ∈ as, next' a = if last none as = some a then m else next a) :
    Chain prev' next' p as m := by
  induction as generalizing p with
  | nil => trivial
  | cons a as ih =>
    obtain ⟨hp, hn, hrest⟩ := h
    obtain ⟨hnot, hnodup'⟩ := nodup_cons.1 hnodup
    refine ⟨(hprev a (.head _)).trans hp, ?_, ?_⟩
    · rw [hnext a (.head _)]
      cases as with
      | nil => exact if_pos rfl
      | cons b bs =>
        rw [if_neg]
        · exact hn
        · intro hlast
          rw [last_cons, last_cons, ← last_cons] at hlast
          exact hnot (last_mem hlast)
    · refine ih hrest hnodup' (fun b hb => hprev b (.tail _ hb)) fun b hb => ?_
      rw [hnext b (.tail _ hb), last_cons]
      cases as with
      | nil => cases hb
      | cons c cs => rw [last_cons, last_cons]

theorem Chain.rehead [DecidableEq α] (h : Chain prev next p as n) (hnodup : as.Nodup)
    (hprev : ∀ a ∈ as, prev' a = if first as none = some a then q else prev a)
    (hnext : ∀ a ∈ as, next' a = next a) : Chain prev' next' q as n := by
  cases as with
  | nil => trivial
  | cons a as =>
    obtain ⟨-, hn, hrest⟩ := h
    have hnot := (nodup_cons.1 hnodup).1
    refine ⟨?_, (hnext a (.head _)).trans hn, hrest.congr (fun b hb => ?_)
      fun b hb => hnext b (.tail _ hb)⟩
    · exact (hprev a (.head _)).trans (if_pos rfl)
    · rw [hprev b (.tail _ hb), if_neg]
      rintro ⟨⟩
      exact hnot hb

theorem Chain.splice [DecidableEq α] {ms ms' : List α}
    (h : Chain prev next p (as ++ (ms ++ bs)) n) (has : as.Nodup) (hbs : bs.Nodup)
    (hmid : Chain prev' next' (last p as) ms' (first bs n)) (hprevas : ∀ a ∈ as, prev' a = prev a)
    (hnextas : ∀ a ∈ as, next' a = if last none as = some a then first (ms' ++ bs) n else next a)
    (hprevbs : ∀ b ∈ bs, prev' b = if first bs none = some b then last p (as ++ ms') else prev b)
    (hnextbs : ∀ b ∈ bs, next' b = next b) : Chain prev' next' p (as ++ (ms' ++ bs)) n := by
  obtain ⟨hfront, hrest⟩ := chain_append.1 h
  obtain ⟨-, hback⟩ := chain_append.1 hrest
  refine chain_append.2 ⟨hfront.retail has hprevas hnextas, chain_append.2 ⟨hmid, ?_⟩⟩
  rw [← last_append]
  exact hback.rehead hbs hprevbs hnextbs

end TwoWayChain

/-!
## Doubly linked chains over link functions

A store of cells is seen through two functions, `next` and `prev`, from cells
to cells, and `nil` ends a chain. `Linked nil next prev p h cs` says that the
cells met from the head `h` are exactly `cs`, that every cell points back to
the cell before it, and that the first one points back to `p`.

The two edits of an intrusive list are stated for link functions that agree
with the old ones away from the cells the edit writes: `Linked.push` puts a
cell in front, `Linked.remove` takes one out of the middle.
-/

namespace LinkedChain

variable {α : Type*} {nil : α} {next prev next' prev' : α → α}

/-- The chain from head `h` holds the cells `cs`, and its first cell points
back to `p`. -/
def Linked (nil : α) (next prev : α → α) : α → α → List α → Prop
  | _, h, [] => h = nil
  | p, h, c :: cs => h = c ∧ c ≠ nil ∧ prev c = p ∧ Linked nil next prev c (next c) cs

variable {p h b : α} {cs : List α}

@[simp] theorem linked_nil :
    Linked nil next prev p h [] ↔ h = nil := Iff.rfl

section

variable (hl : Linked nil next prev p h cs)
include hl

theorem Linked.ne_nil {c : α} (hc : c ∈ cs) : c ≠ nil := by
  induction cs generalizing p h with
  | nil => simp at hc
  | cons d cs ih =>
    obtain ⟨-, hd, -, htail⟩ := hl
    rcases mem_cons.mp hc with rfl | hc
    · exact hd
    · exact ih htail hc

theorem Linked.congr (hnext : ∀ c ∈ cs, next' c = next c) (hprev : ∀ c ∈ cs, prev' c = prev c) :
    Linked nil next' prev' p h cs := by
  induction cs generalizing p h with
  | nil => exact hl
  | cons c cs ih =>
    obtain ⟨hh, hc, hp, htail⟩ := hl
    refine ⟨hh, hc, (hprev c (.head _)).trans hp, ?_⟩
    rw [hnext c (.head _)]
    exact ih htail (fun d hd => hnext d (.tail _ hd))
      (fun d hd => hprev d (.tail _ hd))

theorem Linked.head_eq_nil_iff : h = nil ↔ cs = [] := by
  cases cs with
  | nil => simpa using hl
  | cons c cs =>
    obtain ⟨rfl, hc, -, -⟩ := hl
    simp [hc]

theorem Linked.head_mem (hh : h ≠ nil) : h ∈ cs := by
  cases cs with
  | nil => exact absurd hl hh
  | cons c cs =>
    obtain ⟨rfl, -, -, -⟩ := hl
    exact .head _

theorem Linked.prev_head (hh : h ≠ nil) : prev h = p := by
  cases cs with
  | nil => exact absurd hl hh
  | cons c cs =>
    obtain ⟨rfl, -, hp, -⟩ := hl
    exact hp

theorem Linked.reprev {q : α} (hnd : cs.Nodup)
    (hnext : ∀ c ∈ cs, next' c = next c) (hprev : ∀ c ∈ cs, c ≠ h → prev' c = prev c)
    (hhead : h ≠ nil → prev' h = q) :
    Linked nil next' prev' q h cs := by
  cases cs with
  | nil => exact hl
  | cons c cs =>
    obtain ⟨rfl, hc, -, htail⟩ := hl
    have hnot : h ∉ cs := (nodup_cons.mp hnd).1
    refine ⟨rfl, hc, hhead hc, ?_⟩
    rw [hnext h (.head _)]
    refine htail.congr (fun d hd => hnext d (.tail _ hd)) ?_
    intro d hd
    refine hprev d (.tail _ hd) ?_
    rintro rfl
    exact hnot hd

theorem Linked.push (hnd : cs.Nodup) (hb : b ≠ nil)
    (hbnext : next' b = h) (hbprev : prev' b = p) (hnext : ∀ c ∈ cs, next' c = next c)
    (hprev : ∀ c ∈ cs, c ≠ h → prev' c = prev c) (hhead : h ≠ nil → prev' h = b) :
    Linked nil next' prev' p b (b :: cs) := by
  refine ⟨rfl, hb, hbprev, ?_⟩
  rw [hbnext]
  exact hl.reprev hnd hnext hprev hhead

theorem Linked.next_mem (hb : b ∈ cs) (hn : next b ≠ nil) : next b ∈ cs := by
  induction cs generalizing p h with
  | nil => simp at hb
  | cons c cs ih =>
    obtain ⟨-, -, -, htail⟩ := hl
    rcases mem_cons.mp hb with rfl | hb
    · exact .tail _ (htail.head_mem hn)
    · exact .tail _ (ih htail hb)

theorem Linked.prev_mem (hb : b ∈ cs) : b = h ∧ prev b = p ∨ prev b ∈ cs ∧ next (prev b) = b := by
  induction cs generalizing p h with
  | nil => simp at hb
  | cons c cs ih =>
    obtain ⟨rfl, -, hp, htail⟩ := hl
    rcases mem_cons.mp hb with rfl | hb
    · exact .inl ⟨rfl, hp⟩
    rcases ih htail hb with ⟨hbn, hbp⟩ | ⟨hmem, hnx⟩
    · refine .inr ⟨?_, ?_⟩
      · rw [hbp]
        exact .head _
      · rw [hbp, hbn]
    · exact .inr ⟨.tail _ hmem, hnx⟩

theorem Linked.remove [DecidableEq α] (hnd : cs.Nodup)
    (hb : b ∈ cs) (hp : p ∉ cs) (hnext : ∀ c ∈ cs, c ≠ prev b → next' c = next c)
    (hnextPrev : b ≠ h → next' (prev b) = next b) (hprev : ∀ c ∈ cs, c ≠ next b → prev' c = prev c)
    (hprevNext : next b ≠ nil → prev' (next b) = prev b) :
    Linked nil next' prev' p (if b = h then next b else h) (cs.erase b) := by
  induction cs generalizing p h with
  | nil => simp at hb
  | cons c cs ih =>
    obtain ⟨rfl, hc, hcp, htail⟩ := hl
    obtain ⟨hnot, hnd'⟩ := nodup_cons.mp hnd
    by_cases hbh : b = h
    · -- the head itself is removed: its successor becomes the head
      subst hbh
      rw [if_pos rfl, erase_cons_head]
      refine htail.reprev hnd' ?_ ?_ ?_
      · intro d hd
        refine hnext d (.tail _ hd) ?_
        rintro rfl
        exact hp (hcp ▸ .tail _ hd)
      · intro d hd hdn
        exact hprev d (.tail _ hd) hdn
      · intro hn
        rw [hprevNext hn, hcp]
    -- a later cell is removed: the head keeps its place
    have hbt : b ∈ cs := (mem_cons.mp hb).resolve_left hbh
    rw [if_neg hbh, erase_cons_tail (by simpa using Ne.symm hbh)]
    have hrec := ih htail hnd' hbt hnot
      (fun d hd hdp => hnext d (.tail _ hd) hdp)
      (fun _ => hnextPrev hbh)
      (fun d hd hdn => hprev d (.tail _ hd) hdn)
    refine ⟨rfl, hc, ?_, ?_⟩
    · refine (hprev h (.head _) ?_).trans hcp
      rintro hhn
      by_cases hn : next b = nil
      · exact hc (hhn.trans hn)
      · exact hnot (hhn ▸ htail.next_mem hbt hn)
    · rcases htail.prev_mem hbt with ⟨hbn, hbp⟩ | ⟨hmem, -⟩
      · have hnew : next' h = next b := by
          have hstep := hnextPrev hbh
          rwa [hbp] at hstep
        rw [hnew]
        rwa [if_pos hbn] at hrec
      · have hne : h ≠ prev b := by
          rintro rfl
          exact hnot hmem
        rw [hnext h (.head _) hne]
        have hbn : b ≠ next h := by
          rintro rfl
          exact hne (htail.prev_head (htail.ne_nil hbt)).symm
        rwa [if_neg hbn] at hrec

end

end LinkedChain

/-!
## Chains of words in a byte memory

Places are linked by the word of eight bytes at each of them. `Segment m h l t` says that the
places met from `h` until `t` are those of `l`, none of which is the null pointer.
-/

namespace WordChain

open ByteMemory

variable {m m' : Mem} {h t u a : ℕ} {l l' : List ℕ}

def Segment (m : Mem) : ℕ → List ℕ → ℕ → Prop
  | h, [], t => h = t
  | h, a :: l, t => h = a ∧ a ≠ 0 ∧ Segment m (load m a 8) l t

theorem Segment.append (hl : Segment m h l t) (hl' : Segment m t l' u) :
    Segment m h (l ++ l') u := by
  induction l generalizing h with
  | nil =>
    obtain rfl : h = t := hl
    exact hl'
  | cons a l ih => exact ⟨hl.1, hl.2.1, ih hl.2.2⟩

theorem Segment.congr (hl : Segment m h l t)
    (hmem : ∀ a ∈ l, ∀ i, a ≤ i → i < a + 8 → m' i = m i) : Segment m' h l t := by
  induction l generalizing h with
  | nil => exact hl
  | cons a l ih =>
    have hload : load m' a 8 = load m a 8 := load_congr (hmem a (.head _))
    refine ⟨hl.1, hl.2.1, ?_⟩
    rw [hload]
    exact ih hl.2.2 fun b hb => hmem b (mem_cons_of_mem a hb)

theorem Segment.store (hl : Segment m h l t) {v : ℕ}
    (hapart : ∀ b ∈ l, a + 8 ≤ b ∨ b + 8 ≤ a) : Segment (store m a 8 v) h l t := by
  refine hl.congr fun b hb i hle hlt => store_of_apart ?_
  have hb := hapart b hb
  omega

theorem Segment.push (hl : Segment m h l t) (hne : a ≠ 0) (hh : h < 2 ^ 64)
    (hapart : ∀ b ∈ l, a + 8 ≤ b ∨ b + 8 ≤ a) :
    Segment (ByteMemory.store m a 8 h) a (a :: l) t := by
  refine ⟨rfl, hne, ?_⟩
  rw [load_store_same, Nat.mod_eq_of_lt (by simpa using hh)]
  exact hl.store hapart

theorem Segment.eq_nil (hl : Segment m 0 l t) : l = [] := by
  cases l with
  | nil => rfl
  | cons a l => exact absurd hl.1.symm hl.2.1

end WordChain
