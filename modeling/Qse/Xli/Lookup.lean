import Qse.Xli.TreeRuns

/-!
# Looking pairs up by name

`__find_pair` of `lib/xli/xli.c` with what it gives besides the pair, `qse_xli_findpairatindex`
and `qse_xli_countpairs`, and what they find in a tree for a name that is put together from
segments.
-/

open List Option

namespace Qse.Xli.Lookup

open TwoWayChain

section Code

variable (opt : Opt) (ctype : Ctype) (splitter : ℕ) (h : Heap)

/-- The loop of `__find_pair`: the pair, `owning_list` and `last_key_seg` -/
def findPairOwned (n : ℕ) :
    ℕ → ValPtr → List ℕ → Except Crash (Except TreeErr (Addr × Addr × List ℕ))
  | 0, _, _ => .error .loop
  | k + 1, curlist, ptr =>
    match getNextFqpnSegment ctype splitter ptr with
    | none => .ok (.error .einval)
    | some (seg, ptr) =>
      match curlist with
      | .list l => do
        let list ← h.getList l
        let pair ← h.findPairBySeg opt ctype n seg list.head
        match pair with
        | none => .ok (.error (.enoent seg.ki))
        | some pair =>
          if ptr.isEmpty then .ok (.ok (pair, l, seg.key))
          else if ptr.head? ≠ some splitter then .error .assert
          else do
            let node ← h.getNode pair
            match node.body with
            | .pair _ _ _ val => findPairOwned n k val ptr.tail
            | _ => .error .wild
      | _ => .ok (.error (.enoent seg.ki))

/-- `qse_xli_findpairatindex`: the pair or a null pointer, and the error that is set if one is -/
def findpairatindex (n : ℕ) (list : Option Addr) (fqpn : WString) (idx : ℕ) :
    Except Crash (Option Addr × Option TreeErr) := do
  let found ← findPairOwned opt ctype splitter h n n (.list (list.getD root)) fqpn.chars
  match found with
  | .error e => .ok (none, some e)
  | .ok (pair, owner, key) =>
    if 0 < idx then do
      let list ← h.getList owner
      let pair ← h.findPairByKeyAndIndex opt ctype key idx n 0 list.head
      .ok (pair, none)
    else .ok (some pair, none)

/-- The loop of `count_pairs_by_key` -/
def countPairsByKey (key : List ℕ) : ℕ → ℕ → Option Addr → Except Crash ℕ
  | _, count, none => .ok count
  | 0, _, some _ => .error .loop
  | n + 1, count, some p => do
    let node ← h.getNode p
    match node.body with
    | .pair pkey _ _ _ =>
      if opt.samex ctype key pkey then countPairsByKey key n (count + 1) node.next
      else countPairsByKey key n count node.next
    | _ => countPairsByKey key n count node.next

/-- The loop of `qse_xli_countpairs`: the number, and the error that is set if one is -/
def countPairsFrom (n : ℕ) : ℕ → ValPtr → List ℕ → Except Crash (ℕ × Option TreeErr)
  | 0, _, _ => .error .loop
  | k + 1, curlist, ptr =>
    match getNextFqpnSegment ctype splitter ptr with
    | none => .ok (0, some .einval)
    | some (seg, ptr) =>
      match curlist with
      | .list l => do
        let list ← h.getList l
        match seg.idx, ptr with
        | .none, [] => do
          let count ← countPairsByKey opt ctype h seg.key n 0 list.head
          .ok (count, none)
        | _, ptr => do
          let pair ← h.findPairBySeg opt ctype n seg list.head
          match pair with
          | none => .ok (0, some (.enoent seg.ki))
          | some pair =>
            if ptr.isEmpty then .ok (1, none)
            else if ptr.head? ≠ some splitter then .error .assert
            else do
              let node ← h.getNode pair
              match node.body with
              | .pair _ _ _ val => countPairsFrom n k val ptr.tail
              | _ => .error .wild
      | _ => .ok (0, some (.enoent seg.ki))

def countpairs (n : ℕ) (list : Option Addr) (fqpn : WString) : Except Crash (ℕ × Option TreeErr) :=
  countPairsFrom opt ctype splitter h n n (.list (list.getD root)) fqpn.chars

end Code

inductive Idx where
  | none
  | number (digits : List ℕ)
  | ali (ali : List ℕ)

structure Seg where
  key : List ℕ
  idx : Idx

def Seg.text (s : Seg) : List ℕ :=
  match s.idx with
  | .none => s.key
  | .number digits => s.key ++ wt '[' :: (digits ++ [wt ']'])
  | .ali ali => s.key ++ wt '{' :: (ali ++ [wt '}'])

def value (digits : List ℕ) : ℕ := digits.foldl (fun n c => n * 10 + (c - wt '0')) 0

def Seg.meant (s : Seg) : FqpnSeg where
  key := s.key
  idx :=
    match s.idx with
    | .none => .none
    | .number digits => .number (value digits)
    | .ali ali => .ali ali
  ki := s.text

/-- The segment with its number reduced to a `qse_size_t` -/
def Seg.reduced (s : Seg) : FqpnSeg where
  key := s.key
  idx :=
    match s.idx with
    | .none => .none
    | .number digits => .number (value digits % 2 ^ 64)
    | .ali ali => .ali ali
  ki := s.text

/-- The key is not empty and has neither the splitter nor what opens an index. A number is written
with decimal digits, and an alias is not empty and has no closing brace. -/
structure Seg.Written (splitter : ℕ) (s : Seg) : Prop where
  key_ne : s.key ≠ []
  key : ∀ c ∈ s.key, c ≠ splitter ∧ c ≠ wt '[' ∧ c ≠ wt '{'
  number : ∀ digits, s.idx = .number digits → digits ≠ [] ∧ ∀ c ∈ digits, wt '0' ≤ c ∧ c ≤ wt '9'
  ali : ∀ ali, s.idx = .ali ali → ali ≠ [] ∧ wt '}' ∉ ali

def behind (splitter : ℕ) : List Seg → List ℕ
  | [] => []
  | s :: segs => splitter :: (s.text ++ behind splitter segs)

def joined (splitter : ℕ) : List Seg → List ℕ
  | [] => []
  | s :: segs => s.text ++ behind splitter segs

/-- A name of segments. -/
structure Name (splitter : ℕ) where
  segs : List Seg
  fqpn : WString
  segs_ne : segs ≠ []
  written : ∀ s ∈ segs, s.Written splitter
  chars : fqpn.chars = joined splitter segs
  splitter_ne : splitter ≠ wt '[' ∧ splitter ≠ wt '{'

section Meaning

variable (opt : Opt) (ctype : Ctype) (st : Store)

def lastList : ValPtr → List FqpnSeg → Option (Addr × List Entry × FqpnSeg)
  | .list l, [seg] => (st.lists l).map fun items => (l, items, seg)
  | .list l, seg :: segs => do
    let items ← st.lists l
    let e ← seg.pick opt ctype items
    let val ← e.2.val?
    lastList val segs
  | _, _ => none

/-- The pair that is reached with the list it is in and its key, taking in each list the first pair
with the key, the one with the number, or the first one with the key and the alias -/
def found (v : ValPtr) (segs : List FqpnSeg) : Option (Addr × Addr × List ℕ) :=
  (lastList opt ctype st v segs).bind fun last =>
    (last.2.2.pick opt ctype last.2.1).map fun e => (e.1, last.1, last.2.2.key)

def reached (v : ValPtr) (segs : List FqpnSeg) : Option Addr :=
  (found opt ctype st v segs).map Prod.fst

/-- On the way, an alias is looked for in a list where a pair with the key and without an alias
stands in front of those that have it. -/
def MeetsNoAlias : ValPtr → List FqpnSeg → Prop
  | .list l, seg :: segs =>
    ∃ items, st.lists l = some items ∧
      ((∃ ali, seg.idx = .ali ali ∧ LacksAlias opt ctype seg.key ali items) ∨
        ∃ e val, seg.pick opt ctype items = some e ∧ e.2.val? = some val ∧ MeetsNoAlias val segs)
  | _, _ => False

end Meaning

/-! ## Reading a segment -/

variable {opt : Opt} {ctype : Ctype} {splitter : ℕ}

theorem takeWhile_dropWhile {p : ℕ → Bool} {xs ys : List ℕ} (hxs : ∀ x ∈ xs, p x = true)
    (hys : ∀ y, ys.head? = some y → p y = false) :
    (xs ++ ys).takeWhile p = xs ∧ (xs ++ ys).dropWhile p = ys := by
  rw [takeWhile_append_of_pos hxs, dropWhile_append_of_pos hxs]
  cases ys with
  | nil => simp
  | cons y ys =>
    have hy : ¬p y = true := by rw [hys y rfl]; exact Bool.false_ne_true
    rw [takeWhile_cons_of_neg hy, dropWhile_cons_of_neg hy, append_nil]
    exact ⟨rfl, rfl⟩

theorem segIndex_eq (digits : List ℕ) : segIndex digits = value digits % 2 ^ 64 := by
  have hfold (n : ℕ) : digits.foldl (fun i c => (i * 10 + (c - wt '0')) % 2 ^ 64) (n % 2 ^ 64) =
      digits.foldl (fun i c => i * 10 + (c - wt '0')) n % 2 ^ 64 := by
    induction digits generalizing n with
    | nil => rfl
    | cons c digits ih =>
      have hstep : (n % 2 ^ 64 * 10 + (c - wt '0')) % 2 ^ 64 =
          (n * 10 + (c - wt '0')) % 2 ^ 64 := by omega
      rw [foldl_cons, foldl_cons, hstep, ih]
  exact hfold 0

theorem take_closed (key inner rest : List ℕ) (c d : ℕ) :
    (key ++ c :: (inner ++ d :: rest)).take (key.length + inner.length + 2) =
      key ++ c :: (inner ++ [d]) := by
  have hsplit : key ++ c :: (inner ++ d :: rest) = (key ++ c :: (inner ++ [d])) ++ rest := by simp
  rw [hsplit]
  apply take_left'
  rw [length_append, length_cons, length_append, length_singleton]
  omega

theorem getNextFqpnSegment_text {s : Seg} (hs : s.Written splitter)
    (hsplit : splitter ≠ wt '[' ∧ splitter ≠ wt '{') {rest : List ℕ}
    (hrest : rest = [] ∨ rest.head? = some splitter) :
    getNextFqpnSegment ctype splitter (s.text ++ rest) = some (s.reduced, rest) := by
  obtain ⟨key, idx⟩ := s
  have hkey : ∀ c ∈ key, (decide (c ≠ splitter) && c ≠ wt '[' && c ≠ wt '{') = true := by
    intro c hc
    obtain ⟨h1, h2, h3⟩ := hs.key c hc
    simp [h1, h2, h3]
  have hne : key.isEmpty = false := by
    rw [isEmpty_eq_false_iff]
    exact hs.key_ne
  have hends : (rest.isEmpty || rest.head? = some splitter) = true := by
    rcases hrest with rfl | hrest
    · rfl
    · simp [hrest]
  cases idx with
  | none =>
    obtain ⟨htake, hdrop⟩ := @takeWhile_dropWhile _ key rest hkey (by
      intro y hy
      rcases hrest with rfl | hrest
      · cases hy
      · rw [hrest] at hy
        obtain rfl := some.inj hy
        simp)
    have htext : (Seg.mk key .none).text = key := rfl
    rw [getNextFqpnSegment, htext]
    simp only [htake, hdrop, hne]
    rcases hrest with rfl | hrest
    · rfl
    · cases rest with
      | nil => rfl
      | cons c rest =>
        obtain rfl := some.inj hrest
        simp [hsplit.1, hsplit.2, Seg.reduced, htext]
  | number digits =>
    obtain ⟨hdne, hdigits⟩ := hs.number digits rfl
    have htext : (Seg.mk key (.number digits)).text = key ++ wt '[' :: (digits ++ [wt ']']) := rfl
    obtain ⟨htake, hdrop⟩ := @takeWhile_dropWhile _ key (wt '[' :: (digits ++ [wt ']'] ++ rest))
      hkey (by
        intro y hy
        obtain rfl := some.inj hy
        simp)
    obtain ⟨htake', hdrop'⟩ := @takeWhile_dropWhile ctype.isDigit digits (wt ']' :: rest)
      (by
        intro c hc
        obtain ⟨h0, h9⟩ := hdigits c hc
        have h0' : 48 ≤ c := h0
        have h9' : c ≤ 57 := h9
        rw [ctype.digit_ascii c (by omega)]
        simp [h0', h9'])
      (by
        intro y hy
        obtain rfl := some.inj hy
        rw [ctype.digit_ascii _ (by decide)]
        rfl)
    have hdne' : digits.isEmpty = false := by
      rw [isEmpty_eq_false_iff]
      exact hdne
    rw [getNextFqpnSegment, htext, append_assoc, cons_append]
    simp only [htake, hdrop, hne]
    rw [append_assoc, singleton_append]
    simp only [htake', hdrop', hdne', hends, if_true, Bool.not_false, Bool.and_true,
      decide_true, take_closed, segIndex_eq, Bool.false_eq_true, if_false]
    rfl
  | ali ali =>
    obtain ⟨halne, hali⟩ := hs.ali ali rfl
    have htext : (Seg.mk key (.ali ali)).text = key ++ wt '{' :: (ali ++ [wt '}']) := rfl
    obtain ⟨htake, hdrop⟩ := @takeWhile_dropWhile _ key (wt '{' :: (ali ++ [wt '}'] ++ rest))
      hkey (by
        intro y hy
        obtain rfl := some.inj hy
        simp)
    obtain ⟨htake', hdrop'⟩ := @takeWhile_dropWhile (· ≠ wt '}') ali (wt '}' :: rest)
      (by
        intro c hc
        have hne : c ≠ wt '}' := fun heq => hali (heq ▸ hc)
        exact decide_eq_true hne)
      (by
        intro y hy
        obtain rfl := some.inj hy
        simp)
    have halne' : ali.isEmpty = false := by
      rw [isEmpty_eq_false_iff]
      exact halne
    have hopen : wt '{' ≠ wt '[' := by decide
    rw [getNextFqpnSegment, htext, append_assoc, cons_append]
    simp only [htake, hdrop, hne]
    rw [append_assoc, singleton_append]
    simp only [htake', hdrop', halne', hends, if_true, if_neg hopen, Bool.not_false,
      Bool.true_and, take_closed, Bool.false_eq_true, if_false]
    rfl

/-! ## One list -/

variable {h : Heap} {st : Store} {vs : List ValPtr} {as : List Addr} {l : Addr}
  {items xs : List Entry} {key ali : List ℕ} {n k : ℕ} {v val : ValPtr} {seg : FqpnSeg}
  {segs : List FqpnSeg} {e : Entry}

theorem findPairByKeyAndAlias_null (hlist : ListAt h l (xs ++ items))
    (hlacks : LacksAlias opt ctype key ali items) (hn : items.length ≤ n) :
    h.findPairByKeyAndAlias opt ctype key (some ali) n (first (addrs items) none) =
      .error .null := by
  obtain ⟨before, e, ys, pkey, tag, val, rfl, hbody, hkey, hbefore⟩ := hlacks
  induction before generalizing xs n with
  | nil =>
    obtain ⟨n, rfl⟩ : ∃ m, n = m + 1 := ⟨n - 1, by
      rw [nil_append, length_cons] at hn
      omega⟩
    have hget := hlist.entry
    rw [nil_append, addrs_cons, first_cons, Heap.findPairByKeyAndAlias, hget, crash_bind]
    simp only [hbody, hkey, if_true]
  | cons x before ih =>
    have hrest : ∀ y ∈ before, y.2.meets opt ctype key (some ali) = false :=
      fun y hy => hbefore y (mem_cons_of_mem x hy)
    have hx := hbefore x (.head _)
    obtain ⟨n, rfl⟩ : ∃ m, n = m + 1 := ⟨n - 1, by
      rw [cons_append, length_cons] at hn
      omega⟩
    rw [cons_append] at hlist
    have hget := hlist.entry
    rw [append_cons] at hlist
    have hn' : (before ++ e :: ys).length ≤ n := by
      rw [cons_append, length_cons] at hn
      omega
    have hothers := @ih _ n hlist hn' hrest
    obtain ⟨a, body⟩ := x
    rw [cons_append, addrs_cons, first_cons, Heap.findPairByKeyAndAlias, hget, crash_bind]
    cases body with
    | pair pkey' pali' tag' val' =>
      cases hkey' : opt.samex ctype key pkey' with
      | false => simpa only [hkey', Bool.false_eq_true, if_false] using hothers
      | true =>
        cases pali' with
        | none => simp only [hkey', if_true]
        | some pal =>
          have hsame : opt.samex ctype ali pal = false := by
            simpa [Body.meets, hkey'] using hx
          simpa only [hkey', hsame, if_true, Bool.false_eq_true, if_false] using hothers
    | text s | file path | eof => exact hothers

theorem countPairsByKey_spec {count : ℕ} (hlist : ListAt h l (xs ++ items))
    (hn : items.length ≤ n) :
    countPairsByKey opt ctype h key n count (first (addrs items) none) =
      .ok (count + (items.filter fun e => e.2.meets opt ctype key none).length) := by
  induction items generalizing xs n count with
  | nil => cases n <;> rfl
  | cons e items ih =>
    obtain ⟨a, body⟩ := e
    obtain ⟨n, rfl⟩ : ∃ m, n = m + 1 := ⟨n - 1, by
      rw [length_cons] at hn
      omega⟩
    have hn' : items.length ≤ n := by simpa using hn
    have hget := hlist.entry
    rw [append_cons] at hlist
    have hothers (c : ℕ) := @ih _ n c hlist hn'
    rw [addrs_cons, first_cons, countPairsByKey, hget, crash_bind]
    cases body with
    | pair pkey pali tag val =>
      cases hkey : opt.samex ctype key pkey with
      | false =>
        rw [filter_cons_of_neg (by simp [Body.meets, hkey])]
        simpa only [hkey, Bool.false_eq_true, if_false] using hothers count
      | true =>
        have hcount := hothers (count + 1)
        rw [add_right_comm] at hcount
        rw [filter_cons_of_pos (by simp [Body.meets, hkey]), length_cons, ← add_assoc]
        simpa only [hkey, if_true] using hcount
    | text s | file path | eof => exact hothers count

def LacksHere (opt : Opt) (ctype : Ctype) (seg : FqpnSeg) (items : List Entry) : Prop :=
  ∃ ali, seg.idx = .ali ali ∧ LacksAlias opt ctype seg.key ali items

theorem findPairBySeg_null (ht : Tree h st vs as) (hn : as.length ≤ n)
    (hl : st.lists l = some items) (hlacks : LacksHere opt ctype seg items) :
    h.findPairBySeg opt ctype n seg (first (addrs items) none) = .error .null := by
  obtain ⟨ali, hidx, hlacks⟩ := hlacks
  have hlist : ListAt h l ([] ++ items) := ht.shows.lists l items hl
  rw [Heap.findPairBySeg, hidx]
  exact findPairByKeyAndAlias_null hlist hlacks ((ht.list_length hl).trans hn)

/-! ## The way to a pair -/

section

variable (hl : st.lists l = some items)
include hl

theorem meetsNoAlias_lacks (hlacks : LacksHere opt ctype seg items) :
    MeetsNoAlias opt ctype st (.list l) (seg :: segs) :=
  ⟨items, hl, .inl hlacks⟩

theorem meetsNoAlias_none
    (hlacks : ¬LacksHere opt ctype seg items) (hpick : seg.pick opt ctype items = none) :
    ¬MeetsNoAlias opt ctype st (.list l) (seg :: segs) := by
  rintro ⟨items', hl', hmeets⟩
  rw [hl] at hl'
  obtain rfl := some.inj hl'
  rcases hmeets with hmeets | ⟨e, val, hpick', -, -⟩
  · exact hlacks hmeets
  · rw [hpick] at hpick'
    cases hpick'

theorem meetsNoAlias_cons
    (hlacks : ¬LacksHere opt ctype seg items) (hpick : seg.pick opt ctype items = some e)
    (hval : e.2.val? = some val) :
    MeetsNoAlias opt ctype st (.list l) (seg :: segs) ↔ MeetsNoAlias opt ctype st val segs := by
  constructor
  · rintro ⟨items', hl', hmeets⟩
    rw [hl] at hl'
    obtain rfl := some.inj hl'
    rcases hmeets with hmeets | ⟨e', val', hpick', hval', hmeets⟩
    · exact absurd hmeets hlacks
    · rw [hpick] at hpick'
      obtain rfl := some.inj hpick'
      rw [hval] at hval'
      obtain rfl := some.inj hval'
      exact hmeets
  · intro hmeets
    exact ⟨items, hl, .inr ⟨e, val, hpick, hval, hmeets⟩⟩

theorem lastList_cons (hpick : seg.pick opt ctype items = some e)
    (hval : e.2.val? = some val) (seg' : FqpnSeg) :
    lastList opt ctype st (.list l) (seg :: seg' :: segs) =
      lastList opt ctype st val (seg' :: segs) := by
  have hstep : lastList opt ctype st (.list l) (seg :: seg' :: segs) = (do
      let items ← st.lists l
      let e ← seg.pick opt ctype items
      let val ← e.2.val?
      lastList opt ctype st val (seg' :: segs)) := rfl
  rw [hstep, hl]
  change ((seg.pick opt ctype items).bind fun e => _) = _
  rw [hpick]
  change (e.2.val?.bind fun val => _) = _
  rw [hval]
  rfl

theorem lastList_none (hpick : seg.pick opt ctype items = none)
    (seg' : FqpnSeg) : lastList opt ctype st (.list l) (seg :: seg' :: segs) = none := by
  have hstep : lastList opt ctype st (.list l) (seg :: seg' :: segs) = (do
      let items ← st.lists l
      let e ← seg.pick opt ctype items
      let val ← e.2.val?
      lastList opt ctype st val (seg' :: segs)) := rfl
  rw [hstep, hl]
  change ((seg.pick opt ctype items).bind fun e => _) = _
  rw [hpick]
  rfl

theorem lastList_last : lastList opt ctype st (.list l) [seg] = some (l, items, seg) := by
  change (st.lists l).map (fun items => (l, items, seg)) = _
  rw [hl]
  rfl

end

theorem behind_splitter (splitter : ℕ) (segs : List Seg) :
    behind splitter segs = [] ∨ (behind splitter segs).head? = some splitter := by
  cases segs with
  | nil => exact .inl rfl
  | cons s segs => exact .inr rfl

theorem list_step (ht : Tree h st vs as) (hn : as.length ≤ n) (hl : st.lists l = some items)
    (seg : FqpnSeg) :
    h.getList l = .ok ⟨first (addrs items) none, last none (addrs items)⟩ ∧
      (¬LacksHere opt ctype seg items →
        h.findPairBySeg opt ctype n seg (first (addrs items) none) =
          .ok ((seg.pick opt ctype items).map Prod.fst)) ∧
      ∀ e, seg.pick opt ctype items = some e →
        ∃ node key ali tag val, h.getNode e.1 = .ok node ∧ node.body = .pair key ali tag val ∧
          e.2.val? = some val ∧ ∀ l', val = .list l' → ∃ items', st.lists l' = some items' := by
  refine ⟨?_, ?_, ?_⟩
  · rw [Heap.getList, (ht.shows.lists l items hl).mem]
  · intro hlacks
    exact pick_spec ht hn hl fun ali hidx hali => hlacks ⟨ali, hidx, hali⟩
  · intro e hpick
    obtain ⟨hin, key, ali, tag, val, hbody⟩ := pick_mem hpick
    obtain ⟨xs, ys, hitems⟩ := mem_iff_append.1 hin
    have hlist : ListAt h l (xs ++ e :: ys) := hitems ▸ ht.shows.lists l items hl
    refine ⟨_, key, ali, tag, val, hlist.entry, hbody, by rw [hbody]; rfl, ?_⟩
    rintro l' rfl
    exact ht.value_list hl hin hbody

theorem findPairOwned_spec (ht : Tree h st vs as) (hn : as.length ≤ n)
    (hsplit : splitter ≠ wt '[' ∧ splitter ≠ wt '{') {segs : List Seg} (hne : segs ≠ [])
    (hwritten : ∀ s ∈ segs, s.Written splitter) (hk : segs.length ≤ k)
    (hv : ∀ l, v = .list l → ∃ items, st.lists l = some items) :
    (MeetsNoAlias opt ctype st v (segs.map Seg.reduced) →
      findPairOwned opt ctype splitter h n k v (joined splitter segs) = .error .null) ∧
    (¬MeetsNoAlias opt ctype st v (segs.map Seg.reduced) →
      ∃ r, findPairOwned opt ctype splitter h n k v (joined splitter segs) = .ok r ∧
        r.toOption = found opt ctype st v (segs.map Seg.reduced)) := by
  induction segs generalizing k v with
  | nil => exact absurd rfl hne
  | cons s segs ih =>
    obtain ⟨k, rfl⟩ : ∃ m, k = m + 1 := ⟨k - 1, by
      rw [length_cons] at hk
      omega⟩
    have hread := @getNextFqpnSegment_text ctype splitter s (hwritten s (.head _)) hsplit
      (behind splitter segs) (behind_splitter splitter segs)
    rw [findPairOwned, joined, hread, map_cons]
    cases v with
    | list l =>
      obtain ⟨items, hl⟩ := hv l rfl
      obtain ⟨hget, hpick, hnode⟩ :=
        @list_step opt ctype h st vs as l items n ht hn hl s.reduced
      simp only [hget, crash_bind]
      by_cases hlacks : LacksHere opt ctype s.reduced items
      · rw [findPairBySeg_null ht hn hl hlacks]
        exact ⟨fun _ => rfl, fun hnot => absurd (meetsNoAlias_lacks hl hlacks) hnot⟩
      rw [hpick hlacks, crash_bind]
      cases he : s.reduced.pick opt ctype items with
      | none =>
        refine ⟨fun hmeets => absurd hmeets (meetsNoAlias_none hl hlacks he),
          fun _ => ⟨_, rfl, ?_⟩⟩
        cases segs with
        | nil => rw [map_nil, found, lastList_last hl, bind_some, he]; rfl
        | cons s' segs => rw [map_cons, found, lastList_none hl he]; rfl
      | some e =>
        obtain ⟨node, key, ali, tag, val, hgetnode, hbody, hval, hlists⟩ := hnode e he
        rw [meetsNoAlias_cons hl hlacks he hval]
        simp only [map_some]
        cases segs with
        | nil =>
          refine ⟨fun hmeets => ?_, fun _ => ⟨_, rfl, ?_⟩⟩
          · cases val <;> exact absurd hmeets id
          · rw [map_nil, found, lastList_last hl, bind_some, he]
            rfl
        | cons s' segs =>
          have hrest := @ih k val (cons_ne_nil s' segs)
            (fun t ht => hwritten t (mem_cons_of_mem s ht))
            (Nat.le_of_succ_le_succ hk) hlists
          have hfound : found opt ctype st (.list l)
              (s.reduced :: (s' :: segs).map Seg.reduced) =
                found opt ctype st val ((s' :: segs).map Seg.reduced) := by
            rw [found, found, map_cons, lastList_cons hl he hval]
          have hhead : (behind splitter (s' :: segs)).head? = some splitter := rfl
          have hsome : (behind splitter (s' :: segs)).isEmpty = false := rfl
          have htail : (behind splitter (s' :: segs)).tail = joined splitter (s' :: segs) := rfl
          rw [hfound]
          simp only [hsome, hhead, htail, hgetnode, hbody, crash_bind, ne_eq,
            not_true_eq_false, Bool.false_eq_true, if_false]
          exact hrest
    | nil | true | false | str s => exact ⟨fun hmeets => absurd hmeets id, fun _ => ⟨_, rfl, rfl⟩⟩

theorem countPairsFrom_spec (ht : Tree h st vs as) (hn : as.length ≤ n)
    (hsplit : splitter ≠ wt '[' ∧ splitter ≠ wt '{') {segs : List Seg} (hne : segs ≠ [])
    (hwritten : ∀ s ∈ segs, s.Written splitter) (hk : segs.length ≤ k)
    (hlast : ∀ s, segs.getLast? = some s → s.idx = .none)
    (hv : ∀ l, v = .list l → ∃ items, st.lists l = some items) :
    (MeetsNoAlias opt ctype st v (segs.map Seg.reduced) →
      countPairsFrom opt ctype splitter h n k v (joined splitter segs) = .error .null) ∧
    (¬MeetsNoAlias opt ctype st v (segs.map Seg.reduced) →
      ∃ error, countPairsFrom opt ctype splitter h n k v (joined splitter segs) =
        .ok ((lastList opt ctype st v (segs.map Seg.reduced)).elim 0 fun last =>
          (last.2.1.filter fun e => e.2.meets opt ctype last.2.2.key none).length, error)) := by
  induction segs generalizing k v with
  | nil => exact absurd rfl hne
  | cons s segs ih =>
    obtain ⟨k, rfl⟩ : ∃ m, k = m + 1 := ⟨k - 1, by
      rw [length_cons] at hk
      omega⟩
    have hread := @getNextFqpnSegment_text ctype splitter s (hwritten s (.head _)) hsplit
      (behind splitter segs) (behind_splitter splitter segs)
    rw [countPairsFrom, joined, hread, map_cons]
    cases v with
    | list l =>
      obtain ⟨items, hl⟩ := hv l rfl
      obtain ⟨hget, hpick, hnode⟩ :=
        @list_step opt ctype h st vs as l items n ht hn hl s.reduced
      simp only [hget, crash_bind]
      cases segs with
      | nil =>
        have hidx : s.reduced.idx = .none := by
          rw [Seg.reduced, hlast s rfl]
        have hlacks : ¬LacksHere opt ctype s.reduced items := by
          rintro ⟨ali, hali, -⟩
          rw [hidx] at hali
          cases hali
        have hlist : ListAt h l ([] ++ items) := ht.shows.lists l items hl
        have hcount := @countPairsByKey_spec opt ctype h l items [] s.reduced.key n 0 hlist
          ((ht.list_length hl).trans hn)
        have hmeets : ¬MeetsNoAlias opt ctype st (.list l) [s.reduced] := by
          rintro ⟨items', hl', hhere | ⟨e, val, -, -, hrest⟩⟩
          · rw [hl] at hl'
            obtain rfl := some.inj hl'
            exact hlacks hhere
          · cases val <;> exact absurd hrest id
        refine ⟨fun h' => absurd h' hmeets, fun _ => ⟨none, ?_⟩⟩
        rw [map_nil, lastList_last hl, hidx]
        change (do
          let count ← countPairsByKey opt ctype h s.reduced.key n 0 (first (addrs items) none)
          Except.ok (count, none)) = _
        rw [hcount, crash_bind, zero_add]
        rfl
      | cons s' segs =>
        have hbehind : behind splitter (s' :: segs) =
            splitter :: (s'.text ++ behind splitter segs) := rfl
        have hjoined : joined splitter (s' :: segs) = s'.text ++ behind splitter segs := rfl
        rw [hbehind]
        by_cases hlacks : LacksHere opt ctype s.reduced items
        · rw [findPairBySeg_null ht hn hl hlacks]
          refine ⟨fun _ => ?_, fun hnot => absurd (meetsNoAlias_lacks hl hlacks) hnot⟩
          cases s.reduced.idx <;> rfl
        rw [hpick hlacks, map_cons]
        simp only [crash_bind]
        cases he : s.reduced.pick opt ctype items with
        | none =>
          refine ⟨fun hmeets => absurd hmeets (meetsNoAlias_none hl hlacks he),
            fun _ => ⟨some (.enoent s.reduced.ki), ?_⟩⟩
          rw [lastList_none hl he]
          cases s.reduced.idx <;> rfl
        | some e =>
          obtain ⟨node, key, ali, tag, val, hgetnode, hbody, hval, hlists⟩ := hnode e he
          have hrest := @ih k val (cons_ne_nil s' segs)
            (fun t ht => hwritten t (mem_cons_of_mem s ht))
            (Nat.le_of_succ_le_succ hk)
            (fun t ht => hlast t (by rwa [getLast?_cons_cons])) hlists
          rw [hjoined, map_cons] at hrest
          rw [meetsNoAlias_cons hl hlacks he hval, lastList_cons hl he hval]
          simp only [map_some, hgetnode, hbody, crash_bind]
          cases s.reduced.idx <;>
            simpa only [isEmpty_cons, head?_cons, tail_cons, ne_eq,
              not_true_eq_false, Bool.false_eq_true, if_false] using hrest
    | nil | true | false | str s => exact ⟨fun hmeets => absurd hmeets id, fun _ => ⟨_, rfl⟩⟩

/-- `qse_xli_findpair` is the walk without what it gives besides the pair. -/
theorem findPairFrom_eq (v : ValPtr) (ptr : List ℕ) :
    h.findPairFrom opt ctype splitter n k v ptr =
      (findPairOwned opt ctype splitter h n k v ptr).map (Except.map Prod.fst) := by
  induction k generalizing v ptr with
  | zero => rfl
  | succ k ih =>
    rw [Heap.findPairFrom, findPairOwned]
    cases getNextFqpnSegment ctype splitter ptr with
    | none => rfl
    | some read =>
      obtain ⟨seg, ptr⟩ := read
      cases v with
      | list l =>
        simp only
        cases h.getList l with
        | error c => rfl
        | ok list =>
          simp only [crash_bind]
          cases h.findPairBySeg opt ctype n seg list.head with
          | error c => rfl
          | ok pair =>
            simp only [crash_bind]
            cases pair with
            | none => rfl
            | some pair =>
              simp only
              split
              · rfl
              split
              · rfl
              · cases h.getNode pair with
                | error c => rfl
                | ok node =>
                  simp only [crash_bind]
                  cases node.body with
                  | pair key ali tag val => exact ih val ptr.tail
                  | text s | file path | eof => rfl
      | nil | true | false | str s => rfl

/-! ## Lookups -/

/-- `qse_xli_findpairatindex` finds a pair. -/
def FindsAt (opt : Opt) (ctype : Ctype) (splitter : ℕ) (h : Heap) (n : ℕ) (list : Option Addr)
    (fqpn : WString) (idx : ℕ) : Prop :=
  ∃ p error, findpairatindex opt ctype splitter h n list fqpn idx = .ok (some p, error)

/-- A name is looked up as it is meant: `qse_xli_findpair` returns the pair that is reached, or
fails if there is none; and if the last segment has no index, `qse_xli_countpairs` returns a number
just when `qse_xli_findpairatindex` finds a pair for the indices below it and no others. -/
structure LooksUp (opt : Opt) (ctype : Ctype) {splitter : ℕ} (h : Heap) (st : Store)
    (list : Option Addr) (name : Name splitter) : Prop where
  finds : ∃ r, h.findpair opt ctype splitter (h.steps name.fqpn.chars) list name.fqpn = .ok r ∧
    r.toOption = reached opt ctype st (.list (list.getD root)) (name.segs.map Seg.meant)
  counts : (∀ s, name.segs.getLast? = some s → s.idx = .none) → ∀ m,
    (∃ error, countpairs opt ctype splitter h (h.steps name.fqpn.chars) list name.fqpn =
      .ok (m, error)) ↔
    ∀ idx, FindsAt opt ctype splitter h (h.steps name.fqpn.chars) list name.fqpn idx ↔ idx < m

theorem length_le_behind {splitter : ℕ} {segs : List Seg}
    (hwritten : ∀ s ∈ segs, s.Written splitter) :
    segs.length ≤ (behind splitter segs).length := by
  induction segs with
  | nil => exact le_rfl
  | cons s segs ih =>
    have hrest := ih fun t ht => hwritten t (mem_cons_of_mem s ht)
    rw [behind, length_cons, length_cons, length_append]
    omega

theorem Name.length_le {splitter : ℕ} (name : Name splitter) :
    name.segs.length ≤ name.fqpn.chars.length + 1 := by
  rw [name.chars]
  cases hsegs : name.segs with
  | nil => exact Nat.zero_le _
  | cons s segs =>
    have hbehind := @length_le_behind splitter segs fun t ht =>
      name.written t (by rw [hsegs]; exact mem_cons_of_mem s ht)
    rw [joined, length_append, length_cons]
    omega

theorem find_isSome_iff (p : Entry → Bool) (items : List Entry) :
    (items.find? p).isSome ↔ 0 < (items.filter p).length := by
  rw [find?_isSome, ← countP_eq_length_filter, countP_pos_iff]

theorem lastList_eq_some {last : Addr × List Entry × FqpnSeg}
    (hlast : lastList opt ctype st v segs = some last) :
    st.lists last.1 = some last.2.1 ∧ segs.getLast? = some last.2.2 := by
  induction segs generalizing v with
  | nil => cases v <;> cases hlast
  | cons seg segs ih =>
    cases v with
    | list l =>
      cases hl : st.lists l with
      | none =>
        cases segs with
        | nil =>
          change (st.lists l).map _ = _ at hlast
          rw [hl] at hlast
          cases hlast
        | cons seg' segs =>
          change (st.lists l).bind _ = _ at hlast
          rw [hl] at hlast
          cases hlast
      | some items =>
        cases segs with
        | nil =>
          rw [lastList_last hl] at hlast
          obtain rfl := some.inj hlast
          exact ⟨hl, rfl⟩
        | cons seg' segs =>
          cases hpick : seg.pick opt ctype items with
          | none =>
            rw [lastList_none hl hpick] at hlast
            cases hlast
          | some e =>
            obtain ⟨-, key, ali, tag, val, hbody⟩ := pick_mem hpick
            have hval : e.2.val? = some val := by rw [hbody]; rfl
            rw [lastList_cons hl hpick hval] at hlast
            rw [getLast?_cons_cons]
            exact ih hlast
    | nil | true | false | str s => cases hlast

theorem findsAt_iff (ht : Tree h st vs as) (hn : as.length ≤ n) {list : Option Addr}
    {fqpn : WString} {r : Except TreeErr (Addr × Addr × List ℕ)}
    (hr : findPairOwned opt ctype splitter h n n (.list (list.getD root)) fqpn.chars = .ok r)
    (hfound : r.toOption = found opt ctype st (.list (list.getD root)) segs)
    (hidx : ∀ seg, segs.getLast? = some seg → seg.idx = .none) (idx : ℕ) :
    FindsAt opt ctype splitter h n list fqpn idx ↔
      idx < (lastList opt ctype st (.list (list.getD root)) segs).elim 0 fun last =>
        (last.2.1.filter fun e => e.2.meets opt ctype last.2.2.key none).length := by
  have hfail (e : TreeErr) (hr' : r = .error e) :
      ¬FindsAt opt ctype splitter h n list fqpn idx := by
    rintro ⟨p, error, hat⟩
    rw [findpairatindex, hr, crash_bind, hr'] at hat
    cases hat
  rw [found] at hfound
  cases hlast : lastList opt ctype st (.list (list.getD root)) segs with
  | none =>
    rw [hlast] at hfound
    cases r with
    | ok found => cases hfound
    | error e =>
      exact ⟨fun hat => absurd hat (hfail e rfl), fun hlt => absurd hlt (Nat.not_lt_zero _)⟩
  | some last =>
    obtain ⟨l, items, seg⟩ := last
    obtain ⟨hl, hseg⟩ := lastList_eq_some hlast
    have hpick : seg.pick opt ctype items =
        items.find? fun e => e.2.meets opt ctype seg.key none := by
      rw [FqpnSeg.pick, hidx seg hseg]
    have hsome := find_isSome_iff (fun e => e.2.meets opt ctype seg.key none) items
    rw [hlast, bind_some] at hfound
    simp only [hpick] at hfound
    simp only [elim_some]
    cases hfind : items.find? fun e => e.2.meets opt ctype seg.key none with
    | none =>
      rw [hfind] at hfound hsome
      have hzero : ¬0 < (items.filter fun e => e.2.meets opt ctype seg.key none).length :=
        fun hpos => absurd (hsome.mpr hpos) Bool.false_ne_true
      cases r with
      | ok found => cases hfound
      | error e => exact ⟨fun hat => absurd hat (hfail e rfl), fun hlt => by omega⟩
    | some e =>
      rw [hfind] at hfound hsome
      have hpos := hsome.mp rfl
      cases r with
      | error e => cases hfound
      | ok found =>
        obtain rfl := some.inj hfound
        have hlist : ListAt h l ([] ++ items) := ht.shows.lists l items hl
        have hget := (@list_step opt ctype h st vs as l items n ht hn hl seg).1
        have hat := @findPairByKeyAndIndex_spec opt ctype h l items [] seg.key n idx 0 hlist
          (Nat.zero_le idx) ((ht.list_length hl).trans hn)
        have hrun : findpairatindex opt ctype splitter h n list fqpn idx =
            if 0 < idx then
              .ok (((items.filter fun e => e.2.meets opt ctype seg.key none)[idx]?).map
                Prod.fst, none)
            else .ok (some e.1, none) := by
          rw [findpairatindex, hr, crash_bind]
          simp only [hget, hat, crash_bind, Nat.sub_zero]
        rw [FindsAt, hrun]
        by_cases hidx0 : 0 < idx
        · rw [if_pos hidx0]
          constructor
          · rintro ⟨p, error, hp⟩
            have hp' := (Prod.mk.inj (Except.ok.inj hp)).1
            obtain ⟨x, hx, -⟩ := map_eq_some_iff.mp hp'
            exact (List.getElem?_eq_some_iff.mp hx).1
          · intro hlt
            exact ⟨_, none, by rw [getElem?_eq_getElem hlt]; rfl⟩
        · rw [if_neg hidx0]
          exact ⟨fun _ => by omega, fun _ => ⟨e.1, none, rfl⟩⟩

/-! ## Numbers -/

/-- Every number in the name is one of the type `qse_size_t`. -/
def Name.Fits (name : Name splitter) : Prop :=
  ∀ s ∈ name.segs, ∀ digits, s.idx = .number digits → value digits < 2 ^ 64

theorem reached_fits (hfew : ∀ l items, st.lists l = some items → items.length ≤ 2 ^ 64)
    {segs : List Seg} {p : Addr} (hreached : reached opt ctype st v (segs.map Seg.meant) = some p) :
    ∀ s ∈ segs, ∀ digits, s.idx = .number digits → value digits < 2 ^ 64 := by
  have hpicked {items : List Entry} {l : Addr} {s : Seg} {e : Entry}
      (hl : st.lists l = some items) (hpick : s.meant.pick opt ctype items = some e) :
      ∀ digits, s.idx = .number digits → value digits < 2 ^ 64 := by
    intro digits hidx
    have hnumber : s.meant.idx = .number (value digits) := by rw [Seg.meant, hidx]
    simp only [FqpnSeg.pick, hnumber] at hpick
    have hlt := (List.getElem?_eq_some_iff.mp hpick).1
    exact hlt.trans_le ((length_filter_le ..).trans (hfew l items hl))
  rw [reached, found] at hreached
  induction segs generalizing v with
  | nil => exact fun s hs => absurd hs not_mem_nil
  | cons s segs ih =>
    cases v with
    | list l =>
      cases hl : st.lists l with
      | none =>
        have hnone : lastList opt ctype st (.list l) (s.meant :: segs.map Seg.meant) = none := by
          cases segs with
          | nil => exact congrArg (Option.map _) hl
          | cons s' segs => exact congrArg (Option.bind · _) hl
        rw [map_cons, hnone] at hreached
        cases hreached
      | some items =>
        cases hpick : s.meant.pick opt ctype items with
        | none =>
          cases segs with
          | nil =>
            simp only [map_cons, map_nil, lastList_last hl, bind_some, hpick] at hreached
            cases hreached
          | cons s' segs =>
            rw [map_cons, map_cons, lastList_none hl hpick] at hreached
            cases hreached
        | some e =>
          refine forall_mem_cons.mpr ⟨hpicked hl hpick, ?_⟩
          cases segs with
          | nil => exact fun s hs => absurd hs not_mem_nil
          | cons s' segs =>
            obtain ⟨-, key, ali, tag, val, hbody⟩ := pick_mem hpick
            have hval : e.2.val? = some val := by rw [hbody]; rfl
            rw [map_cons, map_cons, lastList_cons hl hpick hval] at hreached
            exact ih hreached
    | nil | true | false | str s => cases hreached

theorem Name.Fits.reduced_eq {name : Name splitter} (hfits : name.Fits) :
    name.segs.map Seg.reduced = name.segs.map Seg.meant := by
  refine map_congr_left fun s hs => ?_
  rw [Seg.reduced, Seg.meant]
  cases hidx : s.idx with
  | none => rfl
  | number digits => simp only [Nat.mod_eq_of_lt (hfits s hs digits hidx)]
  | ali ali => rfl

theorem reached_reduced_iff (hfew : ∀ l items, st.lists l = some items → items.length ≤ 2 ^ 64)
    (name : Name splitter) :
    reached opt ctype st v (name.segs.map Seg.reduced) =
        reached opt ctype st v (name.segs.map Seg.meant) ↔
      name.Fits ∨ reached opt ctype st v (name.segs.map Seg.reduced) = none := by
  cases hmeant : reached opt ctype st v (name.segs.map Seg.meant) with
  | some p =>
    have hfits : name.Fits := reached_fits hfew hmeant
    exact iff_of_true (by rw [hfits.reduced_eq, hmeant]) (.inl hfits)
  | none =>
    refine ⟨.inr, ?_⟩
    rintro (hfits | hnone)
    · rw [hfits.reduced_eq, hmeant]
    · exact hnone

theorem length_items_le {det : List ValPtr} (hi : Intact h st det)
    (haddr : ∀ a, h.mem a ≠ none → a < 2 ^ 64) (l : Addr) (items : List Entry)
    (hl : st.lists l = some items) : items.length ≤ 2 ^ 64 := by
  obtain ⟨as, ht⟩ := hi
  have hsub : as ⊆ List.range (2 ^ 64) := fun a ha => mem_range.mpr (haddr a ((ht.used a).mpr ha))
  have hle := (subperm_of_subset ht.nodup hsub).length_le
  rw [length_range] at hle
  exact (ht.list_length hl).trans hle

theorem looksUp_iff_reached {det : List ValPtr} {list : Option Addr} (hi : Intact h st det)
    (hplace : st.Place list none) (name : Name splitter) :
    LooksUp opt ctype h st list name ↔
      ¬MeetsNoAlias opt ctype st (.list (list.getD root)) (name.segs.map Seg.reduced) ∧
        reached opt ctype st (.list (list.getD root)) (name.segs.map Seg.reduced) =
          reached opt ctype st (.list (list.getD root)) (name.segs.map Seg.meant) := by
  obtain ⟨as, ht⟩ := hi
  obtain ⟨items, hl, -⟩ := hplace
  have hfew := ht.few
  have hlength := name.length_le
  have hn : as.length ≤ h.steps name.fqpn.chars := by
    rw [Heap.steps]
    omega
  have hk : name.segs.length ≤ h.steps name.fqpn.chars := by
    rw [Heap.steps]
    omega
  have hlists : ∀ l, ValPtr.list (list.getD root) = .list l → ∃ items, st.lists l = some items := by
    rintro l ⟨⟩
    exact ⟨items, hl⟩
  have howned := @findPairOwned_spec opt ctype splitter h st _ as _ _ _ ht hn name.splitter_ne
    name.segs name.segs_ne name.written hk hlists
  have hfind : h.findpair opt ctype splitter (h.steps name.fqpn.chars) list name.fqpn =
      (findPairOwned opt ctype splitter h (h.steps name.fqpn.chars) (h.steps name.fqpn.chars)
        (.list (list.getD root)) (joined splitter name.segs)).map (Except.map Prod.fst) := by
    rw [Heap.findpair, findPairFrom_eq, name.chars]
  have hmap (r : Except TreeErr (Addr × Addr × List ℕ)) :
      (r.map Prod.fst).toOption = r.toOption.map Prod.fst := by cases r <;> rfl
  by_cases hmeets : MeetsNoAlias opt ctype st (.list (list.getD root))
      (name.segs.map Seg.reduced)
  · constructor
    · intro hup
      obtain ⟨r, hr, -⟩ := hup.finds
      rw [hfind, howned.1 hmeets] at hr
      cases hr
    · exact fun hsafe => absurd hmeets hsafe.1
  obtain ⟨r, hr, hfound⟩ := howned.2 hmeets
  have hfirst : (r.map Prod.fst).toOption =
      reached opt ctype st (.list (list.getD root)) (name.segs.map Seg.reduced) := by
    rw [hmap, hfound, reached]
  rw [hr] at hfind
  constructor
  · intro hup
    obtain ⟨r', hr', hreached⟩ := hup.finds
    rw [hfind] at hr'
    obtain rfl := Except.ok.inj hr'
    exact ⟨hmeets, hfirst.symm.trans hreached⟩
  · rintro ⟨-, hsame⟩
    constructor
    · exact ⟨_, hfind, hfirst.trans hsame⟩
    · intro hlast m
      obtain ⟨error, hcount⟩ := (@countPairsFrom_spec opt ctype splitter h st _ as _ _ _ ht hn
        name.splitter_ne name.segs name.segs_ne name.written hk hlast hlists).2 hmeets
      have hidx : ∀ seg, (name.segs.map Seg.reduced).getLast? = some seg → seg.idx = .none := by
        intro seg hseg
        rw [getLast?_map] at hseg
        obtain ⟨s, hs, rfl⟩ := map_eq_some_iff.mp hseg
        rw [Seg.reduced, hlast s hs]
      rw [← name.chars] at hr hcount
      have hat := findsAt_iff ht hn hr hfound hidx
      rw [countpairs, hcount]
      constructor
      · rintro ⟨error', heq⟩
        obtain rfl := (Prod.mk.inj (Except.ok.inj heq)).1
        exact hat
      · intro hall
        refine ⟨error, ?_⟩
        have hiff (idx : ℕ) := (hat idx).symm.trans (hall idx)
        congr 2
        apply le_antisymm
        · exact Nat.le_of_not_lt fun hlt => absurd ((hiff _).mp hlt) (lt_irrefl _)
        · exact Nat.le_of_not_lt fun hlt => absurd ((hiff _).mpr hlt) (lt_irrefl _)

/-- A name is looked up as it is meant just when no missing alias is read on the way, its numbers
reduced modulo 2^64, and the numbers so reduced lead to the same pair or like them to none. With
addresses of 64 bits they do if every number is below 2^64, or else if they lead to none. -/
theorem looksUp_iff {det : List ValPtr} {list : Option Addr} (hi : Intact h st det)
    (hplace : st.Place list none) (name : Name splitter) :
    (LooksUp opt ctype h st list name ↔
      ¬MeetsNoAlias opt ctype st (.list (list.getD root)) (name.segs.map Seg.reduced) ∧
        reached opt ctype st (.list (list.getD root)) (name.segs.map Seg.reduced) =
          reached opt ctype st (.list (list.getD root)) (name.segs.map Seg.meant)) ∧
      ((∀ a, h.mem a ≠ none → a < 2 ^ 64) → (LooksUp opt ctype h st list name ↔
        ¬MeetsNoAlias opt ctype st (.list (list.getD root)) (name.segs.map Seg.reduced) ∧
          (name.Fits ∨ reached opt ctype st (.list (list.getD root))
            (name.segs.map Seg.reduced) = none))) := by
  have hiff := @looksUp_iff_reached opt ctype splitter h st det list hi hplace name
  refine ⟨hiff, fun haddr => hiff.trans (and_congr_right fun _ => ?_)⟩
  exact reached_reduced_iff (length_items_le hi haddr) name

/-- The name `a{y}.b[1]` -/
def indexName : Name (wt '.') where
  segs := [⟨wts "a", .ali (wts "y")⟩, ⟨wts "b", .number (wts "1")⟩]
  fqpn := ⟨wts "a{y}.b[1]", by decide⟩
  segs_ne := cons_ne_nil _ _
  written := by
    refine forall_mem_cons.mpr ⟨⟨by decide, by decide, nofun, ?_⟩, forall_mem_cons.mpr
      ⟨⟨by decide, by decide, ?_, nofun⟩, fun s hs => absurd hs not_mem_nil⟩⟩
    · rintro ali ⟨⟩
      decide
    · rintro digits ⟨⟩
      decide
  chars := by decide
  splitter_ne := by decide

/-- Both keys are repeated, and the second pair `b` is found. -/
theorem looksUp_iff_indexName :
    ∃ h st, Reach Opt.plain .ascii (wt '.') (.inTurn fun _ => true) h st [] ∧
      LooksUp Opt.plain .ascii h st none indexName ∧
      reached Opt.plain .ascii st (.list root) (indexName.segs.map Seg.meant) = some 8 := by
  obtain ⟨h, st, hreach, hroot, hlist, -⟩ := reach_nested
  have hfits : indexName.Fits := by
    refine forall_mem_cons.mpr ⟨nofun, forall_mem_cons.mpr ⟨?_, fun s hs => absurd hs not_mem_nil⟩⟩
    rintro digits ⟨⟩
    decide
  have halias : ¬LacksHere Opt.plain .ascii ⟨wts "a", .ali (wts "y"), wts "a{y}"⟩
      [(2, .pair (.of (wts "a")) (some (.of (wts "x"))) none (.str 1)),
        (4, .pair (.of (wts "a")) (some (.of (wts "y"))) none (.list 3))] := by
    rintro ⟨ali, -, xs, e, ys, pkey, tag, val, heq, he, -⟩
    have hmem : e ∈ xs ++ e :: ys := mem_append_right _ (mem_cons_self ..)
    rw [← heq] at hmem
    rcases mem_cons.mp hmem with rfl | hmem
    · cases he
    · obtain rfl := mem_singleton.mp hmem
      cases he
  have hnumber : ¬LacksHere Opt.plain .ascii ⟨wts "b", .number 1, wts "b[1]"⟩
      [(6, .pair (.of (wts "b")) none none (.str 5)),
        (8, .pair (.of (wts "b")) none none (.str 7))] := by
    rintro ⟨ali, ⟨⟩, -⟩
  have hsegs : indexName.segs.map Seg.meant =
      [⟨wts "a", .ali (wts "y"), wts "a{y}"⟩, ⟨wts "b", .number 1, wts "b[1]"⟩] := rfl
  have hmeets :
      ¬MeetsNoAlias Opt.plain .ascii st (.list root) (indexName.segs.map Seg.reduced) := by
    rw [hfits.reduced_eq, hsegs, meetsNoAlias_cons hroot halias rfl rfl,
      meetsNoAlias_cons hlist hnumber rfl rfl]
    exact id
  have hplace : st.Place none none := ⟨_, hroot, nofun⟩
  refine ⟨h, st, hreach, (looksUp_iff hreach.settles.1 hplace indexName).1.2
    ⟨hmeets, by rw [hfits.reduced_eq]⟩, ?_⟩
  rw [hsegs, reached, found, lastList_cons hroot rfl rfl, lastList_last hlist]
  rfl

def onePair : Heap where
  mem a :=
    if a = root then some (.list ⟨some 1, some 1⟩)
    else if a = 1 then
      some (.atom ⟨none, none, some root, .pair ⟨[wt 'a'], by decide⟩ none none .nil⟩)
    else none
  calls := 1

def onePairStore : Store where
  lists l := if l = root then some [(1, .pair ⟨[wt 'a'], by decide⟩ none none .nil)] else none
  strs _ := none

theorem intact_onePair : Intact onePair onePairStore [] := by
  refine ⟨[root, 1], ⟨⟨fun l items hl => ?_, ?_, ?_⟩, ?_, by decide, fun a => ?_, by decide⟩⟩
  · by_cases hroot : l = root
    · rw [onePairStore, hroot] at hl
      obtain rfl := some.inj hl
      rw [hroot]
      refine ⟨rfl, ⟨rfl, rfl, trivial⟩, fun e he => ?_⟩
      obtain rfl := mem_singleton.mp he
      exact ⟨none, none, rfl⟩
    · simp [onePairStore, hroot] at hl
  · rintro s segs ⟨⟩
  · rintro s segs s' segs' a ⟨⟩
  · exact @Owns.list _ root [(1, .pair ⟨[wt 'a'], by decide⟩ none none .nil)] [] [] rfl
      (.const trivial .nil)
  · by_cases h0 : a = root
    · simp [onePair, h0]
    · by_cases h1 : a = 1
      · subst h1
        simp [onePair, h0]
      · simp [onePair, h0, h1]

/-- The name `a{x}` -/
def aliasName : Name (wt '.') where
  segs := [⟨[wt 'a'], .ali [wt 'x']⟩]
  fqpn := ⟨[wt 'a', wt '{', wt 'x', wt '}'], by decide⟩
  segs_ne := cons_ne_nil _ _
  written := by
    intro s hs
    obtain rfl := mem_singleton.mp hs
    constructor
    · decide
    · decide
    · rintro digits ⟨⟩
    · rintro ali ⟨⟩
      decide
  chars := rfl
  splitter_ne := by decide

/-- The lookup of `a{x}` compares `x` with the alias that the pair `a` does not have. -/
theorem not_looksUp :
    ¬∀ (h : Heap) (st : Store) (name : Name (wt '.')), Intact h st [] → st.Place none none →
      LooksUp Opt.plain .ascii h st none name := by
  intro hall
  obtain ⟨r, hr, -⟩ := (hall onePair onePairStore aliasName intact_onePair
    ⟨_, rfl, fun p hp => by cases hp⟩).finds
  have hnull : onePair.findpair Opt.plain .ascii (wt '.') (onePair.steps aliasName.fqpn.chars) none
      aliasName.fqpn = .error .null := rfl
  rw [hnull] at hr
  cases hr

end Qse.Xli.Lookup
