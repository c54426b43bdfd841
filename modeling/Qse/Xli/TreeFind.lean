import Qse.Xli.Trees

/-!
# Finding pairs by name

A name is followed through the sequences of the lists, one segment of it in each. An alias is
compared with those of the pairs of its key, and one of these may have none.
-/

open List

namespace Qse.Xli

open TwoWayChain

section Names

variable (opt : Opt) (ctype : Ctype) (splitter : ℕ)

def Body.meets (key : List ℕ) (ali : Option (List ℕ)) : Body → Bool
  | .pair pkey pali _ _ =>
    opt.samex ctype key pkey &&
      (match ali, pali with
      | none, _ => true
      | some _, none => false
      | some ali, some pali => opt.samex ctype ali pali)
  | _ => false

def FqpnSeg.pick (seg : FqpnSeg) (items : List Entry) : Option Entry :=
  match seg.idx with
  | .none => items.find? fun e => e.2.meets opt ctype seg.key none
  | .number index => (items.filter fun e => e.2.meets opt ctype seg.key none)[index]?
  | .ali ali => items.find? fun e => e.2.meets opt ctype seg.key (some ali)

inductive Names (st : Store) : Addr → List ℕ → Addr → Prop
  | last {l : Addr} {ptr : List ℕ} {seg : FqpnSeg} {items : List Entry} {e : Entry} :
      getNextFqpnSegment ctype splitter ptr = some (seg, []) → st.lists l = some items →
      seg.pick opt ctype items = some e → Names st l ptr e.1
  | deeper {l l' p : Addr} {ptr rest : List ℕ} {c : ℕ} {seg : FqpnSeg} {items : List Entry}
      {q : Addr} {key : WString} {ali tag : Option WString} :
      getNextFqpnSegment ctype splitter ptr = some (seg, c :: rest) → st.lists l = some items →
      seg.pick opt ctype items = some (q, .pair key ali tag (.list l')) → Names st l' rest p →
      Names st l ptr p

/-- An alias is looked for and there is a pair of the key without an alias in front of all that
have it. -/
def LacksAlias (key ali : List ℕ) (items : List Entry) : Prop :=
  ∃ xs e ys pkey tag val, items = xs ++ e :: ys ∧ e.2 = .pair pkey none tag val ∧
    opt.samex ctype key pkey = true ∧ ∀ x ∈ xs, x.2.meets opt ctype key (some ali) = false

inductive ReadsNull (st : Store) : Addr → List ℕ → Prop
  | here {l : Addr} {ptr rest key ali ki : List ℕ} {items : List Entry} :
      getNextFqpnSegment ctype splitter ptr = some (⟨key, .ali ali, ki⟩, rest) →
      st.lists l = some items → LacksAlias opt ctype key ali items → ReadsNull st l ptr
  | deeper {l l' : Addr} {ptr rest : List ℕ} {c : ℕ} {seg : FqpnSeg} {items : List Entry}
      {q : Addr} {key : WString} {ali tag : Option WString} :
      getNextFqpnSegment ctype splitter ptr = some (seg, c :: rest) → st.lists l = some items →
      seg.pick opt ctype items = some (q, .pair key ali tag (.list l')) → ReadsNull st l' rest →
      ReadsNull st l ptr

variable {opt ctype splitter}
variable {h : Heap} {st : Store} {vs : List ValPtr} {as : List Addr} {l : Addr}
  {items xs : List Entry} {key ali ptr rest : List ℕ} {n k : ℕ} {seg : FqpnSeg}

variable {e : Entry}

theorem ListAt.entry {ys : List Entry} (hlist : ListAt h l (xs ++ e :: ys)) :
    h.getNode e.1 = .ok ⟨last none (addrs xs), first (addrs ys) none, some l, e.2⟩ := by
  rw [Heap.getNode, ListAt.links hlist]

theorem findPairByKeyAndAlias_spec {ali : Option (List ℕ)} (hlist : ListAt h l (xs ++ items))
    (hnull : ∀ a, ali = some a → ¬LacksAlias opt ctype key a items) (hn : items.length ≤ n) :
    h.findPairByKeyAndAlias opt ctype key ali n (first (addrs items) none) =
      .ok ((items.find? fun e => e.2.meets opt ctype key ali).map Prod.fst) := by
  induction items generalizing xs n with
  | nil => cases n <;> rfl
  | cons e items ih =>
    obtain ⟨a, body⟩ := e
    obtain ⟨n, rfl⟩ : ∃ m, n = m + 1 := ⟨n - 1, by
      rw [length_cons] at hn
      omega⟩
    have hget := hlist.entry
    rw [append_cons] at hlist
    simp only [addrs_cons, first_cons, Heap.findPairByKeyAndAlias, hget, crash_bind]
    -- the others, when the pair is not the one
    have hothers : body.meets opt ctype key ali = false →
        h.findPairByKeyAndAlias opt ctype key ali n (first (addrs items) none) =
          .ok ((((a, body) :: items).find? fun e => e.2.meets opt ctype key ali).map Prod.fst) := by
      intro hnot
      rw [find?_cons_of_neg (by simp [hnot])]
      refine ih hlist (fun b hb hlacks => hnull b hb ?_) (by simpa using hn)
      obtain ⟨xs', e', ys', pkey, tag, val, hitems, hbody, hkey, hbefore⟩ := hlacks
      refine ⟨(a, body) :: xs', e', ys', pkey, tag, val, by rw [hitems]; rfl, hbody, hkey, ?_⟩
      intro x hx
      rcases mem_cons.1 hx with rfl | hx
      · rw [← hb]
        exact hnot
      · exact hbefore x hx
    cases body with
    | pair pkey pali tag val =>
      cases hkey : opt.samex ctype key pkey with
      | false => simpa [hkey] using hothers (by simp [Body.meets, hkey])
      | true =>
        cases ali with
        | none => simp [Body.meets, hkey]
        | some al =>
          cases pali with
          | none =>
            exact absurd ⟨[], _, items, pkey, tag, val, rfl, rfl, hkey, by simp⟩ (hnull al rfl)
          | some pal =>
            cases hsame : opt.samex ctype al pal with
            | false => simpa [hkey, hsame] using hothers (by simp [Body.meets, hkey, hsame])
            | true => simp [Body.meets, hkey, hsame]
    | text s | file path | eof => exact hothers rfl

theorem findPairByKeyAndIndex_spec {index count : ℕ} (hlist : ListAt h l (xs ++ items))
    (hcount : count ≤ index) (hn : items.length ≤ n) :
    h.findPairByKeyAndIndex opt ctype key index n count (first (addrs items) none) =
      .ok (((items.filter fun e =>
        e.2.meets opt ctype key none)[index - count]?).map Prod.fst) := by
  induction items generalizing xs n count with
  | nil => cases n <;> rfl
  | cons e items ih =>
    obtain ⟨a, body⟩ := e
    obtain ⟨n, rfl⟩ : ∃ m, n = m + 1 := ⟨n - 1, by
      rw [length_cons] at hn
      omega⟩
    have hn' : items.length ≤ n := by simpa using hn
    have hget := hlist.entry
    rw [append_cons] at hlist
    simp only [addrs_cons, first_cons, Heap.findPairByKeyAndIndex, hget, crash_bind]
    have hothers : body.meets opt ctype key none = false →
        h.findPairByKeyAndIndex opt ctype key index n count (first (addrs items) none) =
          .ok (((((a, body) :: items).filter fun e =>
            e.2.meets opt ctype key none)[index - count]?).map Prod.fst) := by
      intro hnot
      rw [filter_cons_of_neg (by simp [hnot])]
      exact ih hlist hcount hn'
    cases body with
    | pair pkey pali tag val =>
      cases hkey : opt.samex ctype key pkey with
      | false => simpa [hkey] using hothers (by simp [Body.meets, hkey])
      | true =>
        rw [filter_cons_of_pos (by simp [Body.meets, hkey])]
        simp only [hkey, if_true]
        by_cases heq : index = count
        · simp [heq]
        · have hsub : index - count = index - (count + 1) + 1 := by omega
          rw [if_neg heq, hsub, getElem?_cons_succ]
          exact ih hlist (by omega) hn'
    | text s | file path | eof => exact hothers rfl

theorem pick_mem (hpick : seg.pick opt ctype items = some e) :
    e ∈ items ∧ ∃ key ali tag val, e.2 = .pair key ali tag val := by
  have hpair : ∀ (key : List ℕ) (ali : Option (List ℕ)), e.2.meets opt ctype key ali = true →
      ∃ key ali tag val, e.2 = .pair key ali tag val := by
    intro key ali hmeets
    cases hbody : e.2 with
    | pair key ali tag val => exact ⟨key, ali, tag, val, rfl⟩
    | text s | file path | eof =>
      rw [hbody] at hmeets
      cases hmeets
  rw [FqpnSeg.pick] at hpick
  cases hidx : seg.idx with
  | none =>
    simp only [hidx] at hpick
    exact ⟨mem_of_find?_eq_some hpick, hpair seg.key none (by simpa using find?_some hpick)⟩
  | number index =>
    rw [hidx] at hpick
    obtain ⟨hmem, hmeets⟩ := mem_filter.1 (mem_of_getElem? hpick)
    exact ⟨hmem, hpair _ _ hmeets⟩
  | ali al =>
    simp only [hidx] at hpick
    exact ⟨mem_of_find?_eq_some hpick, hpair seg.key (some al) (by simpa using find?_some hpick)⟩

theorem dropWhile_cons {p : ℕ → Bool} {s : List ℕ} {c : ℕ} (hdrop : s.dropWhile p = c :: rest) :
    p c = false ∧ rest.length < s.length := by
  have hlength := length_dropWhile_le p s
  rw [hdrop, length_cons] at hlength
  refine ⟨?_, hlength⟩
  have hpos : 0 < (s.dropWhile p).length := by
    rw [hdrop]
    exact Nat.succ_pos _
  have hhead := dropWhile_get_zero_not p s hpos
  simpa [hdrop] using hhead

theorem length_dropWhile_lt {p : ℕ → Bool} {s : List ℕ} (hkey : s.takeWhile p ≠ []) :
    (s.dropWhile p).length < s.length := by
  have hall := congrArg List.length (@takeWhile_append_dropWhile _ p s)
  have hpos := length_pos_of_ne_nil hkey
  rw [length_append] at hall
  omega

theorem getNextFqpnSegment_rest (hseg : getNextFqpnSegment ctype splitter ptr = some (seg, rest)) :
    (rest = [] ∨ rest.head? = some splitter) ∧ rest.length < ptr.length := by
  simp only [getNextFqpnSegment] at hseg
  split at hseg
  · cases hseg
  rename_i hkey
  split at hseg
  · cases hseg
    refine ⟨.inl rfl, ?_⟩
    cases ptr with
    | nil => exact absurd rfl hkey
    | cons c ptr => exact Nat.succ_pos _
  rename_i c ptr' hdrop
  obtain ⟨hc, hlt⟩ := dropWhile_cons hdrop
  split at hseg
  · -- a numeric index
    split at hseg
    · cases hseg
    rename_i d ptr'' hdigits
    have hlt' := (dropWhile_cons hdigits).2
    split at hseg
    · rename_i hends
      cases hseg
      simp only [Bool.and_eq_true, Bool.or_eq_true, List.isEmpty_iff,
        decide_eq_true_eq] at hends
      exact ⟨hends.2, by omega⟩
    · cases hseg
  split at hseg
  · -- an alias
    split at hseg
    · cases hseg
    rename_i d ptr'' halias
    have hlt' := (dropWhile_cons halias).2
    split at hseg
    · rename_i hends
      cases hseg
      simp only [Bool.and_eq_true, Bool.or_eq_true, List.isEmpty_iff,
        decide_eq_true_eq] at hends
      exact ⟨hends.2, by omega⟩
    · cases hseg
  · rename_i hopen hbrace
    cases hseg
    refine ⟨.inr ?_, ?_⟩
    · simpa [hopen, hbrace] using hc
    · rw [← hdrop]
      exact length_dropWhile_lt (by simpa using hkey)

theorem Tree.value_list {l' : Addr} {key : WString} {ali tag : Option WString}
    (ht : Tree h st vs as) (hl : st.lists l = some items) (hin : e ∈ items)
    (hbody : e.2 = .pair key ali tag (.list l')) : ∃ items', st.lists l' = some items' := by
  obtain ⟨xs, ys, rfl⟩ := mem_iff_append.1 hin
  obtain ⟨as', bs, -, hval, -⟩ := ht.owns.remove hl (ht.list_mem hl) ht.nodup (ht.apart hl)
  obtain ⟨a, body⟩ := e
  obtain rfl : body = _ := hbody
  rw [vals_singleton] at hval
  cases hval with
  | const hv => cases hv
  | list hl' => exact ⟨_, hl'⟩

theorem Tree.list_length (ht : Tree h st vs as) (hl : st.lists l = some items) :
    items.length ≤ as.length := by
  have hlength := (ht.list_atoms hl).length_le
  rw [length_cons, addrs, length_map] at hlength
  omega

theorem pick_spec (ht : Tree h st vs as) (hn : as.length ≤ n) (hl : st.lists l = some items)
    (hnull : ∀ ali, seg.idx = .ali ali → ¬LacksAlias opt ctype seg.key ali items) :
    h.findPairBySeg opt ctype n seg (first (addrs items) none) =
      .ok ((seg.pick opt ctype items).map Prod.fst) := by
  have hlist : ListAt h l ([] ++ items) := ht.shows.lists l items hl
  have hn' := (ht.list_length hl).trans hn
  rw [FqpnSeg.pick, Heap.findPairBySeg]
  cases hidx : seg.idx with
  | none => exact findPairByKeyAndAlias_spec hlist (by simp) hn'
  | number index => exact findPairByKeyAndIndex_spec hlist (Nat.zero_le index) hn'
  | ali al =>
    refine findPairByKeyAndAlias_spec hlist (fun a ha => ?_) hn'
    cases ha
    exact hnull al hidx

theorem findPairFrom_spec {v : ValPtr} (ht : Tree h st vs as) (hn : as.length ≤ n)
    (hv : ∀ l, v = .list l → (∃ items, st.lists l = some items) ∧
      ¬ReadsNull opt ctype splitter st l ptr) (hk : ptr.length < k) :
    ∃ r, h.findPairFrom opt ctype splitter n k v ptr = .ok r ∧
      ∀ p, r = .ok p → ∃ l, v = .list l ∧ Names opt ctype splitter st l ptr p := by
  induction k generalizing v ptr with
  | zero => exact absurd hk (Nat.not_lt_zero _)
  | succ k ih =>
    rw [Heap.findPairFrom]
    cases hseg : getNextFqpnSegment ctype splitter ptr with
    | none => exact ⟨_, rfl, by simp⟩
    | some found =>
      obtain ⟨seg, rest⟩ := found
      obtain ⟨hrest, hshorter⟩ := getNextFqpnSegment_rest hseg
      cases v with
      | list l =>
        obtain ⟨⟨items, hl⟩, hnull⟩ := hv l rfl
        have hget : h.getList l = .ok ⟨first (addrs items) none, last none (addrs items)⟩ := by
          rw [Heap.getList, (ht.shows.lists l items hl).mem]
        simp only [hget, crash_bind]
        rw [pick_spec ht hn hl fun al hidx hlacks => by
          obtain ⟨key, idx, ki⟩ := seg
          obtain rfl : idx = .ali al := hidx
          exact hnull (.here hseg hl hlacks), crash_bind]
        cases hpick : seg.pick opt ctype items with
        | none => exact ⟨_, rfl, by simp⟩
        | some e =>
          obtain ⟨hin, key, ali, tag, val, hbody⟩ := pick_mem hpick
          simp only [Option.map_some]
          cases rest with
          | nil =>
            refine ⟨_, rfl, fun p hp => ⟨l, rfl, ?_⟩⟩
            cases hp
            exact .last hseg hl hpick
          | cons c rest =>
            obtain ⟨xs, ys, rfl⟩ := mem_iff_append.1 hin
            have hnode := (ht.shows.lists l _ hl).entry
            have hc : (c :: rest).head? = some splitter := hrest.resolve_left (cons_ne_nil c rest)
            have hpick' : seg.pick opt ctype (xs ++ e :: ys) =
                some (e.1, .pair key ali tag val) := by
              rw [hpick, ← hbody]
            rw [hbody] at hnode
            have hnext : ∀ l', val = .list l' → (∃ items, st.lists l' = some items) ∧
                ¬ReadsNull opt ctype splitter st l' rest := by
              rintro l' rfl
              exact ⟨ht.value_list hl hin hbody,
                fun hreads => hnull (.deeper hseg hl hpick' hreads)⟩
            have hlt : rest.length < k := by
              rw [length_cons] at hshorter
              omega
            obtain ⟨r, hr, hnames⟩ := ih hnext hlt
            refine ⟨r, ?_, fun p hp => ⟨l, rfl, ?_⟩⟩
            · simp only [isEmpty_cons, hc, ne_eq, not_true_eq_false, if_false, hnode,
                crash_bind, tail_cons]
              exact hr
            · obtain ⟨l', rfl, hp'⟩ := hnames p hp
              exact .deeper hseg hl hpick' hp'
      | nil | true | false | str s => exact ⟨_, rfl, by simp⟩

end Names

end Qse.Xli
