import Qse.Xli.TreeFind
import Qse.Xli.TreePairs

/-!
# Runs over a tree

Calls are made one after the other on the lists of a tree. Each list is linked in order, and its
sequence is what the calls have made of it.
-/

open List

namespace Qse.Xli

open TwoWayChain

inductive TreeOp where
  | makelistval
  | makestrval (value : List ℕ) (strtag : Option WString)
  | insertpair (parent peer : Option Addr) (key : WString) (ali tag : Option WString)
      (value : ValPtr)
  | insertpairwithemptylist (parent peer : Option Addr) (key : WString) (ali tag : Option WString)
  | insertpairwithstr (parent peer : Option Addr) (key : WString) (ali tag : Option WString)
      (value : List ℕ) (strtag : Option WString)
  | insertpairwithstrs (parent peer : Option Addr) (key : WString) (ali tag : Option WString)
      (values : List (List ℕ))
  | inserttext (parent peer : Option Addr) (str : WString)
  | insertfile (parent peer : Option Addr) (path : WString)
  | inserteof (parent peer : Option Addr)
  | setpairwithstr (list : Option Addr) (fqpn : WString) (value : List ℕ) (strtag : Option WString)
  | deletepair (pair : Addr)

def Heap.steps (h : Heap) (fqpn : List ℕ) : ℕ := 4 * h.calls + fqpn.length + 13

def made : Heap × Option Addr → Heap × Except TreeErr Addr
  | (h, some a) => (h, .ok a)
  | (h, none) => (h, .error .enomem)

section Calls

variable (opt : Opt) (ctype : Ctype) (splitter : ℕ) (mm : Mmgr)

def TreeOp.run (h : Heap) : TreeOp → Except Crash (Heap × Except TreeErr Addr)
  | .makelistval => .ok (made (h.makelistval mm))
  | .makestrval value strtag => .ok (made (h.makestrval mm value strtag))
  | .insertpair parent peer key ali tag value => h.insertpair mm parent peer key ali tag value
  | .insertpairwithemptylist parent peer key ali tag =>
    h.insertpairwithemptylist mm parent peer key ali tag
  | .insertpairwithstr parent peer key ali tag value strtag =>
    h.insertpairwithstr mm parent peer key ali tag value strtag
  | .insertpairwithstrs parent peer key ali tag values =>
    h.insertpairwithstrs mm (h.steps []) parent peer key ali tag values
  | .inserttext parent peer str => h.inserttext mm parent peer str
  | .insertfile parent peer path => h.insertfile mm parent peer path
  | .inserteof parent peer => h.inserteof mm parent peer
  | .setpairwithstr list fqpn value strtag =>
    h.setpairwithstr opt ctype splitter mm (h.steps fqpn.chars) list fqpn value strtag
  | .deletepair pair => do
    let h ← h.deletepair (h.steps []) pair
    .ok (h, .ok pair)

/-! ## Sequences -/

def insertBefore (peer : Option Addr) (e : Entry) : List Entry → List Entry
  | [] => [e]
  | x :: xs => if peer = some x.1 then e :: x :: xs else x :: insertBefore peer e xs

def Store.insert (st : Store) (parent peer : Option Addr) (e : Entry) : Store :=
  st.setList (parent.getD root) ((st.lists (parent.getD root)).map (insertBefore peer e))

def Store.delete (st : Store) (l p : Addr) : Store :=
  st.setList l ((st.lists l).map (List.filter fun e => e.1 ≠ p))

def attach (det : List ValPtr) : ValPtr → List ValPtr
  | .list l => det.erase (.list l)
  | .str s => det.erase (.str s)
  | _ => det

def Store.HasPair (st : Store) (l p : Addr) (val : ValPtr) : Prop :=
  ∃ items key ali tag, st.lists l = some items ∧ (p, Body.pair key ali tag val) ∈ items

inductive Deletes (st : Store) (l p : Addr) : Store → Prop
  | intro {val : ValPtr} {bs : List Addr} :
      st.HasPair l p val → Owns st [val] bs → Deletes st l p ((st.delete l p).drop (bs ++ [p]))

def Heap.bodyOf (h : Heap) (a : Addr) : Option Body :=
  match h.mem a with
  | some (.atom node) => some node.body
  | _ => none

/-- What a call that returns `a` makes of the sequences, and of the values that are in no tree.
The addresses of a new value are those that the memory shows. -/
inductive Does (h' : Heap) (st : Store) (det : List ValPtr) :
    TreeOp → Addr → Store → List ValPtr → Prop
  | makelistval {a : Addr} :
      Does h' st det .makelistval a (st.setList a (some [])) (.list a :: det)
  | makestrval {a : Addr} {value : List ℕ} {strtag : Option WString} :
      Does h' st det (.makestrval value strtag) a
        (st.setStr a (some [(a, ⟨value, strtag, false⟩)])) (.str a :: det)
  | insertpair {a : Addr} {parent peer : Option Addr} {key : WString} {ali tag : Option WString}
      {value : ValPtr} :
      Does h' st det (.insertpair parent peer key ali tag value) a
        (st.insert parent peer (a, .pair key ali tag value)) (attach det value)
  | insertpairwithemptylist {a v : Addr} {parent peer : Option Addr} {key : WString}
      {ali tag : Option WString} :
      h'.bodyOf a = some (.pair key ali tag (.list v)) →
      Does h' st det (.insertpairwithemptylist parent peer key ali tag) a
        ((st.setList v (some [])).insert parent peer (a, .pair key ali tag (.list v))) det
  | insertpairwithstr {a v : Addr} {parent peer : Option Addr} {key : WString}
      {ali tag : Option WString} {value : List ℕ} {strtag : Option WString} :
      h'.bodyOf a = some (.pair key ali tag (.str v)) →
      Does h' st det (.insertpairwithstr parent peer key ali tag value strtag) a
        ((st.setStr v (some [(v, ⟨value, strtag, false⟩)])).insert parent peer
          (a, .pair key ali tag (.str v))) det
  | insertpairwithstrs {a v : Addr} {parent peer : Option Addr} {key : WString}
      {ali tag : Option WString} {values : List (List ℕ)} {segs : List (Addr × Str)} :
      h'.bodyOf a = some (.pair key ali tag (.str v)) → SegsAt h' (some v) segs →
      segs.map Prod.snd = values.map (fun value => ⟨value, none, false⟩) →
      Does h' st det (.insertpairwithstrs parent peer key ali tag values) a
        ((st.setStr v (some segs)).insert parent peer (a, .pair key ali tag (.str v))) det
  | inserttext {a : Addr} {parent peer : Option Addr} {str : WString} :
      Does h' st det (.inserttext parent peer str) a (st.insert parent peer (a, .text str)) det
  | insertfile {a : Addr} {parent peer : Option Addr} {path : WString} :
      Does h' st det (.insertfile parent peer path) a (st.insert parent peer (a, .file path)) det
  | inserteof {a : Addr} {parent peer : Option Addr} :
      Does h' st det (.inserteof parent peer) a (st.insert parent peer (a, .eof)) det
  | setpairwithstr {a v l p : Addr} {list : Option Addr} {fqpn : WString} {value : List ℕ}
      {strtag : Option WString} {items : List Entry} {key : WString} {ali tag : Option WString}
      {val : ValPtr} {st' : Store} :
      Names opt ctype splitter st (list.getD root) fqpn.chars p → st.lists l = some items →
      (p, .pair key ali tag val) ∈ items → h'.bodyOf a = some (.pair key ali tag (.str v)) →
      Deletes ((st.setStr v (some [(v, ⟨value, strtag, false⟩)])).insert (some l) (some p)
        (a, .pair key ali tag (.str v))) l p st' →
      Does h' st det (.setpairwithstr list fqpn value strtag) a st' det
  | deletepair {l p : Addr} {st' : Store} :
      Deletes st l p st' → Does h' st det (.deletepair p) p st' det

def Store.Place (st : Store) (parent peer : Option Addr) : Prop :=
  ∃ items, st.lists (parent.getD root) = some items ∧ ∀ p, peer = some p → p ∈ addrs items

/-- What a call is made on is in the tree, and a value that is given to a pair is in none. -/
def TreeOp.Legal (st : Store) (det : List ValPtr) : TreeOp → Prop
  | .makelistval => True
  | .makestrval _ _ => True
  | .insertpair parent peer _ _ _ value =>
    st.Place parent peer ∧ (value.IsConst ∨ value ∈ det) ∧
      ∀ bs, Owns st [value] bs → parent.getD root ∉ bs
  | .insertpairwithemptylist parent peer _ _ _ => st.Place parent peer
  | .insertpairwithstr parent peer _ _ _ _ _ => st.Place parent peer
  | .insertpairwithstrs parent peer _ _ _ _ => st.Place parent peer
  | .inserttext parent peer _ => st.Place parent peer
  | .insertfile parent peer _ => st.Place parent peer
  | .inserteof parent peer => st.Place parent peer
  | .setpairwithstr list _ _ _ => st.Place list none
  | .deletepair pair => ∃ l val, st.HasPair l pair val

/-- Memory is refused before the pair is in the tree or not at all, and a name does not come to a
pair without the alias that is looked for. -/
def TreeOp.Spared (h : Heap) (st : Store) : TreeOp → Prop
  | .insertpairwithstrs _ _ _ _ _ values =>
    mm.grant h.calls = false ∨ mm.grant (h.calls + 1) = false ∨
      ∀ i, i + 1 < values.length → mm.grant (h.calls + 2 + i) = true
  | .setpairwithstr list fqpn _ _ => ¬ReadsNull opt ctype splitter st (list.getD root) fqpn.chars
  | _ => True

def Store.open : Store where
  lists l := if l = root then some [] else none
  strs _ := none

/-- The memory, the sequences and the values that are in no tree, after calls -/
inductive Reach : Heap → Store → List ValPtr → Prop
  | open : Reach .open .open []
  | failed {h h' : Heap} {st : Store} {det : List ValPtr} {op : TreeOp} {e : TreeErr} :
      Reach h st det → op.Legal st det → op.Spared opt ctype splitter mm h st →
      op.run opt ctype splitter mm h = .ok (h', .error e) → Reach h' st det
  | returned {h h' : Heap} {st st' : Store} {det det' : List ValPtr} {op : TreeOp} {a : Addr} :
      Reach h st det → op.Legal st det → op.Spared opt ctype splitter mm h st →
      op.run opt ctype splitter mm h = .ok (h', .ok a) →
      Does opt ctype splitter h' st det op a st' det' → Reach h' st' det'

variable {opt ctype splitter mm}
variable {h h' : Heap} {st st' : Store} {det det' : List ValPtr} {vs : List ValPtr} {as : List Addr}
  {parent peer : Option Addr} {items xs ys : List Entry} {a l p v : Addr} {body : Body}
  {val : ValPtr}

def Intact (h : Heap) (st : Store) (det : List ValPtr) : Prop :=
  ∃ as, Tree h st (.list root :: det) as

/-- A call fails and leaves the memory as it was, or it returns something and does what it is
for. -/
def Settles (h : Heap) (result : Except Crash (Heap × Except TreeErr Addr))
    (does : Heap → Addr → Store → List ValPtr → Prop) : Prop :=
  (∃ h' e, result = .ok (h', .error e) ∧ Unchanged h h') ∨
    ∃ h' a, result = .ok (h', .ok a) ∧ (∃ st' det', does h' a st' det') ∧
      ∀ st' det', does h' a st' det' → Intact h' st' det'

theorem insertBefore_split (hpeer : ∀ p, peer = some p → p ∈ addrs items) :
    ∃ xs ys, items = xs ++ ys ∧ first (addrs ys) none = peer ∧
      ∀ e, insertBefore peer e items = xs ++ e :: ys := by
  induction items with
  | nil =>
    cases peer with
    | none => exact ⟨[], [], rfl, rfl, fun _ => rfl⟩
    | some p => exact absurd (hpeer p rfl) not_mem_nil
  | cons x items ih =>
    by_cases hx : peer = some x.1
    · exact ⟨[], x :: items, rfl, hx.symm, fun e => by rw [insertBefore, if_pos hx]; rfl⟩
    · obtain ⟨xs, ys, rfl, hfirst, hinsert⟩ := ih fun p hp =>
        (mem_cons.1 (hpeer p hp)).resolve_left fun heq => hx (by rw [hp, heq])
      refine ⟨x :: xs, ys, rfl, hfirst, fun e => ?_⟩
      rw [insertBefore, if_neg hx, hinsert e]
      rfl

theorem Store.Place.split (hplace : st.Place parent peer) :
    ∃ xs ys, st.lists (parent.getD root) = some (xs ++ ys) ∧ first (addrs ys) none = peer ∧
      ∀ e, insertBefore peer e (xs ++ ys) = xs ++ e :: ys := by
  obtain ⟨items, hitems, hpeer⟩ := hplace
  obtain ⟨xs, ys, rfl, hfirst, hinsert⟩ := insertBefore_split hpeer
  exact ⟨xs, ys, hitems, hfirst, hinsert⟩

theorem Store.insert_eq {e : Entry} (hl : st.lists (parent.getD root) = some items) :
    st.insert parent peer e = st.setList (parent.getD root) (some (insertBefore peer e items)) := by
  rw [Store.insert, hl, Option.map_some]

theorem filter_ne (hnodup : (addrs (xs ++ (p, body) :: ys)).Nodup) :
    (xs ++ (p, body) :: ys).filter (fun e => e.1 ≠ p) = xs ++ ys := by
  rw [addrs_append, addrs_cons] at hnodup
  obtain ⟨-, hback, hdisjoint⟩ := nodup_append.1 hnodup
  have hxs : ∀ e ∈ xs, e.1 ≠ p := fun e he =>
    hdisjoint e.1 (mem_map_of_mem he) p (.head _)
  have hys : ∀ e ∈ ys, e.1 ≠ p := by
    intro e he heq
    have hin : e.1 ∈ addrs ys := mem_map_of_mem he
    exact (nodup_cons.1 hback).1 (heq ▸ hin)
  rw [filter_append, filter_cons_of_neg (by simp),
    filter_eq_self.2 (by simpa using hxs), filter_eq_self.2 (by simpa using hys)]

theorem Heap.bodyOf_eq {node : Node} (ha : h.mem a = some (.atom node)) :
    h.bodyOf a = some node.body := by
  rw [Heap.bodyOf, ha]

theorem Tree.bodyOf (ht : Tree h (st.setList l (some (xs ++ (a, body) :: ys))) vs as) :
    h.bodyOf a = some body := by
  have hlist := ht.shows.lists l (xs ++ (a, body) :: ys) (by simp)
  exact Heap.bodyOf_eq hlist.links

/-! ## Calls that insert -/

theorem settles_insertNew (ht : Tree h st (body.val?.toList ++ .list root :: det) as)
    (hplace : st.Place parent peer) (hout : ∀ bs, Owns st body.val?.toList bs →
    parent.getD root ∉ bs)
    {does : Heap → Addr → Store → List ValPtr → Prop}
    (hdoes : ∀ h' a st' det', does h' a st' det' ↔ st' = st.insert parent peer (a, body) ∧
    det' = det) :
    Settles h (h.insertNew mm parent peer body) does := by
  obtain ⟨xs, ys, hl, rfl, hinsert⟩ := hplace.split
  cases hgrant : mm.grant h.calls with
  | false => exact .inl ⟨h.called, .enomem, insertNew_refused hgrant, rfl, Nat.le_succ _⟩
  | true =>
    obtain ⟨h', a, as', hrun, -, ht', -⟩ := insertNew_spec ht hl rfl hout hgrant
    refine .inr ⟨h', a, hrun, ⟨_, _, (hdoes ..).2 ⟨rfl, rfl⟩⟩, fun st' det' hd => ?_⟩
    obtain ⟨rfl, rfl⟩ := (hdoes ..).1 hd
    rw [Store.insert_eq hl, hinsert]
    exact ⟨as', ht'⟩

theorem Tree.attach (ht : Tree h st (.list root :: det) as) (hval : val.IsConst ∨ val ∈ det) :
    ∃ as', Tree h st (val :: .list root :: attach det val) as' := by
  have hdetached : val ∈ det → ∃ as', Tree h st (val :: .list root :: det.erase val) as' := by
    intro hin
    have hperm : (ValPtr.list root :: det).Perm (val :: .list root :: det.erase val) :=
      ((perm_cons_erase hin).cons _).trans (.swap ..)
    exact ht.perm hperm
  cases val with
  | str s | list l => exact hdetached (hval.resolve_left id)
  | nil | true | false => exact ⟨as, ht.const trivial⟩

variable {key : WString} {ali tag strtag : Option WString} {value : List ℕ}

theorem settles_insertpair {value : ValPtr} (hi : Intact h st det)
    (hlegal : (TreeOp.insertpair parent peer key ali tag value).Legal st det) :
    Settles h (h.insertpair mm parent peer key ali tag value) fun h' a =>
      Does opt ctype splitter h' st det (.insertpair parent peer key ali tag value) a := by
  obtain ⟨as, ht⟩ := hi
  obtain ⟨hplace, hvalue, hout⟩ := hlegal
  obtain ⟨as', ht'⟩ := ht.attach hvalue
  refine @settles_insertNew mm h st _ as' parent peer (.pair key ali tag value) ht' hplace hout _
    fun h' a st' det' => ⟨fun hd => ?_, ?_⟩
  · cases hd
    exact ⟨rfl, rfl⟩
  · rintro ⟨rfl, rfl⟩
    exact .insertpair

theorem settles_insertpairwithemptylist (hi : Intact h st det) (hplace : st.Place parent peer) :
    Settles h (h.insertpairwithemptylist mm parent peer key ali tag)
      fun h' a => Does opt ctype splitter h' st det
        (.insertpairwithemptylist parent peer key ali tag) a := by
  obtain ⟨as, ht⟩ := hi
  obtain ⟨xs, ys, hl, rfl, hinsert⟩ := hplace.split
  rcases @insertpairwithemptylist_spec h st _ as _ xs ys mm parent key ali tag ht hl rfl with
    ⟨h', hrun, hsame⟩ | ⟨h', a, v, as', hrun, hv, ht'⟩
  · exact .inl ⟨h', .enomem, hrun, hsame⟩
  refine .inr ⟨h', a, hrun, ⟨_, _, .insertpairwithemptylist ht'.bodyOf⟩, fun st' det' hd => ?_⟩
  cases hd with
  | insertpairwithemptylist hbody =>
    rw [ht'.bodyOf] at hbody
    cases hbody
    have hlv : (st.setList v (some [])).lists (parent.getD root) = some (xs ++ ys) := by
      rw [Store.setList_lists, if_neg, hl]
      rintro heq
      exact ht.fresh hv (heq ▸ ht.list_mem hl)
    rw [Store.insert_eq hlv, hinsert]
    exact ⟨as', ht'⟩

theorem settles_insertpairwithstr (hi : Intact h st det) (hplace : st.Place parent peer) :
    Settles h (h.insertpairwithstr mm parent peer key ali tag value strtag)
      fun h' a => Does opt ctype splitter h' st det
        (.insertpairwithstr parent peer key ali tag value strtag) a := by
  obtain ⟨as, ht⟩ := hi
  obtain ⟨xs, ys, hl, rfl, hinsert⟩ := hplace.split
  rcases @insertpairwithstr_spec h st _ as _ xs ys mm parent key ali tag value strtag ht hl rfl with
    ⟨h', hrun, hsame, -⟩ | ⟨h', a, v, as', hrun, -, ht', -⟩
  · exact .inl ⟨h', .enomem, hrun, hsame⟩
  refine .inr ⟨h', a, hrun, ⟨_, _, .insertpairwithstr ht'.bodyOf⟩, fun st' det' hd => ?_⟩
  cases hd with
  | insertpairwithstr hbody =>
    rw [ht'.bodyOf] at hbody
    cases hbody
    have hlv : (st.setStr v (some [(v, ⟨value, strtag, false⟩)])).lists (parent.getD root) =
        some (xs ++ ys) := hl
    rw [Store.insert_eq hlv, hinsert]
    exact ⟨as', ht'⟩

theorem SegsAt.unique {cur : Option Addr} {segs segs' : List (Addr × Str)}
    (hsegs : SegsAt h cur segs) (hsegs' : SegsAt h cur segs') : segs = segs' := by
  induction segs generalizing cur segs' with
  | nil =>
    obtain rfl : cur = none := hsegs
    cases segs' with
    | nil => rfl
    | cons seg segs' => cases hsegs'.1
  | cons seg segs ih =>
    obtain ⟨rfl, next, hmem, hrest⟩ := hsegs
    cases segs' with
    | nil => cases hsegs'
    | cons seg' segs' =>
      obtain ⟨hseg, next', hmem', hrest'⟩ := hsegs'
      obtain ⟨s, str⟩ := seg
      obtain ⟨s', str'⟩ := seg'
      cases hseg
      rw [hmem] at hmem'
      cases hmem'
      rw [ih hrest hrest']

theorem settles_insertpairwithstrs {values : List (List ℕ)} {n : ℕ} (hi : Intact h st det)
    (hplace : st.Place parent peer)
    (hspared : mm.grant h.calls = false ∨ mm.grant (h.calls + 1) = false ∨
      ∀ i, i + 1 < values.length → mm.grant (h.calls + 2 + i) = true) :
    Settles h (h.insertpairwithstrs mm n parent peer key ali tag values)
      fun h' a => Does opt ctype splitter h' st det
        (.insertpairwithstrs parent peer key ali tag values) a := by
  obtain ⟨as, ht⟩ := hi
  obtain ⟨xs, ys, hl, rfl, hinsert⟩ := hplace.split
  cases values with
  | nil => exact .inl ⟨h, .einval, rfl, rfl, le_rfl⟩
  | cons value values =>
    rcases @insertpairwithstr_spec h st _ as _ xs ys mm parent key ali tag value none ht hl rfl with
      ⟨h', hrun, hsame, -⟩ | ⟨h₁, a, v, as₁, hrun, -, ht₁, -, hcalls, hgrant, hgrant'⟩
    · refine .inl ⟨h', .enomem, ?_, hsame⟩
      rw [Heap.insertpairwithstrs, hrun, crash_bind]
    have hgrants : ∀ i < values.length, mm.grant (h₁.calls + i) = true := by
      rw [hgrant, hgrant'] at hspared
      simp only [Bool.true_eq_false, false_or, length_cons, Nat.add_lt_add_iff_right] at hspared
      rw [hcalls]
      exact hspared
    have hstr : ((st.setStr v (some [(v, ⟨value, none, false⟩)])).setList (parent.getD root)
        (some (xs ++ (a, .pair key ali tag (.str v)) :: ys))).strs v =
          some ([] ++ [(v, ⟨value, none, false⟩)]) := by simp
    obtain ⟨h', segs, as', hadd, ht', htexts⟩ := addSegs_spec ht₁ hstr hgrants
    have hstore : ((st.setStr v (some [(v, ⟨value, none, false⟩)])).setList (parent.getD root)
        (some (xs ++ (a, .pair key ali tag (.str v)) :: ys))).setStr v
          (some ([] ++ (v, ⟨value, none, false⟩) :: segs)) =
        (st.setStr v (some ((v, ⟨value, none, false⟩) :: segs))).setList (parent.getD root)
          (some (xs ++ (a, .pair key ali tag (.str v)) :: ys)) := by
      simp only [Store.setStr, Store.setList, Function.update_idem, nil_append]
    rw [hstore] at ht'
    have hsegs := ht'.shows.strs v ((v, ⟨value, none, false⟩) :: segs) (by simp)
    have hbody₁ := ht₁.shows.lists (parent.getD root)
      (xs ++ (a, .pair key ali tag (.str v)) :: ys) (by simp)
    refine .inr ⟨h', a, ?_, ⟨_, _, .insertpairwithstrs ht'.bodyOf hsegs ?_⟩,
      fun st' det' hd => ?_⟩
    · rw [Heap.insertpairwithstrs, hrun, crash_bind]
      simp only [hbody₁.entry, hadd, crash_bind, if_true]
    · rw [map_cons, map_cons, htexts]
    · cases hd with
      | insertpairwithstrs hbody hsegs' _ =>
        rw [ht'.bodyOf] at hbody
        cases hbody
        obtain rfl := hsegs'.unique hsegs
        have hlv : (st.setStr v (some ((v, ⟨value, none, false⟩) :: segs))).lists
            (parent.getD root) = some (xs ++ ys) := hl
        rw [Store.insert_eq hlv, hinsert]
        exact ⟨as', ht'⟩


theorem Tree.pair_split (ht : Tree h st vs as) (hl : st.lists l = some items)
    (hin : (p, body) ∈ items) :
    ∃ xs ys, items = xs ++ (p, body) :: ys ∧
      ∀ e, insertBefore (some p) e items = xs ++ e :: (p, body) :: ys := by
  have hlist := ht.shows.lists l items hl
  have hpeer : ∀ q, some p = some q → q ∈ addrs items := by
    rintro q ⟨⟩
    exact mem_map_of_mem (f := Prod.fst) hin
  obtain ⟨xs, ys, rfl, hfirst, hinsert⟩ := insertBefore_split hpeer
  cases ys with
  | nil => cases hfirst
  | cons y ys =>
    obtain ⟨q, body'⟩ := y
    obtain rfl : q = p := Option.some.inj hfirst
    obtain ⟨prev, next, hmem⟩ := hlist.atoms (q, body) hin
    have hlinks := hlist.links
    rw [hmem] at hlinks
    cases hlinks
    exact ⟨xs, ys, rfl, hinsert⟩

theorem Store.delete_eq (ht : Tree h st vs as) (hl : st.lists l = some (xs ++ (p, body) :: ys)) :
    st.delete l p = st.setList l (some (xs ++ ys)) := by
  rw [Store.delete, hl, Option.map_some, filter_ne (ht.list_nodup hl)]

theorem Tree.deletes (ht : Tree h st vs as) (hpair : st.HasPair l p val) :
    ∃ st', Deletes st l p st' := by
  obtain ⟨items, key, ali, tag, hl, hin⟩ := hpair
  have hpair : st.HasPair l p val := ⟨items, key, ali, tag, hl, hin⟩
  obtain ⟨xs, ys, rfl⟩ := mem_iff_append.1 hin
  obtain ⟨as', bs, -, hval, -⟩ := ht.owns.remove hl (ht.list_mem hl) ht.nodup (ht.apart hl)
  rw [vals_singleton] at hval
  exact ⟨_, .intro hpair hval⟩

theorem Tree.deletepair {n : ℕ} (ht : Tree h st vs as) (hd : Deletes st l p st')
    (hfuel : 4 * as.length + 1 ≤ n) :
    ∃ h' as', h.deletepair n p = .ok h' ∧ Tree h' st' vs as' ∧
      (∀ e ∈ (st.delete l p).lists l, st'.lists l = some e) ∧ h'.calls = h.calls := by
  obtain @⟨val, bs, ⟨items, key, ali, tag, hl, hin⟩, howns⟩ := hd
  obtain ⟨xs, ys, rfl, -⟩ := ht.pair_split hl hin
  obtain ⟨h', as', bs', hrun, hval, ht', hout, -, hcalls⟩ := deletepair_spec ht hl hfuel
  obtain rfl := hval.unique howns
  have heq := Store.delete_eq ht hl
  rw [heq]
  refine ⟨h', as', hrun, ht', fun e he => ?_, hcalls⟩
  rw [Store.drop_lists, if_neg hout]
  exact he

theorem settles_deletepair (hi : Intact h st det) (hlegal : (TreeOp.deletepair p).Legal st det) :
    Settles h ((TreeOp.deletepair p).run opt ctype splitter mm h)
      fun h' a => Does opt ctype splitter h' st det (.deletepair p) a := by
  obtain ⟨as, ht⟩ := hi
  obtain ⟨l, val, hpair⟩ := hlegal
  have hfuel : 4 * as.length + 1 ≤ h.steps [] := by
    have hfew := ht.few
    rw [Heap.steps]
    omega
  obtain ⟨st', hdeletes⟩ := ht.deletes hpair
  obtain ⟨h', as', hrun, ht', -⟩ := ht.deletepair hdeletes hfuel
  have hres : (TreeOp.deletepair p).run opt ctype splitter mm h = .ok (h', .ok p) := by
    rw [TreeOp.run, hrun, crash_bind]
  refine .inr ⟨h', p, hres, ⟨st', det, .deletepair hdeletes⟩, fun st₂ det₂ hd => ?_⟩
  cases hd with
  | deletepair hdeletes' =>
    obtain ⟨h₂, as₂, hrun₂, ht₂, -⟩ := ht.deletepair hdeletes' hfuel
    rw [hrun] at hrun₂
    cases hrun₂
    exact ⟨as₂, ht₂⟩

/-! ## Replacing a value -/

theorem Names.pair {ptr : List ℕ} (hn : Names opt ctype splitter st l ptr p) :
    ∃ l' val, st.HasPair l' p val := by
  induction hn with
  | @last _ _ _ _ e _ hl hpick =>
    obtain ⟨hin, key, ali, tag, val, hbody⟩ := pick_mem hpick
    obtain ⟨a, body⟩ := e
    obtain rfl : body = _ := hbody
    exact ⟨_, val, _, key, ali, tag, hl, hin⟩
  | deeper _ _ _ _ ih => exact ih

theorem Names.unique {ptr : List ℕ} {q : Addr} (hn : Names opt ctype splitter st l ptr p)
    (hn' : Names opt ctype splitter st l ptr q) : p = q := by
  induction hn with
  | last hseg hl hpick =>
    cases hn' with
    | last hseg' hl' hpick' =>
      rw [hseg] at hseg'
      rw [hl] at hl'
      cases hseg'
      cases hl'
      rw [hpick] at hpick'
      cases hpick'
      rfl
    | deeper hseg' _ _ _ =>
      rw [hseg] at hseg'
      cases hseg'
  | deeper hseg hl hpick _ ih =>
    cases hn' with
    | last hseg' _ _ =>
      rw [hseg] at hseg'
      cases hseg'
    | deeper hseg' hl' hpick' hrest' =>
      rw [hseg] at hseg'
      rw [hl] at hl'
      cases hseg'
      cases hl'
      rw [hpick] at hpick'
      cases hpick'
      exact ih hrest'

theorem Shows.pair_unique {l' : Addr} {items' : List Entry} {body' : Body} (hshows : Shows h st)
    (hl : st.lists l = some items) (hl' : st.lists l' = some items') (hin : (p, body) ∈ items)
    (hin' : (p, body') ∈ items') : l = l' ∧ body = body' := by
  obtain ⟨prev, next, hmem⟩ := (hshows.lists l items hl).atoms _ hin
  obtain ⟨prev', next', hmem'⟩ := (hshows.lists l' items' hl').atoms _ hin'
  rw [hmem] at hmem'
  cases hmem'
  exact ⟨rfl, rfl⟩

theorem settles_setpairwithstr {list : Option Addr} {fqpn : WString} (hi : Intact h st det)
    (hplace : st.Place list none)
    (hspared : ¬ReadsNull opt ctype splitter st (list.getD root) fqpn.chars) :
    Settles h (h.setpairwithstr opt ctype splitter mm (h.steps fqpn.chars) list fqpn value strtag)
      fun h' a => Does opt ctype splitter h' st det (.setpairwithstr list fqpn value strtag) a := by
  obtain ⟨as, ht⟩ := hi
  obtain ⟨items₀, hl₀, -⟩ := hplace
  have hfew := ht.few
  have hlist : ∀ l, ValPtr.list (list.getD root) = .list l → (∃ items, st.lists l = some items) ∧
      ¬ReadsNull opt ctype splitter st l fqpn.chars := by
    rintro l ⟨⟩
    exact ⟨⟨items₀, hl₀⟩, hspared⟩
  obtain ⟨found, hfound, hnames⟩ := @findPairFrom_spec opt ctype splitter h st _ as fqpn.chars
    (h.steps fqpn.chars) (h.steps fqpn.chars) (.list (list.getD root)) ht
    (by rw [Heap.steps]; omega) hlist (by rw [Heap.steps]; omega)
  rw [Heap.setpairwithstr, Heap.findpair, hfound, crash_bind]
  cases found with
  | error e => exact .inl ⟨h, e, rfl, rfl, le_rfl⟩
  | ok p =>
    obtain ⟨l₀, hl₀', hname⟩ := hnames p rfl
    cases hl₀'
    obtain ⟨l, val, items, key, ali, tag, hl, hin⟩ := hname.pair
    obtain ⟨xs, ys, rfl, hbefore⟩ := ht.pair_split hl hin
    have hget := (ht.shows.lists l _ hl).entry
    simp only
    generalize (if opt.trait.validate = true then _ else _ : Except TreeErr Unit) = valid
    cases valid with
    | error e => exact .inl ⟨h, e, rfl, rfl, le_rfl⟩
    | ok u =>
      simp only [hget, crash_bind]
      have hparent : (some l).getD root = l := rfl
      rcases @insertpairwithstr_spec h st _ as l xs ((p, .pair key ali tag val) :: ys) mm (some l)
        key ali tag value strtag ht hl hparent with
        ⟨h', hrun, hsame, -⟩ | ⟨h₁, a, v, as₁, hrun, hv, ht₁, hlength, hcalls, -⟩
      · refine .inl ⟨h', .enomem, ?_, hsame⟩
        rw [addrs_cons, first_cons] at hrun
        rw [hrun, crash_bind]
      rw [addrs_cons, first_cons] at hrun
      rw [hrun, crash_bind]
      have hlv : (st.setStr v (some [(v, ⟨value, strtag, false⟩)])).lists ((some l).getD root) =
          some (xs ++ (p, .pair key ali tag val) :: ys) := hl
      have hstore : (st.setStr v (some [(v, ⟨value, strtag, false⟩)])).insert (some l) (some p)
          (a, .pair key ali tag (.str v)) =
          (st.setStr v (some [(v, ⟨value, strtag, false⟩)])).setList l (some
            (xs ++ (a, .pair key ali tag (.str v)) :: (p, .pair key ali tag val) :: ys)) := by
        rw [Store.insert_eq hlv, hbefore]
        rfl
      rw [← hstore] at ht₁
      have hfuel : 4 * as₁.length + 1 ≤ h.steps fqpn.chars := by
        rw [Heap.steps]
        omega
      have hl₁ : ((st.setStr v (some [(v, ⟨value, strtag, false⟩)])).insert (some l) (some p)
          (a, .pair key ali tag (.str v))).lists l =
            some (xs ++ (a, .pair key ali tag (.str v)) :: (p, .pair key ali tag val) :: ys) := by
        rw [hstore]
        simp
      have hpair₁ : ((st.setStr v (some [(v, ⟨value, strtag, false⟩)])).insert (some l) (some p)
          (a, .pair key ali tag (.str v))).HasPair l p val :=
        ⟨_, key, ali, tag, hl₁, by simp⟩
      obtain ⟨st', hdeletes⟩ := ht₁.deletes hpair₁
      obtain ⟨h', as', hdelete, ht', hkept, -⟩ := ht₁.deletepair hdeletes hfuel
      have hbody : h'.bodyOf a = some (.pair key ali tag (.str v)) := by
        rw [append_cons] at hl₁
        rw [Store.delete_eq ht₁ hl₁, append_assoc, singleton_append] at hkept
        have hlist' := ht'.shows.lists l (xs ++ (a, .pair key ali tag (.str v)) :: ys)
          (hkept _ (by simp))
        exact Heap.bodyOf_eq hlist'.links
      simp only
      rw [hdelete, crash_bind]
      refine .inr ⟨h', a, rfl, ⟨st', det, .setpairwithstr hname hl hin hbody hdeletes⟩,
        fun st₂ det₂ hd => ?_⟩
      cases hd with
      | setpairwithstr hname' hl' hin' hbody' hdeletes' =>
        obtain rfl := hname'.unique hname
        obtain ⟨rfl, hsame⟩ := ht.shows.pair_unique hl' hl hin' hin
        cases hsame
        rw [hbody] at hbody'
        cases hbody'
        obtain ⟨h₂, as₂, hrun₂, ht₂, -⟩ := ht₁.deletepair hdeletes' hfuel
        rw [hdelete] at hrun₂
        cases hrun₂
        exact ⟨as₂, ht₂⟩

/-! ## All calls -/

theorem settles_makelistval (hi : Intact h st det) :
    Settles h (TreeOp.makelistval.run opt ctype splitter mm h)
      fun h' a => Does opt ctype splitter h' st det .makelistval a := by
  obtain ⟨as, ht⟩ := hi
  cases hgrant : mm.grant h.calls with
  | false =>
    refine .inl ⟨h.called, .enomem, ?_, rfl, Nat.le_succ _⟩
    rw [TreeOp.run, Heap.makelistval, callocmem_refused hgrant, made]
  | true =>
    obtain ⟨a, ha, halloc⟩ := callocmem_spec ht hgrant (.list .empty)
    refine .inr ⟨h.called.put a (.list .empty), a, ?_, ⟨_, _, .makelistval⟩, fun st' det' hd => ?_⟩
    · rw [TreeOp.run, Heap.makelistval, halloc, made]
    · cases hd
      exact (ht.makelist ha).perm (.swap ..)

theorem settles_makestrval (hi : Intact h st det) :
    Settles h ((TreeOp.makestrval value strtag).run opt ctype splitter mm h)
      fun h' a => Does opt ctype splitter h' st det (.makestrval value strtag) a := by
  obtain ⟨as, ht⟩ := hi
  cases hgrant : mm.grant h.calls with
  | false =>
    refine .inl ⟨h.called, .enomem, ?_, rfl, Nat.le_succ _⟩
    rw [TreeOp.run, Heap.makestrval, callocmem_refused hgrant, made]
  | true =>
    obtain ⟨a, ha, halloc⟩ := callocmem_spec ht hgrant (.str ⟨value, strtag, false⟩ none)
    refine .inr ⟨h.called.put a (.str ⟨value, strtag, false⟩ none), a, ?_, ⟨_, _, .makestrval⟩,
      fun st' det' hd => ?_⟩
    · rw [TreeOp.run, Heap.makestrval, halloc, made]
    · cases hd
      exact (ht.makestr ha ⟨value, strtag, false⟩).perm (.swap ..)

theorem settles_call (hi : Intact h st det) {op : TreeOp} (hlegal : op.Legal st det)
    (hspared : op.Spared opt ctype splitter mm h st) :
    Settles h (op.run opt ctype splitter mm h)
      fun h' a => Does opt ctype splitter h' st det op a := by
  -- a text, a file name or an end of file has no value
  have hplain : ∀ {parent peer : Option Addr} {body : Body} {op : TreeOp}, body.val? = none →
      st.Place parent peer → (∀ h' a st' det', Does opt ctype splitter h' st det op a st' det' ↔
        st' = st.insert parent peer (a, body) ∧ det' = det) →
      Settles h (h.insertNew mm parent peer body)
        fun h' a => Does opt ctype splitter h' st det op a := by
    intro parent peer body op hnone hplace hdoes
    obtain ⟨as, ht⟩ := hi
    have ht' : Tree h st (body.val?.toList ++ .list root :: det) as := by rwa [hnone]
    refine settles_insertNew ht' hplace (fun bs hbs => ?_) hdoes
    rw [hnone] at hbs
    cases hbs
    exact not_mem_nil
  cases op with
  | makelistval => exact settles_makelistval hi
  | makestrval value strtag => exact settles_makestrval hi
  | insertpair parent peer key ali tag value => exact settles_insertpair hi hlegal
  | insertpairwithemptylist parent peer key ali tag =>
    exact settles_insertpairwithemptylist hi hlegal
  | insertpairwithstr parent peer key ali tag value strtag =>
    exact settles_insertpairwithstr hi hlegal
  | insertpairwithstrs parent peer key ali tag values =>
    exact settles_insertpairwithstrs hi hlegal hspared
  | inserttext parent peer str =>
    refine @hplain parent peer (.text str) _ rfl hlegal fun h' a st' det' => ⟨fun hd => ?_, ?_⟩
    · cases hd
      exact ⟨rfl, rfl⟩
    · rintro ⟨rfl, rfl⟩
      exact .inserttext
  | insertfile parent peer path =>
    refine @hplain parent peer (.file path) _ rfl hlegal fun h' a st' det' => ⟨fun hd => ?_, ?_⟩
    · cases hd
      exact ⟨rfl, rfl⟩
    · rintro ⟨rfl, rfl⟩
      exact .insertfile
  | inserteof parent peer =>
    refine @hplain parent peer .eof _ rfl hlegal fun h' a st' det' => ⟨fun hd => ?_, ?_⟩
    · cases hd
      exact ⟨rfl, rfl⟩
    · rintro ⟨rfl, rfl⟩
      exact .inserteof
  | setpairwithstr list fqpn value strtag => exact settles_setpairwithstr hi hlegal hspared
  | deletepair pair => exact settles_deletepair hi hlegal

theorem intact_open : Intact .open .open [] := by
  refine ⟨[root], ⟨⟨fun l items hl => ?_, ?_, ?_⟩, ?_, nodup_singleton _, fun a => ?_, le_rfl⟩⟩
  · by_cases hroot : l = root
    · rw [Store.open, hroot] at hl
      cases hl
      rw [hroot]
      exact ⟨rfl, trivial, fun e he => nomatch he⟩
    · simp [Store.open, hroot] at hl
  · rintro s segs ⟨⟩
  · rintro s segs s' segs' a ⟨⟩
  · exact @Owns.list _ root [] [] [] rfl .nil
  · by_cases ha : a = root <;> simp [Heap.open, ha]

theorem Intact.unchanged (hi : Intact h st det) (hsame : Unchanged h h') : Intact h' st det := by
  obtain ⟨as, ht⟩ := hi
  exact ⟨as, ht.of_mem hsame.1 hsame.2⟩

/-- All lists of a tree are in order after calls, and every further call does what it is for, or
fails and changes nothing. -/
theorem Reach.settles (hr : Reach opt ctype splitter mm h st det) :
    Intact h st det ∧ ∀ op : TreeOp, op.Legal st det → op.Spared opt ctype splitter mm h st →
      Settles h (op.run opt ctype splitter mm h)
        fun h' a => Does opt ctype splitter h' st det op a := by
  have hi : Intact h st det := by
    induction hr with
    | «open» => exact intact_open
    | failed _ hlegal hspared hrun ih =>
      rcases settles_call ih hlegal hspared with ⟨h₁, e, hrun', hsame⟩ | ⟨h₁, a, hrun', -⟩
      · rw [hrun] at hrun'
        cases hrun'
        exact ih.unchanged hsame
      · rw [hrun] at hrun'
        cases hrun'
    | returned _ hlegal hspared hrun hdoes ih =>
      rcases settles_call ih hlegal hspared with ⟨h₁, e, hrun', -⟩ | ⟨h₁, a, hrun', -, hall⟩
      · rw [hrun] at hrun'
        cases hrun'
      · rw [hrun] at hrun'
        cases hrun'
        exact hall _ _ hdoes
  exact ⟨hi, fun op hlegal hspared => settles_call hi hlegal hspared⟩

end Calls

/-! ## The refusal of a segment -/

noncomputable def Mmgr.inTurn (grant : ℕ → Bool) : Mmgr where
  grant := grant
  place calls used :=
    if used (calls + 1) then Classical.epsilon fun a => used a = false else calls + 1
  unused calls used hfree := by
    by_cases hnext : used (calls + 1) = true
    · rw [if_pos hnext]
      exact Classical.epsilon_spec hfree
    · rw [if_neg hnext]
      exact Bool.eq_false_of_not_eq_true hnext

def Opt.plain : Opt := ⟨Trait.none, none, fun _ => none⟩

/-- A pair `k` with a string of two segments -/
def twoSegments : TreeOp := .insertpairwithstrs none none (.of (wts "k")) none none [wts "1",
    wts "2"]

/-- Two pairs `a` with the aliases `x` and `y`, the second with a list of two pairs `b` -/
theorem reach_nested :
    ∃ h st, Reach Opt.plain Ctype.ascii (wt '.') (.inTurn fun _ => true) h st [] ∧
      st.lists root = some [(2, .pair (.of (wts "a")) (some (.of (wts "x"))) none (.str 1)),
        (4, .pair (.of (wts "a")) (some (.of (wts "y"))) none (.list 3))] ∧
      st.lists 3 = some [(6, .pair (.of (wts "b")) none none (.str 5)),
        (8, .pair (.of (wts "b")) none none (.str 7))] ∧
      st.strs 1 = some [(1, ⟨wts "1", none, false⟩)] := by
  have hopen : Reach Opt.plain Ctype.ascii (wt '.') (.inTurn fun _ => true) .open .open [] := .open
  have hstr := hopen.returned (a := 2) (show TreeOp.Legal _ _ (.insertpairwithstr none none
      (.of (wts "a")) (some (.of (wts "x"))) none (wts "1") none) from ⟨_, rfl, nofun⟩)
    trivial rfl (.insertpairwithstr (v := 1) rfl)
  have hlist := hstr.returned (a := 4) (show TreeOp.Legal _ _ (.insertpairwithemptylist none none
      (.of (wts "a")) (some (.of (wts "y"))) none) from ⟨_, rfl, nofun⟩)
    trivial rfl (.insertpairwithemptylist (v := 3) rfl)
  have hfirst := hlist.returned (a := 6) (show TreeOp.Legal _ _ (.insertpairwithstr (some 3) none
      (.of (wts "b")) none none (wts "2") none) from ⟨_, rfl, nofun⟩)
    trivial rfl (.insertpairwithstr (v := 5) rfl)
  have hsecond := hfirst.returned (a := 8) (show TreeOp.Legal _ _ (.insertpairwithstr (some 3) none
      (.of (wts "b")) none none (wts "3") none) from ⟨_, rfl, nofun⟩)
    trivial rfl (.insertpairwithstr (v := 7) rfl)
  exact ⟨_, _, hsecond, rfl, rfl, rfl⟩

theorem run_deletepair {h h' : Heap} {opt : Opt} {ctype : Ctype} {splitter : ℕ} {mm : Mmgr}
    {p : Addr} {r : Except TreeErr Addr}
    (hrun : (TreeOp.deletepair p).run opt ctype splitter mm h = .ok (h', r)) : r = .ok p := by
  rw [TreeOp.run] at hrun
  cases hdelete : h.deletepair (h.steps []) p with
  | error e =>
    rw [hdelete] at hrun
    cases hrun
  | ok h₁ =>
    rw [hdelete] at hrun
    cases hrun
    rfl

/-- The first pair is deleted, and the value of the other one replaced by a string. -/
theorem Reach.settles_deleted :
    ∃ h st, Reach Opt.plain Ctype.ascii (wt '.') (.inTurn fun _ => true) h st [] ∧
      st.lists root = some [(4, .pair (.of (wts "a")) (some (.of (wts "y"))) none (.list 3))] ∧
      Settles h ((TreeOp.setpairwithstr none (.of (wts "a")) (wts "5") none).run Opt.plain
          Ctype.ascii (wt '.') (.inTurn fun _ => true) h) fun h' a =>
        Does Opt.plain Ctype.ascii (wt '.') h' st []
          (.setpairwithstr none (.of (wts "a")) (wts "5") none) a := by
  obtain ⟨h, st, hreach, hroot, -, hone⟩ := reach_nested
  have hpair : st.HasPair root 2 (.str 1) := ⟨_, _, _, _, hroot, mem_cons_self ..⟩
  have hdeletes := Deletes.intro hpair (.str hone .nil)
  have hroot' : ((st.delete root 2).drop ([1] ++ [2])).lists root =
      some [(4, .pair (.of (wts "a")) (some (.of (wts "y"))) none (.list 3))] := by
    have hne : ¬root = 1 ∧ ¬root = 2 := by decide
    simp [Store.drop, hne, Store.delete, hroot]
  have hseg : getNextFqpnSegment Ctype.ascii (wt '.') (wts "a") =
      some (⟨wts "a", .none, wts "a"⟩, []) := rfl
  have hgone : TreeOp.Legal st [] (.deletepair 2) := ⟨root, _, hpair⟩
  obtain ⟨h', e, hrun, -⟩ | ⟨h', a, hrun, -⟩ := hreach.settles.2 _ hgone trivial
  · cases run_deletepair hrun
  obtain rfl := Except.ok.inj (run_deletepair hrun)
  have hreach' := hreach.returned hgone trivial hrun (.deletepair hdeletes)
  have hlegal : TreeOp.Legal ((st.delete root 2).drop ([1] ++ [2])) []
      (.setpairwithstr none (.of (wts "a")) (wts "5") none) := ⟨_, hroot', nofun⟩
  refine ⟨_, _, hreach', hroot', hreach'.settles.2 _ hlegal ?_⟩
  rintro (⟨hali, -, -⟩ | ⟨hdeep, -, -, -⟩)
  · cases hseg.symm.trans hali
  · cases hseg.symm.trans hdeep

/-- The third request for memory is refused: the call fails, and the root still points at the pair
that has been freed. -/
theorem not_settles_two_segments : twoSegments.Legal .open [] ∧
    ∃ h', twoSegments.run Opt.plain Ctype.ascii (wt '.') (.inTurn fun i => decide (i < 2)) .open =
        .ok (h', .error .enomem) ∧ h'.mem ≠ Heap.open.mem ∧
      h'.mem root = some (.list ⟨some 2, some 2⟩) ∧ h'.mem 2 = none ∧
      ¬∃ items, ListAt h' root items := by
  refine ⟨⟨[], rfl, fun _ h => nomatch h⟩, _, rfl, fun hsame => ?_, rfl, rfl, ?_⟩
  · have hroot : some (Cell.list ⟨some 2, some 2⟩) = some (Cell.list ⟨none, none⟩) :=
      congrFun hsame root
    cases hroot
  · rintro ⟨items, hlist⟩
    have hmem : some (Cell.list ⟨some 2, some 2⟩) =
        some (.list ⟨first (addrs items) none, last none (addrs items)⟩) := hlist.mem
    injection hmem with hcell
    injection hcell with hrec
    injection hrec with hfirst
    obtain ⟨prev, next, body, hatom⟩ := hlist.node (first_mem hfirst.symm)
    cases hatom

end Qse.Xli
