import Qse.Support.BinaryHeap
import Qse.Tmr.Model

/-!
# What a timer holds

While an event is sifted the block holds the list of the events but at one index, the hole, and the
owner of this event alone may not know its position.
-/

open Function List

namespace Qse

/-- The time `x` is before `y`. -/
def NTime.Before (x y : NTime) : Prop :=
  x.sec.toInt < y.sec.toInt ∨ x.sec = y.sec ∧ x.nsec.toInt < y.nsec.toInt

instance (x y : NTime) : Decidable (x.Before y) := inferInstanceAs (Decidable (_ ∨ _ ∧ _))

/-- The subtraction in `qse_cmp_ntime` does not overflow. -/
def NTime.Comparable (x y : NTime) : Prop :=
  if x.sec = y.sec then
    -2 ^ 31 ≤ x.nsec.toInt - y.nsec.toInt ∧ x.nsec.toInt - y.nsec.toInt < 2 ^ 31
  else -2 ^ 63 ≤ x.sec.toInt - y.sec.toInt ∧ x.sec.toInt - y.sec.toInt < 2 ^ 63

theorem before_strictWeak : BinaryHeap.StrictWeak NTime.Before := by
  have hsec (x y : NTime) : x.sec = y.sec ↔ x.sec.toInt = y.sec.toInt :=
    Int64.toInt_inj.symm
  constructor
  · intro x y
    simp only [NTime.Before, hsec]
    omega
  · intro x y z
    simp only [NTime.Before, hsec]
    omega

theorem cmpNtime_eq {x y : NTime} (h : x.Comparable y) :
    ∃ d, cmpNtime x y = some d ∧ (d < 0 ↔ x.Before y) ∧ (0 < d ↔ y.Before x) := by
  rw [NTime.Comparable] at h
  rw [cmpNtime, NTime.Before, NTime.Before]
  by_cases hsec : x.sec = y.sec
  · rw [if_pos hsec] at h ⊢
    refine ⟨_, if_pos h, ?_, ?_⟩
    · simp only [hsec, Int.lt_irrefl, false_or, true_and]
      omega
    · simp only [hsec, Int.lt_irrefl, false_or, true_and]
      omega
  · rw [if_neg hsec] at h ⊢
    refine ⟨_, if_pos h, ?_, ?_⟩
    · simp only [hsec, false_and, or_false]
      omega
    · simp only [Ne.symm hsec, false_and, or_false]
      omega

namespace Tmr

open BinaryHeap StateProgram

/-- The event `x` is to fire before `y`. -/
def Entry.Before (x y : Entry) : Prop := x.event.when.Before y.event.when

instance (x y : Entry) : Decidable (x.Before y) :=
  inferInstanceAs (Decidable (x.event.when.Before y.event.when))

theorem entry_strictWeak : StrictWeak Entry.Before :=
  ⟨fun x y => before_strictWeak.asymm x.event.when y.event.when,
    fun x y z => before_strictWeak.trans_not x.event.when y.event.when z.event.when⟩

def News.id : News → ℕ
  | .report e _ _ => e.id
  | .answer id _ => id

def News.index : News → ℕ
  | .report _ _ new => new
  | .answer _ index => index

def known (news : List News) : ℕ → ℕ :=
  news.foldl (fun k n => Function.update k n.id n.index) fun _ => invalidIndex

def News.Leaves (id : ℕ) : News → Prop
  | .report e _ new => e.id = id ∧ new = invalidIndex
  | .answer _ _ => False

instance (id : ℕ) : DecidablePred (News.Leaves id) := fun n => by
  cases n <;> unfold News.Leaves <;> infer_instance

def invalids (news : List News) (id : ℕ) : ℕ := news.countP fun n => decide (n.Leaves id)

@[simp] theorem known_snoc (news : List News) (n : News) :
    known (news ++ [n]) = Function.update (known news) n.id n.index := by
  rw [known, foldl_append]
  rfl

@[simp] theorem invalids_snoc (news : List News) (n : News) (id : ℕ) :
    invalids (news ++ [n]) id = invalids news id + if n.Leaves id then 1 else 0 := by
  rw [invalids, countP_append]
  congr 1
  by_cases h : n.Leaves id
  · simp [h]
  · simp [h]

/-! ## Events -/

/-- The block has room for `capa` events, it is smaller than `2 ^ 63` bytes, and the
events lie within it. -/
structure WellFormed (t : Tmr) : Prop where
  capa_pos : 0 < t.capa
  size_le : t.size ≤ t.capa
  block : t.event.length = t.capa
  small : t.capa * sizeofEvent < 2 ^ 63

/-- The owners `ids` of the events in the timer have not been reported the invalid index,
and the owners of the events that have left it have been once, and know it. -/
structure Accounted (next : ℕ) (news : List News) (ids : List ℕ) : Prop where
  inside : ∀ id ∈ ids, id < next ∧ invalids news id = 0
  outside : ∀ id, id < next → id ∉ ids → invalids news id = 1 ∧ known news id = invalidIndex
  fresh : ∀ id, next ≤ id → invalids news id = 0

variable {next : ℕ} {news : List News} {ids : List ℕ}

theorem Accounted.perm {ids' : List ℕ} (h : Accounted next news ids)
    (hperm : ids'.Perm ids) : Accounted next news ids' where
  inside := fun id hid => h.inside id (hperm.mem_iff.mp hid)
  outside := fun id hid hnot => h.outside id hid fun hmem => hnot (hperm.mem_iff.mpr hmem)
  fresh := h.fresh

theorem Accounted.learn (h : Accounted next news ids) {n : News} (hid : n.id ∈ ids)
    (hindex : n.index ≠ invalidIndex) : Accounted next (news ++ [n]) ids := by
  have hstay : ∀ id, ¬n.Leaves id := by
    intro id hleaves
    cases n with
    | report e old new => exact hindex hleaves.2
    | answer id index => exact hleaves
  constructor
  · intro id hmem
    rw [invalids_snoc, if_neg (hstay id)]
    exact h.inside id hmem
  · intro id hlt hnot
    have hne : id ≠ n.id := fun heq => hnot (heq ▸ hid)
    rw [invalids_snoc, if_neg (hstay id), known_snoc, update_of_ne hne]
    exact h.outside id hlt hnot
  · intro id hge
    rw [invalids_snoc, if_neg (hstay id)]
    exact h.fresh id hge

theorem Accounted.leave {e : Entry} (h : Accounted next news (e.id :: ids)) (hnot : e.id ∉ ids)
    (old : ℕ) :
    Accounted next (news ++ [.report e old invalidIndex]) ids := by
  have hself : News.Leaves e.id (.report e old invalidIndex) := ⟨rfl, rfl⟩
  constructor
  · intro id hmem
    have hne : ¬News.Leaves id (.report e old invalidIndex) := fun hl => hnot (hl.1 ▸ hmem)
    rw [invalids_snoc, if_neg hne]
    exact h.inside id (.tail _ hmem)
  · intro id hlt hid
    rw [invalids_snoc, known_snoc]
    by_cases heq : id = e.id
    · subst heq
      rw [if_pos hself, (h.inside _ (.head _)).2]
      exact ⟨rfl, update_self _ _ _⟩
    · have hne : ¬News.Leaves id (.report e old invalidIndex) := fun hl => heq hl.1.symm
      have hother : id ≠ News.id (.report e old invalidIndex) := heq
      rw [if_neg hne, update_of_ne hother]
      refine h.outside id hlt fun hmem => ?_
      rcases mem_cons.mp hmem with rfl | hmem
      · exact heq rfl
      · exact hid hmem
  · intro id hge
    have hlt := (h.inside e.id (.head _)).1
    have hne : ¬News.Leaves id (.report e old invalidIndex) := by
      rintro ⟨rfl, -⟩
      exact absurd hlt (Nat.not_lt.mpr hge)
    rw [invalids_snoc, if_neg hne]
    exact h.fresh id hge

theorem Accounted.enter {next' : ℕ} (h : Accounted next' news ids) (hnext : next' = next) :
    Accounted (next' + 1) news (ids ++ [next]) := by
  subst hnext
  constructor
  · intro id hid
    rcases mem_append.mp hid with hid | hid
    · obtain ⟨hlt, hzero⟩ := h.inside id hid
      exact ⟨Nat.lt_succ_of_lt hlt, hzero⟩
    · rw [mem_singleton.mp hid]
      exact ⟨Nat.lt_succ_self _, h.fresh _ (Nat.le_refl _)⟩
  · intro id hlt hnot
    rw [mem_append, not_or, mem_singleton] at hnot
    exact h.outside id (by omega) hnot.1
  · exact fun id hge => h.fresh id (by omega)

/-- The timer holds the events `l` but at `i`, all with times that `ok` allows. Every
owner knows the position of its event, but for the one at `i`. -/
structure HoldsBut (ok : NTime → Prop) (t : Tmr) (l : List Entry) (i : ℕ) : Prop where
  wellFormed : t.WellFormed
  size : t.size = l.length
  slots : ∀ (j : ℕ) (x : Entry), j ≠ i → l[j]? = some x → t.event[j]? = some x
  times : ∀ x ∈ l, ok x.event.when
  nodup : (l.map Entry.id).Nodup
  accounted : Accounted t.next t.news (l.map Entry.id)
  tracks : TracksBut Entry.id (known t.news) l i

def Holds (ok : NTime → Prop) (t : Tmr) (l : List Entry) : Prop := HoldsBut ok t l l.length

/-! ## Single steps -/

variable {t : Tmr} {e : Entry} {Q : PUnit → Tmr → Prop}

theorem returns_load {i : ℕ} {Q : Entry → Tmr → Prop}
    (he : t.event[i]? = some e) : Returns (load i) t Q ↔ Q e t := by
  rw [load, returns_bind, returns_get, he, returns_pure]

theorem returns_store {i : ℕ} (hi : i < t.event.length) :
    Returns (store i e) t Q ↔ Q ⟨⟩ { t with event := t.event.set i e } := by
  rw [store, returns_bind, returns_get, if_pos hi]
  exact returns_modify (f := fun _ => { t with event := t.event.set i e })

theorem returns_setSize {n : ℕ} : Returns (setSize n) t Q ↔ Q ⟨⟩ { t with size := n } :=
  returns_modify

theorem returns_cmpTimes {x y : NTime} (h : x.Comparable y) {Q : ℤ → Tmr → Prop}
    (hQ : ∀ d : ℤ, (d < 0 ↔ x.Before y) → (0 < d ↔ y.Before x) → Q d t) :
    Returns (cmpTimes x y) t Q := by
  obtain ⟨d, hd, hneg, hpos⟩ := cmpNtime_eq h
  rw [cmpTimes, hd, returns_pure]
  exact hQ d hneg hpos

theorem returns_youngerThan {x y : Event} (h : x.when.Comparable y.when) {Q : Bool → Tmr → Prop} :
    Returns (youngerThan x y) t Q ↔ Q (decide (x.when.Before y.when)) t := by
  obtain ⟨d, hd, hneg, -⟩ := cmpNtime_eq h
  rw [youngerThan, returns_bind, cmpTimes, hd, returns_pure, returns_pure, decide_eq_decide.2 hneg]

theorem returns_callUpdater {old new : ℕ} :
    Returns (callUpdater e old new) t Q ↔ Q ⟨⟩ { t with news := t.news ++ [.report e old new] } :=
  returns_modify

section Steps

variable {ok : NTime → Prop} {t : Tmr} {l : List Entry} {i j : ℕ} {x y : Entry}

theorem Holds.slot (h : Holds ok t l) (hx : l[i]? = some x) : t.event[i]? = some x :=
  h.slots i x (Nat.ne_of_lt (List.getElem?_eq_some_iff.mp hx).1) hx

theorem Holds.take_event (h : Holds ok t l) : t.event.take t.size = l := by
  apply ext_getElem?
  intro j
  rw [getElem?_take]
  split
  · rename_i hj
    rw [h.size] at hj
    have hx : l[j]? = some l[j] := getElem?_eq_getElem hj
    rw [h.slot hx, hx]
  · rename_i hj
    rw [getElem?_eq_none (by rw [← h.size]; omega)]

theorem Holds.position (h : Holds ok t l) : Tracks Entry.id (known t.news) l :=
  fun j x hx => h.tracks j x (Nat.ne_of_lt (List.getElem?_eq_some_iff.mp hx).1) hx

theorem Holds.but (h : Holds ok t l) (i : ℕ) : HoldsBut ok t l i where
  wellFormed := h.wellFormed
  size := h.size
  slots := fun _ _ _ hx => h.slot hx
  times := h.times
  nodup := h.nodup
  accounted := h.accounted
  tracks := fun j x _ hx => h.position j x hx

theorem HoldsBut.lt_event (h : HoldsBut ok t l i) (hx : l[j]? = some x) : j < t.event.length := by
  have hlt := (List.getElem?_eq_some_iff.mp hx).1
  have hsize := h.wellFormed.size_le
  rw [h.wellFormed.block]
  rw [h.size] at hsize
  omega

theorem HoldsBut.ne_invalid (h : HoldsBut ok t l i) (hx : l[j]? = some x) : j ≠ invalidIndex := by
  have hlt := h.lt_event hx
  have hsmall := h.wellFormed.small
  rw [h.wellFormed.block] at hlt
  rw [sizeofEvent] at hsmall
  rw [invalidIndex]
  omega

theorem HoldsBut.mem_ids (_ : HoldsBut ok t l i) (hx : l[j]? = some x) : x.id ∈ l.map Entry.id :=
  mem_map_of_mem (mem_of_getElem? hx)

theorem HoldsBut.fill (h : HoldsBut ok t l i) (x : Entry) :
    HoldsBut ok { t with event := t.event.set i x } l i where
  wellFormed := ⟨h.wellFormed.capa_pos, h.wellFormed.size_le,
    length_set.trans h.wellFormed.block, h.wellFormed.small⟩
  size := h.size
  slots := by
    intro j y hj hy
    rw [getElem?_set_ne hj.symm]
    exact h.slots j y hj hy
  times := h.times
  nodup := h.nodup
  accounted := h.accounted
  tracks := h.tracks

theorem HoldsBut.learn (h : HoldsBut ok t l i) (hx : l[i]? = some x)
    (hslot : t.event[i]? = some x) {n : News} (hid : n.id = x.id) (hindex : n.index = i) :
    Holds ok { t with news := t.news ++ [n] } l where
  wellFormed := ⟨h.wellFormed.capa_pos, h.wellFormed.size_le, h.wellFormed.block,
    h.wellFormed.small⟩
  size := h.size
  slots := by
    intro j y _ hy
    by_cases hj : j = i
    · subst hj
      rw [hx] at hy
      cases hy
      exact hslot
    · exact h.slots j y hj hy
  times := h.times
  nodup := h.nodup
  accounted := h.accounted.learn (hid ▸ h.mem_ids hx) (hindex ▸ h.ne_invalid hx)
  tracks := by
    intro j y _ hy
    rw [known_snoc, hid, hindex]
    exact h.tracks.write h.nodup hx j y hy

theorem HoldsBut.move (h : HoldsBut ok t l i) (hx : l[i]? = some x) (hy : l[j]? = some y)
    (old : ℕ) :
    HoldsBut ok { t with event := t.event.set i y, news := t.news ++ [.report y old i] }
      (exchange l i j x y) j := by
  have hperm : (exchange l i j x y).Perm l := exchange_perm hx hy
  have hnews : Accounted t.next (t.news ++ [.report y old i]) (l.map Entry.id) :=
    h.accounted.learn (n := .report y old i) (h.mem_ids hy) (h.ne_invalid hx)
  refine ⟨⟨h.wellFormed.capa_pos, h.wellFormed.size_le,
    length_set.trans h.wellFormed.block, h.wellFormed.small⟩,
    h.size.trans exchange_length.symm, ?_, fun z hz => h.times z (hperm.mem_iff.mp hz),
    (hperm.map Entry.id).nodup_iff.mpr h.nodup,
    hnews.perm (hperm.map Entry.id), ?_⟩
  · intro k z hk hz
    rw [exchange_getElem? hx hy, if_neg hk] at hz
    by_cases hki : k = i
    · rw [if_pos hki] at hz
      cases hz
      rw [hki, getElem?_set_self (h.lt_event hx)]
    · rw [if_neg hki] at hz
      rw [getElem?_set_ne (Ne.symm hki)]
      exact h.slots k z hki hz
  · rw [known_snoc]
    exact h.tracks.exchange h.nodup hx hy

end Steps

/-- The events `l` are in the heap `l'` but for the entry of the event `x`, which belongs
into the hole at `i`. -/
def Placed (ok : NTime → Prop) (t : Tmr) (l : List Entry) (x : Entry) (i : ℕ) : Prop :=
  ∃ l', l'.Perm l ∧ l'[i]? = some x ∧ HoldsBut ok t l' i ∧ IsHeap Entry.Before l'

def Seated (ok : NTime → Prop) (t : Tmr) (l : List Entry) (x : Entry) (i : ℕ) : Prop :=
  ∃ l', l'.Perm l ∧ l'[i]? = some x ∧ HoldsBut ok t l' i ∧ IsHeap Entry.Before l' ∧
    t.event[i]? = some x

/-- A sift leaves the event `x` at `k`; if a notification is due, its owner knows that. -/
def Sifted (ok : NTime → Prop) (t : Tmr) (l : List Entry) (x : Entry) (i : ℕ) (notify : Bool)
    (k : ℕ) (t' : Tmr) : Prop :=
  t'.next = t.next ∧ Seated ok t' l x k ∧
    (notify = true → known t.news x.id = i → known t'.news x.id = k)

section Sift

variable {ok : NTime → Prop} {t : Tmr} {l : List Entry} {i : ℕ} {x : Entry}

theorem Placed.settle_returns {t0 : Tmr} {oldIndex : ℕ} {notify : Bool}
    (h : Placed ok t l x i) (hnext : t.next = t0.next)
    (hsame : known t.news x.id = known t0.news x.id) :
    Returns (settle x oldIndex notify i) t fun k t' =>
      k = i ∧ Sifted ok t0 l x oldIndex notify k t' := by
  obtain ⟨l', hperm, hx, hholds, hheap⟩ := h
  have hlt := hholds.lt_event hx
  have hslot : (t.event.set i x)[i]? = some x := getElem?_set_self hlt
  rw [settle, returns_bind, returns_store hlt]
  refine returns_ite (fun hnotify => ?_) fun hquiet => ?_
  · rw [returns_bind, returns_callUpdater, returns_pure]
    have hlearn := (hholds.fill x).learn hx hslot (n := .report x oldIndex i) rfl rfl
    refine ⟨rfl, hnext, ⟨l', hperm, hx, hlearn.but i, hheap, hslot⟩, fun _ _ => ?_⟩
    exact hlearn.position i x hx
  · refine returns_pure.mpr ⟨rfl, hnext, ⟨l', hperm, hx, hholds.fill x, hheap, hslot⟩, ?_⟩
    intro hnotify hknown
    have hi : i = oldIndex := by
      by_contra hne
      exact hquiet ⟨hnotify, hne⟩
    exact (hsame.trans hknown).trans hi.symm

variable (hok : ∀ a b, ok a → ok b → a.Comparable b)
include hok

omit hok in
theorem HoldsBut.comparable (h : HoldsBut ok t l i)
    (hok : ∀ a b, ok a → ok b → a.Comparable b) {a b : Entry} (ha : a ∈ l) (hb : b ∈ l) :
    a.event.when.Comparable b.event.when :=
  hok _ _ (h.times a ha) (h.times b hb)

theorem siftUpLoop_returns {fuel : ℕ} (h : HoldsBut ok t l i) (hrise : RiseAt Entry.Before l i)
    (hx : l[i]? = some x) (hi : 0 < i) (hfuel : i ≤ fuel)
    (habove : ∀ y, l[parent i]? = some y → x.Before y) :
    Returns (siftUpLoop x fuel i) t fun k t' =>
      Placed ok t' l x k ∧ t'.next = t.next ∧ known t'.news x.id = known t.news x.id := by
  induction fuel generalizing t l i with
  | zero => omega
  | succ fuel ih =>
    have hp := parent_lt hi
    have hlt := (List.getElem?_eq_some_iff.mp hx).1
    obtain ⟨y, hy⟩ : ∃ y, l[parent i]? = some y :=
      ⟨l[parent i], getElem?_eq_getElem (by omega)⟩
    have hperm : (exchange l i (parent i) x y).Perm l := exchange_perm hx hy
    have hmoved := h.move hx hy (parent i)
    have hrise' := hrise.step entry_strictWeak hi hx hy (habove y hy)
    have hx' : (exchange l i (parent i) x y)[parent i]? = some x := by
      rw [exchange_getElem? hx hy, if_pos rfl]
    have hother : x.id ≠ y.id := by
      intro hid
      have hpi := key_injective h.nodup hx hy hid
      omega
    have hknown : known (t.news ++ [.report y (parent i) i]) x.id = known t.news x.id := by
      rw [known_snoc]
      exact update_of_ne hother _ _
    rw [siftUpLoop, show heapParent i = parent i from rfl, returns_bind,
      returns_load (h.slots (parent i) y (by omega) hy), returns_bind,
      returns_store (h.lt_event hx), returns_bind, returns_callUpdater]
    refine returns_ite (fun hinner => ?_) fun hroot => ?_
    · have hpp := parent_lt hinner
      obtain ⟨z, hz⟩ : ∃ z, (exchange l i (parent i) x y)[parent (parent i)]? = some z := by
        have hlen : parent (parent i) < (exchange l i (parent i) x y).length := by
          rw [exchange_length]
          omega
        exact ⟨_, getElem?_eq_getElem hlen⟩
      have hcmp := hmoved.comparable hok (mem_of_getElem? hx') (mem_of_getElem? hz)
      rw [show heapParent (parent i) = parent (parent i) from rfl, returns_bind,
        returns_load (hmoved.slots _ z (by omega) hz), returns_bind, returns_youngerThan hcmp]
      refine returns_ite (fun hyounger => ?_) fun hnot => ?_
      · refine (ih hmoved hrise' hx' hinner (by omega) ?_).mono ?_
        · intro w hw
          rw [hz] at hw
          cases hw
          exact of_decide_eq_true hyounger
        · rintro k t' ⟨⟨l', hperm', hplaced⟩, hnext, hsame⟩
          exact ⟨⟨l', hperm'.trans hperm, hplaced⟩, hnext, hsame.trans hknown⟩
      · have hstop := hrise'.stop_at hx' hz fun hbefore => hnot (decide_eq_true hbefore)
        exact returns_pure.mpr ⟨⟨_, hperm, hx', hmoved, hstop⟩, rfl, hknown⟩
    · refine returns_pure.mpr ⟨⟨_, hperm, hx', hmoved, hrise'.stop fun hpos => ?_⟩, rfl, hknown⟩
      exact absurd hpos hroot

theorem siftUp_returns (h : HoldsBut ok t l i) (hx : l[i]? = some x)
    (hslot : t.event[i]? = some x) (hrise : RiseAt Entry.Before l i) (notify : Bool) :
    Returns (siftUp i notify) t fun k t' => Sifted ok t l x i notify k t' := by
  have hstay : IsHeap Entry.Before l → Sifted ok t l x i notify i t := fun hheap =>
    ⟨rfl, ⟨l, List.Perm.refl l, hx, h, hheap, hslot⟩, fun _ hknown => hknown⟩
  have hi := (List.getElem?_eq_some_iff.mp hx).1
  rw [siftUp]
  refine returns_ite (fun hpos => ?_) fun hzero => ?_
  · have hp := parent_lt hpos
    have hy : l[parent i]? = some l[parent i] := getElem?_eq_getElem (by omega)
    have hcmp := h.comparable hok (mem_of_getElem? hx) (mem_of_getElem? hy)
    rw [returns_bind, returns_load hslot, returns_bind, show heapParent i = parent i from rfl,
      returns_load (h.slots _ _ (by omega) hy), returns_bind, returns_youngerThan hcmp]
    refine returns_ite (fun hyounger => ?_) fun hnot => ?_
    · rw [returns_bind]
      refine (siftUpLoop_returns hok h hrise hx hpos (Nat.le_refl i) ?_).mono ?_
      · intro y hy'
        rw [hy] at hy'
        cases hy'
        exact of_decide_eq_true hyounger
      · rintro k t' ⟨hplaced, hnext, hsame⟩
        exact (hplaced.settle_returns hnext hsame).mono fun _ _ h' => h'.2
    · have hstop := hrise.stop_at hx hy fun hbefore => hnot (decide_eq_true hbefore)
      exact returns_pure.mpr (hstay hstop)
  · exact returns_pure.mpr (hstay (hrise.stop fun hpos => absurd hpos hzero))

/-! ### Downwards -/

theorem siftChild_returns (h : HoldsBut ok t l i) (hbase : i < l.length / 2) :
    Returns (siftChild i) t fun c t' => t' = t ∧ FirstChild Entry.Before l i c := by
  have hlchild : heapLeft i = 2 * i + 1 := by rw [heapLeft, Nat.mul_comm]
  have hrchild : heapRight i = 2 * i + 2 := by rw [heapRight, Nat.mul_comm]
  have hleft : l[2 * i + 1]? = some l[2 * i + 1] := getElem?_eq_getElem (by omega)
  rw [siftChild, hlchild, hrchild, returns_bind, returns_get, h.size]
  refine returns_ite (fun hright => ?_) fun hlast => ?_
  · have hr : l[2 * i + 2]? = some l[2 * i + 2] := getElem?_eq_getElem hright
    have hcmp := h.comparable hok (mem_of_getElem? hr) (mem_of_getElem? hleft)
    rw [returns_bind, returns_load (h.slots _ _ (by omega) hr), returns_bind,
      returns_load (h.slots _ _ (by omega) hleft), returns_bind, returns_youngerThan hcmp,
      returns_pure]
    split
    · rename_i hyounger
      exact ⟨rfl, .right entry_strictWeak hleft hr (of_decide_eq_true hyounger)⟩
    · rename_i hnot
      refine ⟨rfl, .left entry_strictWeak hleft fun z hz => ?_⟩
      cases hr.symm.trans hz
      exact fun hbefore => hnot (decide_eq_true hbefore)
  · refine returns_pure.mpr ⟨rfl, .left entry_strictWeak hleft fun z hz => ?_⟩
    exact absurd (List.getElem?_eq_some_iff.mp hz).1 hlast

theorem siftDownLoop_returns {fuel : ℕ} (h : HoldsBut ok t l i)
    (hsink : SinkAt Entry.Before l i) (hx : l[i]? = some x) (hbase : i < l.length / 2)
    (hfuel : l.length ≤ i + fuel) :
    Returns (siftDownLoop x (l.length / 2) fuel i) t fun k t' =>
      Placed ok t' l x k ∧ t'.next = t.next ∧ known t'.news x.id = known t.news x.id := by
  induction fuel generalizing t l i with
  | zero => omega
  | succ fuel ih =>
    rw [siftDownLoop, returns_bind]
    refine (siftChild_returns hok h hbase).mono ?_
    rintro c t1 ⟨hsame, hchild⟩
    obtain rfl : t = t1 := hsame.symm
    have hp := parent_lt hchild.pos
    rw [hchild.above] at hp
    obtain ⟨y, hy⟩ : ∃ y, l[c]? = some y := ⟨_, getElem?_eq_getElem hchild.lt⟩
    have hcmp := h.comparable hok (mem_of_getElem? hx) (mem_of_getElem? hy)
    rw [returns_bind, returns_load (h.slots c _ (by omega) hy), returns_bind,
      returns_youngerThan hcmp]
    refine returns_ite (fun hyounger => ?_) fun hnot => ?_
    · have hstop := hsink.stop_first entry_strictWeak hchild hx hy (of_decide_eq_true hyounger)
      exact returns_pure.mpr ⟨⟨l, List.Perm.refl l, hx, h, hstop⟩, rfl, rfl⟩
    · have hmoved := h.move hx hy c
      have hperm : (exchange l i c x y).Perm l := exchange_perm hx hy
      have hlen : (exchange l i c x y).length = l.length := exchange_length
      have hx' : (exchange l i c x y)[c]? = some x := by
        rw [exchange_getElem? hx hy, if_pos rfl]
      have hother : x.id ≠ y.id := by
        intro hid
        have hic := key_injective h.nodup hx hy hid
        omega
      have hknown : known (t.news ++ [.report y c i]) x.id = known t.news x.id := by
        rw [known_snoc]
        exact update_of_ne hother _ _
      have hsink' := hsink.step hchild hx hy fun hbefore => hnot (decide_eq_true hbefore)
      rw [returns_bind, returns_store (h.lt_event hx), returns_bind, returns_callUpdater]
      refine returns_ite (fun hagain => ?_) fun hend => ?_
      · rw [← hlen] at hagain ⊢
        refine (ih hmoved hsink' hx' hagain (by omega)).mono ?_
        rintro k t' ⟨⟨l', hperm', hplaced⟩, hnext, hsame'⟩
        exact ⟨⟨l', hperm'.trans hperm, hplaced⟩, hnext, hsame'.trans hknown⟩
      · have hstop := hsink'.stop_leaf (by omega)
        exact returns_pure.mpr ⟨⟨_, hperm, hx', hmoved, hstop⟩, rfl, hknown⟩

theorem siftDown_returns (h : HoldsBut ok t l i) (hx : l[i]? = some x)
    (hslot : t.event[i]? = some x) (hsink : SinkAt Entry.Before l i) (notify : Bool) :
    Returns (siftDown i notify) t fun k t' => Sifted ok t l x i notify k t' := by
  rw [siftDown, returns_bind, returns_get, h.size]
  refine returns_ite (fun hbase => ?_) fun hleaf => ?_
  · rw [returns_bind, returns_load hslot, returns_bind]
    refine (siftDownLoop_returns hok h hsink hx hbase (by omega)).mono ?_
    rintro k t' ⟨hplaced, hnext, hsame⟩
    exact (hplaced.settle_returns hnext hsame).mono fun _ _ h' => h'.2
  · have hstop := hsink.stop_leaf (by omega)
    exact returns_pure.mpr ⟨rfl, ⟨l, List.Perm.refl l, hx, h, hstop, hslot⟩, fun _ hknown => hknown⟩

theorem sift_returns {y : Entry} {l₀ : List Entry} (hheap : IsHeap Entry.Before l₀)
    (hy : l₀[i]? = some y) (h : HoldsBut ok t (l₀.set i x) i) (hslot : t.event[i]? = some x)
    (notify : Bool) :
    Returns (sift (decide (x.Before y)) i notify) t fun k t' =>
      Sifted ok t (l₀.set i x) x i notify k t' := by
  have hi := (List.getElem?_eq_some_iff.mp hy).1
  have hx : (l₀.set i x)[i]? = some x := getElem?_set_self hi
  rw [sift]
  refine returns_ite (fun hyes => ?_) fun hno => ?_
  · have hrise := hheap.set_rise entry_strictWeak hy (of_decide_eq_true hyes)
    exact siftUp_returns hok h hx hslot hrise notify
  · have hsink := hheap.set_sink entry_strictWeak hy fun hbefore => hno (decide_eq_true hbefore)
    exact siftDown_returns hok h hx hslot hsink notify

end Sift

end Tmr

end Qse
