import Mathlib.Data.List.TakeWhile
import Mathlib.Tactic.Linarith
import Qse.Rad.Model
import Qse.Support.LaidOut

/-!
# Lists of attributes

A message stands for a list of attributes, which are laid out one behind the other. The functions
that find and visit attributes do that with the list.
-/

open List

namespace Qse.Rad

open ByteMemory

structure Attr where
  type : UInt8
  value : List UInt8
  fits : value.length ≤ maxAttrValueLen

namespace Attr

def size (a : Attr) : ℕ := a.value.length + attrHdrSize

def bytes (a : Attr) : List UInt8 := a.type :: .ofNat a.size :: a.value

def vsOk (a : Attr) : Bool := 6 ≤ a.value.length ∧ a.value.getD 5 0 = .ofNat (a.value.length - 4)

def vendor (a : Attr) : ℕ := (a.value.take 4).foldl (fun v byte => v * 256 + byte.toNat) 0

def isVs (vendor : UInt32) (type : UInt8) (a : Attr) : Bool :=
  a.type = vendorSpecific ∧ a.vsOk ∧ a.vendor = vendor.toNat ∧ a.value.getD 4 0 = type

end Attr

def sizes (as : List Attr) : ℕ := (as.map Attr.size).sum

def encode (as : List Attr) : List UInt8 := as.flatMap Attr.bytes

def Laid (m : Mem) (p : ℕ) (as : List Attr) : Prop := read m p (sizes as) = encode as

def positions (has : Attr → Bool) : ℕ → List Attr → List ℕ
  | _, [] => []
  | p, a :: as =>
    if has a then p :: positions has (p + a.size) as else positions has (p + a.size) as

def visits : ℕ → List Attr → List (ℕ × ℕ)
  | _, [] => []
  | p, a :: as =>
    (if a.type = vendorSpecific then (a.vendor, p + 6) else (0, p)) :: visits (p + a.size) as

def callWalker {S : Type} (walker : S → ℕ → ℕ → S × Bool) (s : S) : List (ℕ × ℕ) → S × Bool
  | [] => (s, true)
  | (vendor, attr) :: more =>
    if (walker s vendor attr).2 = false then walker s vendor attr
    else callWalker walker (walker s vendor attr).1 more

variable {m m' : Mem} {p : ℕ} {a : Attr} {as bs : List Attr} {type : UInt8}

theorem length_bytes (a : Attr) : a.bytes.length = a.size := rfl

theorem size_le (a : Attr) : a.size ≤ 255 := Nat.add_le_add_right a.fits 2

theorem sizes_cons (a : Attr) (as : List Attr) : sizes (a :: as) = a.size + sizes as :=
  @LaidOut.sizes_cons _ Attr.bytes a as

theorem sizes_append (as bs : List Attr) : sizes (as ++ bs) = sizes as + sizes bs :=
  @LaidOut.sizes_append _ Attr.bytes as bs

theorem length_le_sizes (as : List Attr) : as.length ≤ sizes as := by
  induction as with
  | nil => exact le_rfl
  | cons a as ih =>
    have hsize : a.size = a.value.length + 2 := rfl
    rw [sizes_cons, length_cons]
    omega

theorem laid_append : Laid m p (as ++ bs) ↔ Laid m p as ∧ Laid m (p + sizes as) bs :=
  @LaidOut.laid_append _ Attr.bytes _ _ _ _

theorem laid_cons : Laid m p (a :: as) ↔ read m p a.size = a.bytes ∧ Laid m (p + a.size) as :=
  @LaidOut.laid_cons _ Attr.bytes _ _ _ _

theorem positions_append (has : Attr → Bool) (p : ℕ) (as bs : List Attr) :
    positions has p (as ++ bs) = positions has p as ++ positions has (p + sizes as) bs := by
  induction as generalizing p with
  | nil => rfl
  | cons a as ih =>
    have hmore := ih (p + a.size)
    rw [add_assoc, ← sizes_cons] at hmore
    rw [cons_append, positions, positions, hmore]
    split <;> rfl

theorem length_positions (has : Attr → Bool) (p : ℕ) (as : List Attr) :
    (positions has p as).length = (as.filter has).length := by
  induction as generalizing p with
  | nil => rfl
  | cons a as ih =>
    rw [positions, filter_cons]
    split
    · rw [length_cons, length_cons, ih]
    · exact ih _

theorem laid_congr (h : ∀ i, p ≤ i → i < p + sizes as → m' i = m i) (hlaid : Laid m p as) :
    Laid m' p as := (read_congr h).trans hlaid

section One

variable (h : read m p a.size = a.bytes)

include h

theorem bytes_eq : m p = a.type ∧ m (p + 1) = .ofNat a.size ∧
    read m (p + 2) a.value.length = a.value := by
  have hsize : a.size = a.value.length + 1 + 1 := rfl
  rw [hsize, read_succ, read_succ] at h
  obtain ⟨htype, htail⟩ := List.cons.inj h
  obtain ⟨hlength, hvalue⟩ := List.cons.inj htail
  exact ⟨htype, hlength, hvalue⟩

theorem attrType_eq : attrType m p = a.type := (bytes_eq h).1

theorem attrLength_eq : attrLength m p = a.size := by
  have hle := size_le a
  rw [attrLength, (bytes_eq h).2.1, UInt8.toNat_ofNat']
  exact Nat.mod_eq_of_lt (by omega)

theorem read_value : read m (p + 2) a.value.length = a.value := (bytes_eq h).2.2

theorem value_byte {i : ℕ} (hi : i < a.value.length) : m (p + 2 + i) = a.value.getD i 0 := by
  have hvalue := congrArg (fun bytes => bytes.getD i 0) (read_value h)
  simpa [ByteMemory.read, hi] using hvalue

theorem vsLengthOk_eq : vsLengthOk m p = a.vsOk := by
  have hle := size_le a
  have hsize : a.size = a.value.length + 2 := rfl
  rw [vsLengthOk, Attr.vsOk, attrLength_eq h, vsattrHdrSize, attrHdrSize]
  by_cases hlong : 6 ≤ a.value.length
  · have hbyte := value_byte h (i := 5) (by omega)
    rw [decide_eq_decide, attrLength, hbyte, ← UInt8.toNat_inj, UInt8.toNat_ofNat',
      Nat.mod_eq_of_lt (by omega)]
    omega
  · rw [decide_eq_decide]
    omega

theorem vsVendor_eq (hlong : 6 ≤ a.value.length) : vsVendor m p = a.vendor := by
  have hcut : a.value.length = 4 + (a.value.length - 4) := by omega
  have hvalue := read_value h
  rw [hcut, read_add] at hvalue
  have hfour : a.value.take 4 = read m (p + 2) 4 := by
    rw [← hvalue]
    exact take_left' (length_read ..)
  rw [vsVendor, ntoh, Attr.vendor, hfour]

theorem isVs_eq {vendor : UInt32} (htype : a.type = vendorSpecific) :
    decide (vsLengthOk m p ∧ vsVendor m p = vendor.toNat ∧ attrType m (p + 6) = type) =
      a.isVs vendor type := by
  rw [Attr.isVs, vsLengthOk_eq h, decide_eq_decide]
  by_cases hok : a.vsOk = true
  · have hlong : 6 ≤ a.value.length := by
      rw [Attr.vsOk, decide_eq_true_iff] at hok
      exact hok.1
    have hbyte : attrType m (p + 6) = a.value.getD 4 0 := value_byte h (i := 4) (by omega)
    rw [vsVendor_eq h hlong, hbyte]
    exact (and_iff_right htype).symm
  · exact iff_of_false (fun hall => hok hall.1) fun hall => hok hall.2.1

end One

theorem laid_unique (has : Laid m p as) (hbs : Laid m p bs) (hlength : as.length = bs.length) :
    as = bs := by
  induction as generalizing p bs with
  | nil => exact (length_eq_zero_iff.1 hlength.symm).symm
  | cons a as ih =>
    cases bs with
    | nil => cases hlength
    | cons b bs =>
      obtain ⟨ha, has⟩ := laid_cons.1 has
      obtain ⟨hb, hbs⟩ := laid_cons.1 hbs
      have hsize : a.size = b.size := (attrLength_eq ha).symm.trans (attrLength_eq hb)
      have hvalue : a.value = b.value := by
        have hlen : a.value.length = b.value.length := Nat.add_right_cancel hsize
        rw [← read_value ha, ← read_value hb, hlen]
      have htype : a.type = b.type := (attrType_eq ha).symm.trans (attrType_eq hb)
      have hhead : a = b := by
        cases a
        cases b
        congr
      rw [hsize] at has
      rw [hhead, ih has hbs (Nat.succ_injective hlength)]

/-- No attribute is read at an address with so many bytes left: there is no room for a header, or
the length in it is one that an attribute cannot have. -/
def Ends (m : Mem) (p rem : ℕ) : Prop :=
  rem < attrHdrSize ∨ rem < attrLength m p ∨ attrLength m p < attrHdrSize

theorem ends_zero (m : Mem) (p : ℕ) : Ends m p 0 := .inl (by decide)

def located (gives hit : Attr → Bool) (rem : ℕ) : ℕ → List Attr → Option (ℕ × ℕ)
  | _, [] => none
  | p, a :: as =>
    if gives a then none
    else if hit a then some (p, sizes as + rem)
    else located gives hit rem (p + a.size) as

def before (gives : Attr → Bool) (as : List Attr) : List Attr := as.takeWhile fun a => !gives a

theorem before_of_none {gives : Attr → Bool} (h : ∀ a ∈ as, gives a = false) :
    before gives as = as := by
  refine takeWhile_eq_self_iff.2 fun a ha => ?_
  rw [h a ha]
  rfl

variable {rem fuel : ℕ}

theorem loop_eq {loop body : ℕ → ℕ → ℕ → Option (ℕ × ℕ)} {gives hit : Attr → Bool}
    (hzero : ∀ p rem, loop 0 p rem = none) (hstep : ∀ fuel p rem, loop (fuel + 1) p rem =
      if rem < attrHdrSize then none else if rem < attrLength m p then none
      else if attrLength m p < attrHdrSize then none else body fuel p rem)
    (hbody : ∀ fuel p rem a, read m p a.size = a.bytes → body fuel p rem =
      if gives a then none else if hit a then some (p, rem - a.size)
      else loop fuel (p + a.size) (rem - a.size))
    (hlaid : Laid m p as) (hends : Ends m (p + sizes as) rem) (hfuel : sizes as + rem ≤ fuel) :
    loop fuel p (sizes as + rem) = located gives hit rem p as := by
  induction as generalizing p fuel with
  | nil =>
    have hnil : sizes [] = 0 := rfl
    rw [hnil, add_zero] at hends
    rw [hnil, zero_add]
    cases fuel with
    | zero => exact hzero p rem
    | succ fuel =>
      rw [hstep, located]
      by_cases hroom : rem < attrHdrSize
      · rw [if_pos hroom]
      · rw [if_neg hroom]
        by_cases hlong : rem < attrLength m p
        · rw [if_pos hlong]
        · rw [if_neg hlong, if_pos ((hends.resolve_left hroom).resolve_left hlong)]
  | cons a as ih =>
    obtain ⟨hbytes, hrest⟩ := laid_cons.1 hlaid
    have hsize : a.size = a.value.length + 2 := rfl
    have hsizes := sizes_cons a as
    rw [hsizes, ← add_assoc] at hends
    cases fuel with
    | zero => omega
    | succ fuel =>
      have hrem : sizes (a :: as) + rem - a.size = sizes as + rem := by omega
      rw [hstep, attrLength_eq hbytes, attrHdrSize, if_neg (by omega), if_neg (by omega),
        if_neg (by omega), hbody fuel p _ a hbytes, hrem, ih hrest hends (by omega), located]

theorem findLoop_eq (type : UInt8) (hlaid : Laid m p as) (hends : Ends m (p + sizes as) rem)
    (hfuel : sizes as + rem ≤ fuel) :
    findLoop m type fuel p (sizes as + rem) =
      located (fun _ => false) (fun a => a.type = type) rem p as := by
  refine loop_eq (fun _ _ => rfl) (fun _ _ _ => rfl)
    (fun fuel p rem a hbytes => ?_) hlaid hends hfuel
  rw [attrLength_eq hbytes, attrType_eq hbytes]
  simp only [Bool.false_eq_true, if_false, decide_eq_true_eq]

/-- The loop of a function that finds an attribute with an index, for any search for the next
one -/
def findNthBy (m : Mem) (search : ℕ → ℕ → Option (ℕ × ℕ)) (counts : ℕ → Bool) :
    ℕ → Option (ℕ × ℕ) → ℤ → Option ℕ
  | 0, _, _ => none
  | _ + 1, none, _ => none
  | fuel + 1, some (attr, len), index =>
    let next := search (attr + attrLength m attr) len
    if counts attr then
      if index ≤ 0 then some attr else findNthBy m search counts fuel next (index - 1)
    else findNthBy m search counts fuel next index

theorem findNth_eq_by (m : Mem) (type : UInt8) (counts : ℕ → Bool) (fuel : ℕ)
    (start : Option (ℕ × ℕ)) (index : ℤ) : findNth m type counts fuel start index =
      findNthBy m (fun attr len => findAttr m attr len type) counts fuel start index := by
  induction fuel generalizing start index with
  | zero => rfl
  | succ fuel ih =>
    cases start with
    | none => rfl
    | some start => simp only [findNth, findNthBy, ih]

section Nth

variable {gives hit has : Attr → Bool} {counts : ℕ → Bool} {rem : ℕ}

theorem findNthBy_eq (search : ℕ → ℕ → Option (ℕ × ℕ))
    (hsearch : ∀ p as, Laid m p as → Ends m (p + sizes as) rem →
      search p (sizes as + rem) = located gives hit rem p as)
    (hcounts : ∀ p a, read m p a.size = a.bytes → gives a = false → hit a = true → counts p = has a)
    (hhit : ∀ a, has a = true → hit a = true) (hlaid : Laid m p as)
    (hends : Ends m (p + sizes as) rem) {fuel : ℕ} (hfuel : as.length ≤ fuel) (index : ℤ) :
    findNthBy m search counts fuel (search p (sizes as + rem)) index =
      (positions has p (before gives as))[index.toNat]? := by
  induction as generalizing p fuel index with
  | nil =>
    rw [hsearch p [] hlaid hends]
    cases fuel with
    | zero => rfl
    | succ fuel => rfl
  | cons a as ih =>
    obtain ⟨hbytes, hrest⟩ := laid_cons.1 hlaid
    have hends' : Ends m (p + a.size + sizes as) rem := by
      rwa [sizes_cons, ← add_assoc] at hends
    rw [hsearch p (a :: as) hlaid hends, located, before, takeWhile_cons]
    by_cases hgives : gives a = true
    · rw [if_pos hgives, hgives]
      cases fuel with
      | zero | succ fuel => rfl
    have hgoes : gives a = false := Bool.eq_false_iff.2 hgives
    rw [if_neg hgives, hgoes, Bool.not_false, if_pos rfl, positions, ← before]
    by_cases hhere : hit a = true
    · rw [if_pos hhere]
      cases fuel with
      | zero => cases hfuel
      | succ fuel =>
        have hmore := fun index => ih hrest hends' (Nat.le_of_succ_le_succ hfuel) index
        rw [findNthBy, attrLength_eq hbytes, hcounts p a hbytes hgoes hhere]
        by_cases hhas : has a = true
        · rw [if_pos hhas, if_pos hhas]
          by_cases hindex : index ≤ 0
          · have hzero : index.toNat = 0 := by omega
            rw [if_pos hindex, hzero]
            rfl
          · have hsucc : index.toNat = (index - 1).toNat + 1 := by omega
            rw [if_neg hindex, hsucc, getElem?_cons_succ]
            exact hmore (index - 1)
        · rw [if_neg hhas, if_neg hhas]
          exact hmore index
    · have hhas : has a = false := Bool.eq_false_iff.2 fun h => hhere (hhit a h)
      rw [if_neg hhere, hhas, ← hsearch (p + a.size) as hrest hends']
      exact ih hrest hends' (Nat.le_of_succ_le hfuel) index

end Nth

theorem findNth_eq {counts : ℕ → Bool} {has : Attr → Bool}
    (hcounts : ∀ p a, read m p a.size = a.bytes → a.type = type → counts p = has a)
    (htype : ∀ a, has a = true → a.type = type) (hlaid : Laid m p as)
    (hends : Ends m (p + sizes as) rem) (hfuel : as.length ≤ fuel) (index : ℤ) :
    findNth m type counts fuel (findAttr m p (sizes as + rem) type) index =
      (positions has p as)[index.toNat]? := by
  have hsearch : ∀ p as, Laid m p as → Ends m (p + sizes as) rem →
      findAttr m p (sizes as + rem) type =
        located (fun _ => false) (fun a => a.type = type) rem p as :=
    fun p as hlaid hends => findLoop_eq type hlaid hends le_rfl
  have hnth := findNthBy_eq (fun attr len => findAttr m attr len type) hsearch
    (fun p a hbytes _ hhere => hcounts p a hbytes (of_decide_eq_true hhere))
    (fun a hhas => decide_eq_true (htype a hhas)) hlaid hends hfuel index
  rw [findNth_eq_by, hnth, before_of_none fun _ _ => rfl]

theorem walkLoop_eq {S : Type} (walker : S → ℕ → ℕ → S × Bool) (hlaid : Laid m p as)
    (hvs : ∀ a ∈ as, a.type = vendorSpecific → a.vsOk = true) (hrem : rem < attrHdrSize)
    (hfuel : as.length < fuel) (s : S) :
    walkLoop m walker fuel p (sizes as + rem) s = callWalker walker s (visits p as) := by
  induction as generalizing p fuel s with
  | nil =>
    have hnil : sizes [] + rem = rem := zero_add rem
    cases fuel with
    | zero => rfl
    | succ fuel =>
      rw [hnil, walkLoop, if_pos hrem]
      rfl
  | cons a as ih =>
    obtain ⟨hbytes, hrest⟩ := laid_cons.1 hlaid
    have hsize : a.size = a.value.length + 2 := rfl
    have hsizes := sizes_cons a as
    have hrest' : sizes (a :: as) + rem - a.size = sizes as + rem := by omega
    cases fuel with
    | zero => cases hfuel
    | succ fuel =>
      have hok : ¬(a.type = vendorSpecific ∧ a.vsOk = false) := by
        rintro ⟨htype, hbad⟩
        rw [hvs a (mem_cons_self ..) htype] at hbad
        cases hbad
      have hmore := fun s => ih hrest (fun b hb => hvs b (mem_cons_of_mem a hb))
        (Nat.lt_of_succ_lt_succ hfuel) s
      rw [walkLoop, attrLength_eq hbytes, attrType_eq hbytes, vsLengthOk_eq hbytes,
        attrHdrSize, if_neg (by omega), if_neg (by omega), if_neg (by omega), if_neg hok,
        hrest']
      simp only [visits, hmore]
      by_cases htype : a.type = vendorSpecific
      · have hvendor : vsVendor m p = a.vendor := by
          have hgood := hvs a (mem_cons_self ..) htype
          rw [Attr.vsOk, decide_eq_true_iff] at hgood
          exact vsVendor_eq hbytes hgood.1
        rw [if_pos htype, if_pos htype, hvendor, callWalker]
      · rw [if_neg htype, if_neg htype, callWalker]

end Qse.Rad
