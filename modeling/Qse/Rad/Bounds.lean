import Qse.Rad.Messages

/-!
# Reads and writes within a buffer

The functions that find, visit and delete attributes, once more, for a message in a buffer of a
known size, outside of which nothing is read or written.
-/

open Function Option Option

namespace Qse.Rad.Checked

open ByteMemory

/-! ## The functions -/

/-- `qse_ntoh16` and `qse_ntoh32` -/
def ntoh (m : Mem) (n a k : ℕ) : Option ℕ := if a + k ≤ n then some (Rad.ntoh m a k) else none

def hdrLength (m : Mem) (n : ℕ) : Option ℕ := ntoh m n 2 2

def attrLength (m : Mem) (n attr : ℕ) : Option ℕ := (readByte m n (attr + 1)).map UInt8.toNat

/-- The loop of `find_attribute` -/
def findLoop (m : Mem) (n : ℕ) (type : UInt8) : ℕ → ℕ → ℕ → Option (Option (ℕ × ℕ))
  | 0, _, _ => none
  | fuel + 1, attr, rem =>
    if rem < attrHdrSize then some none
    else do
      let length ← attrLength m n attr
      if rem < length then some none
      else if length < attrHdrSize then some none
      else do
        let attrtype ← readByte m n attr
        if attrtype = type then some (some (attr, rem - length))
        else findLoop m n type fuel (attr + length) (rem - length)

/-- `find_attribute` -/
def findAttr (m : Mem) (n : ℕ) (type : UInt8) (attr len : ℕ) : Option (Option (ℕ × ℕ)) :=
  findLoop m n type (len + 1) attr len

/-- The loop of `find_extended_attribute` -/
def findExtendedLoop (m : Mem) (n : ℕ) (xtype attrtype : UInt8) :
    ℕ → ℕ → ℕ → Option (Option (ℕ × ℕ))
  | 0, _, _ => none
  | fuel + 1, attr, rem =>
    if rem < attrHdrSize then some none
    else do
      let length ← attrLength m n attr
      if rem < length then some none
      else if length < attrHdrSize then some none
      else do
        let type ← readByte m n attr
        if type = xtype then
          if length < extendedHdrSize xtype then some none
          else do
            let xattrtype ← readByte m n (attr + 2)
            if xattrtype = attrtype then some (some (attr, rem - length))
            else findExtendedLoop m n xtype attrtype fuel (attr + length) (rem - length)
        else findExtendedLoop m n xtype attrtype fuel (attr + length) (rem - length)

/-- `find_extended_attribute` -/
def findExtendedAttr (m : Mem) (n : ℕ) (xtype attrtype : UInt8) (attr len : ℕ) :
    Option (Option (ℕ × ℕ)) :=
  findExtendedLoop m n xtype attrtype (len + 1) attr len

def findNthBy (m : Mem) (n : ℕ) (search : ℕ → ℕ → Option (Option (ℕ × ℕ)))
    (counts : ℕ → Option Bool) : ℕ → Option (ℕ × ℕ) → ℤ → Option (Option ℕ)
  | 0, _, _ => none
  | _ + 1, none, _ => some none
  | fuel + 1, some (attr, len), index => do
    let counted ← counts attr
    if counted ∧ index ≤ 0 then some (some attr)
    else do
      let length ← attrLength m n attr
      let next ← search (attr + length) len
      findNthBy m n search counts fuel next (if counted then index - 1 else index)

def find (m : Mem) (n : ℕ) (search : ℕ → ℕ → Option (Option (ℕ × ℕ)))
    (counts : ℕ → Option Bool) (index : ℤ) : Option (Option ℕ) := do
  let length ← hdrLength m n
  if hdrSize ≤ length then do
    let start ← search hdrSize (length - hdrSize)
    findNthBy m n search counts (length + 1) start index
  else some none

def findAttribute (m : Mem) (n : ℕ) (type : UInt8) (index : ℤ) : Option (Option ℕ) :=
  find m n (findAttr m n type) (fun _ => some true) index

def findExtendedAttribute (m : Mem) (n : ℕ) (xtype attrtype : UInt8) (index : ℤ) :
    Option (Option ℕ) :=
  if isExtended xtype then find m n (findExtendedAttr m n xtype attrtype) (fun _ => some true) index
  else some none

/-- Whether an attribute is one of the vendor and the type, where the vendor is at `vendorAt`, the
type at `typeAt`, and the length of the attribute of the vendor at `lengthAt`. Its own header has
`vsSize` bytes, and with the one around it there are `size`. -/
def isVendors (m : Mem) (n : ℕ) (vendor : UInt32) (type : UInt8)
    (vendorAt typeAt lengthAt size vsSize attr : ℕ) : Option Bool := do
  let length ← attrLength m n attr
  if size ≤ length then do
    let number ← ntoh m n (attr + vendorAt) 4
    if number = vendor.toNat then do
      let attrtype ← readByte m n (attr + typeAt)
      if attrtype = type then do
        let vsLength ← readByte m n (attr + lengthAt)
        some (vsLength.toNat = length - size + vsSize)
      else some false
    else some false
  else some false

def findVsattr (m : Mem) (n : ℕ) (vendor : UInt32) (type : UInt8) (index : ℤ) : Option (Option ℕ) :=
  find m n (findAttr m n vendorSpecific)
    (isVendors m n vendor type 2 6 7 vsattrHdrSize attrHdrSize) index

def findExtendedVsattr (m : Mem) (n : ℕ) (vendor : UInt32) (xtype attrtype : UInt8) (index : ℤ) :
    Option (Option ℕ) :=
  if isExtended xtype then
    find m n (findExtendedAttr m n xtype vendorSpecific)
      (if isLongExtended xtype then
        isVendors m n vendor attrtype 3 7 9 lxvsattrHdrSize lxvsSize
      else isVendors m n vendor attrtype 3 7 8 xvsattrHdrSize xvsSize)
      index
  else some none

/-- The loop of `qse_rad_walk_attributes`, where what the walker reads is not counted -/
def walkLoop {S : Type} (m : Mem) (n : ℕ) (walker : S → ℕ → ℕ → S × Bool) :
    ℕ → ℕ → ℕ → S → Option (S × Bool)
  | 0, _, _, _ => none
  | fuel + 1, attr, rem, s =>
    if rem < attrHdrSize then some (s, true)
    else do
      let length ← attrLength m n attr
      if rem < length then some (s, false)
      else if length < attrHdrSize then some (s, false)
      else do
        let type ← readByte m n attr
        if type = vendorSpecific then
          if length < vsattrHdrSize then some (s, false)
          else do
            let vsLength ← attrLength m n (attr + 6)
            if vsLength ≠ length - vsattrHdrSize + attrHdrSize then some (s, false)
            else do
              let vendor ← ntoh m n (attr + 2) 4
              let called := walker s vendor (attr + 6)
              if called.2 = false then some called
              else walkLoop m n walker fuel (attr + length) (rem - length) called.1
        else
          let called := walker s 0 attr
          if called.2 = false then some called
          else walkLoop m n walker fuel (attr + length) (rem - length) called.1

def walkAttributes {S : Type} (m : Mem) (n : ℕ) (walker : S → ℕ → ℕ → S × Bool) (s : S) :
    Option (S × Bool) := do
  let length ← hdrLength m n
  if length < hdrSize then some (s, false)
  else walkLoop m n walker (length + 1) hdrSize (length - hdrSize) s

def copyForward (m : Mem) (n d s : ℕ) : ℕ → Option Mem
  | 0 => some m
  | k + 1 => do
    let b ← readByte m n s
    let m ← writeByte m n d b
    copyForward m n (d + 1) (s + 1) k

/-- `hdr->length = qse_hton16(len)` -/
def setHdrLength (m : Mem) (n len : ℕ) : Option Mem := do
  let m ← writeByte m n 2 (.ofNat (len / 256))
  writeByte m n 3 (.ofNat len)

/-- `delete_attribute` -/
def deleteAttr (m : Mem) (n attr : ℕ) : Option (Mem × ℤ) := do
  let authLen ← hdrLength m n
  let length ← attrLength m n attr
  let tmpLen := (attr + length) % 65536
  if authLen < tmpLen then some (m, -1)
  else do
    let m ← copyForward m n attr (attr + length) (authLen - tmpLen)
    let length ← attrLength m n attr
    let m ← setHdrLength m n ((authLen + 65536 - length) % 65536)
    some (m, 0)

def deleteFound (m : Mem) (n : ℕ) : Option ℕ → Option (Mem × ℤ)
  | none => some (m, 0)
  | some attr => do
    let deleted ← deleteAttr m n attr
    some (deleted.1, if deleted.2 ≤ -1 then -1 else 1)

def deleteAttribute (m : Mem) (n : ℕ) (type : UInt8) (index : ℤ) : Option (Mem × ℤ) := do
  let found ← findAttribute m n type index
  deleteFound m n found

def deleteVendorSpecificAttribute (m : Mem) (n : ℕ) (vendor : UInt32) (type : UInt8)
    (_index : ℤ) : Option (Mem × ℤ) := do
  let found ← findVsattr m n vendor type 0
  deleteFound m n found

def deleteExtendedVendorSpecificAttribute (m : Mem) (n : ℕ) (vendor : UInt32)
    (xtype attrtype : UInt8) (_index : ℤ) : Option (Mem × ℤ) := do
  let found ← findExtendedVsattr m n vendor xtype attrtype 0
  deleteFound m n found

/-! ## Reads that are within the buffer -/

variable {m : Mem} {n a k : ℕ} {type xtype attrtype : UInt8}

theorem type_of_lt (h : a < n) : readByte m n a = some (attrType m a) := if_pos h

theorem ntoh_of_le (h : a + k ≤ n) : ntoh m n a k = some (Rad.ntoh m a k) := if_pos h

theorem attrLength_of_lt (h : a + 1 < n) : attrLength m n a = some (Rad.attrLength m a) := by
  rw [attrLength, readByte_of_lt h]
  rfl

theorem hdrLength_of_le (h : 4 ≤ n) : hdrLength m n = some (Rad.hdrLength m) := ntoh_of_le h

structure Found (m : Mem) (p stop : ℕ) (attr len : ℕ) : Prop where
  start : p ≤ attr
  header : attrHdrSize ≤ Rad.attrLength m attr
  stop : attr + Rad.attrLength m attr + len = stop

variable {fuel p rem attr fuel' : ℕ}

theorem loop_found {loop body : ℕ → ℕ → ℕ → Option (ℕ × ℕ)} {len : ℕ}
    (hzero : ∀ p rem, loop 0 p rem = none) (hstep : ∀ fuel p rem, loop (fuel + 1) p rem =
      if rem < attrHdrSize then none else if rem < Rad.attrLength m p then none
      else if Rad.attrLength m p < attrHdrSize then none else body fuel p rem)
    (hbody : ∀ fuel p rem, body fuel p rem = some (attr, len) →
      some (p, rem - Rad.attrLength m p) = some (attr, len) ∨
        loop fuel (p + Rad.attrLength m p) (rem - Rad.attrLength m p) = some (attr, len))
    (h : loop fuel p rem = some (attr, len)) : Found m p (p + rem) attr len := by
  induction fuel generalizing p rem with
  | zero => cases (hzero p rem).symm.trans h
  | succ fuel ih =>
    rw [hstep] at h
    by_cases hroom : rem < attrHdrSize
    · rw [if_pos hroom] at h
      cases h
    rw [if_neg hroom] at h
    by_cases hlong : rem < Rad.attrLength m p
    · rw [if_pos hlong] at h
      cases h
    rw [if_neg hlong] at h
    by_cases hshort : Rad.attrLength m p < attrHdrSize
    · rw [if_pos hshort] at h
      cases h
    rw [if_neg hshort] at h
    rcases hbody fuel p rem h with hhere | hlater
    · cases hhere
      exact ⟨le_rfl, not_lt.1 hshort, by omega⟩
    · have hmore := ih hlater
      exact ⟨(Nat.le_add_right ..).trans hmore.start, hmore.header, by rw [hmore.stop]; omega⟩

theorem findLoop_found {len : ℕ}
    (h : Rad.findLoop m type fuel p rem = some (attr, len)) : Found m p (p + rem) attr len := by
  refine loop_found (fun _ _ => rfl) (fun _ _ _ => rfl) (fun fuel p rem hbody => ?_) h
  by_cases htype : attrType m p = type
  · exact .inl (by rwa [if_pos htype] at hbody)
  · exact .inr (by rwa [if_neg htype] at hbody)

theorem findLoop_eq (hn : p + rem ≤ n) (hfuel : rem < fuel) (hfuel' : rem ≤ fuel') :
    findLoop m n type fuel p rem = some (Rad.findLoop m type fuel' p rem) := by
  induction fuel generalizing fuel' p rem with
  | zero => cases hfuel
  | succ fuel ih =>
    have htwo : attrHdrSize = 2 := rfl
    rw [findLoop]
    by_cases hroom : rem < attrHdrSize
    · rw [if_pos hroom]
      cases fuel' with
      | zero => rfl
      | succ fuel' => rw [Rad.findLoop, if_pos hroom]
    cases fuel' with
    | zero => omega
    | succ fuel' =>
      rw [if_neg hroom, Rad.findLoop, if_neg hroom, attrLength_of_lt (by omega),
        type_of_lt (by omega)]
      by_cases hlong : rem < Rad.attrLength m p
      · simp [hlong]
      by_cases hshort : Rad.attrLength m p < attrHdrSize
      · simp [hlong, hshort]
      have hmore : findLoop m n type fuel (p + Rad.attrLength m p)
          (rem - Rad.attrLength m p) =
            some (Rad.findLoop m type fuel' (p + Rad.attrLength m p)
              (rem - Rad.attrLength m p)) :=
        ih (by omega) (by omega) (by omega)
      simp only [bind_eq_bind, bind_some, if_neg hlong, if_neg hshort, hmore]
      exact (apply_ite some (attrType m p = type) _ _).symm

theorem findExtendedLoop_found {len : ℕ}
    (h : Rad.findExtendedLoop m xtype attrtype fuel p rem = some (attr, len)) :
    Found m p (p + rem) attr len := by
  refine loop_found (fun _ _ => rfl) (fun _ _ _ => rfl) (fun fuel p rem hbody => ?_) h
  by_cases htype : attrType m p = xtype
  · rw [if_pos htype] at hbody
    by_cases hcut : Rad.attrLength m p < extendedHdrSize xtype
    · rw [if_pos hcut] at hbody
      cases hbody
    rw [if_neg hcut] at hbody
    by_cases hx : m (p + 2) = attrtype
    · exact .inl (by rwa [if_pos hx] at hbody)
    · exact .inr (by rwa [if_neg hx] at hbody)
  · exact .inr (by rwa [if_neg htype] at hbody)

theorem findExtendedLoop_eq (hn : p + rem ≤ n) (hfuel : rem < fuel) (hfuel' : rem ≤ fuel') :
    findExtendedLoop m n xtype attrtype fuel p rem =
      some (Rad.findExtendedLoop m xtype attrtype fuel' p rem) := by
  induction fuel generalizing fuel' p rem with
  | zero => cases hfuel
  | succ fuel ih =>
    have htwo : attrHdrSize = 2 := rfl
    have hthree := extendedHdrSize_pos xtype
    rw [findExtendedLoop]
    by_cases hroom : rem < attrHdrSize
    · rw [if_pos hroom]
      cases fuel' with
      | zero => rfl
      | succ fuel' => rw [Rad.findExtendedLoop, if_pos hroom]
    cases fuel' with
    | zero => omega
    | succ fuel' =>
      rw [if_neg hroom, Rad.findExtendedLoop, if_neg hroom, attrLength_of_lt (by omega),
        type_of_lt (a := p) (by omega)]
      by_cases hlong : rem < Rad.attrLength m p
      · simp [hlong]
      by_cases hshort : Rad.attrLength m p < attrHdrSize
      · simp [hlong, hshort]
      have hmore : findExtendedLoop m n xtype attrtype fuel (p + Rad.attrLength m p)
          (rem - Rad.attrLength m p) =
            some (Rad.findExtendedLoop m xtype attrtype fuel' (p + Rad.attrLength m p)
              (rem - Rad.attrLength m p)) :=
        ih (by omega) (by omega) (by omega)
      simp only [bind_eq_bind, bind_some, if_neg hlong, if_neg hshort, hmore]
      by_cases htype : attrType m p = xtype
      · rw [if_pos htype, if_pos htype]
        by_cases hcut : Rad.attrLength m p < extendedHdrSize xtype
        · rw [if_pos hcut, if_pos hcut]
        · rw [if_neg hcut, if_neg hcut, readByte_of_lt (by omega)]
          exact (apply_ite some (m (p + 2) = attrtype) _ _).symm
      · rw [if_neg htype, if_neg htype]

structure Searches (m : Mem) (n : ℕ) (search : ℕ → ℕ → Option (Option (ℕ × ℕ)))
    (search' : ℕ → ℕ → Option (ℕ × ℕ)) : Prop where
  within : ∀ p len, p + len ≤ n → search p len = some (search' p len)
  found : ∀ p len attr left, search' p len = some (attr, left) → Found m p (p + len) attr left

theorem searches_findAttr (m : Mem) (n : ℕ) (type : UInt8) :
    Searches m n (findAttr m n type) (fun attr len => Rad.findAttr m attr len type) where
  within _ _ hn := findLoop_eq hn (lt_add_one _) le_rfl
  found _ _ _ _ h := findLoop_found h

theorem searches_findExtendedAttr (m : Mem) (n : ℕ) (xtype attrtype : UInt8) :
    Searches m n (findExtendedAttr m n xtype attrtype) (Rad.findExtendedAttr m xtype attrtype) where
  within _ _ hn := findExtendedLoop_eq hn (lt_add_one _) le_rfl
  found _ _ _ _ h := findExtendedLoop_found h

section Find

variable {search : ℕ → ℕ → Option (Option (ℕ × ℕ))} {search' : ℕ → ℕ → Option (ℕ × ℕ)}
  {counts : ℕ → Option Bool} {counts' : ℕ → Bool}

theorem findNthBy_eq (hsearch : Searches m n search search')
    (hcounts : ∀ attr, attr + Rad.attrLength m attr ≤ n → attrHdrSize ≤ Rad.attrLength m attr →
      counts attr = some (counts' attr))
    {fuel fuel' p stop : ℕ} (hstop : stop ≤ n) {start : Option (ℕ × ℕ)}
    (hstart : ∀ attr len, start = some (attr, len) → Found m p stop attr len ∧ len + 1 < fuel ∧
      len < fuel') (hfuel : 0 < fuel) (index : ℤ) :
    findNthBy m n search counts fuel start index =
      some (Rad.findNthBy m search' counts' fuel' start index) := by
  induction fuel generalizing fuel' p start index with
  | zero => cases hfuel
  | succ fuel ih =>
    cases start with
    | none =>
      cases fuel' with
      | zero | succ fuel' => rfl
    | some found =>
      obtain ⟨attr, len⟩ := found
      obtain ⟨⟨hp, hheader, hend⟩, hlen, hlen'⟩ := hstart attr len rfl
      have htwo : attrHdrSize = 2 := rfl
      cases fuel' with
      | zero => cases hlen'
      | succ fuel' =>
        have hnext := hsearch.within (attr + Rad.attrLength m attr) len (by omega)
        have hmore : ∀ index, findNthBy m n search counts fuel
            (search' (attr + Rad.attrLength m attr) len) index =
              some (Rad.findNthBy m search' counts' fuel'
                (search' (attr + Rad.attrLength m attr) len) index) := by
          refine fun index => ih (p := attr + Rad.attrLength m attr) ?_ (by omega) index
          intro next left hfound
          have hspec := hsearch.found _ _ _ _ hfound
          have hleft := hspec.stop
          have hbefore := hspec.start
          have hsize := hspec.header
          rw [hend] at hspec
          exact ⟨hspec, by omega, by omega⟩
        rw [findNthBy, Rad.findNthBy, hcounts attr (by omega) hheader, attrLength_of_lt (by omega)]
        simp only [bind_eq_bind, bind_some, hnext, hmore]
        cases counts' attr with
        | false => rfl
        | true =>
          by_cases hindex : index ≤ 0
          · simp only [hindex, and_self, if_true]
          · simp only [hindex, and_false, if_false, if_true]

theorem find_eq (hfour : 4 ≤ n) (hlength : Rad.hdrLength m ≤ n)
    (hsearch : Searches m n search search')
    (hcounts : ∀ attr, attr + Rad.attrLength m attr ≤ n → attrHdrSize ≤ Rad.attrLength m attr →
      counts attr = some (counts' attr)) (index : ℤ) :
    find m n search counts index =
      some (if hdrSize ≤ Rad.hdrLength m then
        Rad.findNthBy m search' counts' (Rad.hdrLength m - hdrSize)
          (search' hdrSize (Rad.hdrLength m - hdrSize)) index
      else none) := by
  rw [find, hdrLength_of_le hfour]
  simp only [bind_eq_bind, bind_some]
  by_cases hle : hdrSize ≤ Rad.hdrLength m
  · have htwo : attrHdrSize = 2 := rfl
    rw [if_pos hle, if_pos hle, hsearch.within _ _ (by omega)]
    refine findNthBy_eq (p := hdrSize) hsearch hcounts hlength (fun attr len hfound => ?_)
      (Nat.succ_pos _) index
    have hspec := hsearch.found _ _ _ _ hfound
    have hleft := hspec.stop
    have hbefore := hspec.start
    have hsize := hspec.header
    rw [Nat.add_sub_cancel' hle] at hspec
    exact ⟨hspec, by omega, by omega⟩
  · rw [if_neg hle, if_neg hle]

end Find

/-! ## The functions within the buffer -/

theorem isVendors_eq {vendor : UInt32} {vendorAt typeAt lengthAt size vsSize : ℕ}
    (hn : attr + Rad.attrLength m attr ≤ n) (hheader : attrHdrSize ≤ Rad.attrLength m attr)
    (hvendor : vendorAt + 4 ≤ size) (htype : typeAt < size) (hlength : lengthAt < size) :
    isVendors m n vendor type vendorAt typeAt lengthAt size vsSize attr =
      some (decide (size ≤ Rad.attrLength m attr ∧
        Rad.ntoh m (attr + vendorAt) 4 = vendor.toNat ∧ m (attr + typeAt) = type ∧
        (m (attr + lengthAt)).toNat = Rad.attrLength m attr - size + vsSize)) := by
  have htwo : attrHdrSize = 2 := rfl
  rw [isVendors, attrLength_of_lt (by omega)]
  simp only [bind_eq_bind, bind_some]
  by_cases hsize : size ≤ Rad.attrLength m attr
  · rw [if_pos hsize, ntoh_of_le (by omega), readByte_of_lt (i := attr + typeAt) (by omega),
      readByte_of_lt (by omega)]
    simp only [bind_some]
    by_cases hnumber : Rad.ntoh m (attr + vendorAt) 4 = vendor.toNat
    · by_cases hattr : m (attr + typeAt) = type
      · simp [hsize, hnumber, hattr]
      · simp [hnumber, hattr]
    · simp [hnumber]
  · simp [hsize]

section Buffer

variable (hfour : 4 ≤ n) (hlength : Rad.hdrLength m ≤ n)

include hfour hlength

theorem findAttribute_eq (type : UInt8) (index : ℤ) :
    findAttribute m n type index = some (Rad.findAttribute m type index) := by
  rw [findAttribute, find_eq hfour hlength (searches_findAttr m n type) (fun _ _ _ => rfl),
    Rad.findAttribute, Rad.find, findNth_eq_by]

theorem findVsattr_eq (vendor : UInt32) (type : UInt8) (index : ℤ) :
    findVsattr m n vendor type index = some (Rad.findVsattr m vendor type index) := by
  have hcounts : ∀ attr, attr + Rad.attrLength m attr ≤ n → attrHdrSize ≤ Rad.attrLength m attr →
      isVendors m n vendor type 2 6 7 vsattrHdrSize attrHdrSize attr =
        some (decide (vsLengthOk m attr ∧ vsVendor m attr = vendor.toNat ∧
          attrType m (attr + 6) = type)) := by
    intro attr hn hheader
    rw [isVendors_eq hn hheader (by decide) (by decide) (by decide), some_inj,
      decide_eq_decide, vsLengthOk, decide_eq_true_eq]
    constructor
    · rintro ⟨hsize, hvendor, htype, hvs⟩
      exact ⟨⟨hsize, hvs⟩, hvendor, htype⟩
    · rintro ⟨⟨hsize, hvs⟩, hvendor, htype⟩
      exact ⟨hsize, hvendor, htype, hvs⟩
  rw [findVsattr, find_eq hfour hlength (searches_findAttr m n vendorSpecific) hcounts,
    Rad.findVsattr, Rad.find, findNth_eq_by]

theorem findExtendedAttribute_eq (xtype attrtype : UInt8) (index : ℤ) :
    findExtendedAttribute m n xtype attrtype index =
      some (Rad.findExtendedAttribute m xtype attrtype index) := by
  rw [findExtendedAttribute, find_eq hfour hlength (searches_findExtendedAttr m n xtype attrtype)
    (fun _ _ _ => rfl), Rad.findExtendedAttribute, Rad.findExtended]
  by_cases hx : isExtended xtype = true
  · simp only [hx, if_true, true_and]
  · simp only [hx, Bool.false_eq_true, if_false, false_and]

theorem findExtendedVsattr_eq (vendor : UInt32) (xtype attrtype : UInt8) (index : ℤ) :
    findExtendedVsattr m n vendor xtype attrtype index =
      some (Rad.findExtendedVsattr m vendor xtype attrtype index) := by
  have hcounts : ∀ attr, attr + Rad.attrLength m attr ≤ n → attrHdrSize ≤ Rad.attrLength m attr →
      (if isLongExtended xtype then isVendors m n vendor attrtype 3 7 9 lxvsattrHdrSize lxvsSize
        else isVendors m n vendor attrtype 3 7 8 xvsattrHdrSize xvsSize) attr =
        some (isExtendedVsattr m vendor xtype attrtype attr) := by
    intro attr hn hheader
    rw [isExtendedVsattr]
    by_cases hlong : isLongExtended xtype = true
    · rw [if_pos hlong, if_pos hlong]
      exact isVendors_eq hn hheader (by decide) (by decide) (by decide)
    · rw [if_neg hlong, if_neg hlong]
      exact isVendors_eq hn hheader (by decide) (by decide) (by decide)
  rw [findExtendedVsattr, find_eq hfour hlength
    (searches_findExtendedAttr m n xtype vendorSpecific) hcounts, Rad.findExtendedVsattr,
    Rad.findExtended]
  by_cases hx : isExtended xtype = true
  · simp only [hx, if_true, true_and]
  · simp only [hx, Bool.false_eq_true, if_false, false_and]

end Buffer

theorem walkLoop_eq {S : Type} (walker : S → ℕ → ℕ → S × Bool) (hn : p + rem ≤ n)
    (hfuel : rem < fuel) (hfuel' : rem ≤ fuel') (s : S) :
    walkLoop m n walker fuel p rem s = some (Rad.walkLoop m walker fuel' p rem s) := by
  induction fuel generalizing fuel' p rem s with
  | zero => cases hfuel
  | succ fuel ih =>
    have htwo : attrHdrSize = 2 := rfl
    have height : vsattrHdrSize = 8 := rfl
    rw [walkLoop]
    by_cases hroom : rem < attrHdrSize
    · rw [if_pos hroom]
      cases fuel' with
      | zero => rfl
      | succ fuel' => rw [Rad.walkLoop, if_pos hroom]
    cases fuel' with
    | zero => omega
    | succ fuel' =>
      rw [if_neg hroom, Rad.walkLoop, if_neg hroom, attrLength_of_lt (a := p) (by omega),
        type_of_lt (a := p) (by omega)]
      by_cases hlong : rem < Rad.attrLength m p
      · simp [hlong]
      by_cases hshort : Rad.attrLength m p < attrHdrSize
      · simp [hlong, hshort]
      have hmore : ∀ s, walkLoop m n walker fuel (p + Rad.attrLength m p)
          (rem - Rad.attrLength m p) s =
            some (Rad.walkLoop m walker fuel' (p + Rad.attrLength m p)
              (rem - Rad.attrLength m p) s) :=
        ih (by omega) (by omega) (by omega)
      simp only [bind_eq_bind, bind_some, if_neg hlong, if_neg hshort, hmore]
      by_cases htype : attrType m p = vendorSpecific
      · simp only [htype, if_true, true_and]
        by_cases hsize : Rad.attrLength m p < vsattrHdrSize
        · have hbad : vsLengthOk m p = false := decide_eq_false fun h => by omega
          rw [if_pos hsize, if_pos hbad]
        rw [if_neg hsize, attrLength_of_lt (by omega), ntoh_of_le (by omega)]
        simp only [bind_some]
        by_cases hvs : Rad.attrLength m (p + 6) = Rad.attrLength m p - vsattrHdrSize + attrHdrSize
        · have hgood : vsLengthOk m p = true := decide_eq_true ⟨not_lt.1 hsize, hvs⟩
          have hgoes : ¬true = false := by decide
          rw [if_neg (not_not.2 hvs), hgood, if_neg hgoes]
          exact (apply_ite some _ _ _).symm
        · have hbad : vsLengthOk m p = false := decide_eq_false fun h => hvs h.2
          rw [if_pos hvs, if_pos hbad]
      · simp only [htype, if_false, false_and]
        exact (apply_ite some _ _ _).symm

theorem walkAttributes_eq {S : Type} (hfour : 4 ≤ n) (hlength : Rad.hdrLength m ≤ n)
    (walker : S → ℕ → ℕ → S × Bool) (s : S) :
    walkAttributes m n walker s = some (Rad.walkAttributes m walker s) := by
  rw [walkAttributes, hdrLength_of_le hfour, Rad.walkAttributes]
  simp only [bind_eq_bind, bind_some]
  by_cases hlow : Rad.hdrLength m < hdrSize
  · rw [if_pos hlow, if_pos hlow]
  · rw [if_neg hlow, if_neg hlow]
    exact walkLoop_eq walker (by omega) (by omega) (by omega) s

theorem copyForward_eq {d s k : ℕ} (hd : d + k ≤ n) (hs : s + k ≤ n) :
    copyForward m n d s k = some (ByteMemory.copyForward m d s k) := by
  induction k generalizing m d s with
  | zero => rfl
  | succ k ih =>
    rw [copyForward, readByte_of_lt (by omega), ByteMemory.copyForward]
    simp only [bind_eq_bind, bind_some]
    rw [writeByte_of_lt (by omega), bind_some]
    exact ih (by omega) (by omega)

theorem setHdrLength_eq (hfour : 4 ≤ n) (len : ℕ) :
    setHdrLength m n len = some (Rad.setHdrLength m len) := by
  have hbytes : update (update m 2 (.ofNat (len / 256))) 3 (.ofNat len) =
      Rad.setHdrLength m len := by
    funext i
    rw [Rad.setHdrLength, write]
    by_cases hthree : i = 3
    · subst hthree
      rw [update_self]
      rfl
    · rw [update_of_ne hthree]
      by_cases htwo : i = 2
      · subst htwo
        rw [update_self]
        rfl
      · rw [update_of_ne htwo, if_neg]
        rintro ⟨hlow, hhigh⟩
        have hpair : i < 2 + 2 := hhigh
        omega
  rw [setHdrLength, writeByte_of_lt (by omega), bind_eq_bind, bind_some,
    writeByte_of_lt (by omega), hbytes]

theorem deleteAttr_eq (hfour : 4 ≤ n) (hlength : Rad.hdrLength m ≤ n)
    (hheader : attrHdrSize ≤ Rad.attrLength m attr)
    (hend : attr + Rad.attrLength m attr ≤ Rad.hdrLength m) :
    deleteAttr m n attr = some (Rad.deleteAttr m attr) := by
  have htwo : attrHdrSize = 2 := rfl
  have hlt := hdrLength_lt m
  have hmod : (attr + Rad.attrLength m attr) % 65536 = attr + Rad.attrLength m attr :=
    Nat.mod_eq_of_lt (by omega)
  rw [deleteAttr, hdrLength_of_le hfour, attrLength_of_lt (by omega), Rad.deleteAttr]
  simp only [bind_eq_bind, bind_some, hmod]
  rw [if_neg (by omega), if_neg (by omega), copyForward_eq (by omega) (by omega),
    bind_some, attrLength_of_lt (by omega), bind_some, setHdrLength_eq hfour]
  rfl

theorem deleteFound_eq {found : Option ℕ} (hfour : 4 ≤ n) (hlength : Rad.hdrLength m ≤ n)
    (hfound : ∀ attr, found = some attr → attrHdrSize ≤ Rad.attrLength m attr ∧
      attr + Rad.attrLength m attr ≤ Rad.hdrLength m) :
    deleteFound m n found = some (Rad.deleteFound m found) := by
  cases found with
  | none => rfl
  | some attr =>
    obtain ⟨hheader, hend⟩ := hfound attr rfl
    rw [deleteFound, deleteAttr_eq hfour hlength hheader hend]
    rfl

end Qse.Rad.Checked
