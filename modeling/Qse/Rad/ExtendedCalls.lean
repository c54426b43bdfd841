import Qse.Rad.Runs

/-!
# Calls for extended attributes

What an insertion and a deletion of an extended attribute are to do with a message, and exactly when
they do it.
-/

open List

namespace Qse.Rad

open ByteMemory

variable {m m' : Mem} {as : List Attr} {a : Attr} {xtype attrtype lxflags : UInt8}
  {vendor : UInt32} {bytes : List UInt8} {gives has : Attr → Bool} {index : ℤ}

/-! ## The attributes -/

def xattrLimit (xtype : UInt8) : ℕ :=
  if isLongExtended xtype then maxLxattrValueLen else maxXattrValueLen

def xvsattrLimit (xtype : UInt8) : ℕ :=
  if isLongExtended xtype then maxLxvsattrValueLen else maxXvsattrValueLen

def xattrHead (xtype attrtype lxflags : UInt8) : List UInt8 :=
  if isLongExtended xtype then [attrtype, lxflags] else [attrtype]

def xvsattrHead (vendor : UInt32) (xtype attrtype lxflags : UInt8) (len : ℕ) : List UInt8 :=
  [vendorSpecific] ++ hton32 vendor ++
    if isLongExtended xtype then [attrtype, lxflags, .ofNat (len + lxvsSize)]
    else [attrtype, .ofNat (len + xvsSize)]

theorem length_xattrHead (xtype attrtype lxflags : UInt8) :
    (xattrHead xtype attrtype lxflags).length + xattrLimit xtype = maxAttrValueLen := by
  rw [xattrHead, xattrLimit]
  split <;> rfl

theorem length_xvsattrHead (vendor : UInt32) (xtype attrtype lxflags : UInt8) (len : ℕ) :
    (xvsattrHead vendor xtype attrtype lxflags len).length + xvsattrLimit xtype =
      maxAttrValueLen := by
  rw [xvsattrHead, xvsattrLimit]
  split <;> rfl

def xattr (xtype attrtype lxflags : UInt8) (bytes : List UInt8) : Attr where
  type := xtype
  value := xattrHead xtype attrtype lxflags ++ bytes.take (xattrLimit xtype)
  fits := by
    have hcut : (bytes.take (xattrLimit xtype)).length ≤ xattrLimit xtype :=
      length_take_le ..
    rw [length_append, ← length_xattrHead xtype attrtype lxflags]
    exact Nat.add_le_add_left hcut _

def xvsattr (vendor : UInt32) (xtype attrtype lxflags : UInt8) (bytes : List UInt8) : Attr where
  type := xtype
  value := xvsattrHead vendor xtype attrtype lxflags (bytes.take (xvsattrLimit xtype)).length ++
    bytes.take (xvsattrLimit xtype)
  fits := by
    have hcut : (bytes.take (xvsattrLimit xtype)).length ≤ xvsattrLimit xtype :=
      length_take_le ..
    rw [length_append, ← length_xvsattrHead vendor xtype attrtype lxflags]
    exact Nat.add_le_add_left hcut _

theorem value_xattr (xtype attrtype lxflags : UInt8) (bytes : List UInt8) :
    (xattr xtype attrtype lxflags bytes).value =
      xattrHead xtype attrtype lxflags ++ bytes.take (xattrLimit xtype) := rfl

theorem value_xvsattr (vendor : UInt32) (xtype attrtype lxflags : UInt8) (bytes : List UInt8) :
    (xvsattr vendor xtype attrtype lxflags bytes).value =
      xvsattrHead vendor xtype attrtype lxflags (bytes.take (xvsattrLimit xtype)).length ++
        bytes.take (xvsattrLimit xtype) := rfl

theorem isX_xattr (xtype attrtype lxflags : UInt8) (bytes : List UInt8) :
    (xattr xtype attrtype lxflags bytes).isX xtype attrtype = true := by
  rw [Attr.isX, decide_eq_true_eq, Attr.size, value_xattr, xattrHead, extendedHdrSize]
  split
  · exact ⟨rfl, by simp [lxattrHdrSize, attrHdrSize], rfl⟩
  · exact ⟨rfl, by simp [xattrHdrSize, attrHdrSize], rfl⟩

theorem ntoh_hton32 (v : UInt32) :
    (hton32 v).foldl (fun v byte => v * 256 + byte.toNat) 0 = v.toNat := by
  have hlt := v.toNat_lt
  simp only [hton32, foldl_cons, foldl_nil, UInt32.toNat_toUInt8,
    UInt32.toNat_shiftRight, Nat.shiftRight_eq_div_pow]
  have h24 : (24 : UInt32).toNat % 32 = 24 := rfl
  have h16 : (16 : UInt32).toNat % 32 = 16 := rfl
  have h8 : (8 : UInt32).toNat % 32 = 8 := rfl
  rw [h24, h16, h8]
  omega

theorem isXvs_xvsattr (vendor : UInt32) (xtype attrtype lxflags : UInt8) (bytes : List UInt8) :
    (xvsattr vendor xtype attrtype lxflags bytes).isXvs vendor xtype attrtype = true := by
  have hcut : (bytes.take (xvsattrLimit xtype)).length ≤ xvsattrLimit xtype :=
    length_take_le ..
  have hlimit : xvsattrLimit xtype ≤ 246 := by
    rw [xvsattrLimit]
    split <;> decide
  have hvendor := ntoh_hton32 vendor
  rw [Attr.isXvs, decide_eq_true_eq, Attr.isX, decide_eq_true_eq, Attr.xVendor, Attr.size,
    value_xvsattr, xvsattrHead, extendedHdrSize]
  generalize bytes.take (xvsattrLimit xtype) = value at hcut ⊢
  have hoctet : ∀ n ≤ 3, (UInt8.ofNat (value.length + n)).toNat = value.length + n := by
    intro n hn
    rw [UInt8.toNat_ofNat']
    exact Nat.mod_eq_of_lt (by omega)
  split
  case isTrue hlong =>
    have hsize : ([vendorSpecific] ++ hton32 vendor ++
        [attrtype, lxflags, UInt8.ofNat (value.length + lxvsSize)] ++ value).length + attrHdrSize =
          value.length + lxvsattrHdrSize := by
      rw [length_append, add_right_comm, add_comm]
      rfl
    rw [hsize, Nat.add_sub_cancel]
    refine ⟨⟨rfl, ?_, rfl⟩, hvendor, rfl, Nat.le_add_left .., hoctet lxvsSize (by decide)⟩
    exact (by decide : lxattrHdrSize ≤ lxvsattrHdrSize).trans (Nat.le_add_left ..)
  case isFalse hshort =>
    have hsize : ([vendorSpecific] ++ hton32 vendor ++
        [attrtype, UInt8.ofNat (value.length + xvsSize)] ++ value).length + attrHdrSize =
          value.length + xvsattrHdrSize := by
      rw [length_append, add_right_comm, add_comm]
      rfl
    rw [hsize, Nat.add_sub_cancel]
    refine ⟨⟨rfl, ?_, rfl⟩, hvendor, rfl, Nat.le_add_left .., hoctet xvsSize (by decide)⟩
    exact (by decide : xattrHdrSize ≤ xvsattrHdrSize).trans (Nat.le_add_left ..)

/-- An attribute has been added to a message: its length octet is the number of bytes that the
message has got, the message is read as one with the attribute, and the attribute is found with the
index among those that have the property. -/
structure Added (m m' : Mem) (as : List Attr) (a : Attr) (has : Attr → Bool)
    (find : ℤ → Option ℕ) : Prop where
  octet : hdrLength m + attrLength m' (hdrLength m) = hdrLength m'
  parsed : Parsed m' (as ++ [a]) 0
  found : find (as.filter has).length = some (hdrLength m)

/-- The message gets no longer than its length can be, and no attribute of the extended type is
shorter than its header. -/
def Searchable (xtype : UInt8) (as : List Attr) (a : Attr) : Prop :=
  total (as ++ [a]) ≤ 65535 ∧ ∀ b ∈ as, b.cut xtype = false

/-- Either nothing is found and there is nothing with the index, or the attribute found first may be
removed for the one with the index and the attribute behind it is of the same size. -/
def FirstMatches (gives has : Attr → Bool) (index : ℤ) (as : List Attr) : Prop :=
  ((before gives as).filter has = [] ∧ (as.filter has).length ≤ index.toNat) ∨
    ∃ front a back, as = front ++ a :: back ∧ has a = true ∧
      (∀ b ∈ front, gives b = false ∧ has b = false) ∧ index.toNat < (as.filter has).length ∧
      deleteNth has index.toNat as = front ++ back ∧ sizeBehind a back = a.size

def writtenSize (xtype len : UInt8) : ℕ :=
  if isLongExtended xtype then lxvsattrHdrSize + cutLen len.toNat maxLxvsattrValueLen
  else xvsattrHdrSize + cutLen len.toNat maxXvsattrValueLen

inductive ExtendedCall where
  | insert (max : ℤ) (xtype attrtype : UInt8) (ptr : Ptr) (len lxflags : UInt8)
  | insertVendorSpecific (max : ℤ) (vendor : UInt32) (xtype attrtype : UInt8) (ptr : Ptr)
      (len lxflags : UInt8)
  | deleteVendorSpecific (vendor : UInt32) (xtype attrtype : UInt8) (index : ℤ)

namespace ExtendedCall

def type : ExtendedCall → UInt8
  | insert _ xtype _ _ _ _ => xtype
  | insertVendorSpecific _ _ xtype _ _ _ _ => xtype
  | deleteVendorSpecific _ xtype _ _ => xtype

/-- An insertion that succeeds adds the attribute, and a deletion removes the one with the index
and nothing if there is none. -/
def Meets (m : Mem) (as : List Attr) : ExtendedCall → Prop
  | insert max xtype attrtype ptr len lxflags =>
    ∀ m', insertExtendedAttribute m max xtype attrtype ptr len lxflags = (m', 0) →
      Added m m' as (xattr xtype attrtype lxflags (bytesAt ptr len.toNat))
        (Attr.isX xtype attrtype) (findExtendedAttribute m' xtype attrtype)
  | insertVendorSpecific max vendor xtype attrtype ptr len lxflags =>
    ∀ m', insertExtendedVendorSpecificAttribute m max vendor xtype attrtype ptr len lxflags =
        (m', 0) →
      Added m m' as (xvsattr vendor xtype attrtype lxflags (bytesAt ptr len.toNat))
        (Attr.isXvs vendor xtype attrtype) (findExtendedVsattr m' vendor xtype attrtype)
  | deleteVendorSpecific vendor xtype attrtype index =>
    ∃ m', deleteExtendedVendorSpecificAttribute m vendor xtype attrtype index =
        (m', (deleted (Attr.isXvs vendor xtype attrtype) index as).2) ∧
      Parsed m' (deleted (Attr.isXvs vendor xtype attrtype) index as).1 0

/-- When a call does what it is to do. For a long vendor-specific form the value is not longer
than the limit. -/
def Regular (as : List Attr) : ExtendedCall → Prop
  | insert max xtype attrtype ptr len lxflags =>
    total (as ++ [xattr xtype attrtype lxflags (bytesAt ptr len.toNat)]) ≤ max →
      Searchable xtype as (xattr xtype attrtype lxflags (bytesAt ptr len.toNat))
  | insertVendorSpecific max vendor xtype attrtype ptr len lxflags =>
    total as + writtenSize xtype len ≤ max →
      (isLongExtended xtype = true → len.toNat ≤ maxLxvsattrValueLen) ∧
        Searchable xtype as (xvsattr vendor xtype attrtype lxflags (bytesAt ptr len.toNat))
  | deleteVendorSpecific vendor xtype attrtype index =>
    FirstMatches (Attr.cut xtype) (Attr.isXvs vendor xtype attrtype) index as

end ExtendedCall

/-! ## Insertions -/

theorem cut_of_isX (h : a.isX xtype attrtype = true) : a.cut xtype = false := by
  rw [Attr.isX, decide_eq_true_eq] at h
  rw [Attr.cut, decide_eq_false_iff_not]
  exact fun hcut => absurd hcut.2 (not_lt.2 h.2.1)

theorem before_sublist (gives : Attr → Bool) (as : List Attr) :
    (before gives as).Sublist as := by
  have hpre : before gives as <+: as := takeWhile_prefix _
  exact hpre.sublist

theorem before_append_of_gives (bs : List Attr) (h : ∃ b ∈ as, gives b = true) :
    before gives (as ++ bs) = before gives as := by
  obtain ⟨b, hb, hgives⟩ := h
  rw [before, takeWhile_append, if_neg, ← before]
  intro hlength
  have hall : before gives as = as := (before_sublist gives as).eq_of_length hlength
  have hgoes := takeWhile_eq_self_iff.1 hall b hb
  rw [hgives] at hgoes
  cases hgoes

theorem positions_concat (ha : has a = true) (p : ℕ) (as : List Attr) :
    (positions has p (as ++ [a]))[(as.filter has).length]? = some (p + sizes as) := by
  have hlast : positions has (p + sizes as) [a] = [p + sizes as] := by
    rw [positions, if_pos ha]
    rfl
  rw [positions_append, ← length_positions has p, hlast]
  exact getElem?_concat_length

theorem added_iff (h : Parsed m as 0) {hdr value : List UInt8} (hbytes : hdr ++ value = a.bytes)
    (ha : has a = true) (hgoes : gives a = false) {find : ℤ → Option ℕ}
    (hfind : ∀ bs, Parsed (appended m hdr value) bs 0 → ∀ index,
      find index = (positions has hdrSize (before gives bs))[index.toNat]?) :
    Added m (appended m hdr value) as a has find ↔
      total (as ++ [a]) ≤ 65535 ∧ ∀ b ∈ as, gives b = false := by
  have hlength : hdrLength m = total as := h.length
  constructor
  · rintro ⟨-, hparsed, hfound⟩
    refine ⟨?_, fun b hb => ?_⟩
    · have hnew : hdrLength (appended m hdr value) = total (as ++ [a]) := hparsed.length
      have hlt := hdrLength_lt (appended m hdr value)
      omega
    · rw [Bool.eq_false_iff]
      intro hgives
      have hfew : ((before gives as).filter has).length ≤ (as.filter has).length :=
        ((before_sublist gives as).filter has).length_le
      rw [hfind _ hparsed, before_append_of_gives [a] ⟨b, hb, hgives⟩, Int.toNat_natCast,
        getElem?_eq_none (by rwa [length_positions])] at hfound
      cases hfound
  · rintro ⟨hfits, hall⟩
    have hparsed := h.appended hbytes hfits
    have hevery : ∀ b ∈ as ++ [a], gives b = false := by
      intro b hb
      obtain hold | hnew := mem_append.1 hb
      · exact hall b hold
      · rw [mem_singleton.1 hnew]
        exact hgoes
    refine ⟨?_, hparsed, ?_⟩
    · have hlast := (laid_cons.1 (laid_append.1 hparsed.laid).2).1
      have hsize : attrLength (appended m hdr value) (hdrLength m) = a.size := by
        rw [hlength]
        exact attrLength_eq hlast
      have hnew : hdrLength (appended m hdr value) = total (as ++ [a]) := hparsed.length
      rw [hsize, hnew, hlength, total_concat]
    · rw [hfind _ hparsed, before_of_none hevery, Int.toNat_natCast, positions_concat ha, hlength]
      rfl

theorem forall_inserted {max : ℤ} {size : ℕ} {inserted m₁ : Mem} {res : Mem × ℤ} {P : Mem → Prop}
    (hres : res = if max < size then (inserted, -1) else (m₁, 0)) :
    (∀ m', res = (m', 0) → P m') ↔ (size ≤ max → P m₁) := by
  have hneg : ¬(-1 : ℤ) = 0 := by decide
  by_cases hroom : max < size
  · rw [hres, if_pos hroom]
    exact iff_of_true (fun m' h => absurd (congrArg Prod.snd h) hneg) fun hle => by omega
  · rw [hres, if_neg hroom]
    constructor
    · exact fun hall _ => hall m₁ rfl
    · rintro hone m' ⟨⟩
      exact hone (not_lt.1 hroom)

theorem isShortExtended_eq (hx : isExtended xtype = true) :
    isShortExtended xtype = !isLongExtended xtype := by
  rw [isExtended, decide_eq_true_eq, UInt8.le_iff_toNat_le, UInt8.le_iff_toNat_le] at hx
  have h241 : (241 : UInt8).toNat = 241 := rfl
  have h244 : (244 : UInt8).toNat = 244 := rfl
  have h245 : (245 : UInt8).toNat = 245 := rfl
  have h246 : (246 : UInt8).toNat = 246 := rfl
  rw [isShortExtended, isLongExtended, ← decide_not, decide_eq_decide, UInt8.le_iff_toNat_le,
    UInt8.le_iff_toNat_le, UInt8.le_iff_toNat_le, UInt8.le_iff_toNat_le]
  omega

section Insert

variable {max : ℤ} {ptr : Ptr} {len : UInt8}

theorem insertExtendedAttribute_eq (m : Mem) (max : ℤ) (hx : isExtended xtype = true)
    (attrtype : UInt8) (ptr : Ptr) (len lxflags : UInt8) :
    ∃ hdr value, hdr ++ value = (xattr xtype attrtype lxflags (bytesAt ptr len.toNat)).bytes ∧
      insertExtendedAttribute m max xtype attrtype ptr len lxflags =
        if max < (hdrLength m + (xattr xtype attrtype lxflags (bytesAt ptr len.toNat)).size : ℕ)
        then (m, -1) else (appended m hdr value, 0) := by
  have hvalue := take_bytesAt ptr len.toNat (xattrLimit xtype)
  rw [insertExtendedAttribute, isShortExtended_eq hx, Attr.bytes, Attr.size, value_xattr, hvalue,
    xattrHead, xattrLimit, length_append, length_bytesAt]
  cases isLongExtended xtype with
  | true =>
    have hsize : lxattrHdrSize + min len.toNat maxLxattrValueLen =
        [attrtype, lxflags].length + min len.toNat maxLxattrValueLen + attrHdrSize :=
      add_right_comm 2 2 _
    simp only [Bool.not_true, Bool.false_eq_true, if_false, if_true]
    rw [append_eq rfl, ← hsize]
    exact ⟨_, _, rfl, rfl⟩
  | false =>
    have hsize : xattrHdrSize + min len.toNat maxXattrValueLen =
        [attrtype].length + min len.toNat maxXattrValueLen + attrHdrSize :=
      add_right_comm 1 2 _
    simp only [Bool.not_false, Bool.false_eq_true, if_false, if_true]
    rw [append_eq rfl, ← hsize]
    exact ⟨_, _, rfl, rfl⟩

theorem insertExtendedVendorSpecificAttribute_eq (m : Mem) (max : ℤ) (vendor : UInt32)
    (hx : isExtended xtype = true) (attrtype : UInt8) (ptr : Ptr) (len lxflags : UInt8)
    (hlen : isLongExtended xtype = true → len.toNat ≤ maxLxvsattrValueLen) :
    ∃ hdr value,
      hdr ++ value = (xvsattr vendor xtype attrtype lxflags (bytesAt ptr len.toNat)).bytes ∧
      insertExtendedVendorSpecificAttribute m max vendor xtype attrtype ptr len lxflags =
        if max < (hdrLength m +
          (xvsattr vendor xtype attrtype lxflags (bytesAt ptr len.toNat)).size : ℕ)
        then (m, -1) else (appended m hdr value, 0) := by
  have hvalue := take_bytesAt ptr len.toNat (xvsattrLimit xtype)
  rw [insertExtendedVendorSpecificAttribute, isShortExtended_eq hx, Attr.bytes, Attr.size,
    value_xvsattr, hvalue, xvsattrHead, xvsattrLimit, length_append, length_bytesAt]
  cases hlong : isLongExtended xtype with
  | true =>
    have hcut : cutLen len.toNat maxLxvsattrValueLen = min len.toNat maxLxvsattrValueLen := by
      rw [cutLen, if_neg (not_lt.2 (hlen hlong)), min_eq_left (hlen hlong)]
    simp only [Bool.not_true, Bool.false_eq_true, if_false, if_true, hcut]
    generalize min len.toNat maxLxvsattrValueLen = n
    have hsize : lxvsattrHdrSize + n = ([vendorSpecific] ++ hton32 vendor ++
        [attrtype, lxflags, UInt8.ofNat (n + lxvsSize)]).length + n + attrHdrSize :=
      add_right_comm 8 2 _
    rw [append_eq rfl, ← hsize]
    exact ⟨_, _, rfl, rfl⟩
  | false =>
    have hcut : cutLen len.toNat maxXvsattrValueLen = min len.toNat maxXvsattrValueLen := by
      rw [cutLen]
      split <;> omega
    simp only [Bool.not_false, Bool.false_eq_true, if_false, if_true, hcut]
    generalize min len.toNat maxXvsattrValueLen = n
    have hsize : xvsattrHdrSize + n = ([vendorSpecific] ++ hton32 vendor ++
        [attrtype, UInt8.ofNat (n + xvsSize)]).length + n + attrHdrSize :=
      add_right_comm 7 2 _
    rw [append_eq rfl, ← hsize]
    exact ⟨_, _, rfl, rfl⟩

theorem size_xvsattr (vendor : UInt32) (xtype attrtype lxflags : UInt8) (ptr : Ptr) (len : UInt8)
    (hlen : isLongExtended xtype = true → len.toNat ≤ maxLxvsattrValueLen) :
    (xvsattr vendor xtype attrtype lxflags (bytesAt ptr len.toNat)).size =
      writtenSize xtype len := by
  have hvalue := take_bytesAt ptr len.toNat (xvsattrLimit xtype)
  rw [Attr.size, value_xvsattr, hvalue, xvsattrHead, xvsattrLimit, length_append,
    length_bytesAt, writtenSize]
  cases hlong : isLongExtended xtype with
  | true =>
    simp only [if_true, cutLen, if_neg (not_lt.2 (hlen hlong)), min_eq_left (hlen hlong)]
    exact add_right_comm 8 len.toNat 2
  | false =>
    have hcut : cutLen len.toNat maxXvsattrValueLen = min len.toNat maxXvsattrValueLen := by
      rw [cutLen]
      split <;> omega
    simp only [Bool.false_eq_true, if_false, hcut]
    exact add_right_comm 7 _ 2

theorem insertExtendedVendorSpecificAttribute_long (h : Parsed m as 0) (max : ℤ)
    (vendor : UInt32) (hlong : isLongExtended xtype = true) (hshort : isShortExtended xtype = false)
    (attrtype : UInt8) (ptr : Ptr) (lxflags : UInt8) (hlen : maxLxvsattrValueLen < len.toNat) :
    ∃ m₁, attrLength m₁ (total as) = 0 ∧
      insertExtendedVendorSpecificAttribute m max vendor xtype attrtype ptr len lxflags =
        if max < (hdrLength m + writtenSize xtype len : ℕ) then (m, -1) else (m₁, 0) := by
  have hlow := h.le_hdrLength
  have hcut : cutLen len.toNat maxLxvsattrValueLen = maxXvsattrValueLen := if_pos hlen
  have htotal : hdrLength m = total as := h.length
  have hfour : 4 ≤ hdrLength m := (by decide : 4 ≤ hdrSize).trans hlow
  rw [insertExtendedVendorSpecificAttribute, hshort, hlong, writtenSize, hlong]
  simp only [Bool.false_eq_true, if_false, if_true, hcut]
  rw [append_eq rfl]
  refine ⟨_, ?_, rfl⟩
  rw [← htotal]
  exact attrLength_appended hfour

theorem insert_meets_iff (h : Parsed m as 0) (hx : isExtended xtype = true) :
    (ExtendedCall.insert max xtype attrtype ptr len lxflags).Meets m as ↔
      (ExtendedCall.insert max xtype attrtype ptr len lxflags).Regular as := by
  obtain ⟨hdr, value, hbytes, hres⟩ :=
    insertExtendedAttribute_eq m max hx attrtype ptr len lxflags
  have hlength : hdrLength m = total as := h.length
  have hisX := isX_xattr xtype attrtype lxflags (bytesAt ptr len.toNat)
  have hadded := added_iff h hbytes hisX (cut_of_isX hisX)
    fun bs hbs index => hbs.findExtendedAttribute hx attrtype index
  rw [ExtendedCall.Meets, ExtendedCall.Regular, forall_inserted hres, hadded, total_concat,
    hlength, Searchable, total_concat]

theorem insertVendorSpecific_meets_iff (h : Parsed m as 0) (hx : isExtended xtype = true) :
    (ExtendedCall.insertVendorSpecific max vendor xtype attrtype ptr len lxflags).Meets m as ↔
      (ExtendedCall.insertVendorSpecific max vendor xtype attrtype ptr len lxflags).Regular
        as := by
  have hlength : hdrLength m = total as := h.length
  rw [ExtendedCall.Meets, ExtendedCall.Regular]
  by_cases hlen : isLongExtended xtype = true → len.toNat ≤ maxLxvsattrValueLen
  · obtain ⟨hdr, value, hbytes, hres⟩ :=
      insertExtendedVendorSpecificAttribute_eq m max vendor hx attrtype ptr len lxflags hlen
    have hisXvs := isXvs_xvsattr vendor xtype attrtype lxflags (bytesAt ptr len.toNat)
    have hisX := (of_decide_eq_true hisXvs).1
    have hadded := added_iff h hbytes hisXvs (cut_of_isX hisX)
      fun bs hbs index => hbs.findExtendedVsattr hx vendor attrtype index
    rw [forall_inserted hres, hadded, size_xvsattr vendor xtype attrtype lxflags ptr len hlen,
      hlength, and_iff_right hlen, Searchable, Nat.cast_add]
  obtain ⟨hlong, hlarge⟩ := Classical.not_imp.1 hlen
  have hshort : isShortExtended xtype = false := by
    rw [isShortExtended_eq hx, hlong]
    rfl
  obtain ⟨m₁, hzero, hres⟩ := insertExtendedVendorSpecificAttribute_long h max vendor hlong
    hshort attrtype ptr lxflags (not_le.1 hlarge)
  rw [forall_inserted hres, hlength, Nat.cast_add]
  refine imp_congr_right fun _ => iff_of_false (fun hadded => ?_) fun hall => hlen hall.1
  have hlast := (laid_cons.1 (laid_append.1 hadded.parsed.laid).2).1
  have hsize : attrLength m₁ (total as) =
      (xvsattr vendor xtype attrtype lxflags (bytesAt ptr len.toNat)).size := attrLength_eq hlast
  rw [hzero] at hsize
  cases hsize

end Insert

/-! ## Deletions -/

theorem mem_before (h : a ∈ before gives as) : gives a = false := by
  have hgoes := mem_takeWhile_imp h
  rwa [Bool.not_eq_true'] at hgoes

theorem first_cases (gives has : Attr → Bool) (as : List Attr) :
    ((before gives as).filter has = [] ∧ (positions has hdrSize (before gives as))[0]? = none) ∨
      ∃ front a back, as = front ++ a :: back ∧ has a = true ∧
        (∀ b ∈ front, gives b = false ∧ has b = false) ∧
        (before gives as).filter has ≠ [] ∧
        (positions has hdrSize (before gives as))[0]? = some (total front) := by
  obtain ⟨hlen, hnone⟩ | ⟨hlen, front, a, back, hsplit, ha, hfront, hsome, -⟩ :=
    positions_spec has hdrSize (before gives as) 0
  · exact .inl ⟨length_eq_zero_iff.1 (Nat.le_zero.1 hlen), hnone⟩
  have hwhole : as = before gives as ++ as.dropWhile fun a => !gives a :=
    takeWhile_append_dropWhile.symm
  have hskipped : ∀ b ∈ front, gives b = false ∧ has b = false := by
    intro b hb
    have hmem : b ∈ before gives as := by
      rw [hsplit]
      exact mem_append_left _ hb
    have hnot := filter_eq_nil_iff.1 (length_eq_zero_iff.1 hfront) b hb
    exact ⟨mem_before hmem, Bool.eq_false_iff.2 hnot⟩
  refine .inr ⟨front, a, back ++ as.dropWhile fun a => !gives a, ?_, ha, hskipped, ?_, hsome⟩
  · rw [hsplit, append_assoc, cons_append] at hwhole
    exact hwhole
  · intro hempty
    rw [hempty] at hlen
    cases hlen

theorem first_unique {front front' back back' : List Attr} {a' : Attr}
    (hsplit : front ++ a :: back = front' ++ a' :: back') (ha : has a = true)
    (ha' : has a' = true) (hfront : ∀ b ∈ front, has b = false)
    (hfront' : ∀ b ∈ front', has b = false) : front = front' ∧ a = a' ∧ back = back' := by
  induction front generalizing front' with
  | nil =>
    cases front' with
    | nil =>
      obtain ⟨hhead, htail⟩ := List.cons.inj hsplit
      exact ⟨rfl, hhead, htail⟩
    | cons b front' =>
      obtain ⟨rfl, -⟩ := List.cons.inj hsplit
      have hno := hfront' a (mem_cons_self ..)
      rw [ha] at hno
      cases hno
  | cons b front ih =>
    cases front' with
    | nil =>
      obtain ⟨rfl, -⟩ := List.cons.inj hsplit
      have hno := hfront b (mem_cons_self ..)
      rw [ha'] at hno
      cases hno
    | cons b' front' =>
      obtain ⟨rfl, hrest⟩ := List.cons.inj hsplit
      obtain ⟨rfl, hall⟩ := ih hrest (fun c hc => hfront c (.tail _ hc))
        fun c hc => hfront' c (.tail _ hc)
      exact ⟨rfl, hall⟩

theorem length_deleteNth {i : ℕ} (hi : i < (as.filter has).length) :
    (deleteNth has i as).length + 1 = as.length := by
  obtain ⟨hle, -⟩ | ⟨-, front, a, back, rfl, -, -, -, hdelete⟩ :=
    positions_spec has hdrSize as i
  · omega
  · rw [hdelete, length_append, length_append, length_cons]
    omega

theorem parsed_removed_iff {front back bs : List Attr} (h : Parsed m (front ++ a :: back) 0)
    (hlength : bs.length + 1 = (front ++ a :: back).length) :
    Parsed (removed m front a back) bs 0 ↔ bs = front ++ back ∧ sizeBehind a back = a.size := by
  have hlaid := laid_removed h
  have hleft := hdrLength_removed h
  have hle := sizeBehind_le front a back
  have htotal : total (front ++ a :: back) = total (front ++ back) + a.size := by
    rw [total_append, total_append, sizes_cons]
    omega
  constructor
  · intro hparsed
    have hsame : bs = front ++ back := by
      refine laid_unique hparsed.laid hlaid ?_
      rw [length_append, length_cons] at hlength
      rw [length_append]
      omega
    have hnew := hparsed.length
    rw [hsame, hleft] at hnew
    exact ⟨hsame, by omega⟩
  · rintro ⟨rfl, hsize⟩
    refine ⟨?_, hlaid, ends_zero ..⟩
    rw [hleft]
    omega

theorem deleteFound_iff (h : Parsed m as 0) (hgoes : ∀ a, has a = true → gives a = false) :
    (∃ m', deleteFound m (positions has hdrSize (before gives as))[0]? =
        (m', (deleted has index as).2) ∧ Parsed m' (deleted has index as).1 0) ↔
      FirstMatches gives has index as := by
  obtain ⟨hempty, hnone⟩ | ⟨front, a, back, rfl, ha, hfront, hfull, hsome⟩ :=
    first_cases gives has as
  · rw [hnone, deleteFound, deleted]
    constructor
    · rintro ⟨m', hres, -⟩
      refine .inl ⟨hempty, ?_⟩
      by_contra hlarge
      rw [if_neg hlarge] at hres
      have hret : (0 : ℤ) = 1 := congrArg Prod.snd hres
      exact absurd hret (by decide)
    · rintro (⟨-, hle⟩ | ⟨front, a, back, rfl, ha, hfront, -⟩)
      · rw [if_pos hle]
        exact ⟨m, rfl, h⟩
      · have hmem : a ∈ (before gives (front ++ a :: back)).filter has := by
          have hall : ∀ b ∈ front, (!gives b) = true := fun b hb => by rw [(hfront b hb).1]; rfl
          rw [before, takeWhile_append_of_pos hall, takeWhile_cons, hgoes a ha]
          exact mem_filter.2 ⟨mem_append_right _ (mem_cons_self ..), ha⟩
        rw [hempty] at hmem
        cases hmem
  · have hrun : deleteFound m (some (total front)) = (removed m front a back, 1) := by
      rw [deleteFound, deleteAttr_eq h]
      rfl
    have hother : FirstMatches gives has index (front ++ a :: back) ↔
        index.toNat < ((front ++ a :: back).filter has).length ∧
          deleteNth has index.toNat (front ++ a :: back) = front ++ back ∧
          sizeBehind a back = a.size := by
      constructor
      · rintro (⟨hempty, -⟩ | ⟨front', a', back', hsplit, ha', hfront', hall⟩)
        · exact absurd hempty hfull
        · obtain ⟨rfl, rfl, rfl⟩ := first_unique hsplit ha ha' (fun b hb => (hfront b hb).2)
            fun b hb => (hfront' b hb).2
          exact hall
      · exact fun hall => .inr ⟨front, a, back, rfl, ha, hfront, hall⟩
    rw [hsome, hrun, hother, deleted]
    by_cases hlt : index.toNat < ((front ++ a :: back).filter has).length
    · rw [if_neg (not_le.2 hlt), and_iff_right hlt,
      ← parsed_removed_iff h (length_deleteNth hlt)]
      constructor
      · rintro ⟨m', hres, hparsed⟩
        cases hres
        exact hparsed
      · exact fun hparsed => ⟨_, rfl, hparsed⟩
    · rw [if_pos (not_lt.1 hlt)]
      refine iff_of_false ?_ fun hall => hlt hall.1
      rintro ⟨m', hres, -⟩
      have hret : (1 : ℤ) = 0 := congrArg Prod.snd hres
      exact absurd hret (by decide)

/-- A call for an extended attribute does to a message what it is to do if and only if it is
regular. -/
theorem extended_meets_iff (h : Parsed m as 0) (c : ExtendedCall)
    (hx : isExtended c.type = true) : c.Meets m as ↔ c.Regular as := by
  cases c with
  | insert max xtype attrtype ptr len lxflags => exact insert_meets_iff h hx
  | insertVendorSpecific max vendor xtype attrtype ptr len lxflags =>
    exact insertVendorSpecific_meets_iff h hx
  | deleteVendorSpecific vendor xtype attrtype index =>
    have hfind : findExtendedVsattr m vendor xtype attrtype 0 = _ :=
      h.findExtendedVsattr hx vendor attrtype 0
    rw [ExtendedCall.Meets, ExtendedCall.Regular, deleteExtendedVendorSpecificAttribute, hfind]
    exact deleteFound_iff h fun a ha => cut_of_isX (of_decide_eq_true ha).1

/-- The second of two equal attributes is deleted. -/
theorem extended_meets_deleted : ∃ (m : Mem) (a : Attr), Parsed m [a, a] 0 ∧
    Attr.isXvs 9 245 1 a = true ∧
      (ExtendedCall.deleteVendorSpecific 9 245 1 1).Meets m [a, a] := by
  have hmessage := (message_radInitialize (fun _ => 0) 1 7).parsed
  have hfirst := (extended_meets_iff hmessage
    (.insertVendorSpecific 4096 9 245 1 (ptrTo [65]) 1 0) (by decide)).2 fun _ =>
      ⟨fun _ => by decide, by decide, fun b hb => by cases hb⟩
  have hrun {p : Mem × ℤ} (hret : p.2 = 0) : p = (p.1, 0) := Prod.ext rfl hret
  have hone := (hfirst _ (hrun (by decide +kernel))).parsed
  have hcut : ∀ b ∈ [xvsattr 9 245 1 0 (bytesAt (ptrTo [65]) 1)], b.cut 245 = false := by decide
  have hsecond := (extended_meets_iff hone
    (.insertVendorSpecific 4096 9 245 1 (ptrTo [65]) 1 0) (by decide)).2 fun _ =>
      ⟨fun _ => by decide, by decide, hcut⟩
  have htwo := (hsecond _ (hrun (by decide +kernel))).parsed
  refine ⟨_, _, htwo, by decide, (extended_meets_iff htwo _ (by decide)).2 (.inr ?_)⟩
  exact ⟨[], _, [_], rfl, by decide, forall_mem_nil _, by decide, by rfl, by decide⟩

/-- A value of 246 bytes for a vendor in a long form has a length octet of 0. -/
theorem not_extended_meets :
    ¬(ExtendedCall.insertVendorSpecific 4096 9 245 1 (fun _ => 65) 246 0).Meets
      (radInitialize (fun _ => 0) 1 7) [] := by
  intro hmeets
  have hmessage := (message_radInitialize (fun _ => 0) 1 7).parsed
  have hlimit := ((insertVendorSpecific_meets_iff hmessage (by decide)).1 hmeets (by decide)).1 rfl
  exact absurd hlimit (by decide)

end Qse.Rad
