import Qse.Rad.Attributes

/-!
# Messages

A message is a header and the attributes behind it. The types 241 to 246 are those of extended
attributes, four of which have a short header and two a long one.
-/

open List

namespace Qse.Rad

open ByteMemory

def lengthBytes (len : ℕ) : List UInt8 := [.ofNat (len / 256), .ofNat len]

def header (code id : UInt8) (len : ℕ) : List UInt8 :=
  [code, id] ++ (lengthBytes len ++ List.replicate 16 0)

def total (as : List Attr) : ℕ := hdrSize + sizes as

structure Message (code id : UInt8) (m : Mem) (as : List Attr) : Prop where
  head : read m 0 hdrSize = header code id (total as)
  fits : total as ≤ 65535
  laid : Laid m hdrSize as

structure Parsed (m : Mem) (as : List Attr) (rem : ℕ) : Prop where
  length : hdrLength m = total as + rem
  laid : Laid m hdrSize as
  ends : Ends m (total as) rem

variable {code id : UInt8} {m m' : Mem} {as : List Attr} {a : Attr} {rem : ℕ}

theorem total_append (as bs : List Attr) : total (as ++ bs) = total as + sizes bs := by
  rw [total, sizes_append, ← add_assoc]
  rfl

theorem total_concat (as : List Attr) (a : Attr) : total (as ++ [a]) = total as + a.size := by
  rw [total_append, sizes_cons]
  rfl

theorem hdrSize_le_total (as : List Attr) : hdrSize ≤ total as := Nat.le_add_right ..

/-! ## Headers -/

variable {len : ℕ}

theorem read_head_iff : read m 0 hdrSize = header code id len ↔
    read m 0 2 = [code, id] ∧ read m 2 2 = lengthBytes len ∧ read m 4 16 = List.replicate 16 0 := by
  have hcut : hdrSize = 2 + (2 + 16) := rfl
  rw [hcut, read_add, read_add, header]
  constructor
  · intro h
    obtain ⟨hcode, hrest⟩ := append_inj h (by rw [length_read]; rfl)
    obtain ⟨hlen, hauth⟩ := append_inj hrest (by rw [length_read]; rfl)
    exact ⟨hcode, hlen, hauth⟩
  · rintro ⟨hcode, hlen, hauth⟩
    rw [hcode, hlen, hauth]

theorem read_setHdrLength {n : ℕ} (h : read m 0 hdrSize = header code id len) :
    read (setHdrLength m n) 0 hdrSize = header code id n := by
  obtain ⟨hcode, -, hauth⟩ := read_head_iff.1 h
  have hbytes : (lengthBytes n).length = 2 := rfl
  refine read_head_iff.2 ⟨?_, ?_, ?_⟩
  · rw [setHdrLength, read_write_apart (by right; exact le_rfl), hcode]
  · have hsame := read_write_same m 2 (lengthBytes n)
    rw [hbytes] at hsame
    exact hsame
  · rw [setHdrLength, read_write_apart (by left; exact le_rfl), hauth]

theorem laid_setHdrLength {p n : ℕ} (hp : hdrSize ≤ p) (h : Laid m p as) :
    Laid (setHdrLength m n) p as := by
  refine laid_congr (fun i hi _ => write_of_apart (.inr ?_)) h
  have hsize : hdrSize = 20 := rfl
  have hbytes : (lengthBytes n).length = 2 := rfl
  change 2 + (lengthBytes n).length ≤ i
  omega

theorem hdrLength_of_bytes (h : read m 2 2 = lengthBytes len) : hdrLength m = len % 65536 := by
  rw [hdrLength, ntoh, h]
  simp only [lengthBytes, foldl_cons, foldl_nil, UInt8.toNat_ofNat']
  omega

theorem read_setHdrLength_length (m : Mem) (len : ℕ) :
    read (setHdrLength m len) 2 2 = lengthBytes len :=
  read_write_same m 2 (lengthBytes len)

theorem hdrLength_setHdrLength (m : Mem) (len : ℕ) : hdrLength (setHdrLength m len) = len % 65536 :=
  hdrLength_of_bytes (read_setHdrLength_length m len)

theorem hdrLength_lt (m : Mem) : hdrLength m < 65536 := by
  have hone := (m 2).toNat_lt
  have htwo := (m 3).toNat_lt
  have hlength : hdrLength m = (0 * 256 + (m 2).toNat) * 256 + (m 3).toNat := rfl
  omega

theorem setHdrLength_of_le {i : ℕ} (h : 4 ≤ i) : setHdrLength m len i = m i :=
  write_of_apart (.inr h)

theorem hdrLength_eq (h : read m 0 hdrSize = header code id len) (hlen : len ≤ 65535) :
    hdrLength m = len := by
  obtain ⟨-, hbytes, -⟩ := read_head_iff.1 h
  rw [hdrLength_of_bytes hbytes]
  exact Nat.mod_eq_of_lt (by omega)

theorem Message.hdrLength (h : Message code id m as) : hdrLength m = total as :=
  hdrLength_eq h.head h.fits

theorem Message.parsed (h : Message code id m as) : Parsed m as 0 :=
  ⟨h.hdrLength, h.laid, ends_zero m _⟩

theorem Parsed.le_hdrLength (h : Parsed m as rem) : hdrSize ≤ Rad.hdrLength m := by
  rw [h.length, total]
  omega

theorem Parsed.rest (h : Parsed m as rem) : Rad.hdrLength m - hdrSize = sizes as + rem := by
  rw [h.length, total]
  omega

theorem Message.read (h : Message code id m as) :
    read m 0 (total as) = header code id (total as) ++ encode as := by
  have hlaid : ByteMemory.read m (0 + hdrSize) (sizes as) = encode as := by
    rw [zero_add]
    exact h.laid
  rw [total, read_add, ← total, h.head, hlaid]

theorem message_radInitialize (m : Mem) (code id : UInt8) :
    Message code id (radInitialize m code id) [] := by
  refine ⟨rfl, by decide, rfl⟩

theorem Parsed.find (h : Parsed m as rem) {type : UInt8} {counts : ℕ → Bool} {has : Attr → Bool}
    (hcounts : ∀ p a, ByteMemory.read m p a.size = a.bytes → a.type = type → counts p = has a)
    (htype : ∀ a, has a = true → a.type = type) (index : ℤ) :
    Rad.find m type counts index = (positions has hdrSize as)[index.toNat]? := by
  have hfuel : as.length ≤ sizes as + rem := (length_le_sizes as).trans (Nat.le_add_right ..)
  rw [Rad.find, if_pos h.le_hdrLength]
  simp only [h.rest]
  exact findNth_eq hcounts htype h.laid h.ends hfuel index

theorem Parsed.findAttribute (h : Parsed m as rem) (type : UInt8) (index : ℤ) :
    Rad.findAttribute m type index =
      (positions (fun a => a.type = type) hdrSize as)[index.toNat]? := by
  refine h.find (fun p a _ htype => ?_) (fun a hhas => ?_) index
  · exact (decide_eq_true htype).symm
  · exact of_decide_eq_true hhas

theorem Parsed.findVsattr (h : Parsed m as rem) (vendor : UInt32) (type : UInt8)
    (index : ℤ) : Rad.findVsattr m vendor type index =
      (positions (Attr.isVs vendor type) hdrSize as)[index.toNat]? := by
  refine h.find (fun p a hbytes htype => isVs_eq hbytes htype) (fun a hhas => ?_) index
  exact (of_decide_eq_true hhas).1

theorem Parsed.walkAttributes {S : Type} (h : Parsed m as rem) (hrem : rem < attrHdrSize)
    (hvs : ∀ a ∈ as, a.type = vendorSpecific → a.vsOk = true)
    (walker : S → ℕ → ℕ → S × Bool) (s : S) :
    Rad.walkAttributes m walker s = callWalker walker s (visits hdrSize as) := by
  have hle := h.le_hdrLength
  have hfuel := length_le_sizes as
  rw [Rad.walkAttributes, if_neg (by omega), h.rest]
  exact walkLoop_eq walker h.laid hvs hrem (by omega) s

/-! ## Inserting -/

section Insert

variable {hdr : ℕ → List UInt8} {ptr : Ptr} {len size : ℕ} {max : ℤ}

/-- The memory after the bytes of a header and of a value have been written behind a message -/
def appended (m : Mem) (hdr value : List UInt8) : Mem :=
  setHdrLength (write (write m (hdrLength m) hdr) (hdrLength m + hdr.length) value)
    (hdrLength m + hdr.length + value.length)

theorem length_bytesAt (ptr : Ptr) (len : ℕ) : (bytesAt ptr len).length = len := by
  simp [bytesAt]

theorem append_eq (hsize : (hdr (size + len)).length = size) :
    append m max hdr ptr len size = if max < (hdrLength m + (size + len) : ℕ) then (m, -1)
      else (appended m (hdr (size + len)) (bytesAt ptr len), 0) := by
  have hdiff : hdrLength m + size + len - hdrLength m = size + len := by omega
  rw [append, appended, length_bytesAt, hsize, ← add_assoc]
  simp only [hdiff]

variable {value : List UInt8}

theorem appended_of_lt {hdr : List UInt8} {i : ℕ} (hlow : 4 ≤ i) (hi : i < hdrLength m) :
    appended m hdr value i = m i := by
  rw [appended, setHdrLength_of_le hlow, write_of_apart (by omega), write_of_apart (by omega)]

theorem read_appended (hdr value : List UInt8) (hlow : 4 ≤ hdrLength m) :
    read (appended m hdr value) (hdrLength m) (hdr.length + value.length) = hdr ++ value := by
  have hheader := read_write_same m (hdrLength m) hdr
  have hvalue := read_write_same (write m (hdrLength m) hdr) (hdrLength m + hdr.length) value
  have hkept : read (appended m hdr value) (hdrLength m) (hdr.length + value.length) =
      read (write (write m (hdrLength m) hdr) (hdrLength m + hdr.length) value) (hdrLength m)
        (hdr.length + value.length) :=
    read_congr fun i hi _ => setHdrLength_of_le (by omega)
  rw [hkept, read_add, read_write_apart (by omega), hheader, hvalue]

theorem attrLength_appended {type length : UInt8} {more : List UInt8} (hlow : 4 ≤ hdrLength m) :
    attrLength (appended m (type :: length :: more) value) (hdrLength m) = length.toNat := by
  have hbytes := read_appended (type :: length :: more) value hlow
  have hcount : (type :: length :: more).length + value.length =
      more.length + value.length + 1 + 1 := by
    simp only [length_cons]
    omega
  rw [hcount, read_succ, read_succ] at hbytes
  obtain ⟨-, hrest⟩ := List.cons.inj hbytes
  exact congrArg UInt8.toNat (List.cons.inj hrest).1

theorem laid_appended (h : Parsed m as 0) {hdr : List UInt8}
    (hbytes : hdr ++ value = a.bytes) : Laid (appended m hdr value) hdrSize (as ++ [a]) := by
  have hlow := h.le_hdrLength
  have hlength : hdrLength m = hdrSize + sizes as := h.length
  have hfour : 4 ≤ hdrSize := by decide
  have hsize : hdr.length + value.length = a.size := by
    rw [← length_append, hbytes, length_bytes]
  have hlast := read_appended hdr value (hfour.trans hlow)
  rw [hsize, hbytes, hlength] at hlast
  refine laid_append.2 ⟨?_, laid_cons.2 ⟨hlast, rfl⟩⟩
  exact laid_congr (fun i hi hend => appended_of_lt (by omega) (by omega)) h.laid

theorem hdrLength_appended (m : Mem) (hdr value : List UInt8) :
    hdrLength (appended m hdr value) = (hdrLength m + hdr.length + value.length) % 65536 :=
  hdrLength_setHdrLength ..

theorem Parsed.appended (h : Parsed m as 0) {hdr : List UInt8} (hbytes : hdr ++ value = a.bytes)
    (hfits : total (as ++ [a]) ≤ 65535) :
    Parsed (appended m hdr value) (as ++ [a]) 0 := by
  have hsize : hdr.length + value.length = a.size := by
    rw [← length_append, hbytes, length_bytes]
  have hlength := h.length
  have hnew := total_concat as a
  have hsum : Rad.hdrLength m + hdr.length + value.length = total (as ++ [a]) := by omega
  refine ⟨?_, laid_appended h hbytes, ends_zero ..⟩
  rw [hdrLength_appended, hsum]
  exact Nat.mod_eq_of_lt (by omega)

theorem append_of_lt (h : Message code id m as) (hsize : size + len = a.size)
    (hmax : max < total (as ++ [a])) : append m max hdr ptr len size = (m, -1) := by
  rw [total_concat] at hmax
  rw [append, h.hdrLength]
  refine if_pos ?_
  push_cast at hmax ⊢
  omega

theorem append_of_le (h : Message code id m as) (hsize : size + len = a.size)
    (hhdr : (hdr a.size).length = size) (hbytes : hdr a.size ++ bytesAt ptr len = a.bytes)
    (hmax : max ≤ 65535) (hroom : total (as ++ [a]) ≤ max) :
    ∃ m', append m max hdr ptr len size = (m', 0) ∧ Message code id m' (as ++ [a]) := by
  have hnew := total_concat as a
  have hlow := hdrSize_le_total as
  have hfits : total (as ++ [a]) ≤ 65535 := by omega
  have hend : hdrLength m + (hdr a.size).length + (bytesAt ptr len).length = total (as ++ [a]) := by
    rw [h.hdrLength, hhdr, length_bytesAt]
    omega
  have hlarge : ¬max < (hdrLength m + a.size : ℕ) := by
    rw [h.hdrLength, ← hnew]
    exact not_lt.2 hroom
  refine ⟨appended m (hdr a.size) (bytesAt ptr len), ?_, ?_, hfits, ?_⟩
  · rw [append_eq (by rw [hsize, hhdr]), hsize, if_neg hlarge]
  · have hhead : read (write (write m (hdrLength m) (hdr a.size))
        (hdrLength m + (hdr a.size).length) (bytesAt ptr len)) 0 hdrSize =
          header code id (total as) := by
      rw [h.hdrLength, read_write_apart (by omega), read_write_apart (by omega), h.head]
    rw [appended, hend]
    exact read_setHdrLength hhead
  · exact laid_appended h.parsed hbytes

end Insert

/-! ## Deleting -/

def sizeBehind (a : Attr) (bs : List Attr) : ℕ := (bs.head?.getD a).size

def removed (m : Mem) (as : List Attr) (a : Attr) (bs : List Attr) : Mem :=
  setHdrLength (copyForward m (total as) (total as + a.size) (sizes bs))
    (total (as ++ a :: bs) - sizeBehind a bs)

theorem sizeBehind_le (as : List Attr) (a : Attr) (bs : List Attr) :
    sizeBehind a bs ≤ total (as ++ a :: bs) := by
  rw [total_append, sizes_cons]
  cases bs with
  | nil =>
    have hbehind : sizeBehind a [] = a.size := rfl
    omega
  | cons b bs =>
    have hbehind : sizeBehind a (b :: bs) = b.size := rfl
    rw [sizes_cons]
    omega

section Delete

variable {bs : List Attr} (h : Parsed m (as ++ a :: bs) 0)

include h

theorem laid_parts : Laid m hdrSize as ∧ read m (total as) a.size = a.bytes ∧
    Laid m (total as + a.size) bs := by
  obtain ⟨has, hrest⟩ := laid_append.1 h.laid
  obtain ⟨ha, hbs⟩ := laid_cons.1 hrest
  exact ⟨has, ha, hbs⟩

theorem laid_copyForward :
    Laid (copyForward m (total as) (total as + a.size) (sizes bs)) (total as) bs := by
  obtain ⟨-, -, hbs⟩ := laid_parts h
  have hpos : 2 ≤ a.size := Nat.le_add_left ..
  rw [Laid, read_copyForward (by omega)]
  exact hbs

theorem attrLength_copyForward :
    attrLength (copyForward m (total as) (total as + a.size) (sizes bs)) (total as) =
      sizeBehind a bs := by
  have hmoved := laid_copyForward h
  cases bs with
  | nil => exact attrLength_eq (laid_parts h).2.1
  | cons b bs => exact attrLength_eq (laid_cons.1 hmoved).1

theorem deleteAttr_eq : deleteAttr m (total as) = (removed m as a bs, 0) := by
  have hlength : hdrLength m = total (as ++ a :: bs) := h.length
  have hshort : total (as ++ a :: bs) < 65536 := hlength ▸ hdrLength_lt m
  have htotal : total (as ++ a :: bs) = total as + a.size + sizes bs := by
    rw [total_append, sizes_cons]
    omega
  have hmod : (total as + a.size) % 65536 = total as + a.size := Nat.mod_eq_of_lt (by omega)
  have hcount : total (as ++ a :: bs) - (total as + a.size) = sizes bs := by omega
  have hbehind := sizeBehind_le as a bs
  have hpos : 2 ≤ sizeBehind a bs := Nat.le_add_left ..
  have hnew : (total (as ++ a :: bs) + 65536 - sizeBehind a bs) % 65536 =
      total (as ++ a :: bs) - sizeBehind a bs := by omega
  rw [deleteAttr, hlength, attrLength_eq (laid_parts h).2.1]
  simp only [hmod, hcount, attrLength_copyForward h, hnew]
  exact if_neg (by omega)

theorem laid_removed : Laid (removed m as a bs) hdrSize (as ++ bs) := by
  have htotal : total as = hdrSize + sizes as := rfl
  refine laid_setHdrLength le_rfl (laid_append.2 ⟨?_, laid_copyForward h⟩)
  exact laid_congr (fun i _ hi => copyForward_of_apart (by omega)) (laid_parts h).1

theorem hdrLength_removed :
    hdrLength (removed m as a bs) = total (as ++ a :: bs) - sizeBehind a bs := by
  have hlength : hdrLength m = total (as ++ a :: bs) := h.length
  have hshort := hdrLength_lt m
  rw [removed, hdrLength_setHdrLength]
  exact Nat.mod_eq_of_lt (by omega)

end Delete

theorem Message.removed {bs : List Attr} (h : Message code id m (as ++ a :: bs))
    (hnext : sizeBehind a bs = a.size) : Message code id (removed m as a bs) (as ++ bs) := by
  have hfits := h.fits
  have hlow := hdrSize_le_total as
  have hless : total (as ++ a :: bs) - a.size = total (as ++ bs) := by
    rw [total_append, total_append, sizes_cons]
    omega
  refine ⟨?_, by omega, laid_removed h.parsed⟩
  have hhead : ByteMemory.read (copyForward m (total as) (total as + a.size) (sizes bs)) 0
      hdrSize = header code id (total (as ++ a :: bs)) := by
    rw [← h.head]
    exact read_congr fun i _ hi => copyForward_of_apart (by omega)
  rw [Rad.removed, hnext, hless]
  exact read_setHdrLength hhead

/-! ## Extended attributes -/

/-- `QSE_RAD_ATTR_IS_SHORT_EXTENDED`, `QSE_RAD_ATTR_IS_LONG_EXTENDED` and
`QSE_RAD_ATTR_IS_EXTENDED` -/
def isShortExtended (attrtype : UInt8) : Bool := 241 ≤ attrtype ∧ attrtype ≤ 244

def isLongExtended (attrtype : UInt8) : Bool := 245 ≤ attrtype ∧ attrtype ≤ 246

def isExtended (attrtype : UInt8) : Bool := 241 ≤ attrtype ∧ attrtype ≤ 246

/-- `QSE_SIZEOF(qse_rad_xattr_hdr_t)` and the sizes of the other headers -/
def xattrHdrSize : ℕ := 3

def lxattrHdrSize : ℕ := 4

def xvsattrHdrSize : ℕ := 9

def lxvsattrHdrSize : ℕ := 10

/-- `QSE_SIZEOF(xvsattr->xvs)` and `QSE_SIZEOF(lxvsattr->lxvs)` -/
def xvsSize : ℕ := 2

def lxvsSize : ℕ := 3

/-- `QSE_RAD_MAX_XATTR_VALUE_LEN` and the limits of the other values -/
def maxXattrValueLen : ℕ := 255 - xattrHdrSize

def maxLxattrValueLen : ℕ := 255 - lxattrHdrSize

def maxXvsattrValueLen : ℕ := 255 - xvsattrHdrSize

def maxLxvsattrValueLen : ℕ := 255 - lxvsattrHdrSize

def extendedHdrSize (xtype : UInt8) : ℕ :=
  if isLongExtended xtype then lxattrHdrSize else xattrHdrSize

/-- The loop of `find_extended_attribute` -/
def findExtendedLoop (m : Mem) (xtype attrtype : UInt8) : ℕ → ℕ → ℕ → Option (ℕ × ℕ)
  | 0, _, _ => none
  | fuel + 1, attr, rem =>
    if rem < attrHdrSize then none
    else if rem < attrLength m attr then none
    else if attrLength m attr < attrHdrSize then none
    else if attrType m attr = xtype then
      if attrLength m attr < extendedHdrSize xtype then none
      else if m (attr + 2) = attrtype then some (attr, rem - attrLength m attr)
      else findExtendedLoop m xtype attrtype fuel (attr + attrLength m attr)
        (rem - attrLength m attr)
    else findExtendedLoop m xtype attrtype fuel (attr + attrLength m attr)
      (rem - attrLength m attr)

/-- `find_extended_attribute`, with what it stores in `*len` -/
def findExtendedAttr (m : Mem) (xtype attrtype : UInt8) (attr len : ℕ) : Option (ℕ × ℕ) :=
  findExtendedLoop m xtype attrtype len attr len

def findExtended (m : Mem) (xtype attrtype : UInt8) (counts : ℕ → Bool) (index : ℤ) : Option ℕ :=
  if isExtended xtype ∧ hdrSize ≤ hdrLength m then
    let len := hdrLength m - hdrSize
    findNthBy m (findExtendedAttr m xtype attrtype) counts len
      (findExtendedAttr m xtype attrtype hdrSize len) index
  else none

def findExtendedAttribute (m : Mem) (xtype attrtype : UInt8) (index : ℤ) : Option ℕ :=
  findExtended m xtype attrtype (fun _ => true) index

/-- Whether an attribute of an extended type is one of the vendor and the type, and whether the
length in it is the right one -/
def isExtendedVsattr (m : Mem) (vendor : UInt32) (xtype attrtype : UInt8) (attr : ℕ) : Bool :=
  if isLongExtended xtype then
    lxvsattrHdrSize ≤ attrLength m attr ∧ ntoh m (attr + 3) 4 = vendor.toNat ∧
      m (attr + 7) = attrtype ∧
      (m (attr + 9)).toNat = attrLength m attr - lxvsattrHdrSize + lxvsSize
  else
    xvsattrHdrSize ≤ attrLength m attr ∧ ntoh m (attr + 3) 4 = vendor.toNat ∧
      m (attr + 7) = attrtype ∧
      (m (attr + 8)).toNat = attrLength m attr - xvsattrHdrSize + xvsSize

def findExtendedVsattr (m : Mem) (vendor : UInt32) (xtype attrtype : UInt8) (index : ℤ) :
    Option ℕ :=
  findExtended m xtype vendorSpecific (isExtendedVsattr m vendor xtype attrtype) index

def insertExtendedAttribute (m : Mem) (max : ℤ) (xtype attrtype : UInt8) (ptr : Ptr)
    (len lxflags : UInt8) : Mem × ℤ :=
  if isShortExtended xtype then
    append m max (fun length => [xtype, .ofNat length, attrtype]) ptr
      (min len.toNat maxXattrValueLen) xattrHdrSize
  else if isLongExtended xtype then
    append m max (fun length => [xtype, .ofNat length, attrtype, lxflags]) ptr
      (min len.toNat maxLxattrValueLen) lxattrHdrSize
  else (m, -1)

/-- A length above the limit is replaced by that of the short form, also in the long form. -/
def cutLen (len maxvallen : ℕ) : ℕ := if maxvallen < len then maxXvsattrValueLen else len

def insertExtendedVendorSpecificAttribute (m : Mem) (max : ℤ) (vendor : UInt32)
    (xtype attrtype : UInt8) (ptr : Ptr) (len lxflags : UInt8) : Mem × ℤ :=
  if isShortExtended xtype then
    let len := cutLen len.toNat maxXvsattrValueLen
    append m max
      (fun length => [xtype, .ofNat length, vendorSpecific] ++ hton32 vendor ++
        [attrtype, .ofNat (len + xvsSize)])
      ptr len xvsattrHdrSize
  else if isLongExtended xtype then
    let len := cutLen len.toNat maxLxvsattrValueLen
    append m max
      (fun length => [xtype, .ofNat length, vendorSpecific] ++ hton32 vendor ++
        [attrtype, lxflags, .ofNat (len + lxvsSize)])
      ptr len lxvsattrHdrSize
  else (m, -1)

/-- `qse_rad_delete_extended_vendor_specific_attribute`, which does not use the index -/
def deleteExtendedVendorSpecificAttribute (m : Mem) (vendor : UInt32) (xtype attrtype : UInt8)
    (_index : ℤ) : Mem × ℤ :=
  deleteFound m (findExtendedVsattr m vendor xtype attrtype 0)

namespace Attr

def cut (xtype : UInt8) (a : Attr) : Bool := a.type = xtype ∧ a.size < extendedHdrSize xtype

def isX (xtype attrtype : UInt8) (a : Attr) : Bool :=
  a.type = xtype ∧ extendedHdrSize xtype ≤ a.size ∧ a.value.getD 0 0 = attrtype

def xVendor (a : Attr) : ℕ :=
  ((a.value.drop 1).take 4).foldl (fun v byte => v * 256 + byte.toNat) 0

def isXvs (vendor : UInt32) (xtype attrtype : UInt8) (a : Attr) : Bool :=
  a.isX xtype vendorSpecific ∧ a.xVendor = vendor.toNat ∧ a.value.getD 5 0 = attrtype ∧
    if isLongExtended xtype then
      lxvsattrHdrSize ≤ a.size ∧ (a.value.getD 7 0).toNat = a.size - lxvsattrHdrSize + lxvsSize
    else
      xvsattrHdrSize ≤ a.size ∧ (a.value.getD 6 0).toNat = a.size - xvsattrHdrSize + xvsSize

end Attr

variable {m : Mem} {p : ℕ} {a : Attr} {as : List Attr} {rem : ℕ} {xtype attrtype : UInt8}
  {vendor : UInt32}

theorem extendedHdrSize_pos (xtype : UInt8) : 3 ≤ extendedHdrSize xtype := by
  rw [extendedHdrSize]
  split <;> decide

section One

variable (h : read m p a.size = a.bytes)

include h

theorem attr_byte {i : ℕ} (hi : 2 + i < a.size) : m (p + (2 + i)) = a.value.getD i 0 := by
  have hsize : a.size = a.value.length + 2 := rfl
  rw [← add_assoc]
  exact value_byte h (by omega)

theorem xVendor_eq (hlong : 7 ≤ a.size) : ntoh m (p + 3) 4 = a.xVendor := by
  have hsize : a.size = a.value.length + 2 := rfl
  have hcut : a.value.length = 1 + (4 + (a.value.length - 5)) := by omega
  have hvalue := read_value h
  rw [hcut, read_add, read_add] at hvalue
  have hfour : (a.value.drop 1).take 4 = read m (p + 3) 4 := by
    rw [← hvalue, drop_left' (length_read ..)]
    exact take_left' (length_read ..)
  rw [ntoh, Attr.xVendor, hfour]

theorem isExtendedVsattr_eq (hx : a.isX xtype vendorSpecific = true) :
    isExtendedVsattr m vendor xtype attrtype p = a.isXvs vendor xtype attrtype := by
  rw [isExtendedVsattr, Attr.isXvs, attrLength_eq h]
  by_cases hlong : isLongExtended xtype = true
  · rw [if_pos hlong, decide_eq_decide]
    simp only [if_pos hlong, hx, true_and]
    by_cases hsize : lxvsattrHdrSize ≤ a.size
    · have hten : 10 ≤ a.size := hsize
      rw [xVendor_eq h (by omega), attr_byte h (i := 5) (by omega), attr_byte h (i := 7) (by omega)]
      tauto
    · tauto
  · rw [if_neg hlong, decide_eq_decide]
    simp only [if_neg hlong, hx, true_and]
    by_cases hsize : xvsattrHdrSize ≤ a.size
    · have hnine : 9 ≤ a.size := hsize
      rw [xVendor_eq h (by omega), attr_byte h (i := 5) (by omega), attr_byte h (i := 6) (by omega)]
      tauto
    · tauto

end One

theorem findExtendedAttr_eq (xtype attrtype : UInt8) (p : ℕ) (as : List Attr)
    (hlaid : Laid m p as) (hends : Ends m (p + sizes as) rem) :
    findExtendedAttr m xtype attrtype p (sizes as + rem) =
      located (Attr.cut xtype) (Attr.isX xtype attrtype) rem p as := by
  refine loop_eq (fun _ _ => rfl) (fun _ _ _ => rfl) (fun fuel p rem a hbytes => ?_) hlaid hends
    le_rfl
  rw [attrLength_eq hbytes, attrType_eq hbytes, Attr.cut, Attr.isX]
  by_cases htype : a.type = xtype
  · by_cases hshort : a.size < extendedHdrSize xtype
    · simp [htype, hshort]
    · have hthree := extendedHdrSize_pos xtype
      rw [attr_byte hbytes (i := 0) (by omega)]
      simp [htype, hshort, not_lt.1 hshort]
  · simp [htype]

section

variable (h : Parsed m as rem) (hx : isExtended xtype = true)
include h hx

theorem Parsed.findExtended
    {counts : ℕ → Bool} {has : Attr → Bool}
    (hcounts : ∀ p a, ByteMemory.read m p a.size = a.bytes → a.isX xtype attrtype = true →
      counts p = has a)
    (hhas : ∀ a, has a = true → a.isX xtype attrtype = true) (index : ℤ) :
    Rad.findExtended m xtype attrtype counts index =
      (positions has hdrSize (before (Attr.cut xtype) as))[index.toNat]? := by
  have hfuel : as.length ≤ sizes as + rem := (length_le_sizes as).trans (Nat.le_add_right ..)
  rw [Rad.findExtended, if_pos ⟨hx, h.le_hdrLength⟩]
  simp only [h.rest]
  exact findNthBy_eq (findExtendedAttr m xtype attrtype) (findExtendedAttr_eq xtype attrtype)
    (fun p a hbytes _ hhere => hcounts p a hbytes hhere) hhas h.laid h.ends hfuel index

theorem Parsed.findExtendedAttribute
    (attrtype : UInt8) (index : ℤ) : Rad.findExtendedAttribute m xtype attrtype index =
      (positions (Attr.isX xtype attrtype) hdrSize (before (Attr.cut xtype) as))[index.toNat]? :=
  h.findExtended hx (fun _ _ _ hhere => hhere.symm) (fun _ hhas => hhas) index

theorem Parsed.findExtendedVsattr
    (vendor : UInt32) (attrtype : UInt8) (index : ℤ) :
    Rad.findExtendedVsattr m vendor xtype attrtype index =
      (positions (Attr.isXvs vendor xtype attrtype) hdrSize
        (before (Attr.cut xtype) as))[index.toNat]? :=
  h.findExtended hx (fun _ _ hbytes hhere => isExtendedVsattr_eq hbytes hhere)
    (fun _ hhas => (of_decide_eq_true hhas).1) index

end

end Qse.Rad
