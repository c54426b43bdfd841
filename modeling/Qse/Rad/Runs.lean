import Qse.Rad.Messages

/-!
# Sequences of calls

What the calls that insert and delete attributes prescribe for the list of attributes, and when they
do it.
-/

open List

namespace Qse.Rad

open ByteMemory

/-! ## What is prescribed -/

def plain (id : UInt8) (bytes : List UInt8) : Attr where
  type := id
  value := bytes.take maxAttrValueLen
  fits := length_take_le ..

def vsValue (vendor : UInt32) (type : UInt8) (bytes : List UInt8) : List UInt8 :=
  hton32 vendor ++ [type, .ofNat (attrHdrSize + bytes.length)] ++ bytes

theorem length_vsValue (vendor : UInt32) (type : UInt8) (bytes : List UInt8) :
    (vsValue vendor type bytes).length = 6 + bytes.length := by
  rw [vsValue, length_append]
  rfl

def vsattr (vendor : UInt32) (type : UInt8) (bytes : List UInt8) : Attr where
  type := vendorSpecific
  value := vsValue vendor type (bytes.take maxVsattrValueLen)
  fits := by
    have hle : (bytes.take maxVsattrValueLen).length ≤ 247 := length_take_le ..
    have hmax : maxAttrValueLen = 253 := rfl
    rw [length_vsValue]
    omega

def attrFor (vendor : UInt32) (id : UInt8) (bytes : List UInt8) : Attr :=
  if vendor = 0 then plain id bytes else vsattr vendor id bytes

def valueLimit (vendor : UInt32) : ℕ := if vendor = 0 then maxAttrValueLen else maxVsattrValueLen

inductive Insertion where
  | plainAttribute (id : UInt8) (ptr : Ptr) (len : UInt8)
  | vendorSpecificAttribute (vendor : UInt32) (type : UInt8) (ptr : Ptr) (len : UInt8)
  | stringAttribute (vendor : UInt32) (id : UInt8) (value : List UInt8)
  | wideStringAttribute (vendor : UInt32) (id : UInt8) (value : List UInt32)
  | stringAttributeWithLength (vendor : UInt32) (id : UInt8) (value : Ptr) (length : UInt8)
  | wideStringAttributeWithLength (vendor : UInt32) (id : UInt8) (value : List UInt32)
      (length : UInt8)
  | uint32Attribute (vendor : UInt32) (id : UInt8) (value : UInt32)
  | ipv6prefixAttribute (vendor : UInt32) (id prefixBits : UInt8) (value : Ptr)
  | gigaAttribute (vendor : UInt32) (lowId highId : UInt8) (value : UInt64)

inductive Call where
  | insert (max : ℤ) (what : Insertion)
  | delete (type : UInt8) (index : ℤ)
  | deleteVendorSpecific (vendor : UInt32) (type : UInt8) (index : ℤ)

section Calls

-- `qse_wcsntombsdup`, which fails for a string that cannot be converted
variable (wcstombs : List UInt32 → Option (List UInt8))

def Insertion.run (m : Mem) (max : ℤ) : Insertion → Option (Mem × ℤ)
  | plainAttribute id ptr len => some (insertAttribute m max id ptr len)
  | vendorSpecificAttribute vendor type ptr len =>
    some (insertVendorSpecificAttribute m max vendor type ptr len)
  | stringAttribute vendor id value => some (insertStringAttribute m max vendor id value)
  | wideStringAttribute vendor id value =>
    insertWideStringAttribute m max vendor id (wcstombs value)
  | stringAttributeWithLength vendor id value length =>
    some (insertStringAttributeWithLength m max vendor id value length)
  | wideStringAttributeWithLength vendor id value length =>
    insertWideStringAttribute m max vendor id (wcstombs (value.take length.toNat))
  | uint32Attribute vendor id value => some (insertUint32Attribute m max vendor id value)
  | ipv6prefixAttribute vendor id prefixBits value =>
    some (insertIpv6prefixAttribute m max vendor id prefixBits value)
  | gigaAttribute vendor lowId highId value =>
    some (insertGigaAttribute m max vendor lowId highId value)

def Call.run (m : Mem) : Call → Option (Mem × ℤ)
  | insert max what => what.run wcstombs m max
  | delete type index => some (deleteAttribute m type index)
  | deleteVendorSpecific vendor type index =>
    some (deleteVendorSpecificAttribute m vendor type index)

def Insertion.attrs : Insertion → Option (List Attr)
  | plainAttribute id ptr len => some [plain id (bytesAt ptr len.toNat)]
  | vendorSpecificAttribute vendor type ptr len =>
    some [vsattr vendor type (bytesAt ptr len.toNat)]
  | stringAttribute vendor id value => some [attrFor vendor id value]
  | wideStringAttribute vendor id value =>
    (wcstombs value).map fun val => [attrFor vendor id val]
  | stringAttributeWithLength vendor id value length =>
    some [attrFor vendor id (bytesAt value length.toNat)]
  | wideStringAttributeWithLength vendor id value length =>
    (wcstombs (value.take length.toNat)).map fun val => [attrFor vendor id val]
  | uint32Attribute vendor id value => some [attrFor vendor id (hton32 value)]
  | ipv6prefixAttribute vendor id prefixBits value =>
    some [attrFor vendor id
      ([0, clampBits prefixBits] ++ prefixBytes (clampBits prefixBits).toNat value)]
  | gigaAttribute vendor lowId highId value =>
    some (attrFor vendor lowId (hton32 value.toUInt32) ::
      if 0xFFFFFFFF < value then [attrFor vendor highId (hton32 (value >>> 32).toUInt32)] else [])

def deleteNth (has : Attr → Bool) : ℕ → List Attr → List Attr
  | _, [] => []
  | i, a :: as =>
    if has a then
      match i with
      | 0 => as
      | i + 1 => a :: deleteNth has i as
    else a :: deleteNth has i as

def deleted (has : Attr → Bool) (index : ℤ) (as : List Attr) : List Attr × ℤ :=
  if (as.filter has).length ≤ index.toNat then (as, 0) else (deleteNth has index.toNat as, 1)

/-- The list of attributes after a call, and what is to be returned. -/
def Call.prescribed (as : List Attr) : Call → List Attr × ℤ
  | insert max what =>
    match what.attrs wcstombs with
    | none => (as, -1)
    | some new => if max < total (as ++ new) then (as, -1) else (as ++ new, 0)
  | delete type index => deleted (fun a => a.type = type) index as
  | deleteVendorSpecific vendor type index => deleted (Attr.isVs vendor type) index as

def LengthOk (vendor : UInt32) (length : ℕ) : Prop :=
  min (length % 256) (valueLimit vendor) = min length (valueLimit vendor)

def Insertion.Regular : Insertion → Prop
  | stringAttribute vendor _ value => LengthOk vendor value.length
  | wideStringAttribute vendor _ value =>
    ∃ val, wcstombs value = some val ∧ LengthOk vendor val.length
  | wideStringAttributeWithLength vendor _ value length =>
    ∃ val, wcstombs (value.take length.toNat) = some val ∧ LengthOk vendor val.length
  | _ => True

def SameSize (has : Attr → Bool) (i : ℕ) (as : List Attr) : Prop :=
  ∀ front a b back, as = front ++ a :: b :: back → has a = true → (front.filter has).length = i →
    b.size = a.size

/-- A call does what is prescribed for the list of attributes: it is a deletion with nothing to be
moved but an attribute of the same size, and not one of a vendor's attribute that is not the first
one; or it is an insertion where the attributes of a pair fit into the message together, or not even
the first does, and where an attribute of the type for vendors has a vendor and the right length. -/
def Call.Regular (as : List Attr) : Call → Prop
  | insert max what => max ≤ 65535 ∧ what.Regular wcstombs ∧
      ∀ new, what.attrs wcstombs = some new →
        (∀ a ∈ new, a.type = vendorSpecific → a.vsOk = true) ∧
          (max < total (as ++ new.take 1) ∨ total (as ++ new) ≤ max)
  | delete type index => SameSize (fun a => a.type = type) index.toNat as
  | deleteVendorSpecific vendor type index =>
    (index ≤ 0 ∨ as.filter (Attr.isVs vendor type) = []) ∧ SameSize (Attr.isVs vendor type) 0 as

inductive Reach (code id : UInt8) : Mem → List Attr → Prop where
  | start (m : Mem) : Reach code id (radInitialize m code id) []
  | step {m m' : Mem} {as : List Attr} {ret : ℤ} (c : Call) (h : Reach code id m as)
      (hregular : c.Regular wcstombs as) (hrun : c.run wcstombs m = some (m', ret)) :
      Reach code id m' (c.prescribed wcstombs as).1

end Calls

/-! ## Insertions -/

variable {code id : UInt8} {m : Mem} {as : List Attr} {max : ℤ} {vendor : UInt32} {ptr : Ptr}
  {len : UInt8}

theorem take_bytesAt (ptr : Ptr) (len n : ℕ) :
    (bytesAt ptr len).take n = bytesAt ptr (min len n) := by
  rw [bytesAt, ← map_take, take_range, Nat.min_comm]
  rfl

theorem bytesAt_ptrTo (bytes : List UInt8) {n : ℕ} (h : n ≤ bytes.length) :
    bytesAt (ptrTo bytes) n = bytes.take n := by
  refine ext_getElem (by simpa [bytesAt] using h) fun i hi hi' => ?_
  have hlen : i < bytes.length := by
    rw [length_take] at hi'
    omega
  simp [bytesAt, ptrTo, hlen]

def Inserts (code id : UInt8) (m : Mem) (as : List Attr) (max : ℤ) (new : List Attr)
    (res : Mem × ℤ) : Prop :=
  (max < total (as ++ new) → res = (m, -1)) ∧
    (total (as ++ new) ≤ max → ∃ m', res = (m', 0) ∧ Message code id m' (as ++ new))

section

variable (h : Message code id m as) (hmax : max ≤ 65535) (type : UInt8)
include h hmax type

theorem inserts_attribute :
    Inserts code id m as max [plain type (bytesAt ptr len.toNat)]
      (insertAttribute m max type ptr len) := by
  have hvalue := take_bytesAt ptr len.toNat maxAttrValueLen
  have hbytes : (plain type (bytesAt ptr len.toNat)).value =
    bytesAt ptr (min len.toNat maxAttrValueLen) := hvalue
  have hsize : attrHdrSize + min len.toNat maxAttrValueLen =
      (plain type (bytesAt ptr len.toNat)).size := by
    rw [Attr.size, hbytes, add_comm]
    simp [bytesAt]
  refine ⟨append_of_lt h hsize, append_of_le h hsize rfl ?_ hmax⟩
  rw [Attr.bytes, hbytes]
  rfl

theorem inserts_vendorSpecificAttribute :
    Inserts code id m as max [vsattr vendor type (bytesAt ptr len.toNat)]
      (insertVendorSpecificAttribute m max vendor type ptr len) := by
  have hvalue := take_bytesAt ptr len.toNat maxVsattrValueLen
  have hlength : (bytesAt ptr (min len.toNat maxVsattrValueLen)).length =
      min len.toNat maxVsattrValueLen := by simp [bytesAt]
  have hbytes : (vsattr vendor type (bytesAt ptr len.toNat)).value =
      vsValue vendor type (bytesAt ptr (min len.toNat maxVsattrValueLen)) :=
    congrArg (vsValue vendor type) hvalue
  have hsize : vsattrHdrSize + min len.toNat maxVsattrValueLen =
      (vsattr vendor type (bytesAt ptr len.toNat)).size := by
    rw [Attr.size, hbytes, length_vsValue, hlength, add_right_comm]
    rfl
  rw [Inserts, insertVendorSpecificAttribute]
  refine ⟨append_of_lt h hsize, append_of_le h hsize rfl ?_ hmax⟩
  rw [Attr.bytes, hbytes, vsValue, hlength]
  rfl

theorem inserts_insertFor :
    Inserts code id m as max [attrFor vendor type (bytesAt ptr len.toNat)]
      (insertFor m max vendor type ptr len) := by
  rw [attrFor, insertFor]
  by_cases hvendor : vendor = 0
  · rw [if_pos hvendor, if_pos hvendor]
    exact inserts_attribute h hmax type
  · rw [if_neg hvendor, if_neg hvendor]
    exact inserts_vendorSpecificAttribute h hmax type

end

variable {bytes : List UInt8}

theorem attrFor_congr {bytes' : List UInt8} (type : UInt8)
    (h : bytes.take (valueLimit vendor) = bytes'.take (valueLimit vendor)) :
    attrFor vendor type bytes = attrFor vendor type bytes' := by
  rw [attrFor, attrFor]
  by_cases hvendor : vendor = 0
  · rw [valueLimit, if_pos hvendor] at h
    rw [if_pos hvendor, if_pos hvendor, plain, plain]
    simp only [h]
  · rw [valueLimit, if_neg hvendor] at h
    rw [if_neg hvendor, if_neg hvendor, vsattr, vsattr]
    simp only [h]

theorem attrFor_ptrTo (type : UInt8) (hlen : LengthOk vendor bytes.length) :
    attrFor vendor type (bytesAt (ptrTo bytes) (UInt8.ofNat bytes.length).toNat) =
      attrFor vendor type bytes := by
  have hmod : (UInt8.ofNat bytes.length).toNat = bytes.length % 256 := UInt8.toNat_ofNat'
  refine attrFor_congr type ?_
  rw [take_bytesAt, hmod, hlen, bytesAt_ptrTo _ (Nat.min_le_left ..), take_eq_take_iff]
  omega

theorem lengthOk_of_lt {length : ℕ} (h : length < 256) : LengthOk vendor length := by
  rw [LengthOk, Nat.mod_eq_of_lt h]

theorem inserts_ptrTo (h : Message code id m as) (hmax : max ≤ 65535) (type : UInt8)
    (hlen : LengthOk vendor bytes.length) :
    Inserts code id m as max [attrFor vendor type bytes]
      (insertFor m max vendor type (ptrTo bytes) (.ofNat bytes.length)) := by
  rw [← attrFor_ptrTo type hlen]
  exact inserts_insertFor h hmax type

theorem deleteNth_of_not {has : Attr → Bool} {a : Attr} (h : ¬has a = true) (i : ℕ)
    (as : List Attr) : deleteNth has i (a :: as) = a :: deleteNth has i as := by
  rw [deleteNth.eq_def]
  exact if_neg h

theorem positions_spec (has : Attr → Bool) (p : ℕ) (as : List Attr) (i : ℕ) :
    (as.filter has).length ≤ i ∧ (positions has p as)[i]? = none ∨
      i < (as.filter has).length ∧ ∃ front a back, as = front ++ a :: back ∧ has a = true ∧
        (front.filter has).length = i ∧ (positions has p as)[i]? = some (p + sizes front) ∧
        deleteNth has i as = front ++ back := by
  induction as generalizing p i with
  | nil => exact .inl ⟨Nat.zero_le i, rfl⟩
  | cons a as ih =>
    rw [positions]
    by_cases hhas : has a = true
    · rw [if_pos hhas, filter_cons_of_pos hhas, length_cons]
      cases i with
      | zero =>
        refine .inr ⟨Nat.succ_pos _, [], a, as, rfl, hhas, rfl, rfl, ?_⟩
        rw [deleteNth, if_pos hhas]
        rfl
      | succ i =>
        rw [getElem?_cons_succ]
        obtain ⟨hlen, hnone⟩ | ⟨hlen, front, b, back, rfl, hb, hi, hsome, hdelete⟩ :=
          ih (p + a.size) i
        · exact .inl ⟨Nat.succ_le_succ hlen, hnone⟩
        · refine .inr ⟨Nat.succ_lt_succ hlen, a :: front, b, back, rfl, hb, ?_, ?_, ?_⟩
          · rw [filter_cons_of_pos hhas, length_cons, hi]
          · rw [hsome, sizes_cons, add_assoc]
          · rw [deleteNth, if_pos hhas]
            exact congrArg (a :: ·) hdelete
    · rw [if_neg hhas, filter_cons_of_neg hhas]
      obtain ⟨hlen, hnone⟩ | ⟨hlen, front, b, back, rfl, hb, hi, hsome, hdelete⟩ :=
        ih (p + a.size) i
      · exact .inl ⟨hlen, hnone⟩
      · refine .inr ⟨hlen, a :: front, b, back, rfl, hb, ?_, ?_, ?_⟩
        · rw [filter_cons_of_neg hhas, hi]
        · rw [hsome, sizes_cons, add_assoc]
        · rw [deleteNth_of_not hhas]
          exact congrArg (a :: ·) hdelete

theorem deleteFound_eq (h : Message code id m as) (has : Attr → Bool) (index : ℤ)
    (hnext : SameSize has index.toNat as) :
    ∃ m', deleteFound m (positions has hdrSize as)[index.toNat]? =
        (m', (deleted has index as).2) ∧ Message code id m' (deleted has index as).1 := by
  obtain ⟨hlen, hnone⟩ | ⟨hlen, front, a, back, rfl, ha, hi, hsome, hdelete⟩ :=
    positions_spec has hdrSize as index.toNat
  · rw [deleted, if_pos hlen, hnone]
    exact ⟨m, rfl, h⟩
  rw [deleted, if_neg (Nat.not_le_of_lt hlen), hsome, hdelete]
  have hsame : sizeBehind a back = a.size := by
    cases back with
    | nil => rfl
    | cons b back => exact hnext front a b back rfl ha hi
  have hrun : deleteAttr m (hdrSize + sizes front) = (removed m front a back, 0) :=
    deleteAttr_eq h.parsed
  refine ⟨removed m front a back, ?_, h.removed hsame⟩
  rw [deleteFound, hrun]
  rfl

/-! ## Calls -/

section Calls

variable {wcstombs : List UInt32 → Option (List UInt8)}

theorem inserts_pair {a b : Attr} {first : Mem × ℤ} (second : Mem → Mem × ℤ)
    (hfirst : Inserts code id m as max [a] first) (hsecond : ∀ m', Message code id m' (as ++ [a]) →
      Inserts code id m' (as ++ [a]) max [b] (second m'))
    (hroom : max < total (as ++ [a]) ∨ total (as ++ [a, b]) ≤ max) :
    Inserts code id m as max [a, b] (if first.2 = -1 then first else second first.1) := by
  have happend : as ++ [a] ++ [b] = as ++ [a, b] := append_assoc ..
  obtain ⟨hfail, hdone⟩ := hfirst
  have hmore : total (as ++ [a]) ≤ total (as ++ [a, b]) := by
    rw [← happend, total, total, sizes_append (as ++ [a])]
    omega
  obtain hlow | hhigh := hroom
  · rw [hfail hlow, if_pos rfl]
    exact ⟨fun _ => rfl, fun hle => by omega⟩
  obtain ⟨m', rfl, hmessage⟩ := hdone (by omega)
  obtain ⟨-, hdone'⟩ := hsecond m' hmessage
  rw [happend] at hdone'
  have hok : ¬(0 : ℤ) = -1 := by decide
  rw [if_neg hok]
  exact ⟨fun hlt => by omega, hdone'⟩

theorem toNat_clampBits (prefixBits : UInt8) : (clampBits prefixBits).toNat ≤ 128 := by
  rw [clampBits]
  split
  · exact le_rfl
  · exact UInt8.le_iff_toNat_le.1 (UInt8.not_lt.1 ‹_›)

theorem Insertion.run_spec (h : Message code id m as) (hmax : max ≤ 65535) {what : Insertion}
    (hregular : what.Regular wcstombs) (hroom : ∀ new, what.attrs wcstombs = some new →
      (max < total (as ++ new.take 1) ∨ total (as ++ new) ≤ max)) :
    ∃ new res, what.attrs wcstombs = some new ∧ what.run wcstombs m max = some res ∧
      Inserts code id m as max new res := by
  cases what with
  | plainAttribute type ptr len => exact ⟨_, _, rfl, rfl, inserts_attribute h hmax type⟩
  | vendorSpecificAttribute vendor type ptr len =>
    exact ⟨_, _, rfl, rfl, inserts_vendorSpecificAttribute h hmax type⟩
  | stringAttribute vendor type value =>
    exact ⟨_, _, rfl, rfl, inserts_ptrTo h hmax type hregular⟩
  | wideStringAttribute vendor type value =>
    obtain ⟨val, hval, hlen⟩ := hregular
    refine ⟨_, _, ?_, ?_, inserts_ptrTo h hmax type hlen⟩
    · rw [attrs, hval]
      rfl
    · rw [run, hval]
      rfl
  | stringAttributeWithLength vendor type value length =>
    exact ⟨_, _, rfl, rfl, inserts_insertFor h hmax type⟩
  | wideStringAttributeWithLength vendor type value length =>
    obtain ⟨val, hval, hlen⟩ := hregular
    refine ⟨_, _, ?_, ?_, inserts_ptrTo h hmax type hlen⟩
    · rw [attrs, hval]
      rfl
    · rw [run, hval]
      rfl
  | uint32Attribute vendor type value =>
    exact ⟨_, _, rfl, rfl, inserts_ptrTo h hmax type (lengthOk_of_lt (by decide : 4 < 256))⟩
  | ipv6prefixAttribute vendor type prefixBits value =>
    have hlen : ([0, clampBits prefixBits] ++
        prefixBytes (clampBits prefixBits).toNat value).length =
        (prefixBytes (clampBits prefixBits).toNat value).length + 2 := by
      rw [length_append, add_comm]
      rfl
    have hbits := toNat_clampBits prefixBits
    have hshort : (prefixBytes (clampBits prefixBits).toNat value).length + 2 < 256 := by
      rw [prefixBytes, length_map, length_range]
      omega
    refine ⟨_, _, rfl, rfl, ?_⟩
    rw [insertIpv6prefixAttribute, ← hlen]
    exact inserts_ptrTo h hmax type (lengthOk_of_lt (by rw [hlen]; exact hshort))
  | gigaAttribute vendor lowId highId value =>
    have hlow : Inserts code id m as max [attrFor vendor lowId (hton32 value.toUInt32)]
        (insertFor m max vendor lowId (ptrTo (hton32 value.toUInt32)) 4) :=
      inserts_ptrTo h hmax lowId (lengthOk_of_lt (by decide : 4 < 256))
    have hroom' := hroom _ rfl
    refine ⟨_, _, rfl, rfl, ?_⟩
    by_cases hlarge : 0xFFFFFFFF < value
    · rw [if_pos hlarge] at hroom' ⊢
      rw [insertGigaAttribute]
      simp only [if_pos hlarge]
      refine inserts_pair (fun m' => insertFor m' max vendor highId
        (ptrTo (hton32 (value >>> 32).toUInt32)) 4) hlow (fun m' h' => ?_) hroom'
      exact inserts_ptrTo h' hmax highId (lengthOk_of_lt (by decide : 4 < 256))
    · rw [if_neg hlarge, insertGigaAttribute]
      simp only [if_neg hlarge, ite_self]
      exact hlow

variable {c : Call}

theorem Call.run_spec (h : Message code id m as) (hregular : c.Regular wcstombs as) :
    ∃ m', c.run wcstombs m = some (m', (c.prescribed wcstombs as).2) ∧
      Message code id m' (c.prescribed wcstombs as).1 := by
  cases c with
  | insert max what =>
    obtain ⟨hmax, hwhat, hnew⟩ := hregular
    obtain ⟨new, res, hattrs, hrun, hfail, hdone⟩ :=
      Insertion.run_spec h hmax hwhat fun new hattrs => (hnew new hattrs).2
    rw [run, hrun, prescribed, hattrs]
    by_cases hlt : max < total (as ++ new)
    · refine ⟨m, ?_, ?_⟩
      · simp only [if_pos hlt, hfail hlt]
      · simpa only [if_pos hlt] using h
    · obtain ⟨m', hres, hmessage⟩ := hdone (not_lt.1 hlt)
      refine ⟨m', ?_, ?_⟩
      · simp only [if_neg hlt, hres]
      · simpa only [if_neg hlt] using hmessage
  | delete type index =>
    obtain ⟨m', hdelete, hmessage⟩ := deleteFound_eq h (fun a => a.type = type) index hregular
    refine ⟨m', ?_, hmessage⟩
    rw [run, deleteAttribute, h.parsed.findAttribute, hdelete]
    rfl
  | deleteVendorSpecific vendor type index =>
    obtain ⟨hfirst, hsame⟩ := hregular
    have hindex : deleted (Attr.isVs vendor type) index as =
        deleted (Attr.isVs vendor type) 0 as := by
      obtain hneg | hnone := hfirst
      · have hzero : index.toNat = (0 : ℤ).toNat := by omega
        rw [deleted, deleted, hzero]
      · have hempty : ∀ n, ([] : List Attr).length ≤ n := Nat.zero_le
        rw [deleted, deleted, hnone, if_pos (hempty _), if_pos (hempty _)]
    obtain ⟨m', hdelete, hmessage⟩ := deleteFound_eq h (Attr.isVs vendor type) 0 hsame
    refine ⟨m', ?_, ?_⟩
    · rw [run, deleteVendorSpecificAttribute, h.parsed.findVsattr, hdelete, prescribed, hindex]
    · rw [prescribed, hindex]
      exact hmessage

/-! ## Runs -/

theorem mem_of_mem_deleted {has : Attr → Bool} {index : ℤ} {b : Attr}
    (hb : b ∈ (deleted has index as).1) : b ∈ as := by
  obtain ⟨hlen, -⟩ | ⟨hlen, front, a, back, rfl, -, -, -, hdelete⟩ :=
    positions_spec has hdrSize as index.toNat
  · rwa [deleted, if_pos hlen] at hb
  · rw [deleted, if_neg (Nat.not_le_of_lt hlen), hdelete] at hb
    obtain hfront | hback := mem_append.1 hb
    · exact mem_append_left _ hfront
    · exact mem_append_right _ (mem_cons_of_mem a hback)

theorem Call.vsOk_prescribed (hregular : c.Regular wcstombs as)
    (hvs : ∀ a ∈ as, a.type = vendorSpecific → a.vsOk = true) :
    ∀ a ∈ (c.prescribed wcstombs as).1, a.type = vendorSpecific → a.vsOk = true := by
  cases c with
  | insert max what =>
    obtain ⟨-, -, hnew⟩ := hregular
    rw [prescribed]
    cases hattrs : what.attrs wcstombs with
    | none => exact hvs
    | some new =>
      by_cases hlt : max < total (as ++ new)
      · simpa only [if_pos hlt] using hvs
      · simp only [if_neg hlt]
        intro a ha
        obtain hold | hadded := mem_append.1 ha
        · exact hvs a hold
        · exact (hnew new hattrs).1 a hadded
  | delete type index | deleteVendorSpecific vendor type index =>
    exact fun a ha => hvs a (mem_of_mem_deleted ha)

theorem Reach.message (h : Reach wcstombs code id m as) :
    Message code id m as ∧ ∀ a ∈ as, a.type = vendorSpecific → a.vsOk = true := by
  induction h with
  | start m => exact ⟨message_radInitialize m code id, fun a ha => by cases ha⟩
  | step c h hregular hrun ih =>
    obtain ⟨hmessage, hvs⟩ := ih
    obtain ⟨m', hrun', hmessage'⟩ := Call.run_spec hmessage hregular
    rw [hrun] at hrun'
    cases hrun'
    exact ⟨hmessage', Call.vsOk_prescribed hregular hvs⟩

theorem prescribed_of_fails (h : (c.prescribed wcstombs as).2 = -1) :
    (c.prescribed wcstombs as).1 = as := by
  have hdeleted : ∀ (has : Attr → Bool) (index : ℤ), (deleted has index as).2 ≠ -1 := by
    intro has index
    rw [deleted]
    split
    · exact (by decide : (0 : ℤ) ≠ -1)
    · exact (by decide : (1 : ℤ) ≠ -1)
  cases c with
  | insert max what =>
    rw [Call.prescribed] at h ⊢
    cases hattrs : what.attrs wcstombs with
    | none => rfl
    | some new =>
      rw [hattrs] at h
      by_cases hlt : max < total (as ++ new)
      · simp only [if_pos hlt]
      · simp only [if_neg hlt] at h
        exact absurd h (by decide)
  | delete type index | deleteVendorSpecific vendor type index => exact absurd h (hdeleted _ _)

/-- In a run of regular calls the message is the encoding of the list of attributes, which is what
a walk visits and a search looks through. The next regular call changes the list as is prescribed,
and if it fails the message stays as it is. -/
theorem Reach.follows (h : Reach wcstombs code id m as) :
    read m 0 (total as) = header code id (total as) ++ encode as ∧
      (∀ (S : Type) (walker : S → ℕ → ℕ → S × Bool) (s : S),
        walkAttributes m walker s = callWalker walker s (visits hdrSize as)) ∧
      (∀ type index, findAttribute m type index =
        (positions (fun a => a.type = type) hdrSize as)[index.toNat]?) ∧
      (∀ vendor type index, findVsattr m vendor type index =
        (positions (Attr.isVs vendor type) hdrSize as)[index.toNat]?) ∧
      ∀ c : Call, c.Regular wcstombs as → ∃ m',
        c.run wcstombs m = some (m', (c.prescribed wcstombs as).2) ∧
          Reach wcstombs code id m' (c.prescribed wcstombs as).1 ∧
          ((c.prescribed wcstombs as).2 = -1 → read m' 0 (total as) = read m 0 (total as)) := by
  obtain ⟨hmessage, hvs⟩ := h.message
  refine ⟨hmessage.read, fun S walker s => hmessage.parsed.walkAttributes (by decide) hvs walker s,
    hmessage.parsed.findAttribute, hmessage.parsed.findVsattr, fun c hregular => ?_⟩
  obtain ⟨m', hrun, hmessage'⟩ := Call.run_spec hmessage hregular
  refine ⟨m', hrun, .step c h hregular hrun, fun hfails => ?_⟩
  rw [prescribed_of_fails hfails] at hmessage'
  rw [hmessage'.read, hmessage.read]

/-- Two attributes of the same size, where the first one is deleted -/
theorem reach_follows_same_size :
    ∃ m, Reach (fun _ => none) 1 7 m [plain 2 [67]] ∧
      walkAttributes m (fun s vendor attr => (s ++ [(vendor, attr)], true)) [] =
        ([(0, 20)], true) := by
  have hroom : ∀ {i : UInt8} {b : UInt8} {as : List Attr}, total (as ++ [plain i [b]]) ≤ 100 →
      i ≠ vendorSpecific → Call.Regular (fun _ => none) as
        (.insert 100 (.plainAttribute i (ptrTo [b]) 1)) := by
    intro i b as hle hne
    refine ⟨by decide, trivial, ?_⟩
    rintro new ⟨⟩
    refine ⟨?_, .inr (by exact_mod_cast hle)⟩
    intro a ha htype
    rw [mem_singleton] at ha
    rw [ha] at htype
    exact absurd htype hne
  have hsame : Call.Regular (fun _ => none) [plain 1 [65], plain 2 [67]] (.delete 1 0) := by
    rintro front a b back hpair - -
    cases front with
    | nil =>
      cases hpair
      rfl
    | cons c front =>
      have hlength := congrArg List.length hpair
      simp only [length_cons, length_append, length_nil] at hlength
      omega
  have hstart : Reach (fun _ => none) 1 7 (radInitialize (fun _ => 0) 1 7) [] := .start _
  obtain ⟨-, -, -, -, hfirst⟩ := hstart.follows
  obtain ⟨m₁, -, hreach₁, -⟩ := hfirst _ (hroom (i := 1) (b := 65) (by decide) (by decide))
  obtain ⟨-, -, -, -, hsecond⟩ := hreach₁.follows
  obtain ⟨m₂, -, hreach₂, -⟩ := hsecond _ (hroom (i := 2) (b := 67) (by decide) (by decide))
  obtain ⟨-, -, -, -, hthird⟩ := hreach₂.follows
  obtain ⟨m₃, -, hreach₃, -⟩ := hthird (.delete 1 0) hsame
  obtain ⟨-, hwalk, -⟩ := hreach₃.follows
  refine ⟨m₃, hreach₃, ?_⟩
  rw [hwalk]
  rfl

end Calls

def runCalls (wcstombs : List UInt32 → Option (List UInt8)) (m : Mem) : List Call → Option Mem
  | [] => some m
  | c :: cs => (c.run wcstombs m).bind fun res => runCalls wcstombs res.1 cs

def prescribedCalls (wcstombs : List UInt32 → Option (List UInt8)) (as : List Attr) :
    List Call → List Attr
  | [] => as
  | c :: cs => prescribedCalls wcstombs (c.prescribed wcstombs as).1 cs

/-- A message gets too long when a longer attribute is deleted in front of a shorter one. -/
theorem not_message_delete : ¬∀ (calls : List Call) (m : Mem),
    runCalls (fun _ => none) (radInitialize (fun _ => 0) 1 7) calls = some m →
      Message 1 7 m (prescribedCalls (fun _ => none) [] calls) := by
  intro hclaim
  have hmessage := hclaim [.insert 100 (.plainAttribute 1 (ptrTo [65, 66]) 2),
    .insert 100 (.plainAttribute 2 (ptrTo [67]) 1), .delete 1 0] _ rfl
  have hlength := hmessage.hdrLength
  revert hlength
  decide +kernel

end Qse.Rad
