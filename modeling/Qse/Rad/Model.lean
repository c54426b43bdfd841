import Qse.Support.ByteMemory

/-!
# RADIUS messages

A translation of the functions in `lib/rad/radmsg.c` that make a message and that insert, delete,
find and visit its attributes, without the ones for extended attributes. A pointer is an offset from
the header of the message, and the memory behind the message is there. The arguments are not parts
of the message. The digest of the bytes is a parameter.
-/

namespace Qse.Rad

open ByteMemory

/-- `qse_ntoh16` and `qse_ntoh32` of a number at an address -/
def ntoh (m : Mem) (a n : ℕ) : ℕ := (read m a n).foldl (fun v byte => v * 256 + byte.toNat) 0

def hton32 (v : UInt32) : List UInt8 :=
  [(v >>> 24).toUInt8, (v >>> 16).toUInt8, (v >>> 8).toUInt8, v.toUInt8]

/-- `QSE_SIZEOF(qse_rad_hdr_t)`, `QSE_SIZEOF(qse_rad_attr_hdr_t)` and
`QSE_SIZEOF(qse_rad_vsattr_hdr_t)` -/
def hdrSize : ℕ := 20

def attrHdrSize : ℕ := 2

def vsattrHdrSize : ℕ := 8

/-- `QSE_RAD_MAX_ATTR_VALUE_LEN` and `QSE_RAD_MAX_VSATTR_VALUE_LEN` -/
def maxAttrValueLen : ℕ := 255 - attrHdrSize

def maxVsattrValueLen : ℕ := 255 - vsattrHdrSize

def vendorSpecific : UInt8 := 26

/-- `qse_ntoh16(hdr->length)` -/
def hdrLength (m : Mem) : ℕ := ntoh m 2 2

/-- `hdr->length = qse_hton16(len)`, where the argument is an integer of 16 bits -/
def setHdrLength (m : Mem) (len : ℕ) : Mem := write m 2 [.ofNat (len / 256), .ofNat len]

/-- `attr->type` and `attr->length` -/
def attrType (m : Mem) (attr : ℕ) : UInt8 := m attr

def attrLength (m : Mem) (attr : ℕ) : ℕ := (m (attr + 1)).toNat

def radInitialize (m : Mem) (code id : UInt8) : Mem :=
  setHdrLength (write (fill m 0 hdrSize 0) 0 [code, id]) hdrSize

/-- The loop of `find_attribute`. An attribute has at least two bytes, so the fuel may be `rem`. -/
def findLoop (m : Mem) (type : UInt8) : ℕ → ℕ → ℕ → Option (ℕ × ℕ)
  | 0, _, _ => none
  | fuel + 1, attr, rem =>
    if rem < attrHdrSize then none
    else if rem < attrLength m attr then none
    else if attrLength m attr < attrHdrSize then none
    else if attrType m attr = type then some (attr, rem - attrLength m attr)
    else findLoop m type fuel (attr + attrLength m attr) (rem - attrLength m attr)

/-- `find_attribute`, with what it stores in `*len` -/
def findAttr (m : Mem) (attr len : ℕ) (type : UInt8) : Option (ℕ × ℕ) :=
  findLoop m type len attr len

/-- The loop of `qse_rad_find_attribute` and `qse_rad_find_vsattr`, which do not count all of the
attributes that are found -/
def findNth (m : Mem) (type : UInt8) (counts : ℕ → Bool) :
    ℕ → Option (ℕ × ℕ) → ℤ → Option ℕ
  | 0, _, _ => none
  | _ + 1, none, _ => none
  | fuel + 1, some (attr, len), index =>
    let next := findAttr m (attr + attrLength m attr) len type
    if counts attr then
      if index ≤ 0 then some attr else findNth m type counts fuel next (index - 1)
    else findNth m type counts fuel next index

def find (m : Mem) (type : UInt8) (counts : ℕ → Bool) (index : ℤ) : Option ℕ :=
  if hdrSize ≤ hdrLength m then
    let len := hdrLength m - hdrSize
    findNth m type counts len (findAttr m hdrSize len type) index
  else none

def findAttribute (m : Mem) (type : UInt8) (index : ℤ) : Option ℕ :=
  find m type (fun _ => true) index

def vsLengthOk (m : Mem) (vsattr : ℕ) : Bool :=
  vsattrHdrSize ≤ attrLength m vsattr ∧
    attrLength m (vsattr + 6) = attrLength m vsattr - vsattrHdrSize + attrHdrSize

/-- `qse_ntoh32(vsattr->vendor)` -/
def vsVendor (m : Mem) (vsattr : ℕ) : ℕ := ntoh m (vsattr + 2) 4

def findVsattr (m : Mem) (vendor : UInt32) (type : UInt8) (index : ℤ) : Option ℕ :=
  find m vendorSpecific
    (fun attr => vsLengthOk m attr ∧ vsVendor m attr = vendor.toNat ∧ attrType m (attr + 6) = type)
    index

/-- The loop of `qse_rad_walk_attributes`. -/
def walkLoop {S : Type} (m : Mem) (walker : S → ℕ → ℕ → S × Bool) :
    ℕ → ℕ → ℕ → S → S × Bool
  | 0, _, _, s => (s, true)
  | fuel + 1, attr, rem, s =>
    if rem < attrHdrSize then (s, true)
    else if rem < attrLength m attr then (s, false)
    else if attrLength m attr < attrHdrSize then (s, false)
    else if attrType m attr = vendorSpecific ∧ vsLengthOk m attr = false then (s, false)
    else
      let called :=
        if attrType m attr = vendorSpecific then walker s (vsVendor m attr) (attr + 6)
        else walker s 0 attr
      if called.2 = false then called
      else walkLoop m walker fuel (attr + attrLength m attr) (rem - attrLength m attr) called.1

/-- `qse_rad_walk_attributes`, which returns 0 or -1 -/
def walkAttributes {S : Type} (m : Mem) (walker : S → ℕ → ℕ → S × Bool) (s : S) : S × Bool :=
  if hdrLength m < hdrSize then (s, false)
  else walkLoop m walker (hdrLength m - hdrSize + 1) hdrSize (hdrLength m - hdrSize) s

abbrev Ptr := ℕ → UInt8

def bytesAt (ptr : Ptr) (len : ℕ) : List UInt8 := (List.range len).map ptr

def ptrTo (bytes : List UInt8) : Ptr := fun i => bytes.getD i 0

def append (m : Mem) (max : ℤ) (hdr : ℕ → List UInt8) (ptr : Ptr) (len hdrSize : ℕ) : Mem × ℤ :=
  let authLen := hdrLength m
  let newAuthLen := authLen + hdrSize + len
  if max < newAuthLen then (m, -1)
  else
    let m := write m authLen (hdr (newAuthLen - authLen))
    let m := write m (authLen + hdrSize) (bytesAt ptr len)
    (setHdrLength m newAuthLen, 0)

def insertAttribute (m : Mem) (max : ℤ) (id : UInt8) (ptr : Ptr) (len : UInt8) : Mem × ℤ :=
  append m max (fun length => [id, .ofNat length]) ptr (min len.toNat maxAttrValueLen) attrHdrSize

def insertVendorSpecificAttribute (m : Mem) (max : ℤ) (vendor : UInt32) (type : UInt8) (ptr : Ptr)
    (len : UInt8) : Mem × ℤ :=
  let len := min len.toNat maxVsattrValueLen
  append m max
    (fun length => [vendorSpecific, .ofNat length] ++ hton32 vendor ++
      [type, .ofNat (attrHdrSize + len)])
    ptr len vsattrHdrSize

def insertFor (m : Mem) (max : ℤ) (vendor : UInt32) (id : UInt8) (ptr : Ptr) (len : UInt8) :
    Mem × ℤ :=
  if vendor = 0 then insertAttribute m max id ptr len
  else insertVendorSpecificAttribute m max vendor id ptr len

/-- `qse_rad_insert_string_attribute`, for a string of the length that `qse_mbslen` returns. The
length is passed as an integer of 8 bits. -/
def insertStringAttribute (m : Mem) (max : ℤ) (vendor : UInt32) (id : UInt8) (value : List UInt8) :
    Mem × ℤ :=
  insertFor m max vendor id (ptrTo value) (.ofNat value.length)

def insertStringAttributeWithLength := insertFor

/-- `qse_rad_insert_wide_string_attribute` and the same function with a length, for what the string
is converted to. The result is undefined if it cannot be converted. -/
def insertWideStringAttribute (m : Mem) (max : ℤ) (vendor : UInt32) (id : UInt8)
    (val : Option (List UInt8)) : Option (Mem × ℤ) :=
  val.map fun val => insertFor m max vendor id (ptrTo val) (.ofNat val.length)

def insertUint32Attribute (m : Mem) (max : ℤ) (vendor : UInt32) (id : UInt8) (value : UInt32) :
    Mem × ℤ :=
  insertFor m max vendor id (ptrTo (hton32 value)) 4

def prefixBytes (bits : ℕ) (value : Ptr) : List UInt8 :=
  (List.range ((bits + 7) / 8)).map fun j =>
    if 8 ≤ bits - j * 8 then value j
    else value j &&& ((0xFF : UInt8) <<< UInt8.ofNat (8 - (bits - j * 8)))

def clampBits (prefixBits : UInt8) : UInt8 := if 128 < prefixBits then 128 else prefixBits

def insertIpv6prefixAttribute (m : Mem) (max : ℤ) (vendor : UInt32) (id prefixBits : UInt8)
    (value : Ptr) : Mem × ℤ :=
  let bits := clampBits prefixBits
  let bytes := prefixBytes bits.toNat value
  insertFor m max vendor id (ptrTo ([0, bits] ++ bytes)) (.ofNat (bytes.length + 2))

/-- `qse_rad_insert_giga_attribute`, for types that have been converted to 8 bits -/
def insertGigaAttribute (m : Mem) (max : ℤ) (vendor : UInt32) (lowId highId : UInt8)
    (value : UInt64) : Mem × ℤ :=
  let inserted := insertFor m max vendor lowId (ptrTo (hton32 value.toUInt32)) 4
  if inserted.2 = -1 then inserted
  else if 0xFFFFFFFF < value then
    insertFor inserted.1 max vendor highId (ptrTo (hton32 (value >>> 32).toUInt32)) 4
  else inserted

/-- `delete_attribute`. The length is read from the attribute before and after the others have been
moved. -/
def deleteAttr (m : Mem) (attr : ℕ) : Mem × ℤ :=
  let authLen := hdrLength m
  let tmpLen := (attr + attrLength m attr) % 65536
  if authLen < tmpLen then (m, -1)
  else
    let m := copyForward m attr (attr + attrLength m attr) (authLen - tmpLen)
    (setHdrLength m ((authLen + 65536 - attrLength m attr) % 65536), 0)

def deleteFound (m : Mem) : Option ℕ → Mem × ℤ
  | none => (m, 0)
  | some attr =>
    let deleted := deleteAttr m attr
    (deleted.1, if deleted.2 ≤ -1 then -1 else 1)

def deleteAttribute (m : Mem) (type : UInt8) (index : ℤ) : Mem × ℤ :=
  deleteFound m (findAttribute m type index)

/-- `qse_rad_delete_vendor_specific_attribute`, which does not use the index -/
def deleteVendorSpecificAttribute (m : Mem) (vendor : UInt32) (type : UInt8) (_index : ℤ) :
    Mem × ℤ :=
  deleteFound m (findVsattr m vendor type 0)

namespace Authenticator

/-- `QSE_RAD_MAX_AUTHENTICATOR_LEN`, and where `authenticator` is in the header -/
def maxAuthenticatorLen : ℕ := 16

def authenticatorAt : ℕ := 4

/-- What `qse_md5_digest` returns for all bytes of the updates before it. -/
structure Md5 where
  digest : List UInt8 → List UInt8
  length_digest (bytes : List UInt8) : (digest bytes).length = maxAuthenticatorLen

/-- `req->authenticator` -/
def authenticator (m : Mem) : List UInt8 := read m authenticatorAt maxAuthenticatorLen

/-- `req->authenticator` is replaced. -/
def putAuthenticator (m : Mem) (bytes : List UInt8) : Mem := write m authenticatorAt bytes

def zeros : List UInt8 := List.replicate maxAuthenticatorLen 0

def copyAuthenticator (dst src : Mem) : Mem := putAuthenticator dst (authenticator src)

/-- The digest of as many bytes as the header says, and of the secret unless it is empty -/
def digestOf (md5 : Md5) (m : Mem) (secret : List UInt8) : List UInt8 :=
  md5.digest (read m 0 (hdrLength m) ++ if secret = [] then [] else secret)

def setAuthenticator (md5 : Md5) (req : Mem) (secret : List UInt8) : Mem :=
  putAuthenticator req (digestOf md5 req secret)

def verifyRequest (md5 : Md5) (req : Mem) (secret : List UInt8) : Mem × ℤ :=
  let orgauth := authenticator req
  let req := putAuthenticator req zeros
  let req := putAuthenticator req (digestOf md5 req secret)
  let ret := if authenticator req = orgauth then 1 else 0
  (putAuthenticator req orgauth, ret)

/-- `qse_rad_verify_response`, with the response that it leaves -/
def verifyResponse (md5 : Md5) (res req : Mem) (secret : List UInt8) : Mem × ℤ :=
  let reply := authenticator res
  let res := putAuthenticator res (authenticator req)
  let calculated := digestOf md5 res secret
  (res, if calculated = reply then 1 else 0)

@[simp] theorem length_authenticator (m : Mem) :
    (authenticator m).length = maxAuthenticatorLen := length_read ..

@[simp] theorem length_zeros : zeros.length = maxAuthenticatorLen := List.length_replicate

theorem length_digestOf (md5 : Md5) (m : Mem) (secret : List UInt8) :
    (digestOf md5 m secret).length = maxAuthenticatorLen := md5.length_digest _

theorem authenticator_put {bytes : List UInt8} (m : Mem) (h : bytes.length = maxAuthenticatorLen) :
    authenticator (putAuthenticator m bytes) = bytes := by
  rw [authenticator, ← h]
  exact read_write_same m authenticatorAt bytes

theorem put_put {first last : List UInt8} (m : Mem) (hfirst : first.length = maxAuthenticatorLen)
    (hlast : last.length = maxAuthenticatorLen) :
    putAuthenticator (putAuthenticator m first) last = putAuthenticator m last :=
  write_write m authenticatorAt (hfirst.trans hlast.symm)

theorem put_authenticator (m : Mem) : putAuthenticator m (authenticator m) = m :=
  write_read m authenticatorAt maxAuthenticatorLen

theorem put_digest (md5 : Md5) {bytes : List UInt8} (m : Mem) (secret : List UInt8)
    (h : bytes.length = maxAuthenticatorLen) :
    putAuthenticator (setAuthenticator md5 m secret) bytes = putAuthenticator m bytes :=
  put_put m (length_digestOf md5 m secret) h

theorem authenticator_set (md5 : Md5) (m : Mem) (secret : List UInt8) :
    authenticator (setAuthenticator md5 m secret) = digestOf md5 m secret :=
  authenticator_put m (length_digestOf md5 m secret)

theorem authenticator_copy (dst src : Mem) :
    authenticator (copyAuthenticator dst src) = authenticator src :=
  authenticator_put dst (length_authenticator src)

theorem verifyRequest_fst (md5 : Md5) (req : Mem) (secret : List UInt8) :
    (verifyRequest md5 req secret).1 = req := by
  have hover : putAuthenticator (putAuthenticator (putAuthenticator req zeros)
      (digestOf md5 (putAuthenticator req zeros) secret)) (authenticator req) =
        putAuthenticator (putAuthenticator req zeros) (authenticator req) :=
    put_digest md5 _ secret (length_authenticator req)
  have hback : putAuthenticator (putAuthenticator req zeros) (authenticator req) = req := by
    rw [put_put req length_zeros (length_authenticator req), put_authenticator]
  exact hover.trans hback

theorem verifyRequest_snd (md5 : Md5) (req : Mem) (secret : List UInt8) :
    (verifyRequest md5 req secret).2 =
      if digestOf md5 (putAuthenticator req zeros) secret = authenticator req then 1 else 0 := by
  have hput : authenticator (putAuthenticator (putAuthenticator req zeros)
      (digestOf md5 (putAuthenticator req zeros) secret)) =
        digestOf md5 (putAuthenticator req zeros) secret :=
    authenticator_set md5 (putAuthenticator req zeros) secret
  simp only [verifyRequest, hput]

theorem verifyRequest_set (md5 : Md5) {req : Mem} (secret : List UInt8)
    (hzeros : authenticator req = zeros) :
    (verifyRequest md5 (setAuthenticator md5 req secret) secret).2 = 1 := by
  have hunsigned : putAuthenticator (setAuthenticator md5 req secret) zeros = req := by
    rw [put_digest md5 req secret length_zeros, ← hzeros, put_authenticator]
  rw [verifyRequest_snd, hunsigned, authenticator_set, if_pos rfl]

theorem verifyResponse_set (md5 : Md5) (res req : Mem) (secret : List UInt8) :
    (verifyResponse md5 (setAuthenticator md5 (copyAuthenticator res req) secret) req secret).2 =
      1 := by
  have hunsigned : putAuthenticator (setAuthenticator md5 (copyAuthenticator res req) secret)
      (authenticator req) = copyAuthenticator res req := by
    rw [put_digest md5 _ secret (length_authenticator req)]
    exact put_put res (length_authenticator req) (length_authenticator req)
  rw [verifyResponse, hunsigned, authenticator_set, if_pos rfl]

theorem copyAuthenticator_eq_iff (res req : Mem) :
    copyAuthenticator res req = res ↔ authenticator res = authenticator req := by
  constructor
  · intro hsame
    rw [← authenticator_copy res req, hsame]
  · intro hsame
    rw [copyAuthenticator, ← hsame, put_authenticator]

/-- A signed request and a signed response are accepted, and the verifiers leave a request and a
response as they were and give the same answer again. -/
structure Verifies (md5 : Md5) (res req : Mem) (secret : List UInt8) : Prop where
  request : authenticator req = zeros →
    (verifyRequest md5 (setAuthenticator md5 req secret) secret).2 = 1
  request_kept : (verifyRequest md5 req secret).1 = req
  request_again : verifyRequest md5 (verifyRequest md5 req secret).1 secret =
    verifyRequest md5 req secret
  response :
    (verifyResponse md5 (setAuthenticator md5 (copyAuthenticator res req) secret) req secret).2 = 1
  response_kept : (verifyResponse md5 res req secret).1 = res
  response_again : verifyResponse md5 (verifyResponse md5 res req secret).1 req secret =
    verifyResponse md5 res req secret

/-- This is so exactly for a response that has the authenticator of the request. -/
theorem verifies_iff (md5 : Md5) (res req : Mem) (secret : List UInt8) :
    Verifies md5 res req secret ↔ authenticator res = authenticator req := by
  constructor
  · intro h
    exact (copyAuthenticator_eq_iff res req).mp h.response_kept
  · intro hsame
    have hkept : (verifyResponse md5 res req secret).1 = res :=
      (copyAuthenticator_eq_iff res req).mpr hsame
    exact {
      request := verifyRequest_set md5 secret
      request_kept := verifyRequest_fst md5 req secret
      request_again := by rw [verifyRequest_fst]
      response := verifyResponse_set md5 res req secret
      response_kept := hkept
      response_again := by rw [hkept] }

def accept : Mem := putAuthenticator (radInitialize (fun _ => 0) 2 1) zeros

def signature : List UInt8 := [184, 225, 24, 206, 5, 25, 5, 19, 103, 194, 34, 112, 62, 67, 21, 228]

def md5OfAccept : Md5 where
  digest bytes := if bytes = read accept 0 hdrSize ++ [115] then signature else zeros
  length_digest bytes := by split <;> rfl

def signedAccept : Mem := setAuthenticator md5OfAccept (copyAuthenticator accept fun _ => 0) [115]

/-- The signed response is accepted once, and not a second time. -/
theorem not_verifies : ¬ Verifies md5OfAccept signedAccept (fun _ => 0) [115] := by
  intro h
  have hfirst : (verifyResponse md5OfAccept signedAccept (fun _ => 0) [115]).2 = 1 := by
    decide +kernel
  have hsecond : (verifyResponse md5OfAccept
      (verifyResponse md5OfAccept signedAccept (fun _ => 0) [115]).1 (fun _ => 0) [115]).2 = 0 := by
    decide +kernel
  rw [h.response_again, hfirst] at hsecond
  contradiction

end Authenticator

end Qse.Rad
