import Qse.Support.ByteMemory

/-!
# DHCP options

A translation of the functions in `lib/dhcp/dhcp4msg.c` and `lib/dhcp/dhcp6msg.c`. A pointer is an
offset from the header of the packet, and a function has no result if it reads a byte that is not
one of the packet, or if a loop of it does not end.
-/

namespace Qse.Dhcp

open ByteMemory

/-! ## Packets -/

/-- `QSE_SIZEOF(qse_dhcp4_pkt_hdr_t)` and `QSE_SIZEOF(magic_cookie_t)` -/
def pktHdrSize : ℕ := 236

def cookieSize : ℕ := 4

/-- `QSE_SIZEOF(qse_dhcp4_opt_hdr_t)` -/
def optHdrSize : ℕ := 2

/-- Where `sname` and `file` are in the header, and their sizes -/
def snameAt : ℕ := 44

def snameSize : ℕ := 64

def fileAt : ℕ := 108

def fileSize : ℕ := 128

/-- The bytes of `QSE_DHCP4_MAGIC_COOKIE` -/
def magicCookie : List UInt8 := [0x63, 0x82, 0x53, 0x63]

/-- `QSE_DHCP4_OPT_PADDING`, `QSE_DHCP4_OPT_OVERLOAD` and `QSE_DHCP4_OPT_END` -/
def optPadding : UInt8 := 0

def optOverload : UInt8 := 52

def optEnd : UInt8 := 255

/-- Bytes of a packet that has `len` bytes -/
def readBytes (m : Mem) (len a : ℕ) : ℕ → Option (List UInt8)
  | 0 => some []
  | n + 1 => do
    let byte ← readByte m len a
    let bytes ← readBytes m len (a + 1) n
    some (byte :: bytes)

/-- `get_option_start`, with what it stores in `*olen` -/
def getOptionStart (m : Mem) (len : ℕ) : Option (Option (ℕ × ℕ)) :=
  if len < pktHdrSize then some none
  else if len - pktHdrSize < cookieSize then some none
  else do
    let cookie ← readBytes m len pktHdrSize cookieSize
    if cookie ≠ magicCookie then some none
    else some (some (pktHdrSize + cookieSize, len - pktHdrSize - cookieSize))

/-- `optlen[1]` and `optlen[2]` after an overload option with the flags
`QSE_DHCP4_OPT_OVERLOAD_FILE` and `QSE_DHCP4_OPT_OVERLOAD_SNAME` -/
def overload (flags : UInt8) (optlen : ℕ × ℕ) : ℕ × ℕ :=
  (if flags &&& 1 ≠ 0 then fileSize else optlen.1, if flags &&& 2 ≠ 0 then snameSize else optlen.2)

/-- The scan of one area in `qse_dhcp4_walk_options`. The walker gets an option and returns an
integer. There is no `optlen` if the walk is to fail. -/
def walkArea {S : Type} (m : Mem) (len : ℕ) (walker : S → ℕ → S × ℤ) (stop : ℕ) :
    ℕ → ℕ → S → ℕ × ℕ → Option (S × Option (ℕ × ℕ))
  | 0, _, _, _ => none
  | fuel + 1, opt, s, optlen =>
    if stop ≤ opt then some (s, some optlen)
    else if stop ≤ opt + optHdrSize then some (s, none)
    else do
      let code ← readByte m len opt
      if code = optPadding then walkArea m len walker stop fuel (opt + optHdrSize) s optlen
      else if code = optEnd then some (s, some optlen)
      else do
        let olen ← readByte m len (opt + 1)
        if stop ≤ opt + optHdrSize + olen.toNat then some (s, none)
        else if code = optOverload then
          if olen ≠ 1 then some (s, none)
          else do
            let flags ← readByte m len (opt + optHdrSize)
            walkArea m len walker stop fuel (opt + optHdrSize + olen.toNat) s
              (overload flags optlen)
        else
          let called := walker s opt
          if called.2 ≤ -1 then some (called.1, none)
          else if called.2 = 0 then some (called.1, some optlen)
          else walkArea m len walker stop fuel (opt + optHdrSize + olen.toNat) called.1 optlen

/-- `qse_dhcp4_walk_options`, which returns 0 or -1 -/
def walkOptions {S : Type} (m : Mem) (len : ℕ) (walker : S → ℕ → S × ℤ) (s : S) :
    Option (S × ℤ) := do
  let start ← getOptionStart m len
  match start with
  | none => some (s, -1)
  | some (opt, optlen) => do
    let options ← walkArea m len walker (opt + optlen) (len + 1) opt s (0, 0)
    match options with
    | (s, none) => some (s, -1)
    | (s, some optlen) => do
      let file ← walkArea m len walker (fileAt + optlen.1) (len + 1) fileAt s optlen
      match file with
      | (s, none) => some (s, -1)
      | (s, some optlen) => do
        let sname ← walkArea m len walker (snameAt + optlen.2) (len + 1) snameAt s optlen
        match sname with
        | (s, none) => some (s, -1)
        | (s, some _) => some (s, 0)

/-- The scan of one area in `qse_dhcp4_find_option`, which comes to an option or to the end of the
area -/
def findArea (m : Mem) (len : ℕ) (code : ℤ) (stop : ℕ) :
    ℕ → ℕ → ℕ × ℕ → Option (ℕ ⊕ (ℕ × ℕ))
  | 0, _, _ => none
  | fuel + 1, opt, optlen =>
    if stop ≤ opt then some (.inr optlen)
    else do
      let optcode ← readByte m len opt
      if optcode = optPadding then findArea m len code stop fuel (opt + 1) optlen
      else if optcode = optEnd then
        if code = optEnd.toNat then some (.inl opt) else some (.inr optlen)
      else if stop < opt + optHdrSize then some (.inr optlen)
      else do
        let olen ← readByte m len (opt + 1)
        if optcode.toNat = code then
          if stop < opt + optHdrSize + olen.toNat then some (.inr optlen)
          else some (.inl opt)
        else if optcode = optOverload then
          if olen ≠ 1 then some (.inr optlen)
          else do
            let flags ← readByte m len (opt + optHdrSize)
            findArea m len code stop fuel (opt + optHdrSize + olen.toNat)
              (overload flags optlen)
        else findArea m len code stop fuel (opt + optHdrSize + olen.toNat) optlen

def findOption (m : Mem) (len : ℕ) (code : ℤ) : Option (Option ℕ) := do
  let start ← getOptionStart m len
  match start with
  | none => some none
  | some (opt, optlen) => do
    let options ← findArea m len code (opt + optlen) (len + 1) opt (0, 0)
    match options with
    | .inl found => some (some found)
    | .inr optlen => do
      let file ← findArea m len code (fileAt + optlen.1) (len + 1) fileAt optlen
      match file with
      | .inl found => some (some found)
      | .inr optlen => do
        let sname ← findArea m len code (snameAt + optlen.2) (len + 1) snameAt optlen
        match sname with
        | .inl found => some (some found)
        | .inr _ => some none

/-! ## Making packets -/

/-- `qse_dhcp4_pktbuf_t`, with the memory at `hdr` -/
structure Pktbuf where
  m : Mem
  len : ℕ
  capa : ℕ

/-- `qse_dhcp4_initialize_pktbuf`, which may fail -/
def initializePktbuf (buf : Mem) (capa : ℕ) : Option Pktbuf :=
  if capa < pktHdrSize then none else some ⟨fill buf 0 pktHdrSize 0, pktHdrSize, capa⟩

/-- The magic cookie is written in front of the first option, and it is checked later on. -/
def addCookie (pkt : Pktbuf) : Option Pktbuf :=
  if pkt.len = pktHdrSize then
    if pkt.capa - pkt.len < cookieSize then none
    else some { pkt with m := write pkt.m pkt.len magicCookie, len := pkt.len + cookieSize }
  else if pkt.len < pktHdrSize + cookieSize then none
  else if read pkt.m pktHdrSize cookieSize ≠ magicCookie then none
  else some pkt

/-- The bytes of an option are written behind the last one, if there is room for them. -/
def addBytes (pkt : Pktbuf) (bytes : List UInt8) : Pktbuf × ℤ :=
  if pkt.capa - pkt.len < bytes.length then (pkt, -1)
  else ({ pkt with m := write pkt.m pkt.len bytes, len := pkt.len + bytes.length }, 0)

def addOption (pkt : Pktbuf) (code : ℤ) (optr : Mem) (olen : UInt8) : Pktbuf × ℤ :=
  if pkt.len < pktHdrSize ∨ pkt.capa < pkt.len then (pkt, -1)
  else
    match addCookie pkt with
    | none => (pkt, -1)
    | some pkt =>
      if code = optPadding.toNat ∨ code = optEnd.toNat then addBytes pkt [UInt8.ofInt code]
      else addBytes pkt ([UInt8.ofInt code, olen] ++ read optr 0 olen.toNat)

def moveUp (m : Mem) (ohdr olen stop : ℕ) : Mem :=
  write m ohdr (read m (ohdr + olen) (stop - (ohdr + olen)))

/-- An option is removed from a field of the header that ends at `ovend`. -/
def deleteInField (pkt : Pktbuf) (ohdr olen ovend : ℕ) : Pktbuf :=
  { pkt with m := fill (moveUp pkt.m ohdr olen ovend) (ovend - olen) olen 0 }

/-- What `qse_dhcp4_delete_option` does with the option that has been found -/
def deleteFound (pkt : Pktbuf) (code : ℤ) (ohdr : ℕ) : Pktbuf :=
  let olen :=
    if code = optPadding.toNat ∨ code = optEnd.toNat then 1
    else (pkt.m (ohdr + 1)).toNat + optHdrSize
  if fileAt ≤ ohdr ∧ ohdr < fileAt + fileSize then
    deleteInField pkt ohdr olen (fileAt + fileSize)
  else if snameAt ≤ ohdr ∧ ohdr < snameAt + snameSize then
    deleteInField pkt ohdr olen (snameAt + snameSize)
  else { pkt with m := moveUp pkt.m ohdr olen pkt.len, len := pkt.len - olen }

def deleteOption (pkt : Pktbuf) (code : ℤ) : Option (Pktbuf × ℤ) := do
  let found ← findOption pkt.m pkt.len code
  match found with
  | none => some (pkt, -1)
  | some ohdr => some (deleteFound pkt code ohdr, 0)

/-- The loop of `qse_dhcp4_get_relay_suboption` -/
def relayLoop (m : Mem) (len : ℕ) (code : ℤ) : ℕ → ℕ → Option (Option (ℕ × UInt8))
  | 0, _ => none
  | fuel + 1, ptr =>
    if len ≤ ptr then some none
    else do
      let oc ← readByte m len ptr
      if len ≤ ptr + 1 then some none
      else do
        let ol ← readByte m len (ptr + 1)
        if oc.toNat = code then some (some (ptr + 2, ol))
        else relayLoop m len code fuel (ptr + 2 + ol.toNat)

/-- `qse_dhcp4_get_relay_suboption`, with what it stores in `*olen` -/
def getRelaySuboption (m : Mem) (len : UInt8) (code : ℤ) : Option (Option (ℕ × UInt8)) :=
  relayLoop m len.toNat code (len.toNat + 1) 0

/-- `QSE_SIZEOF(qse_dhcp6_pkt_hdr_t)` and the sizes of the other headers -/
def pkt6HdrSize : ℕ := 4

def relay6HdrSize : ℕ := 34

def opt6HdrSize : ℕ := 4

/-- `QSE_DHCP6_MSG_RELAYFORW` and `QSE_DHCP6_MSG_RELAYREPL` -/
def msgRelayforw : UInt8 := 12

def msgRelayrepl : UInt8 := 13

def ntoh16 (m : Mem) (len a : ℕ) : Option ℕ := do
  let high ← readByte m len a
  let low ← readByte m len (a + 1)
  some (high.toNat * 256 + low.toNat)

/-- The loop of `qse_dhcp6_find_option` -/
def find6Loop (m : Mem) (len : ℕ) (code : ℤ) : ℕ → ℕ → ℕ → Option (Option ℕ)
  | 0, _, _ => none
  | fuel + 1, opt, rem =>
    if rem < opt6HdrSize then some none
    else do
      let optcode ← ntoh16 m len opt
      let olen ← ntoh16 m len (opt + 2)
      if optcode = code then
        if rem - opt6HdrSize < olen then some none else some (some opt)
      else if rem < opt6HdrSize + olen then some none
      else find6Loop m len code fuel (opt + opt6HdrSize + olen) (rem - (opt6HdrSize + olen))

/-- `qse_dhcp6_find_option` -/
def find6Option (m : Mem) (len : ℕ) (code : ℤ) : Option (Option ℕ) :=
  if len < pkt6HdrSize then some none
  else do
    let msgtype ← readByte m len 0
    if msgtype = msgRelayforw ∨ msgtype = msgRelayrepl then
      if len < relay6HdrSize then some none
      else find6Loop m len code (len + 1) relay6HdrSize (len - relay6HdrSize)
    else find6Loop m len code (len + 1) pkt6HdrSize (len - pkt6HdrSize)

end Qse.Dhcp
