import Qse.Dhcp.Options

/-!
# Adding and deleting options

What the calls that add and delete options prescribe for the contents of a packet, and when they do
it.
-/

open Option

namespace Qse.Dhcp

open ByteMemory LaidOut

def optFor (code : UInt8) (value : List UInt8) (fits : value.length < 256) : Opt :=
  if hpad : code = optPadding then .padding
  else if hend : code = optEnd then .ending
  else .option code value ⟨hpad, hend⟩ fits

def removeFirst (code : ℤ) : List Opt → List Opt
  | [] => []
  | o :: opts =>
    if o.code.toNat = code then opts
    else if o.code = optEnd then o :: opts
    else o :: removeFirst code opts

def removeInField (code : ℤ) (field : List Opt) : List Opt :=
  removeFirst code field ++ List.replicate
    (sizes Opt.bytes field - sizes Opt.bytes (removeFirst code field)) .padding

def Contents.delete (c : Contents) (code : ℤ) : Option Contents :=
  c.options.bind fun opts =>
    if (findIn code optionsAt opts).isSome then
      some { c with options := some (removeFirst code opts) }
    else if (findIn code fileAt (c.usedFile opts)).isSome then
      some { c with file := removeInField code c.file }
    else if (findIn code snameAt (c.usedSname opts)).isSome then
      some { c with sname := removeInField code c.sname }
    else none

inductive Call where
  | add (code : UInt8) (optr : Mem) (olen : UInt8)
  | delete (code : UInt8)

namespace Call

def run (pkt : Pktbuf) : Call → Option (Pktbuf × ℤ)
  | add code optr olen => some (addOption pkt code.toNat optr olen)
  | delete code => deleteOption pkt code.toNat

def newOpt (code : UInt8) (optr : Mem) (olen : UInt8) : Opt :=
  optFor code (read optr 0 olen.toNat) (by rw [length_read]; exact olen.toNat_lt)

/-- The contents after a call, and what is to be returned. -/
def prescribed (capa : ℕ) (c : Contents) : Call → Contents × ℤ
  | add code optr olen =>
    let opts := c.options.getD [] ++ [newOpt code optr olen]
    if optionsAt + sizes Opt.bytes opts ≤ capa then ({ c with options := some opts }, 0)
    else (c, -1)
  | delete code =>
    match c.delete code.toNat with
    | none => (c, -1)
    | some c => (c, 0)

/-- When a call does what is prescribed: there is not just room for the magic cookie and not for the
first option behind it, or what is to be deleted can be searched for. -/
def Regular (capa : ℕ) (c : Contents) : Call → Prop
  | add code optr olen => c.options = none →
      capa < optionsAt ∨ optionsAt + (newOpt code optr olen).bytes.length ≤ capa
  | delete code => c.Searchable code.toNat

end Call

def runCalls (pkt : Pktbuf) : List Call → Option Pktbuf
  | [] => some pkt
  | call :: calls => (call.run pkt).bind fun called => runCalls called.1 calls

/-- A packet that has been initialised, where the caller may have set the fields of the header, and
the packets after calls that are regular -/
inductive Reach : Pktbuf → Contents → Prop where
  | start {buf m : Mem} {capa : ℕ} {pkt : Pktbuf} {file sname : List Opt}
      (hinit : initializePktbuf buf capa = some pkt) (hfile : Field m fileAt fileSize file)
      (hsname : Field m snameAt snameSize sname) : Reach { pkt with m := m } ⟨none, file, sname⟩
  | step {pkt pkt' : Pktbuf} {c : Contents} {ret : ℤ} (call : Call) (h : Reach pkt c)
      (hregular : call.Regular pkt.capa c) (hrun : call.run pkt = some (pkt', ret)) :
      Reach pkt' (call.prescribed pkt.capa c).1

variable {m m' : Mem} {len p stop : ℕ} {c : Contents} {code : ℤ} {opts front back : List Opt}
  {o : Opt} {pkt : Pktbuf}

/-! ## Additions -/

theorem ofInt_toNat (code : UInt8) : UInt8.ofInt (code.toNat : ℤ) = code := by
  have hlt := code.toNat_lt
  have hmod : ((code.toNat : ℤ) % 2 ^ 8).toNat = code.toNat := by omega
  rw [UInt8.ofInt, hmod]
  exact UInt8.ofNat_toNat

theorem toNat_cast_eq_iff (a b : UInt8) : (a.toNat : ℤ) = b.toNat ↔ a = b := by
  rw [Int.ofNat_inj, UInt8.toNat_inj]

theorem newOpt_bytes (code : UInt8) (optr : Mem) (olen : UInt8) :
    (Call.newOpt code optr olen).bytes =
      if (code.toNat : ℤ) = optPadding.toNat ∨ (code.toNat : ℤ) = optEnd.toNat then
        [UInt8.ofInt code.toNat]
      else [UInt8.ofInt code.toNat, olen] ++ read optr 0 olen.toNat := by
  have hpadding := toNat_cast_eq_iff code optPadding
  have hending := toNat_cast_eq_iff code optEnd
  rw [Call.newOpt, optFor, ofInt_toNat]
  by_cases hpad : code = optPadding
  · rw [dif_pos hpad, if_pos (.inl (hpadding.2 hpad)), hpad]
    rfl
  rw [dif_neg hpad]
  by_cases hend : code = optEnd
  · rw [dif_pos hend, if_pos (.inr (hending.2 hend)), hend]
    rfl
  have holen : UInt8.ofNat (read optr 0 olen.toNat).length = olen := by
    rw [length_read]
    exact UInt8.ofNat_toNat
  have hneither := not_or.2 ⟨mt hpadding.1 hpad, mt hending.1 hend⟩
  rw [dif_neg hend, if_neg hneither, Opt.bytes, holen]
  rfl

theorem addOption_eq (h : ¬(pkt.len < pktHdrSize ∨ pkt.capa < pkt.len)) (code : UInt8) (optr : Mem)
    (olen : UInt8) : addOption pkt code.toNat optr olen = match addCookie pkt with
      | none => (pkt, -1)
      | some pkt => addBytes pkt (Call.newOpt code optr olen).bytes := by
  rw [addOption, if_neg h, newOpt_bytes]
  cases addCookie pkt with
  | none => rfl
  | some pkt =>
    dsimp only
    split <;> rfl

theorem field_congr {start size : ℕ} (h : Field m start size opts)
    (hsame : ∀ i, start ≤ i → i < start + size → m' i = m i) : Field m' start size opts := by
  refine ⟨laid_congr (fun i hi hend => hsame i hi ?_) h.laid, h.size⟩
  rwa [h.size] at hend

theorem Holds.fields_congr (h : Holds m len c) (hsame : ∀ i, i < pktHdrSize → m' i = m i) :
    Field m' fileAt fileSize c.file ∧ Field m' snameAt snameSize c.sname := by
  have hfile : fileAt + fileSize = pktHdrSize := rfl
  have hsname : snameAt + snameSize ≤ pktHdrSize := by decide
  exact ⟨field_congr h.file fun i _ hi => hsame i (by omega),
    field_congr h.sname fun i _ hi => hsame i (by omega)⟩

theorem Holds.add (h : Holds m len c) (hopts : c.options = some opts) (o : Opt) :
    Holds (write m len o.bytes) (len + o.bytes.length)
      { c with options := some (opts ++ [o]) } := by
  have hbehind := h.behind
  rw [hopts] at hbehind
  obtain ⟨hlen, hcookie, hlaid⟩ := hbehind
  have hstart : optionsAt = pktHdrSize + cookieSize := rfl
  have hfields : Field (write m len o.bytes) fileAt fileSize c.file ∧ _ :=
    h.fields_congr fun i hi => write_of_apart (.inl (by omega))
  have hnil : sizes Opt.bytes [] = 0 := rfl
  refine ⟨⟨?_, ?_, laid_append.2 ⟨?_, laid_singleton.2 ?_⟩⟩, hfields.1, hfields.2⟩
  · rw [sizes_append, sizes_cons, hnil, hlen]
    omega
  · rw [read_write_apart (by omega), hcookie]
  · exact laid_congr (fun i _ hi => write_of_apart (.inl (by omega))) hlaid
  · rw [← hlen]
    exact read_write_same m len o.bytes

theorem Holds.start (h : Holds m len c) (hopts : c.options = none) :
    Holds (write m len magicCookie) (len + cookieSize) { c with options := some [] } := by
  have hbehind := h.behind
  rw [hopts] at hbehind
  have hlen : len = pktHdrSize := hbehind
  have hfields : Field (write m len magicCookie) fileAt fileSize c.file ∧ _ :=
    h.fields_congr fun i hi => write_of_apart (.inl (by omega))
  refine ⟨⟨by rw [hlen]; rfl, ?_, laid_nil _ _⟩, hfields.1, hfields.2⟩
  rw [hlen]
  exact read_write_same m pktHdrSize magicCookie

theorem addCookie_none (h : Holds pkt.m pkt.len c) (hopts : c.options = none) :
    addCookie pkt = if pkt.capa - pkt.len < cookieSize then none
      else some { pkt with m := write pkt.m pkt.len magicCookie, len := pkt.len + cookieSize } := by
  have hbehind := h.behind
  rw [hopts] at hbehind
  have hlen : pkt.len = pktHdrSize := hbehind
  rw [addCookie, if_pos hlen]

theorem addCookie_some (h : Holds pkt.m pkt.len c) (hopts : c.options = some opts) :
    addCookie pkt = some pkt := by
  have hbehind := h.behind
  rw [hopts] at hbehind
  obtain ⟨hlen, hcookie, -⟩ := hbehind
  have hstart : optionsAt = pktHdrSize + cookieSize := rfl
  have hfour : cookieSize = 4 := rfl
  rw [addCookie, if_neg (by omega), if_neg (by omega), if_neg (not_not.2 hcookie)]

structure Changed (pkt pkt' : Pktbuf) (c : Contents) : Prop where
  holds : Holds pkt'.m pkt'.len c
  len : pkt.len ≤ pkt.capa → pkt'.len ≤ pkt'.capa
  capa : pkt'.capa = pkt.capa

theorem Holds.unchanged (h : Holds pkt.m pkt.len c) : Changed pkt pkt c := ⟨h, id, rfl⟩

theorem add_spec (h : Holds pkt.m pkt.len c) (hcapa : pkt.len ≤ pkt.capa) {code : UInt8} {optr :
    Mem}
    {olen : UInt8} (hregular : (Call.add code optr olen).Regular pkt.capa c) :
    ∃ pkt', addOption pkt code.toNat optr olen =
        (pkt', ((Call.add code optr olen).prescribed pkt.capa c).2) ∧
      Changed pkt pkt' ((Call.add code optr olen).prescribed pkt.capa c).1 ∧
      (((Call.add code optr olen).prescribed pkt.capa c).2 = -1 → pkt' = pkt) := by
  have hstart : optionsAt = pktHdrSize + cookieSize := rfl
  have hfour : cookieSize = 4 := rfl
  have hlow : pktHdrSize ≤ pkt.len := by
    have hbehind := h.behind
    cases hopts : c.options with
    | none =>
      rw [hopts] at hbehind
      exact hbehind.ge
    | some opts =>
      rw [hopts] at hbehind
      have hlen := hbehind.1
      omega
  have hzero : ¬(0 : ℤ) = -1 := by decide
  rw [Call.Regular] at hregular
  rw [addOption_eq (by omega), Call.prescribed]
  generalize Call.newOpt code optr olen = o at hregular ⊢
  cases hopts : c.options with
  | none =>
    have hbehind := h.behind
    rw [hopts] at hbehind
    have hlen : pkt.len = pktHdrSize := hbehind
    have hsize : sizes Opt.bytes [o] = o.bytes.length := sizes_cons o []
    rw [addCookie_none h hopts, getD_none, List.nil_append, hsize]
    by_cases hcookie : pkt.capa - pkt.len < cookieSize
    · rw [if_pos hcookie, if_neg (by omega)]
      exact ⟨pkt, rfl, h.unchanged, fun _ => rfl⟩
    have hroom : optionsAt + o.bytes.length ≤ pkt.capa :=
      (hregular hopts).resolve_left (by omega)
    have hadded := (h.start hopts).add rfl o
    rw [if_neg hcookie, if_pos hroom]
    dsimp only
    rw [addBytes, if_neg (by dsimp only; omega)]
    exact ⟨_, rfl, ⟨hadded, fun _ => by dsimp only; omega, rfl⟩,
      fun hfails => absurd hfails hzero⟩
  | some opts =>
    have hbehind := h.behind
    rw [hopts] at hbehind
    obtain ⟨hlen, -⟩ := hbehind
    have hsize : sizes Opt.bytes (opts ++ [o]) = sizes Opt.bytes opts + o.bytes.length := by
      rw [sizes_append, sizes_cons]
      rfl
    rw [addCookie_some h hopts, getD_some, hsize]
    dsimp only
    rw [addBytes]
    by_cases hroom : pkt.capa - pkt.len < o.bytes.length
    · rw [if_pos hroom, if_neg (by omega)]
      exact ⟨pkt, rfl, h.unchanged, fun _ => rfl⟩
    · have hadded := h.add hopts o
      rw [if_neg hroom, if_pos (by omega)]
      exact ⟨_, rfl, ⟨hadded, fun _ => by dsimp only; omega, rfl⟩,
        fun hfails => absurd hfails hzero⟩

/-! ## Deletions -/

theorem laid_padding {n : ℕ} (h : ∀ i, p ≤ i → i < p + n → m i = optPadding) :
    Laid Opt.bytes m p (List.replicate n .padding) := by
  induction n generalizing p with
  | zero => exact laid_nil m p
  | succ n ih =>
    have hone : Opt.padding.bytes.length = 1 := rfl
    have hfirst : m p = optPadding := h p (le_refl p) (by omega)
    rw [List.replicate_succ, laid_cons, hone]
    refine ⟨?_, ih fun i hi hend => h i (by omega) (by omega)⟩
    rw [read_succ, hfirst]
    rfl

theorem sizes_padding (n : ℕ) : sizes Opt.bytes (List.replicate n .padding) = n := by
  induction n with
  | zero => rfl
  | succ n ih =>
    rw [List.replicate_succ, sizes_cons, ih]
    exact add_comm 1 n

theorem findIn_some {found : ℕ} (h : findIn code p opts = some found) :
    ∃ front o back, opts = front ++ o :: back ∧ (o.code.toNat : ℤ) = code ∧
      found = p + sizes Opt.bytes front ∧ removeFirst code opts = front ++ back := by
  induction opts generalizing p with
  | nil => cases h
  | cons o opts ih =>
    rw [findIn] at h
    rw [removeFirst]
    by_cases hcode : (o.code.toNat : ℤ) = code
    · rw [if_pos hcode] at h ⊢
      exact ⟨[], o, opts, rfl, hcode, (some.inj h).symm, rfl⟩
    rw [if_neg hcode] at h ⊢
    by_cases hend : o.code = optEnd
    · rw [if_pos hend] at h
      cases h
    rw [if_neg hend] at h ⊢
    obtain ⟨front, o', back, rfl, hcode', hfound, hremove⟩ := ih h
    refine ⟨o :: front, o', back, rfl, hcode', ?_, ?_⟩
    · rw [hfound, sizes_cons, add_assoc]
    · rw [hremove]
      rfl

theorem moveUp_of_apart {ohdr olen i : ℕ} (hle : ohdr + olen ≤ stop)
    (h : i < ohdr ∨ stop ≤ i + olen) : moveUp m ohdr olen stop i = m i :=
  write_of_apart (by rw [length_read]; omega)

theorem moveUp_laid (h : Laid Opt.bytes m p (front ++ o :: back))
    (hstop : stop = p + sizes Opt.bytes (front ++ o :: back)) :
    Laid Opt.bytes (moveUp m (p + sizes Opt.bytes front) o.bytes.length stop) p
      (front ++ back) := by
  obtain ⟨hfront, hrest⟩ := laid_append.1 h
  obtain ⟨-, hback⟩ := laid_cons.1 hrest
  have hsize : stop - (p + sizes Opt.bytes front + o.bytes.length) = sizes Opt.bytes back := by
    rw [hstop, sizes_append, sizes_cons]
    omega
  have hmoved : moveUp m (p + sizes Opt.bytes front) o.bytes.length stop =
      write m (p + sizes Opt.bytes front) (encode Opt.bytes back) := by
    rw [moveUp, hsize]
    exact congrArg _ hback
  rw [hmoved]
  exact laid_append.2 ⟨laid_congr (fun i _ hi => write_of_apart (.inl hi)) hfront,
    laid_write m _ back⟩

theorem olen_eq {ohdr : ℕ} (h : read m ohdr o.bytes.length = o.bytes)
    (hcode : (o.code.toNat : ℤ) = code) :
    (if code = optPadding.toNat ∨ code = optEnd.toNat then 1
      else (m (ohdr + 1)).toNat + optHdrSize) = o.bytes.length := by
  cases o with
  | padding => exact if_pos (.inl hcode.symm)
  | ending => exact if_pos (.inr hcode.symm)
  | option c value proper fits =>
    obtain ⟨-, holen, -⟩ := bytes_option h
    have hneither : ¬(code = optPadding.toNat ∨ code = optEnd.toNat) := by
      rintro (hpad | hend)
      · exact proper.1 ((toNat_cast_eq_iff c optPadding).1 (hcode.trans hpad))
      · exact proper.2 ((toNat_cast_eq_iff c optEnd).1 (hcode.trans hend))
    rw [if_neg hneither, holen]
    rfl

structure Found (m : Mem) (code : ℤ) (start stop ohdr olen : ℕ) : Prop where
  size : (if code = optPadding.toNat ∨ code = optEnd.toNat then 1
    else (m (ohdr + 1)).toNat + optHdrSize) = olen
  pos : 0 < olen
  low : start ≤ ohdr
  high : ohdr + olen ≤ stop

variable {ohdr olen start size : ℕ}

theorem found_moved (h : Laid Opt.bytes m p opts) (hstop : stop = p + sizes Opt.bytes opts)
    (hfound : findIn code p opts = some ohdr) :
    ∃ olen, Found m code p stop ohdr olen ∧
      Laid Opt.bytes (moveUp m ohdr olen stop) p (removeFirst code opts) ∧
      sizes Opt.bytes (removeFirst code opts) + olen = sizes Opt.bytes opts := by
  obtain ⟨front, o, back, rfl, hcode, rfl, hremove⟩ := findIn_some hfound
  obtain ⟨-, hrest⟩ := laid_append.1 h
  obtain ⟨hbytes, -⟩ := laid_cons.1 hrest
  have hmoved := moveUp_laid h hstop
  rw [sizes_append, sizes_cons] at hstop
  rw [hremove, sizes_append, sizes_append, sizes_cons]
  exact ⟨o.bytes.length,
    ⟨olen_eq hbytes hcode, length_bytes_pos o, Nat.le_add_right .., by omega⟩, hmoved, by omega⟩

theorem deleteInField_of_apart {i : ℕ} (h : Found pkt.m code start stop ohdr olen)
    (hi : i < start ∨ stop ≤ i) : (deleteInField pkt ohdr olen stop).m i = pkt.m i := by
  have hlow := h.low
  have hhigh := h.high
  exact (fill_of_apart (by omega)).trans (moveUp_of_apart hhigh (by omega))

theorem Field.delete (h : Field pkt.m start size opts)
    (hfound : findIn code start opts = some ohdr) :
    ∃ olen, Found pkt.m code start (start + size) ohdr olen ∧
      Field (deleteInField pkt ohdr olen (start + size)).m start size
        (removeInField code opts) := by
  obtain ⟨olen, hsize, hmoved, hsizes⟩ := found_moved h.laid (by rw [h.size]) hfound
  have hleft : sizes Opt.bytes opts - sizes Opt.bytes (removeFirst code opts) = olen := by omega
  have hopts := h.size
  have hend : start + size - olen = start + sizes Opt.bytes (removeFirst code opts) := by omega
  refine ⟨olen, hsize, laid_append.2 ⟨?_, ?_⟩, ?_⟩
  · exact laid_congr (fun i _ hi => fill_of_apart (.inl (by omega))) hmoved
  · rw [hleft]
    exact laid_padding fun i hlow hhigh => if_pos ⟨by omega, by omega⟩
  · rw [removeInField, sizes_append, hleft, sizes_padding]
    omega

/-! ## What is deleted -/

theorem usedFile_cases (c : Contents) (opts : List Opt) :
    c.usedFile opts = [] ∨ c.usedFile opts = c.file := by
  rw [Contents.usedFile]
  split
  · exact .inl rfl
  · exact .inr rfl

theorem usedSname_cases (c : Contents) (opts : List Opt) :
    c.usedSname opts = [] ∨ c.usedSname opts = c.sname := by
  rw [Contents.usedSname]
  split
  · exact .inl rfl
  · exact .inr rfl

theorem findIn_used {used field : List Opt} (h : used = [] ∨ used = field)
    (hfound : findIn code p used = some ohdr) : findIn code p field = some ohdr := by
  obtain rfl | rfl := h
  · cases hfound
  · exact hfound

theorem Holds.deleteOptions (h : Holds pkt.m pkt.len c) (hopts : c.options = some opts)
    (hfound : findIn code optionsAt opts = some ohdr) :
    Changed pkt (deleteFound pkt code ohdr)
      { c with options := some (removeFirst code opts) } := by
  have hbehind := h.behind
  rw [hopts] at hbehind
  obtain ⟨hlen, hcookie, hlaid⟩ := hbehind
  obtain ⟨olen, hsize, hmoved, hsizes⟩ := found_moved hlaid hlen hfound
  have hlow := hsize.low
  have hhigh := hsize.high
  have hstart : optionsAt = pktHdrSize + cookieSize := rfl
  have hfile : fileAt + fileSize ≤ pktHdrSize := by decide
  have hsname : snameAt + snameSize ≤ pktHdrSize := by decide
  have hfound' : deleteFound pkt code ohdr =
      { pkt with m := moveUp pkt.m ohdr olen pkt.len, len := pkt.len - olen } := by
    rw [deleteFound, hsize.size, if_neg (by omega), if_neg (by omega)]
  have hsame : ∀ i, i < optionsAt → moveUp pkt.m ohdr olen pkt.len i = pkt.m i :=
    fun i hi => moveUp_of_apart hhigh (.inl (by omega))
  obtain ⟨hfile', hsname'⟩ := h.fields_congr fun i hi => hsame i (by omega)
  rw [hfound']
  refine ⟨⟨⟨?_, ?_, hmoved⟩, hfile', hsname'⟩, fun hlen => (Nat.sub_le ..).trans hlen, rfl⟩
  · dsimp only
    omega
  · rw [← hcookie]
    exact read_congr fun i _ hi => hsame i (by omega)

theorem behind_congr {options : Option (List Opt)} (h : Behind m len options)
    (hsame : ∀ i, pktHdrSize ≤ i → m' i = m i) : Behind m' len options := by
  cases options with
  | none => exact h
  | some opts =>
    obtain ⟨hlen, hcookie, hlaid⟩ := h
    have hstart : optionsAt = pktHdrSize + cookieSize := rfl
    refine ⟨hlen, ?_, laid_congr (fun i hi _ => hsame i (by omega)) hlaid⟩
    rw [← hcookie]
    exact read_congr fun i hi _ => hsame i hi

theorem Holds.deleteFile (h : Holds pkt.m pkt.len c)
    (hfound : findIn code fileAt c.file = some ohdr) :
    Changed pkt (deleteFound pkt code ohdr) { c with file := removeInField code c.file } := by
  obtain ⟨olen, hsize, hfield⟩ := h.file.delete hfound
  have hlow := hsize.low
  have hhigh := hsize.high
  have hpos := hsize.pos
  have hfile : fileAt + fileSize = pktHdrSize := rfl
  have hsname : snameAt + snameSize = fileAt := rfl
  have hfound' : deleteFound pkt code ohdr = deleteInField pkt ohdr olen (fileAt + fileSize) := by
    rw [deleteFound, hsize.size, if_pos ⟨hlow, by omega⟩]
  rw [hfound']
  refine ⟨⟨behind_congr h.behind fun i hi => ?_, hfield, field_congr h.sname fun i _ hi => ?_⟩, id,
    rfl⟩
  · exact deleteInField_of_apart hsize (.inr (by omega))
  · exact deleteInField_of_apart hsize (.inl (by omega))

theorem Holds.deleteSname (h : Holds pkt.m pkt.len c)
    (hfound : findIn code snameAt c.sname = some ohdr) :
    Changed pkt (deleteFound pkt code ohdr) { c with sname := removeInField code c.sname } := by
  obtain ⟨olen, hsize, hfield⟩ := h.sname.delete hfound
  have hlow := hsize.low
  have hhigh := hsize.high
  have hpos := hsize.pos
  have hfile : fileAt + fileSize = pktHdrSize := rfl
  have hsname : snameAt + snameSize = fileAt := rfl
  have hfound' : deleteFound pkt code ohdr = deleteInField pkt ohdr olen (snameAt + snameSize) := by
    rw [deleteFound, hsize.size, if_neg (by omega), if_pos ⟨hlow, by omega⟩]
  rw [hfound']
  refine ⟨⟨behind_congr h.behind fun i hi => ?_, field_congr h.file fun i hi _ => ?_, hfield⟩, id,
    rfl⟩
  · exact deleteInField_of_apart hsize (.inr (by omega))
  · exact deleteInField_of_apart hsize (.inr (by omega))

theorem delete_none (h : c.find code = none) : c.delete code = none := by
  cases hopts : c.options with
  | none =>
    rw [Contents.delete, hopts]
    rfl
  | some opts =>
    rw [Contents.find, hopts] at h
    obtain ⟨hoptions, hfields⟩ := or_eq_none_iff.1 h
    obtain ⟨hfile, hsname⟩ := or_eq_none_iff.1 hfields
    rw [Contents.delete, hopts]
    simp only [bind_some, hoptions, hfile, hsname]
    rfl

theorem Holds.deleteFound (h : Holds pkt.m pkt.len c) (hfind : c.find code = some ohdr) :
    ∃ c', c.delete code = some c' ∧ Changed pkt (deleteFound pkt code ohdr) c' := by
  cases hopts : c.options with
  | none =>
    rw [Contents.find, hopts] at hfind
    cases hfind
  | some opts =>
    rw [Contents.find, hopts, bind_some] at hfind
    rw [Contents.delete, hopts, bind_some]
    cases hoptions : findIn code optionsAt opts with
    | some found =>
      rw [hoptions] at hfind
      cases hfind
      exact ⟨_, rfl, h.deleteOptions hopts hoptions⟩
    | none =>
      rw [hoptions, none_or] at hfind
      cases hfile : findIn code fileAt (c.usedFile opts) with
      | some found =>
        rw [hfile] at hfind
        cases hfind
        rw [← hopts]
        exact ⟨_, rfl, h.deleteFile (findIn_used (usedFile_cases c opts) hfile)⟩
      | none =>
        rw [hfile, none_or] at hfind
        rw [hfind, ← hopts]
        exact ⟨_, rfl, h.deleteSname (findIn_used (usedSname_cases c opts) hfind)⟩

theorem delete_spec (h : Holds pkt.m pkt.len c) {code : UInt8}
    (hregular : (Call.delete code).Regular pkt.capa c) :
    ∃ pkt', deleteOption pkt code.toNat =
        some (pkt', ((Call.delete code).prescribed pkt.capa c).2) ∧
      Changed pkt pkt' ((Call.delete code).prescribed pkt.capa c).1 ∧
      (((Call.delete code).prescribed pkt.capa c).2 = -1 → pkt' = pkt) := by
  have hfind := h.findOption hregular
  have hzero : ¬(0 : ℤ) = -1 := by decide
  rw [deleteOption, hfind, Call.prescribed]
  cases hfound : c.find code.toNat with
  | none =>
    rw [delete_none hfound]
    exact ⟨pkt, rfl, h.unchanged, fun _ => rfl⟩
  | some ohdr =>
    obtain ⟨c', hdelete, hchanged⟩ := h.deleteFound hfound
    rw [hdelete]
    exact ⟨_, rfl, hchanged, fun hfails => absurd hfails hzero⟩

/-! ## Runs -/

theorem Call.run_spec (h : Holds pkt.m pkt.len c) (hcapa : pkt.len ≤ pkt.capa) {call : Call}
    (hregular : call.Regular pkt.capa c) :
    ∃ pkt', call.run pkt = some (pkt', (call.prescribed pkt.capa c).2) ∧
      Changed pkt pkt' (call.prescribed pkt.capa c).1 ∧
      ((call.prescribed pkt.capa c).2 = -1 → pkt' = pkt) := by
  cases call with
  | add code optr olen =>
    obtain ⟨pkt', hadd, hchanged⟩ := add_spec h hcapa hregular
    exact ⟨pkt', congrArg some hadd, hchanged⟩
  | delete code => exact delete_spec h hregular

theorem initialize_eq {buf : Mem} {capa : ℕ} (h : initializePktbuf buf capa = some pkt) :
    pkt.m = fill buf 0 pktHdrSize 0 ∧ pkt.len = pktHdrSize ∧ pkt.capa = capa ∧
      pktHdrSize ≤ capa := by
  rw [initializePktbuf] at h
  by_cases hsmall : capa < pktHdrSize
  · rw [if_pos hsmall] at h
    cases h
  · rw [if_neg hsmall] at h
    cases h
    exact ⟨rfl, rfl, rfl, Nat.le_of_not_lt hsmall⟩

theorem field_of_initialize {buf : Mem} {capa : ℕ} (h : initializePktbuf buf capa = some pkt)
    (hin : start + size ≤ pktHdrSize) :
    Field pkt.m start size (List.replicate size .padding) := by
  obtain ⟨hm, -⟩ := initialize_eq h
  refine ⟨laid_padding fun i _ hi => ?_, sizes_padding size⟩
  rw [hm]
  exact if_pos ⟨Nat.zero_le i, by omega⟩

theorem Reach.holds (h : Reach pkt c) : Holds pkt.m pkt.len c ∧ pkt.len ≤ pkt.capa := by
  induction h with
  | start hinit hfile hsname =>
    obtain ⟨-, hlen, hcapa, hle⟩ := initialize_eq hinit
    refine ⟨⟨hlen, hfile, hsname⟩, ?_⟩
    dsimp only
    omega
  | step call h hregular hrun ih =>
    obtain ⟨hholds, hcapa⟩ := ih
    obtain ⟨pkt', hrun', hchanged, -⟩ := Call.run_spec hholds hcapa hregular
    cases hrun.symm.trans hrun'
    exact ⟨hchanged.holds, hchanged.len hcapa⟩

/-- After any regular calls, the options of a packet are the encoding of those that the calls
prescribe. A search finds the first option with a code if it gets to it, a walk visits the options
in order if it comes to its end, and a regular call does what is prescribed. A call that fails
leaves the packet unchanged. -/
theorem Reach.as_prescribed (h : Reach pkt c) :
    Holds pkt.m pkt.len c ∧
      (∀ code : UInt8, c.Searchable code.toNat →
        Dhcp.findOption pkt.m pkt.len code.toNat = some (c.find code.toNat)) ∧
      (c.Walks → ∃ opts, c.options = some opts ∧
        ∀ (S : Type) (walker : S → ℕ → S × ℤ) (s : S), (∀ s opt, 0 < (walker s opt).2) →
          Dhcp.walkOptions pkt.m pkt.len walker s =
            some ((c.walked opts).foldl (fun s opt => (walker s opt).1) s, 0)) ∧
      ∀ call : Call, call.Regular pkt.capa c →
        ∃ pkt', call.run pkt = some (pkt', (call.prescribed pkt.capa c).2) ∧
          Reach pkt' (call.prescribed pkt.capa c).1 ∧
          ((call.prescribed pkt.capa c).2 = -1 → pkt' = pkt) := by
  obtain ⟨hholds, hcapa⟩ := h.holds
  refine ⟨hholds, fun code hsearch => hholds.findOption hsearch, ?_, fun call hregular => ?_⟩
  · rintro ⟨opts, hopts, hwalks⟩
    exact ⟨opts, hopts, fun S walker s hgoes => hholds.walkOptions hgoes hopts hwalks s⟩
  · obtain ⟨pkt', hrun, -, hfails⟩ := Call.run_spec hholds hcapa hregular
    exact ⟨pkt', hrun, h.step call hregular hrun, hfails⟩

/-- Of two options one is deleted, and padding and the end of the options are added. -/
theorem as_prescribed_deleted : ∃ pkt c, Reach pkt c ∧
    Dhcp.findOption pkt.m pkt.len 53 = some (some optionsAt) ∧
      Dhcp.walkOptions pkt.m pkt.len (fun s opt => (s ++ [opt], 1)) [] = some ([optionsAt], 0) := by
  have hinit : initializePktbuf (fun _ => 7) 300 =
      some ⟨fill (fun _ => 7) 0 pktHdrSize 0, pktHdrSize, 300⟩ := rfl
  have hfile : Field _ fileAt fileSize _ := field_of_initialize hinit (by decide)
  have hsname : Field _ snameAt snameSize _ := field_of_initialize hinit (by decide)
  have hadded := ((Reach.start hinit hfile hsname).step (.add 12 (fun _ => 97) 1)
    (fun _ => .inr (by decide)) rfl).step (.add 53 (fun _ => 1) 1) nofun rfl
  have hdeleted := hadded.step (.delete 12) (by
    intro opts hopts
    cases hopts
    refine ⟨⟨fun o ho => ?_, fun hcode => absurd hcode (by decide)⟩, fun hnone => ?_⟩
    · cases ho
    · cases hnone) rfl
  have hpadded := (hdeleted.step (.add 0 (fun _ => 0) 0) nofun rfl).step (.add 0 (fun _ => 0) 0)
    nofun rfl
  have hreach := ((hpadded.step (.add 255 (fun _ => 0) 0) nofun rfl).step (.add 0 (fun _ => 0) 0)
    nofun rfl).step (.add 0 (fun _ => 0) 0) nofun rfl
  obtain ⟨-, hfind, hwalk, -⟩ := hreach.as_prescribed
  have hfound := hfind 53 fun opts hopts => by
    cases hopts
    refine ⟨⟨fun o ho => ?_, fun hcode => absurd hcode (by decide)⟩, fun hnone => ?_⟩
    · cases ho
    · cases hnone
  obtain ⟨opts, hopts, hwalked⟩ := hwalk ⟨_, rfl, List.forall_mem_cons.2
    ⟨.inr ⟨fun hcode => absurd hcode (by decide), le_refl 2⟩,
      List.forall_mem_cons.2 ⟨.inl rfl, List.forall_mem_singleton.2 (.inl rfl)⟩⟩⟩
  cases hopts
  exact ⟨_, _, hreach, hfound, hwalked _ _ [] fun _ _ => Int.one_pos⟩

/-- A walk fails if the end of the options is the last byte. -/
theorem not_as_prescribed : ¬∀ (buf : Mem) (capa : ℕ) (pkt pkt' : Pktbuf) (calls : List Call),
    initializePktbuf buf capa = some pkt → runCalls pkt calls = some pkt' →
    (Dhcp.walkOptions pkt'.m pkt'.len (fun n _ => (n + 1, 1)) 0).map Prod.snd = some 0 := by
  intro h
  have hwalk := h (fun _ => 0) 300 _ _ [.add 53 (fun _ => 1) 1, .add 255 (fun _ => 0) 0] rfl rfl
  exact absurd hwalk (by decide +kernel)

end Qse.Dhcp
