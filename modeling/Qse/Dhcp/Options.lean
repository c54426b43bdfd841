import Qse.Dhcp.Scans
import Qse.Support.LaidOut

/-!
# Lists of options

The options behind the magic cookie, and those in a field of the header, are the encoding of a list,
and a search and a walk of an area go along the list.
-/

open List Option Option

namespace Qse.Dhcp

open ByteMemory LaidOut

/-- Padding and the end of the options are codes only. -/
inductive Opt where
  | padding
  | ending
  | option (code : UInt8) (value : List UInt8) (proper : code ≠ optPadding ∧ code ≠ optEnd)
      (fits : value.length < 256)

namespace Opt

def code : Opt → UInt8
  | padding => optPadding
  | ending => optEnd
  | option code _ _ _ => code

def bytes : Opt → List UInt8
  | padding => [optPadding]
  | ending => [optEnd]
  | option code value _ _ => code :: .ofNat value.length :: value

def flags : Opt → Option UInt8
  | option code [flags] _ _ => if code = optOverload then some flags else none
  | _ => none

def Proper (o : Opt) : Prop := o.code = optOverload → o.flags ≠ none

end Opt

def active (opts : List Opt) : List Opt := opts.takeWhile fun o => o.code ≠ optEnd

def overloads (opts : List Opt) (optlen : ℕ × ℕ) : ℕ × ℕ :=
  (active opts).foldl (fun optlen o => (o.flags.map fun flags => overload flags optlen).getD optlen)
    optlen

def findIn (code : ℤ) : ℕ → List Opt → Option ℕ
  | _, [] => none
  | p, o :: opts =>
    if o.code.toNat = code then some p
    else if o.code = optEnd then none
    else findIn code (p + o.bytes.length) opts

def passed (code : ℤ) (opts : List Opt) : List Opt :=
  opts.takeWhile fun o => (o.code.toNat : ℤ) ≠ code ∧ o.code ≠ optEnd

/-- A search for the code goes over overload options of one byte only, and it is not a search for
padding if there is any. -/
structure Searchable (code : ℤ) (opts : List Opt) : Prop where
  proper : ∀ o ∈ passed code opts, o.Proper
  padding : code = optPadding.toNat → ∀ o ∈ active opts, o.code ≠ optPadding

/-- The addresses of the options in front of the end that are neither padding nor overload -/
def walked : ℕ → List Opt → List ℕ
  | _, [] => []
  | p, o :: opts =>
    if o.code = optEnd then []
    else if o.code = optPadding ∨ o.code = optOverload then walked (p + o.bytes.length) opts
    else p :: walked (p + o.bytes.length) opts

/-- The options of an area are walked to their end: padding stands in pairs, and at least two bytes
stand behind the end of the options. -/
def Walks : List Opt → Prop
  | [] => False
  | .ending :: opts => 2 ≤ sizes Opt.bytes opts
  | .padding :: .padding :: opts => Walks opts
  | .padding :: _ => False
  | .option code value proper fits :: opts =>
    (Opt.option code value proper fits).Proper ∧ Walks opts

variable {m : Mem} {p len : ℕ} {o : Opt} {opts more : List Opt} {code : ℤ} {optlen : ℕ × ℕ}

theorem length_bytes_pos (o : Opt) : 0 < o.bytes.length := by
  cases o with
  | padding | ending => exact Nat.one_pos
  | option code value proper fits => exact Nat.succ_pos _

theorem length_le_sizes (opts : List Opt) : opts.length ≤ sizes Opt.bytes opts := by
  induction opts with
  | nil => exact le_rfl
  | cons o opts ih =>
    have hpos := length_bytes_pos o
    rw [sizes_cons, length_cons]
    omega

section Option

variable {c : UInt8} {value : List UInt8} {proper : c ≠ optPadding ∧ c ≠ optEnd}
  {fits : value.length < 256}

variable (proper) (fits) in
theorem length_bytes_option :
    (Opt.option c value proper fits).bytes.length = optHdrSize + value.length :=
  add_comm value.length 2

theorem bytes_option (h : read m p (Opt.option c value proper fits).bytes.length =
    (Opt.option c value proper fits).bytes) :
    m p = c ∧ (m (p + 1)).toNat = value.length ∧ read m (p + 2) value.length = value := by
  have hlength : (Opt.option c value proper fits).bytes.length = value.length + 1 + 1 := rfl
  rw [hlength, read_succ, read_succ] at h
  obtain ⟨hcode, hrest⟩ := List.cons.inj h
  obtain ⟨holen, hvalue⟩ := List.cons.inj hrest
  refine ⟨hcode, ?_, hvalue⟩
  rw [holen, UInt8.toNat_ofNat']
  exact Nat.mod_eq_of_lt fits

end Option

theorem bytes_padding (h : read m p Opt.padding.bytes.length = Opt.padding.bytes) :
    m p = optPadding := (List.cons.inj h).1

theorem bytes_ending (h : read m p Opt.ending.bytes.length = Opt.ending.bytes) : m p = optEnd :=
  (List.cons.inj h).1

theorem code_eq (h : read m p o.bytes.length = o.bytes) : m p = o.code := by
  cases o with
  | padding => exact bytes_padding h
  | ending => exact bytes_ending h
  | option c value proper fits => exact (bytes_option h).1

/-! ## Searching an area -/

theorem active_cons (o : Opt) (opts : List Opt) :
    active (o :: opts) = if o.code = optEnd then [] else o :: active opts := by
  rw [active, takeWhile_cons, ← active]
  by_cases hend : o.code = optEnd
  · simp [hend]
  · simp [hend]

theorem overloads_cons (o : Opt) (opts : List Opt) (optlen : ℕ × ℕ) :
    overloads (o :: opts) optlen = if o.code = optEnd then optlen else
      overloads opts ((o.flags.map fun flags => overload flags optlen).getD optlen) := by
  rw [overloads, active_cons, overloads]
  by_cases hend : o.code = optEnd
  · rw [if_pos hend, if_pos hend]
    rfl
  · rw [if_neg hend, if_neg hend]
    rfl

theorem Searchable.tail (h : Searchable code (o :: opts)) (hother : (o.code.toNat : ℤ) ≠ code)
    (hend : o.code ≠ optEnd) : o.Proper ∧ Searchable code opts := by
  have hpassed : passed code (o :: opts) = o :: passed code opts := by
    rw [passed, takeWhile_cons, if_pos (decide_eq_true ⟨hother, hend⟩)]
    rfl
  have hactive : active (o :: opts) = o :: active opts := by rw [active_cons, if_neg hend]
  obtain ⟨hproper, hpadding⟩ := h
  rw [hpassed] at hproper
  rw [hactive] at hpadding
  exact ⟨hproper o (mem_cons_self ..), fun o' ho' => hproper o' (.tail _ ho'),
    fun hcode o' ho' => hpadding hcode o' (.tail _ ho')⟩

theorem flags_of_proper {c : UInt8} {value : List UInt8}
    {proper : c ≠ optPadding ∧ c ≠ optEnd} {fits : value.length < 256}
    (h : (Opt.option c value proper fits).Proper) (hcode : c = optOverload) :
    ∃ flags, value = [flags] ∧ (Opt.option c value proper fits).flags = some flags := by
  have hsome := h hcode
  cases value with
  | nil => exact absurd rfl hsome
  | cons flags value =>
    cases value with
    | nil => exact ⟨flags, rfl, if_pos hcode⟩
    | cons byte value => exact absurd rfl hsome

theorem flags_of_ne (h : o.code ≠ optOverload) : o.flags = none := by
  cases o with
  | padding => rfl
  | ending => rfl
  | option c value proper fits =>
    cases value with
    | nil => rfl
    | cons flags value =>
      cases value with
      | nil => exact if_neg h
      | cons byte value => rfl

theorem findArea_eq (hlaid : Laid Opt.bytes m p opts) (hsearch : Searchable code opts)
    {stop fuel : ℕ} (hstop : stop = p + sizes Opt.bytes opts) (hlen : stop ≤ len)
    (hfuel : opts.length < fuel) :
    findArea m len code stop fuel p optlen =
      some (match findIn code p opts with
        | some found => .inl found
        | none => .inr (overloads opts optlen)) := by
  induction opts generalizing p fuel optlen with
  | nil =>
    cases fuel with
    | zero => cases hfuel
    | succ fuel =>
      rw [sizes_nil] at hstop
      rw [findArea, if_pos (by omega)]
      rfl
  | cons o opts ih =>
    obtain ⟨hbytes, hrest⟩ := laid_cons.1 hlaid
    rw [sizes_cons, ← add_assoc] at hstop
    have hpos := length_bytes_pos o
    cases fuel with
    | zero => cases hfuel
    | succ fuel =>
      have hfuel' : opts.length < fuel := Nat.lt_of_succ_lt_succ hfuel
      rw [findArea, if_neg (by omega), readByte_of_lt (by omega), code_eq hbytes, findIn,
        overloads_cons]
      simp only [bind_eq_bind, bind_some]
      by_cases hend : o.code = optEnd
      · have hnotpad : ¬optEnd = optPadding := by decide
        rw [hend, if_neg hnotpad, if_pos rfl]
        by_cases hcode : code = optEnd.toNat
        · rw [if_pos hcode, if_pos hcode.symm]
        · rw [if_neg hcode, if_neg (Ne.symm hcode), if_pos rfl, if_pos rfl]
      by_cases hfound : (o.code.toNat : ℤ) = code
      · cases o with
        | padding =>
          have hactive : Opt.padding ∈ active (Opt.padding :: opts) := by
            rw [active_cons, if_neg hend]
            exact mem_cons_self ..
          exact absurd rfl (hsearch.padding hfound.symm _ hactive)
        | ending => exact absurd rfl hend
        | option c value proper fits =>
          obtain ⟨hc, holen, hvalue⟩ := bytes_option hbytes
          have hlength := length_bytes_option proper fits
          have htwo : optHdrSize = 2 := rfl
          have hnotpad : ¬(Opt.option c value proper fits).code = optPadding := proper.1
          rw [if_neg hnotpad, if_neg hend, if_neg (by omega),
            readByte_of_lt (by omega), bind_some, if_pos hfound, if_pos hfound,
            holen, if_neg (by omega)]
      obtain ⟨hproper, hsearch'⟩ := hsearch.tail hfound hend
      have hmore := fun optlen => @ih _ optlen hrest hsearch' _ hstop hfuel'
      rw [if_neg hend, if_neg hfound, if_neg hend, if_neg hend]
      cases o with
      | padding =>
        have hpad : Opt.padding.code = optPadding := rfl
        rw [if_pos hpad]
        exact hmore optlen
      | ending => exact absurd rfl hend
      | option c value proper fits =>
        obtain ⟨hc, holen, hvalue⟩ := bytes_option hbytes
        have hlength := length_bytes_option proper fits
        have htwo : optHdrSize = 2 := rfl
        have hnotpad : ¬(Opt.option c value proper fits).code = optPadding := proper.1
        have hnext : p + optHdrSize + (m (p + 1)).toNat =
            p + (Opt.option c value proper fits).bytes.length := by omega
        rw [if_neg hnotpad, if_neg (by omega), readByte_of_lt (by omega), bind_some,
          if_neg hfound, hnext]
        by_cases hoverload : (Opt.option c value proper fits).code = optOverload
        · obtain ⟨flags, rfl, hflags⟩ := flags_of_proper hproper hoverload
          have hone : m (p + 1) = 1 := UInt8.toNat_inj.1 holen
          have hbyte : m (p + optHdrSize) = flags := (List.cons.inj hvalue).1
          have hinside : p + optHdrSize < len := by
            have hsingle : [flags].length = 1 := rfl
            omega
          rw [if_pos hoverload, if_neg (not_not.2 hone), readByte_of_lt hinside,
            bind_some, hbyte, hflags]
          exact hmore (overload flags optlen)
        · rw [if_neg hoverload, flags_of_ne hoverload]
          exact hmore optlen

/-! ## Walking an area -/

theorem walks_pos (h : Walks opts) : 0 < sizes Opt.bytes opts := by
  cases opts with
  | nil => exact h.elim
  | cons o opts =>
    have hpos := length_bytes_pos o
    rw [sizes_cons]
    omega

theorem walkArea_eq {S : Type} {walker : S → ℕ → S × ℤ} (hgoes : ∀ s opt, 0 < (walker s opt).2)
    (hlaid : Laid Opt.bytes m p opts) (hwalks : Walks opts) {stop fuel : ℕ}
    (hstop : stop = p + sizes Opt.bytes opts) (hlen : stop ≤ len) (hfuel : opts.length < fuel)
    (s : S) :
    walkArea m len walker stop fuel p s optlen =
      some ((walked p opts).foldl (fun s opt => (walker s opt).1) s,
        some (overloads opts optlen)) := by
  have htwo : optHdrSize = 2 := rfl
  induction opts using Walks.induct generalizing p fuel optlen s with
  | case1 => exact hwalks.elim
  | case2 opts =>
    obtain ⟨hbytes, -⟩ := laid_cons.1 hlaid
    have hone : Opt.ending.bytes.length = 1 := rfl
    have hbehind : 2 ≤ sizes Opt.bytes opts := hwalks
    rw [sizes_cons] at hstop
    cases fuel with
    | zero => cases hfuel
    | succ fuel =>
      have hnotpad : ¬optEnd = optPadding := by decide
      rw [walkArea, if_neg (by omega), if_neg (by omega), readByte_of_lt (by omega),
        bytes_ending hbytes, walked, overloads_cons]
      simp only [bind_eq_bind, bind_some]
      rw [if_neg hnotpad]
      rfl
  | case3 opts ih =>
    obtain ⟨hbytes, hrest⟩ := laid_cons.1 hlaid
    obtain ⟨-, hrest'⟩ := laid_cons.1 hrest
    have hone : Opt.padding.bytes.length = 1 := rfl
    have hwalks' : Walks opts := hwalks
    have hpos := walks_pos hwalks'
    rw [sizes_cons, sizes_cons] at hstop
    rw [length_cons, length_cons] at hfuel
    cases fuel with
    | zero => cases hfuel
    | succ fuel =>
      have hmore := @ih _ optlen hrest' hwalks' fuel (by omega) (by omega) s
      rw [walkArea, if_neg (by omega), if_neg (by omega), readByte_of_lt (by omega),
        bytes_padding hbytes, walked, walked, overloads_cons, overloads_cons]
      simp only [bind_eq_bind, bind_some]
      exact hmore
  | case4 opts hother =>
    -- padding that stands alone
    cases opts with
    | nil => exact hwalks.elim
    | cons o opts =>
      cases o with
      | padding => exact absurd rfl (hother opts)
      | ending | option c value proper fits => exact hwalks.elim
  | case5 c value proper fits opts ih =>
    obtain ⟨hproper, hwalks⟩ := hwalks
    obtain ⟨hbytes, hrest⟩ := laid_cons.1 hlaid
    obtain ⟨hc, holen, hvalue⟩ := bytes_option hbytes
    have hlength := length_bytes_option proper fits
    have hpos := walks_pos hwalks
    rw [sizes_cons] at hstop
    rw [length_cons] at hfuel
    cases fuel with
    | zero => cases hfuel
    | succ fuel =>
      have hmore := fun optlen s => @ih _ optlen hrest hwalks fuel (by omega) (by omega) s
      have hnext : p + optHdrSize + (m (p + 1)).toNat =
          p + (Opt.option c value proper fits).bytes.length := by omega
      have hnotpad : ¬c = optPadding := proper.1
      have hnotend : ¬c = optEnd := proper.2
      have hcode : (Opt.option c value proper fits).code = c := rfl
      rw [walkArea, if_neg (by omega), if_neg (by omega), readByte_of_lt (i := p) (by omega),
        readByte_of_lt (i := p + 1) (by omega), hc, walked, overloads_cons, hcode]
      simp only [bind_eq_bind, bind_some]
      rw [if_neg hnotpad, if_neg hnotend, hnext, if_neg (by omega), if_neg hnotend, if_neg hnotend]
      by_cases hoverload : c = optOverload
      · obtain ⟨flags, rfl, hflags⟩ := flags_of_proper hproper hoverload
        have hone : m (p + 1) = 1 := UInt8.toNat_inj.1 holen
        have hbyte : m (p + optHdrSize) = flags := (List.cons.inj hvalue).1
        rw [if_pos hoverload, if_neg (not_not.2 hone), readByte_of_lt (by omega),
          bind_some, hbyte, hflags, if_pos (.inr hoverload)]
        exact hmore (overload flags optlen) s
      · have hother : ¬(c = optPadding ∨ c = optOverload) := not_or.2 ⟨hnotpad, hoverload⟩
        have hcalled := hgoes s p
        rw [if_neg hoverload, if_neg (by omega), if_neg (by omega), if_neg hother,
          flags_of_ne (o := Opt.option c value proper fits) hoverload]
        exact hmore optlen (walker s p).1

theorem walkArea_all {S : Type} {walker : S → ℕ → S × ℤ} (hgoes : ∀ s opt, 0 < (walker s opt).2)
    (hlaid : Laid Opt.bytes m p opts) (hwalks : opts = [] ∨ Walks opts) {stop fuel : ℕ}
    (hstop : stop = p + sizes Opt.bytes opts) (hlen : stop ≤ len) (hfuel : opts.length < fuel)
    (s : S) :
    walkArea m len walker stop fuel p s optlen =
      some ((walked p opts).foldl (fun s opt => (walker s opt).1) s,
        some (overloads opts optlen)) := by
  obtain rfl | hwalks := hwalks
  · cases fuel with
    | zero => cases hfuel
    | succ fuel =>
      rw [sizes_nil] at hstop
      rw [walkArea, if_pos (by omega)]
      rfl
  · exact walkArea_eq hgoes hlaid hwalks hstop hlen hfuel s

structure Contents where
  options : Option (List Opt)
  file : List Opt
  sname : List Opt

def optionsAt : ℕ := pktHdrSize + cookieSize

structure Field (m : Mem) (start size : ℕ) (opts : List Opt) : Prop where
  laid : Laid Opt.bytes m start opts
  size : sizes Opt.bytes opts = size

def Behind (m : Mem) (len : ℕ) : Option (List Opt) → Prop
  | none => len = pktHdrSize
  | some opts => len = optionsAt + sizes Opt.bytes opts ∧
      read m pktHdrSize cookieSize = magicCookie ∧ Laid Opt.bytes m optionsAt opts

structure Holds (m : Mem) (len : ℕ) (c : Contents) : Prop where
  behind : Behind m len c.options
  file : Field m fileAt fileSize c.file
  sname : Field m snameAt snameSize c.sname

namespace Contents

def usedFile (c : Contents) (opts : List Opt) : List Opt :=
  if (overloads opts (0, 0)).1 = 0 then [] else c.file

def usedSname (c : Contents) (opts : List Opt) : List Opt :=
  if (overloads (c.usedFile opts) (overloads opts (0, 0))).2 = 0 then [] else c.sname

def find (c : Contents) (code : ℤ) : Option ℕ :=
  c.options.bind fun opts =>
    (findIn code optionsAt opts).or ((findIn code fileAt (c.usedFile opts)).or
      (findIn code snameAt (c.usedSname opts)))

def walked (c : Contents) (opts : List Opt) : List ℕ :=
  Dhcp.walked optionsAt opts ++ Dhcp.walked fileAt (c.usedFile opts) ++
    Dhcp.walked snameAt (c.usedSname opts)

def Searchable (c : Contents) (code : ℤ) : Prop :=
  ∀ opts, c.options = some opts → Dhcp.Searchable code opts ∧
    (findIn code optionsAt opts = none → Dhcp.Searchable code (c.usedFile opts) ∧
      (findIn code fileAt (c.usedFile opts) = none → Dhcp.Searchable code (c.usedSname opts)))

/-- The options have been started, and those of each area that counts are walked to their end unless
there are none. -/
def Walks (c : Contents) : Prop :=
  ∃ opts, c.options = some opts ∧ ∀ area ∈ [opts, c.usedFile opts, c.usedSname opts],
    area = [] ∨ Dhcp.Walks area

end Contents

variable {m : Mem} {len : ℕ} {c : Contents} {code : ℤ} {opts : List Opt} {optlen : ℕ × ℕ}

/-! ## The fields that count -/

def Whole (optlen : ℕ × ℕ) : Prop :=
  (optlen.1 = 0 ∨ optlen.1 = fileSize) ∧ (optlen.2 = 0 ∨ optlen.2 = snameSize)

theorem whole_overload (flags : UInt8) (h : Whole optlen) : Whole (overload flags optlen) := by
  obtain ⟨hfile, hsname⟩ := h
  constructor
  · rw [overload]
    dsimp only
    split
    · exact .inr rfl
    · exact hfile
  · rw [overload]
    dsimp only
    split
    · exact .inr rfl
    · exact hsname

theorem whole_overloads (opts : List Opt) (h : Whole optlen) : Whole (overloads opts optlen) := by
  rw [overloads]
  induction active opts generalizing optlen with
  | nil => exact h
  | cons o opts ih =>
    have hstep : Whole ((o.flags.map fun flags => overload flags optlen).getD optlen) := by
      cases o.flags with
      | none => exact h
      | some flags => exact whole_overload flags h
    exact ih hstep

theorem used_field {start size n : ℕ} {field : List Opt} (h : Field m start size field)
    (hsize : size ≠ 0) (hn : n = 0 ∨ n = size) :
    Laid Opt.bytes m start (if n = 0 then [] else field) ∧
      start + n = start + sizes Opt.bytes (if n = 0 then [] else field) := by
  obtain rfl | rfl := hn
  · rw [if_pos rfl]
    exact ⟨laid_nil m start, rfl⟩
  · rw [if_neg hsize, h.size]
    exact ⟨h.laid, rfl⟩

structure Areas (m : Mem) (len : ℕ) (c : Contents) (opts : List Opt) : Prop where
  has : HasOptions m len
  options : Laid Opt.bytes m optionsAt opts
  optionsEnd : optionsAt + (len - pktHdrSize - cookieSize) = optionsAt + sizes Opt.bytes opts
  optionsStop : optionsAt + (len - pktHdrSize - cookieSize) ≤ len
  file : Laid Opt.bytes m fileAt (c.usedFile opts)
  fileEnd : fileAt + (overloads opts (0, 0)).1 = fileAt + sizes Opt.bytes (c.usedFile opts)
  fileStop : fileAt + (overloads opts (0, 0)).1 ≤ len
  sname : Laid Opt.bytes m snameAt (c.usedSname opts)
  snameEnd : snameAt + (overloads (c.usedFile opts) (overloads opts (0, 0))).2 =
    snameAt + sizes Opt.bytes (c.usedSname opts)
  snameStop : snameAt + (overloads (c.usedFile opts) (overloads opts (0, 0))).2 ≤ len

theorem sizes_used_le {n size : ℕ} {field : List Opt} (h : sizes Opt.bytes field = size) :
    sizes Opt.bytes (if n = 0 then [] else field) ≤ size := by
  split
  · exact Nat.zero_le _
  · exact h.le

theorem Holds.areas (h : Holds m len c) (hopts : c.options = some opts) : Areas m len c opts := by
  have hbehind := h.behind
  rw [hopts] at hbehind
  obtain ⟨hlen, hcookie, hlaid⟩ := hbehind
  have hwhole := whole_overloads opts (⟨.inl rfl, .inl rfl⟩ : Whole (0, 0))
  have hwhole' := whole_overloads (c.usedFile opts) hwhole
  obtain ⟨hfile, hfileEnd⟩ : Laid Opt.bytes m fileAt (c.usedFile opts) ∧
      fileAt + (overloads opts (0, 0)).1 = fileAt + sizes Opt.bytes (c.usedFile opts) :=
    used_field h.file (by decide) hwhole.1
  obtain ⟨hsname, hsnameEnd⟩ : Laid Opt.bytes m snameAt (c.usedSname opts) ∧
      snameAt + (overloads (c.usedFile opts) (overloads opts (0, 0))).2 =
        snameAt + sizes Opt.bytes (c.usedSname opts) :=
    used_field h.sname (by decide) hwhole'.2
  have hfileLe : sizes Opt.bytes (c.usedFile opts) ≤ fileSize := sizes_used_le h.file.size
  have hsnameLe : sizes Opt.bytes (c.usedSname opts) ≤ snameSize := sizes_used_le h.sname.size
  have hstart : optionsAt = pktHdrSize + cookieSize := rfl
  have hfileAt : fileAt + fileSize < optionsAt := by decide
  have hsnameAt : snameAt + snameSize < optionsAt := by decide
  exact {
    has := ⟨by omega, hcookie⟩
    options := hlaid
    optionsEnd := by omega
    optionsStop := by omega
    file := hfile
    fileEnd := hfileEnd
    fileStop := by omega
    sname := hsname
    snameEnd := hsnameEnd
    snameStop := by omega }

theorem Areas.length_le (h : Areas m len c opts) :
    opts.length ≤ len ∧ (c.usedFile opts).length ≤ len ∧ (c.usedSname opts).length ≤ len := by
  have hend := h.optionsEnd
  have hstop := h.optionsStop
  have hfile := h.fileEnd
  have hfileStop := h.fileStop
  have hsname := h.snameEnd
  have hsnameStop := h.snameStop
  have h₀ := length_le_sizes opts
  have h₁ := length_le_sizes (c.usedFile opts)
  have h₂ := length_le_sizes (c.usedSname opts)
  omega

theorem Holds.not_has (h : Holds m len c) (hopts : c.options = none) : ¬HasOptions m len := by
  have hbehind := h.behind
  rw [hopts] at hbehind
  have hend : len = pktHdrSize := hbehind
  have hcookie : 0 < cookieSize := by decide
  intro hhas
  have hlen := hhas.1
  omega

theorem Holds.findOption (h : Holds m len c) (hsearch : c.Searchable code) :
    findOption m len code = some (c.find code) := by
  rw [Dhcp.findOption]
  cases hopts : c.options with
  | none =>
    rw [getOptionStart_of_not (h.not_has hopts), Contents.find, hopts]
    rfl
  | some opts =>
    have hareas := h.areas hopts
    obtain ⟨hlength, hlength₁, hlength₂⟩ := hareas.length_le
    obtain ⟨hsearch₀, hsearch₁⟩ := hsearch opts hopts
    have hfind₀ : findArea m len code (optionsAt + (len - pktHdrSize - cookieSize)) (len + 1)
        optionsAt (0, 0) = _ := findArea_eq hareas.options hsearch₀ hareas.optionsEnd
          hareas.optionsStop (Nat.lt_succ_of_le hlength)
    have hstart : pktHdrSize + cookieSize = optionsAt := rfl
    rw [getOptionStart_of_has hareas.has, Contents.find, hopts, hstart]
    simp only [bind_eq_bind, bind_some, hfind₀]
    cases hfound₀ : findIn code optionsAt opts with
    | some found => rfl
    | none =>
      obtain ⟨hsearch₁, hsearch₂⟩ := hsearch₁ hfound₀
      have hfind₁ : findArea m len code (fileAt + (overloads opts (0, 0)).1) (len + 1) fileAt
          (overloads opts (0, 0)) = _ := findArea_eq hareas.file hsearch₁ hareas.fileEnd
            hareas.fileStop (Nat.lt_succ_of_le hlength₁)
      simp only [hfind₁, bind_some, none_or]
      cases hfound₁ : findIn code fileAt (c.usedFile opts) with
      | some found => rfl
      | none =>
        have hfind₂ : findArea m len code
            (snameAt + (overloads (c.usedFile opts) (overloads opts (0, 0))).2) (len + 1)
            snameAt (overloads (c.usedFile opts) (overloads opts (0, 0))) = _ :=
          findArea_eq hareas.sname (hsearch₂ hfound₁) hareas.snameEnd hareas.snameStop
            (Nat.lt_succ_of_le hlength₂)
        simp only [hfind₂, bind_some, none_or]
        cases findIn code snameAt (c.usedSname opts) with
        | some found | none => rfl

theorem Holds.walkOptions {S : Type} {walker : S → ℕ → S × ℤ} (h : Holds m len c)
    (hgoes : ∀ s opt, 0 < (walker s opt).2) (hopts : c.options = some opts)
    (hwalks : ∀ area ∈ [opts, c.usedFile opts, c.usedSname opts], area = [] ∨ Walks area) (s : S) :
    walkOptions m len walker s =
      some ((c.walked opts).foldl (fun s opt => (walker s opt).1) s, 0) := by
  have hareas := h.areas hopts
  obtain ⟨hlength, hlength₁, hlength₂⟩ := hareas.length_le
  have hstart : pktHdrSize + cookieSize = optionsAt := rfl
  have hmem₁ : c.usedFile opts ∈ [opts, c.usedFile opts, c.usedSname opts] :=
    .tail _ (mem_cons_self ..)
  have hmem₂ : c.usedSname opts ∈ [opts, c.usedFile opts, c.usedSname opts] :=
    .tail _ (.tail _ (mem_singleton_self _))
  have hwalk₀ : ∀ s, walkArea m len walker (optionsAt + (len - pktHdrSize - cookieSize)) (len + 1)
      optionsAt s (0, 0) = _ := walkArea_all hgoes hareas.options (hwalks _ (mem_cons_self ..))
        hareas.optionsEnd hareas.optionsStop (Nat.lt_succ_of_le hlength)
  have hwalk₁ : ∀ s, walkArea m len walker (fileAt + (overloads opts (0, 0)).1) (len + 1) fileAt s
      (overloads opts (0, 0)) = _ := walkArea_all hgoes hareas.file (hwalks _ hmem₁) hareas.fileEnd
        hareas.fileStop (Nat.lt_succ_of_le hlength₁)
  have hwalk₂ : ∀ s, walkArea m len walker
      (snameAt + (overloads (c.usedFile opts) (overloads opts (0, 0))).2) (len + 1) snameAt s
      (overloads (c.usedFile opts) (overloads opts (0, 0))) = _ := walkArea_all hgoes hareas.sname
        (hwalks _ hmem₂) hareas.snameEnd hareas.snameStop (Nat.lt_succ_of_le hlength₂)
  rw [Dhcp.walkOptions, getOptionStart_of_has hareas.has, hstart]
  simp only [bind_eq_bind, bind_some, hwalk₀, hwalk₁, hwalk₂]
  rw [Contents.walked, foldl_append, foldl_append]

end Qse.Dhcp
