import Qse.Rad.Bounds

/-!
# Messages of any bytes

Whatever the bytes of a message are, there are attributes that can be read from it, and all
functions that find, visit and delete attributes keep to them.
-/

open List

namespace Qse.Rad

open ByteMemory

variable {m : Mem} {p n : ℕ} {a : Attr} {as : List Attr} {rem : ℕ} {type xtype attrtype : UInt8}
  {vendor : UInt32} {has : Attr → Bool}

def attrAt (m : Mem) (p : ℕ) : Attr where
  type := m p
  value := read m (p + 2) (attrLength m p - attrHdrSize)
  fits := by
    have hbyte := (m (p + 1)).toNat_lt
    have hlength : attrLength m p = (m (p + 1)).toNat := rfl
    have htwo : attrHdrSize = 2 := rfl
    have hmax : maxAttrValueLen = 253 := rfl
    rw [length_read]
    omega

theorem size_attrAt (h : attrHdrSize ≤ attrLength m p) : (attrAt m p).size = attrLength m p := by
  have hvalue : (attrAt m p).value.length = attrLength m p - attrHdrSize := length_read ..
  rw [Attr.size, hvalue]
  exact Nat.sub_add_cancel h

theorem read_attrAt (h : attrHdrSize ≤ attrLength m p) :
    read m p (attrAt m p).size = (attrAt m p).bytes := by
  have hsize := size_attrAt h
  have hcount : (attrAt m p).size = attrLength m p - attrHdrSize + 1 + 1 := by
    rw [hsize]
    exact (Nat.sub_add_cancel h).symm
  have hoctet : UInt8.ofNat (attrAt m p).size = m (p + 1) := by
    rw [hsize]
    exact UInt8.ofNat_toNat
  rw [Attr.bytes, hoctet, hcount, read_succ, read_succ]
  rfl

theorem laid_exists (m : Mem) (p count : ℕ) :
    ∃ as rem, sizes as + rem = count ∧ Laid m p as ∧ Ends m (p + sizes as) rem := by
  induction count using Nat.strong_induction_on generalizing p with
  | _ count ih =>
    by_cases hends : Ends m p count
    · exact ⟨[], count, zero_add _, rfl, hends⟩
    obtain ⟨hroom, hrest⟩ := not_or.1 hends
    obtain ⟨hlong, hshort⟩ := not_or.1 hrest
    have htwo : attrHdrSize = 2 := rfl
    have hsize := size_attrAt (not_lt.1 hshort)
    obtain ⟨as, rem, hcount, hlaid, hends⟩ :=
      ih (count - attrLength m p) (by omega) (p + attrLength m p)
    refine ⟨attrAt m p :: as, rem, ?_, laid_cons.2 ⟨read_attrAt (not_lt.1 hshort), ?_⟩, ?_⟩
    · rw [sizes_cons, hsize]
      omega
    · rwa [hsize]
    · rwa [sizes_cons, hsize, ← add_assoc]

theorem parsed_exists (h : hdrSize ≤ hdrLength m) : ∃ as rem, Parsed m as rem := by
  obtain ⟨as, rem, hcount, hlaid, hends⟩ := laid_exists m hdrSize (hdrLength m - hdrSize)
  refine ⟨as, rem, ?_, hlaid, hends⟩
  rw [total]
  omega

structure Inside (m : Mem) (size attr : ℕ) : Prop where
  start : hdrSize ≤ attr
  header : size ≤ attrLength m attr
  stop : attr + attrLength m attr ≤ hdrLength m

theorem mem_positions {q : ℕ} (h : q ∈ positions has p as) :
    ∃ front a back, as = front ++ a :: back ∧ has a = true ∧ q = p + sizes front := by
  induction as generalizing p with
  | nil => cases h
  | cons a as ih =>
    rw [positions] at h
    have hlater : q ∈ positions has (p + a.size) as →
        ∃ front b back, a :: as = front ++ b :: back ∧ has b = true ∧ q = p + sizes front := by
      intro hq
      obtain ⟨front, b, back, rfl, hb, rfl⟩ := ih hq
      exact ⟨a :: front, b, back, rfl, hb, by rw [sizes_cons, add_assoc]⟩
    by_cases hhas : has a = true
    · rw [if_pos hhas] at h
      obtain rfl | hq := mem_cons.1 h
      · exact ⟨[], a, as, rfl, hhas, rfl⟩
      · exact hlater hq
    · rw [if_neg hhas] at h
      exact hlater h

variable {index : ℤ} {attr : ℕ} {S : Type}

theorem Parsed.inside (h : Parsed m as rem) {bs : List Attr} (hpre : bs <+: as) {size : ℕ}
    (hsize : ∀ a, has a = true → size ≤ a.size)
    (hattr : (positions has hdrSize bs)[index.toNat]? = some attr) : Inside m size attr := by
  obtain ⟨front, a, back, rfl, ha, rfl⟩ := mem_positions (mem_of_getElem? hattr)
  obtain ⟨more, rfl⟩ := hpre
  rw [append_assoc] at h
  obtain ⟨hbytes, -⟩ := laid_cons.1 (laid_append.1 h.laid).2
  have hlength := h.length
  rw [total_append, cons_append, sizes_cons] at hlength
  have htotal : total front = hdrSize + sizes front := rfl
  refine ⟨Nat.le_add_right .., ?_, ?_⟩
  · rw [attrLength_eq hbytes]
    exact hsize a ha
  · rw [attrLength_eq hbytes]
    omega

theorem findAttribute_inside
    (hattr : findAttribute m type index = some attr) : Inside m attrHdrSize attr := by
  by_cases hle : hdrSize ≤ hdrLength m
  · obtain ⟨as, rem, h⟩ := parsed_exists hle
    rw [h.findAttribute] at hattr
    exact h.inside prefix_rfl (fun a _ => Nat.le_add_left ..) hattr
  · rw [findAttribute, find, if_neg hle] at hattr
    cases hattr

theorem findVsattr_inside
    (hattr : findVsattr m vendor type index = some attr) : Inside m vsattrHdrSize attr := by
  by_cases hle : hdrSize ≤ hdrLength m
  · obtain ⟨as, rem, h⟩ := parsed_exists hle
    rw [h.findVsattr] at hattr
    refine h.inside prefix_rfl (fun a ha => ?_) hattr
    have hlong : 6 ≤ a.value.length := (of_decide_eq_true (of_decide_eq_true ha).2.1).1
    exact Nat.add_le_add_right hlong 2
  · rw [findVsattr, find, if_neg hle] at hattr
    cases hattr

theorem findExtended_cases {counts : ℕ → Bool}
    (hattr : findExtended m xtype attrtype counts index = some attr) :
    isExtended xtype = true ∧ hdrSize ≤ hdrLength m := by
  by_contra hnot
  rw [findExtended, if_neg hnot] at hattr
  cases hattr

theorem findExtendedAttribute_inside
    (hattr : findExtendedAttribute m xtype attrtype index = some attr) :
    Inside m (extendedHdrSize xtype) attr := by
  obtain ⟨hx, hle⟩ := findExtended_cases hattr
  obtain ⟨as, rem, h⟩ := parsed_exists hle
  rw [h.findExtendedAttribute hx] at hattr
  refine h.inside ?_ (fun a ha => (of_decide_eq_true ha).2.1) hattr
  exact takeWhile_prefix _

def extendedVsHdrSize (xtype : UInt8) : ℕ :=
  if isLongExtended xtype then lxvsattrHdrSize else xvsattrHdrSize

theorem findExtendedVsattr_inside
    (hattr : findExtendedVsattr m vendor xtype attrtype index = some attr) :
    Inside m (extendedVsHdrSize xtype) attr := by
  obtain ⟨hx, hle⟩ := findExtended_cases hattr
  obtain ⟨as, rem, h⟩ := parsed_exists hle
  rw [h.findExtendedVsattr hx] at hattr
  have hpre : before (Attr.cut xtype) as <+: as := takeWhile_prefix _
  refine h.inside hpre (fun a ha => ?_) hattr
  obtain ⟨-, -, -, hform⟩ := of_decide_eq_true ha
  rw [extendedVsHdrSize]
  by_cases hlong : isLongExtended xtype = true
  · rw [if_pos hlong] at hform ⊢
    exact hform.1
  · rw [if_neg hlong] at hform ⊢
    exact hform.1

theorem walkLoop_keeps {walker : S → ℕ → ℕ → S × Bool} {keeps : S → Prop}
    (hcall : ∀ s vendor attr, keeps s → Inside m attrHdrSize attr →
      keeps (walker s vendor attr).1) {fuel : ℕ} (hp : hdrSize ≤ p) (hend : p + rem ≤ hdrLength m)
    {s : S} (hs : keeps s) :
    keeps (walkLoop m walker fuel p rem s).1 := by
  induction fuel generalizing p rem s with
  | zero => exact hs
  | succ fuel ih =>
    have htwo : attrHdrSize = 2 := rfl
    rw [walkLoop]
    by_cases hroom : rem < attrHdrSize
    · rwa [if_pos hroom]
    rw [if_neg hroom]
    by_cases hlong : rem < attrLength m p
    · rwa [if_pos hlong]
    rw [if_neg hlong]
    by_cases hshort : attrLength m p < attrHdrSize
    · rwa [if_pos hshort]
    rw [if_neg hshort]
    by_cases hbad : attrType m p = vendorSpecific ∧ vsLengthOk m p = false
    · rwa [if_pos hbad]
    rw [if_neg hbad]
    have hbehind : ∀ {called : S × Bool}, keeps called.1 →
        keeps (if called.2 = false then called else walkLoop m walker fuel
          (p + attrLength m p) (rem - attrLength m p) called.1).1 := by
      intro called hcalled
      by_cases hstop : called.2 = false
      · rwa [if_pos hstop]
      · rw [if_neg hstop]
        exact ih (by omega) (by omega) hcalled
    by_cases htype : attrType m p = vendorSpecific
    · have hgood : vsLengthOk m p = true := by
        rw [← Bool.not_eq_false]
        exact fun hno => hbad ⟨htype, hno⟩
      obtain ⟨hsize, hvs⟩ := of_decide_eq_true hgood
      have height : vsattrHdrSize = 8 := rfl
      simp only [if_pos htype]
      exact hbehind (hcall s _ _ hs ⟨by omega, by omega, by omega⟩)
    · simp only [if_neg htype]
      exact hbehind (hcall s _ _ hs ⟨hp, not_lt.1 hshort, by omega⟩)

theorem walkAttributes_keeps {walker : S → ℕ → ℕ → S × Bool} {keeps : S → Prop}
    (hcall : ∀ s vendor attr, keeps s → Inside m attrHdrSize attr →
      keeps (walker s vendor attr).1) {s : S} (hs : keeps s) :
    keeps (walkAttributes m walker s).1 := by
  rw [walkAttributes]
  by_cases hlow : hdrLength m < hdrSize
  · rwa [if_pos hlow]
  · rw [if_neg hlow]
    exact walkLoop_keeps hcall le_rfl (by omega) hs

theorem walkLoop_true {walker : S → ℕ → ℕ → S × Bool} (hlaid : Laid m p as)
    (hends : Ends m (p + sizes as) rem) {fuel : ℕ} (hfuel : as.length < fuel) {s : S}
    (htrue : (walkLoop m walker fuel p (sizes as + rem) s).2 = true) :
    rem < attrHdrSize ∧ ∀ a ∈ as, a.type = vendorSpecific → a.vsOk = true := by
  induction as generalizing p fuel s with
  | nil =>
    have hnil : sizes [] = 0 := rfl
    rw [hnil, add_zero] at hends
    rw [hnil, zero_add] at htrue
    cases fuel with
    | zero => cases hfuel
    | succ fuel =>
      refine ⟨?_, fun a ha => by cases ha⟩
      by_contra hroom
      rw [walkLoop, if_neg hroom] at htrue
      by_cases hlong : rem < attrLength m p
      · rw [if_pos hlong] at htrue
        cases htrue
      · rw [if_neg hlong, if_pos ((hends.resolve_left hroom).resolve_left hlong)] at htrue
        cases htrue
  | cons a as ih =>
    obtain ⟨hbytes, hrest⟩ := laid_cons.1 hlaid
    have hsize : a.size = a.value.length + 2 := rfl
    have hsizes := sizes_cons a as
    have hrem : sizes (a :: as) + rem - a.size = sizes as + rem := by omega
    rw [hsizes, ← add_assoc] at hends
    cases fuel with
    | zero => cases hfuel
    | succ fuel =>
      rw [walkLoop, attrLength_eq hbytes, attrType_eq hbytes, vsLengthOk_eq hbytes,
        attrHdrSize, if_neg (by omega), if_neg (by omega), if_neg (by omega), hrem] at htrue
      by_cases hbad : a.type = vendorSpecific ∧ a.vsOk = false
      · rw [if_pos hbad] at htrue
        cases htrue
      rw [if_neg hbad] at htrue
      have hmore : ∀ called : S × Bool, (if called.2 = false then called
          else walkLoop m walker fuel (p + a.size) (sizes as + rem) called.1).2 = true →
            rem < attrHdrSize ∧ ∀ b ∈ as, b.type = vendorSpecific → b.vsOk = true := by
        intro called hcalled
        by_cases hstop : called.2 = false
        · rw [if_pos hstop, hstop] at hcalled
          cases hcalled
        · rw [if_neg hstop] at hcalled
          exact ih hrest hends (Nat.lt_of_succ_lt_succ hfuel) hcalled
      obtain ⟨hroom, hall⟩ := hmore _ htrue
      refine ⟨hroom, fun b hb => ?_⟩
      obtain rfl | hlater := mem_cons.1 hb
      · intro htype
        rw [← Bool.not_eq_false]
        exact fun hno => hbad ⟨htype, hno⟩
      · exact hall b hlater

def Lists (found : ℤ → Option ℕ) (l : List ℕ) : Prop := ∀ index : ℤ, found index = l[index.toNat]?

def callsOf (m : Mem) (vendor : UInt32) (type : UInt8) (calls : List (ℕ × ℕ)) : List ℕ :=
  (calls.filter fun call => call.1 = vendor.toNat ∧ attrType m call.2 = type).map Prod.snd

/-- The calls go from the first attribute to the last one, and those for a vendor and a type are for
the attributes of the vendor that are found, and for the plain ones that are found if the vendor
is 0. An attribute of a vendor is behind the header of the one around it. -/
structure Matches (m : Mem) (calls : List (ℕ × ℕ)) : Prop where
  ordered : calls.Pairwise fun call later => call.2 < later.2
  vendors : ∀ call ∈ calls, call.1 < 2 ^ 32
  found : ∀ vendor type, ∃ plain vs, Lists (findAttribute m type) plain ∧
    Lists (findVsattr m vendor type) vs ∧
    (callsOf m vendor type calls).Perm
      ((if vendor = 0 ∧ type ≠ vendorSpecific then plain else []) ++ vs.map (· + 6))

theorem foldl_bytes_lt (bytes : List UInt8) (v : ℕ) :
    bytes.foldl (fun v byte => v * 256 + byte.toNat) v < (v + 1) * 256 ^ bytes.length := by
  induction bytes generalizing v with
  | nil => simp
  | cons b bytes ih =>
    have hbyte := b.toNat_lt
    have hmore := ih (v * 256 + b.toNat)
    have hstep : (v * 256 + b.toNat + 1) * 256 ^ bytes.length ≤
        (v + 1) * 256 * 256 ^ bytes.length := Nat.mul_le_mul_right _ (by omega)
    rw [foldl_cons, length_cons, pow_succ', ← mul_assoc]
    exact hmore.trans_le hstep

theorem vendor_lt (a : Attr) : a.vendor < 2 ^ 32 := by
  have hlength : (a.value.take 4).length ≤ 4 := length_take_le ..
  have hpow : 256 ^ (a.value.take 4).length ≤ 256 ^ 4 := Nat.pow_le_pow_right (by decide) hlength
  have hlt := foldl_bytes_lt (a.value.take 4) 0
  rw [Attr.vendor]
  omega

theorem le_size_of_vsOk (h : a.vsOk = true) : vsattrHdrSize ≤ a.size :=
  Nat.add_le_add_right (of_decide_eq_true h).1 2

section Visits

variable (hvs : ∀ a ∈ as, a.type = vendorSpecific → a.vsOk = true)

include hvs

theorem mem_visits {call : ℕ × ℕ} (hcall : call ∈ visits p as) : p ≤ call.2 ∧ call.1 < 2 ^ 32 := by
  induction as generalizing p with
  | nil => cases hcall
  | cons a as ih =>
    obtain rfl | hlater := mem_cons.1 hcall
    · split
      · exact ⟨Nat.le_add_right .., vendor_lt a⟩
      · exact ⟨le_rfl, Nat.two_pow_pos 32⟩
    · obtain ⟨hle, hlt⟩ := ih (fun b hb => hvs b (mem_cons_of_mem a hb)) hlater
      exact ⟨(Nat.le_add_right ..).trans hle, hlt⟩

theorem visits_ordered (p : ℕ) : (visits p as).Pairwise fun call later => call.2 < later.2 := by
  induction as generalizing p with
  | nil => exact .nil
  | cons a as ih =>
    have hmore := fun b hb => hvs b (mem_cons_of_mem a hb)
    refine .cons (fun later hlater => ?_) (ih hmore (p + a.size))
    obtain ⟨hle, -⟩ := mem_visits hmore hlater
    have hsize : a.size = a.value.length + 2 := rfl
    split
    · have hlong := le_size_of_vsOk (hvs a (mem_cons_self ..) ‹_›)
      have height : vsattrHdrSize = 8 := rfl
      change p + 6 < later.2
      omega
    · change p < later.2
      omega

theorem callsOf_visits (hlaid : Laid m p as) (vendor : UInt32) (type : UInt8) :
    (callsOf m vendor type (visits p as)).Perm
      (positions (fun a => vendor = 0 ∧ type ≠ vendorSpecific ∧ a.type = type) p as ++
        (positions (Attr.isVs vendor type) p as).map (· + 6)) := by
  induction as generalizing p with
  | nil => exact .nil
  | cons a as ih =>
    obtain ⟨hbytes, hrest⟩ := laid_cons.1 hlaid
    have hmore := ih (fun b hb => hvs b (mem_cons_of_mem a hb)) hrest
    rw [visits, callsOf, filter_cons, positions, positions]
    by_cases htype : a.type = vendorSpecific
    · have hgood := hvs a (mem_cons_self ..) htype
      have hlong : 6 ≤ a.value.length := (of_decide_eq_true hgood).1
      have hattr : attrType m (p + 6) = a.value.getD 4 0 := value_byte hbytes (i := 4) (by omega)
      have hplain : ¬(vendor = 0 ∧ type ≠ vendorSpecific ∧ a.type = type) :=
        fun h => h.2.1 (h.2.2.symm.trans htype)
      have hcall : (a.vendor = vendor.toNat ∧ attrType m (p + 6) = type) ↔
          a.isVs vendor type = true := by
        rw [Attr.isVs, decide_eq_true_eq, hattr]
        exact ⟨fun h => ⟨htype, hgood, h⟩, fun h => h.2.2⟩
      simp only [if_pos htype, decide_eq_true_eq, if_neg hplain, hcall]
      by_cases hhas : a.isVs vendor type = true
      · rw [if_pos hhas, if_pos hhas, map_cons, map_cons]
        exact (hmore.cons _).trans perm_middle.symm
      · rw [if_neg hhas, if_neg hhas]
        exact hmore
    · have hhas : ¬a.isVs vendor type = true := fun h => htype (of_decide_eq_true h).1
      have hzero : 0 = vendor.toNat ↔ vendor = 0 := by
        rw [← UInt32.toNat_inj]
        exact eq_comm
      have hcall : (0 = vendor.toNat ∧ attrType m p = type) ↔
          (vendor = 0 ∧ type ≠ vendorSpecific ∧ a.type = type) := by
        rw [hzero, attrType_eq hbytes]
        constructor
        · rintro ⟨hvendor, rfl⟩
          exact ⟨hvendor, htype, rfl⟩
        · rintro ⟨hvendor, -, hsame⟩
          exact ⟨hvendor, hsame⟩
      simp only [if_neg htype, decide_eq_true_eq, if_neg hhas, hcall]
      by_cases hplain : vendor = 0 ∧ type ≠ vendorSpecific ∧ a.type = type
      · rw [if_pos hplain, if_pos hplain, map_cons]
        exact hmore.cons _
      · rw [if_neg hplain, if_neg hplain]
        exact hmore

end Visits

theorem positions_of_not (h : ∀ a, has a = false) (p : ℕ) (as : List Attr) :
    positions has p as = [] := by
  rw [← length_eq_zero_iff, length_positions, length_eq_zero_iff, filter_eq_nil_iff]
  intro a _
  rw [h a]
  exact Bool.false_ne_true

theorem Parsed.matches (h : Parsed m as rem)
    (hvs : ∀ a ∈ as, a.type = vendorSpecific → a.vsOk = true) :
    Matches m (visits hdrSize as) := by
  refine ⟨visits_ordered hvs hdrSize, fun call hcall => (mem_visits hvs hcall).2,
    fun vendor type => ⟨positions (fun a => a.type = type) hdrSize as,
      positions (Attr.isVs vendor type) hdrSize as, h.findAttribute type,
      h.findVsattr vendor type, ?_⟩⟩
  have hplain : positions (fun a => vendor = 0 ∧ type ≠ vendorSpecific ∧ a.type = type) hdrSize
      as = if vendor = 0 ∧ type ≠ vendorSpecific then
        positions (fun a => a.type = type) hdrSize as else [] := by
    by_cases hboth : vendor = 0 ∧ type ≠ vendorSpecific
    · rw [if_pos hboth]
      simp only [hboth.1, hboth.2, ne_eq, not_false_eq_true, true_and]
    · rw [if_neg hboth]
      exact positions_of_not (fun a => decide_eq_false fun hall => hboth ⟨hall.1, hall.2.1⟩) _ _
  rw [← hplain]
  exact callsOf_visits hvs h.laid vendor type

/-- The functions that find, visit and delete attributes end and stay within a buffer of `n` bytes,
they return or report attributes within the message only, and a walk that succeeds has visited what
is found. -/
structure Contained (m : Mem) (n : ℕ) : Prop where
  findAttribute : ∀ type index,
    Checked.findAttribute m n type index = some (findAttribute m type index) ∧
      ∀ attr, Rad.findAttribute m type index = some attr → Inside m attrHdrSize attr
  findVsattr : ∀ vendor type index,
    Checked.findVsattr m n vendor type index = some (findVsattr m vendor type index) ∧
      ∀ attr, Rad.findVsattr m vendor type index = some attr → Inside m vsattrHdrSize attr
  findExtendedAttribute : ∀ xtype attrtype index,
    Checked.findExtendedAttribute m n xtype attrtype index =
        some (findExtendedAttribute m xtype attrtype index) ∧
      ∀ attr, Rad.findExtendedAttribute m xtype attrtype index = some attr →
        Inside m (extendedHdrSize xtype) attr
  findExtendedVsattr : ∀ vendor xtype attrtype index,
    Checked.findExtendedVsattr m n vendor xtype attrtype index =
        some (findExtendedVsattr m vendor xtype attrtype index) ∧
      ∀ attr, Rad.findExtendedVsattr m vendor xtype attrtype index = some attr →
        Inside m (extendedVsHdrSize xtype) attr
  walkAttributes : ∀ {S : Type} (walker : S → ℕ → ℕ → S × Bool) (s : S),
    Checked.walkAttributes m n walker s = some (walkAttributes m walker s) ∧
      (∀ keeps : S → Prop, (∀ s vendor attr, keeps s → Inside m attrHdrSize attr →
        keeps (walker s vendor attr).1) → keeps s → keeps (Rad.walkAttributes m walker s).1) ∧
      ((Rad.walkAttributes m walker s).2 = true → ∃ calls, Matches m calls ∧
        Rad.walkAttributes m walker s = callWalker walker s calls)
  deleteAttribute : ∀ type index,
    Checked.deleteAttribute m n type index = some (deleteAttribute m type index)
  deleteVendorSpecificAttribute : ∀ vendor type index,
    Checked.deleteVendorSpecificAttribute m n vendor type index =
      some (deleteVendorSpecificAttribute m vendor type index)
  deleteExtendedVendorSpecificAttribute : ∀ vendor xtype attrtype index,
    Checked.deleteExtendedVendorSpecificAttribute m n vendor xtype attrtype index =
      some (deleteExtendedVendorSpecificAttribute m vendor xtype attrtype index)

theorem Inside.deletable {size : ℕ} (h : Inside m size attr) (hsize : attrHdrSize ≤ size) :
    attrHdrSize ≤ attrLength m attr ∧ attr + attrLength m attr ≤ hdrLength m :=
  ⟨hsize.trans h.header, h.stop⟩

theorem walkAttributes_matches {walker : S → ℕ → ℕ → S × Bool} {s : S}
    (htrue : (walkAttributes m walker s).2 = true) :
    ∃ calls, Matches m calls ∧ walkAttributes m walker s = callWalker walker s calls := by
  by_cases hlow : hdrLength m < hdrSize
  · rw [walkAttributes, if_pos hlow] at htrue
    cases htrue
  obtain ⟨as, rem, h⟩ := parsed_exists (not_lt.1 hlow)
  have hfuel := length_le_sizes as
  have hloop := htrue
  rw [walkAttributes, if_neg hlow, h.rest] at hloop
  obtain ⟨hrem, hvs⟩ := walkLoop_true h.laid h.ends (by omega) hloop
  exact ⟨visits hdrSize as, h.matches hvs, h.walkAttributes hrem hvs walker s⟩

/-- All of this holds for a buffer that has at least as many bytes as the length in the header
says. -/
theorem contained (hfour : 4 ≤ n) (hlength : hdrLength m ≤ n) : Contained m n where
  findAttribute type index :=
    ⟨Checked.findAttribute_eq hfour hlength type index, fun _ h => findAttribute_inside h⟩
  findVsattr vendor type index :=
    ⟨Checked.findVsattr_eq hfour hlength vendor type index, fun _ h => findVsattr_inside h⟩
  findExtendedAttribute xtype attrtype index :=
    ⟨Checked.findExtendedAttribute_eq hfour hlength xtype attrtype index,
      fun _ h => findExtendedAttribute_inside h⟩
  findExtendedVsattr vendor xtype attrtype index :=
    ⟨Checked.findExtendedVsattr_eq hfour hlength vendor xtype attrtype index,
      fun _ h => findExtendedVsattr_inside h⟩
  walkAttributes walker s :=
    ⟨Checked.walkAttributes_eq hfour hlength walker s,
      fun _ hcall hs => walkAttributes_keeps hcall hs, walkAttributes_matches⟩
  deleteAttribute type index := by
    rw [Checked.deleteAttribute, Checked.findAttribute_eq hfour hlength]
    exact Checked.deleteFound_eq hfour hlength fun attr h =>
      (findAttribute_inside h).deletable le_rfl
  deleteVendorSpecificAttribute vendor type index := by
    rw [Checked.deleteVendorSpecificAttribute, Checked.findVsattr_eq hfour hlength]
    exact Checked.deleteFound_eq hfour hlength fun attr h =>
      (findVsattr_inside h).deletable (by decide)
  deleteExtendedVendorSpecificAttribute vendor xtype attrtype index := by
    have hsize : attrHdrSize ≤ extendedVsHdrSize xtype := by
      rw [extendedVsHdrSize]
      split <;> decide
    rw [Checked.deleteExtendedVendorSpecificAttribute, Checked.findExtendedVsattr_eq hfour hlength]
    exact Checked.deleteFound_eq hfour hlength fun attr h =>
      (findExtendedVsattr_inside h).deletable hsize

/-- A message with an attribute that has a length of 0 -/
theorem contained_malformed : Contained (write (radInitialize (fun _ => 0) 1 7) 2 [0, 23]) 23 :=
  contained (by decide) (by decide +kernel)

end Qse.Rad
