import Qse.Rad.ExtendedCalls

/-!
# User passwords

A translation of `qse_rad_set_user_password` of `lib/rad/radmsg.c`.
-/

open List Option

namespace Qse.Rad.Password

open ByteMemory Authenticator

def userPassword : UInt8 := 2

def passBlksize : ℕ := maxAuthenticatorLen

def align (x factor : ℕ) : ℕ := (x + factor - 1) / factor * factor

/-- The largest `int` -/
def intMax : ℤ := 2147483647

/-- The conversion to an `int` -/
def toInt (n : ℕ) : ℤ := Int.bmod n 4294967296

/-- `pwlen` and `padlen` for a string of the length. The length is converted to an `int`; an
overflow is undefined, and so is a copy of a negative number of bytes. -/
def padLengths (length : ℕ) : Option (ℕ × ℕ) :=
  let pwlen := toInt length
  if pwlen < 0 ∨ intMax < pwlen + passBlksize then none
  else
    let pwlen := pwlen.toNat
    let padlen := if pwlen = 0 then passBlksize else align pwlen passBlksize
    if maxAttrValueLen < padlen then
      let padlen := align maxAttrValueLen passBlksize
      let padlen := if maxAttrValueLen < padlen then padlen - passBlksize else padlen
      some (if padlen < pwlen then padlen else pwlen, padlen)
    else some (pwlen, padlen)

def xor (dst src : List UInt8) : List UInt8 := List.zipWith (· ^^^ ·) dst src

def hide (md5 : Md5) (secret : List UInt8) : ℕ → List UInt8 → List UInt8 → List UInt8
  | 0, _, _ => []
  | n + 1, before, hashed =>
    let block := xor (hashed.take passBlksize) (md5.digest (secret ++ before))
    block ++ hide md5 secret n block (hashed.drop passBlksize)

def deleteAll : ℕ → Mem → Option (Mem × Bool)
  | 0, _ => none
  | fuel + 1, m =>
    let deleted := deleteAttribute m userPassword 0
    if deleted.2 ≤ -1 then some (deleted.1, false)
    else if deleted.2 = 0 then some (deleted.1, true)
    else deleteAll fuel deleted.1

/-- `qse_rad_set_user_password`. What is not defined has no result. -/
def setUserPassword (md5 : Md5) (m : Mem) (max : ℤ) (password secret : List UInt8) :
    Option (Mem × ℤ) := do
  let lengths ← padLengths password.length
  let hashed := password.take lengths.1 ++ List.replicate (lengths.2 - lengths.1) 0
  let hashed := hide md5 secret (lengths.2 / passBlksize) (authenticator m) hashed
  let deleted ← deleteAll (hdrLength m) m
  pure (if deleted.2 then
      insertAttribute deleted.1 max userPassword (ptrTo hashed) (.ofNat lengths.2)
    else (deleted.1, -1))

def reveal (md5 : Md5) (secret : List UInt8) : ℕ → List UInt8 → List UInt8 → List UInt8
  | 0, _, _ => []
  | n + 1, before, hashed =>
    xor (hashed.take passBlksize) (md5.digest (secret ++ before)) ++
      reveal md5 secret n (hashed.take passBlksize) (hashed.drop passBlksize)

def used (password : List UInt8) : List UInt8 := password.take 240

def padded (password : List UInt8) : List UInt8 :=
  used password ++ List.replicate
    ((if used password = [] then 16 else align (used password).length 16) -
      (used password).length) 0

def others (as : List Attr) : List Attr := as.filter fun a => a.type ≠ userPassword

structure Carries (md5 : Md5) (password secret : List UInt8) (m m' : Mem) (as : List Attr)
    (a : Attr) : Prop where
  type : a.type = userPassword
  length : a.value.length = (padded password).length
  parsed : Parsed m' (others as ++ [a]) 0
  revealed : reveal md5 secret (a.value.length / passBlksize) (authenticator m) a.value =
    padded password
  auth : authenticator m' = authenticator m

def Meets (md5 : Md5) (m : Mem) (as : List Attr) (max : ℤ) (password secret : List UInt8) : Prop :=
  ∃ m' ret, setUserPassword md5 m max password secret = some (m', ret) ∧
    (ret = 0 ∧ (∃ a, Carries md5 password secret m m' as a) ∨ ret = -1 ∧ m' = m)

def SameBehind : List Attr → Prop
  | [] => True
  | a :: as => (a.type = userPassword → sizeBehind a as = a.size) ∧ SameBehind as

def newTotal (as : List Attr) (password : List UInt8) : ℕ :=
  total (others as) + attrHdrSize + (padded password).length

variable {m : Mem} {as bs front back : List Attr} {a : Attr} {md5 : Md5} {max : ℤ}
  {password secret before hashed : List UInt8}

theorem length_used (password : List UInt8) : (used password).length = min 240 password.length :=
  length_take

theorem length_padded (password : List UInt8) :
    (padded password).length =
      if password = [] then 16 else align (min 240 password.length) 16 := by
  have hused : used password = [] ↔ password = [] := by
    rw [used, take_eq_nil_iff]
    simp
  rw [padded, length_append, length_replicate, length_used]
  by_cases hnil : password = []
  · rw [if_pos (hused.2 hnil), if_pos hnil, hnil]
    rfl
  · rw [if_neg fun h => hnil (hused.1 h), if_neg hnil, align]
    omega

theorem length_padded_le (password : List UInt8) :
    (padded password).length ≤ 240 ∧ 16 ∣ (padded password).length := by
  rw [length_padded]
  split
  · exact ⟨by decide, by decide⟩
  · rw [align]
    exact ⟨by omega, Nat.dvd_mul_left ..⟩

theorem padLengths_eq (h : password.length + 16 ≤ intMax) :
    padLengths password.length = some (min 240 password.length, (padded password).length) := by
  have hnil : password.length = 0 ↔ password = [] := length_eq_zero_iff
  have hle : password.length + 16 ≤ 2147483647 := by
    rw [intMax] at h
    omega
  have hint : toInt password.length = password.length :=
    Int.bmod_eq_of_le (by omega) (by omega)
  have hblk : passBlksize = 16 := rfl
  have hmax : maxAttrValueLen = 253 := rfl
  have halign : align 253 16 = 256 := rfl
  have hdefined : ¬((password.length : ℤ) < 0 ∨ intMax < (password.length : ℤ) + (16 : ℕ)) := by
    omega
  simp only [padLengths, length_padded, hint, hblk, hmax, halign, Int.toNat_natCast,
    if_neg hdefined]
  by_cases hzero : password = []
  · rw [hzero]
    rfl
  rw [if_neg fun h => hzero (hnil.1 h), if_neg hzero]
  by_cases hlong : 253 < align password.length 16
  · have hcut : align (min 240 password.length) 16 = 240 := by
      rw [align] at hlong ⊢
      omega
    have hlast : (if 253 < 256 then 256 - 16 else 256) = 240 := rfl
    have hmin : (if 240 < password.length then 240 else password.length) =
        min 240 password.length := by
      split
      · omega
      · omega
    rw [if_pos hlong, hlast, hmin, hcut]
  · have hkept : min 240 password.length = password.length := by
      rw [align] at hlong
      omega
    rw [if_neg hlong, hkept]

theorem length_xor (dst src : List UInt8) : (xor dst src).length = min dst.length src.length :=
  length_zipWith

theorem xor_xor : ∀ {dst src : List UInt8}, dst.length ≤ src.length → xor (xor dst src) src = dst
  | [], _, _ => rfl
  | _ :: _, [], h => absurd h (Nat.not_succ_le_zero _)
  | b :: dst, k :: src, h => by
    have hhead : b ^^^ k ^^^ k = b := by rw [UInt8.xor_assoc, UInt8.xor_self, UInt8.xor_zero]
    exact congrArg₂ List.cons hhead (xor_xor (Nat.le_of_succ_le_succ h))

theorem length_hide (md5 : Md5) (secret : List UInt8) : ∀ {n : ℕ} {b hashed : List UInt8},
    hashed.length = n * passBlksize → (hide md5 secret n b hashed).length = n * passBlksize
  | 0, _, _, _ => (zero_mul _).symm
  | n + 1, before, hashed, h => by
    have hrest : (hashed.drop passBlksize).length = n * passBlksize := by
      rw [length_drop, h, Nat.succ_mul, Nat.add_sub_cancel]
    have hdigest : (md5.digest (secret ++ before)).length = passBlksize := md5.length_digest _
    rw [hide, length_append, length_hide md5 secret hrest, length_xor, length_take,
      hdigest, h, Nat.succ_mul]
    omega

theorem reveal_hide (md5 : Md5) (secret : List UInt8) : ∀ {n : ℕ} {b hashed : List UInt8},
    hashed.length = n * passBlksize →
    reveal md5 secret n b (hide md5 secret n b hashed) = hashed
  | 0, _, hashed, h => (eq_nil_of_length_eq_zero (h.trans (zero_mul _))).symm
  | n + 1, before, hashed, h => by
    have hrest : (hashed.drop passBlksize).length = n * passBlksize := by
      rw [length_drop, h, Nat.succ_mul, Nat.add_sub_cancel]
    have hdigest : (md5.digest (secret ++ before)).length = passBlksize := md5.length_digest _
    have htake : (hashed.take passBlksize).length = passBlksize := by
      rw [length_take, h, Nat.succ_mul]
      omega
    have hblock : (xor (hashed.take passBlksize) (md5.digest (secret ++ before))).length =
        passBlksize := by
      rw [length_xor, htake, hdigest, Nat.min_self]
    rw [hide, reveal, take_left' hblock, drop_left' hblock,
      xor_xor (htake.trans hdigest.symm).le, reveal_hide md5 secret hrest, take_append_drop]

theorem others_append_of_not (hfront : ∀ b ∈ front, b.type ≠ userPassword) (as : List Attr) :
    others (front ++ as) = front ++ others as := by
  rw [others, filter_append, filter_eq_self.2 fun b hb => decide_eq_true (hfront b hb)]
  rfl

theorem sameBehind_append (hfront : ∀ b ∈ front, b.type ≠ userPassword) (as : List Attr) :
    SameBehind (front ++ as) ↔ SameBehind as := by
  induction front with
  | nil => rfl
  | cons b front ih =>
    have hb : b.type ≠ userPassword := hfront b (.head _)
    rw [cons_append, SameBehind, ih fun c hc => hfront c (mem_cons_of_mem b hc)]
    exact and_iff_right fun h => absurd h hb

theorem authenticator_eq {m' : Mem} (h : ∀ i, 4 ≤ i → i < hdrSize → m' i = m i) :
    authenticator m' = authenticator m :=
  read_congr fun i hlow hi => h i hlow hi

theorem authenticator_removed (m : Mem) (front : List Attr) (a : Attr) (back : List Attr) :
    authenticator (removed m front a back) = authenticator m := by
  apply authenticator_eq
  intro i hlow hi
  have hend := hdrSize_le_total front
  rw [removed, setHdrLength_of_le hlow, copyForward_of_apart (by omega)]

theorem deleteAll_eq {fuel : ℕ} (hfuel : as.length < fuel) (h : Parsed m as 0)
    (hsame : SameBehind as) :
    ∃ m', deleteAll fuel m = some (m', true) ∧ Parsed m' (others as) 0 ∧
      authenticator m' = authenticator m ∧ (others as = as → m' = m) := by
  induction fuel generalizing m as with
  | zero => omega
  | succ fuel ih =>
    have hfind := h.findAttribute userPassword 0
    obtain ⟨hlen, hnone⟩ | ⟨-, front, a, back, rfl, ha, hfront, hsome, -⟩ :=
      positions_spec (fun a : Attr => a.type = userPassword) hdrSize as 0
    · have hall : others as = as := by
        apply filter_eq_self.2
        have hempty := eq_nil_of_length_eq_zero (Nat.le_zero.1 hlen)
        intro b hb
        have hnot := filter_eq_nil_iff.1 hempty b hb
        exact decide_eq_true fun hb => hnot (decide_eq_true hb)
      refine ⟨m, ?_, hall.symm ▸ h, rfl, fun _ => rfl⟩
      rw [deleteAll, deleteAttribute, hfind.trans hnone]
      rfl
    have hnot : ∀ b ∈ front, b.type ≠ userPassword := by
      have hempty := filter_eq_nil_iff.1 (eq_nil_of_length_eq_zero hfront)
      exact fun b hb htype => hempty b hb (decide_eq_true htype)
    have ha : a.type = userPassword := of_decide_eq_true ha
    obtain ⟨hsize, hrest⟩ := (sameBehind_append hnot _).1 hsame
    have hparsed : Parsed (removed m front a back) (front ++ back) 0 :=
      (parsed_removed_iff h (by simp [add_assoc])).2 ⟨rfl, hsize ha⟩
    have hothers : others (front ++ a :: back) = others (front ++ back) := by
      rw [others_append_of_not hnot, others_append_of_not hnot, others,
        filter_cons_of_neg (by simp [ha])]
      rfl
    have hfewer : (front ++ back).length < fuel := by
      rw [length_append, length_cons] at hfuel
      rw [length_append]
      omega
    obtain ⟨m', hrun, hparsed', hauth, -⟩ :=
      ih hfewer hparsed ((sameBehind_append hnot _).2 hrest)
    refine ⟨m', ?_, hothers ▸ hparsed', hauth.trans (authenticator_removed m front a back), ?_⟩
    · have hdelete : deleteAttribute m userPassword 0 = (removed m front a back, 1) := by
        rw [deleteAttribute, hfind.trans hsome]
        exact congrArg (fun d : Mem × ℤ => (d.1, if d.2 ≤ -1 then (-1 : ℤ) else 1))
          (deleteAttr_eq h)
      rw [deleteAll, hdelete]
      exact hrun
    · intro hall
      have hmem : a ∈ others (front ++ a :: back) := by
        rw [hall]
        exact mem_append_right _ (.head _)
      exact absurd ha (of_decide_eq_true (mem_filter.1 hmem).2)

def hiddenAttr (value : List UInt8) : Attr := plain userPassword value

theorem insert_eq (h : Parsed m as 0) {value : List UInt8} (hlen : value.length ≤ 240) (max : ℤ) :
    insertAttribute m max userPassword (ptrTo value) (.ofNat value.length) =
      if max < (total as + (attrHdrSize + value.length) : ℕ) then (m, -1)
      else (appended m [userPassword, .ofNat (attrHdrSize + value.length)] value, 0) := by
  have hoctet : (UInt8.ofNat value.length).toNat = value.length := by
    rw [UInt8.toNat_ofNat']
    omega
  have hmin : min value.length maxAttrValueLen = value.length :=
    min_eq_left (hlen.trans (by decide))
  have hbytes : bytesAt (ptrTo value) value.length = value :=
    (bytesAt_ptrTo value le_rfl).trans (take_length ..)
  rw [insertAttribute, hoctet, hmin, append_eq rfl, hbytes, h.length]
  rfl

theorem setUserPassword_eq (h : Parsed m as 0) (hlen : password.length + 16 ≤ intMax)
    (hsame : SameBehind as) (md5 : Md5) (max : ℤ) (secret : List UInt8) :
    ∃ m', Parsed m' (others as) 0 ∧ authenticator m' = authenticator m ∧ (others as = as → m' = m) ∧
      setUserPassword md5 m max password secret =
        some (if max < newTotal as password then (m', -1)
          else (appended m' [userPassword, .ofNat (attrHdrSize + (padded password).length)]
            (hide md5 secret ((padded password).length / passBlksize) (authenticator m)
              (padded password)), 0)) := by
  obtain ⟨hle, hdvd⟩ := length_padded_le password
  have hlength : hdrLength m = total as := h.length
  have hcount : as.length < hdrLength m := by
    have hsizes := length_le_sizes as
    rw [hlength, total]
    exact lt_of_le_of_lt hsizes (Nat.lt_add_of_pos_left (by decide))
  obtain ⟨m', hrun, hparsed, hauth, hkept⟩ := deleteAll_eq hcount h hsame
  refine ⟨m', hparsed, hauth, hkept, ?_⟩
  have hpad : password.take (min 240 password.length) ++
      List.replicate ((padded password).length - min 240 password.length) 0 = padded password := by
    have hused : password.take (min 240 password.length) = used password := by
      rw [used, take_eq_take_iff]
      omega
    rw [hused, padded, length_append, length_replicate, length_used, Nat.add_sub_cancel_left]
  have hhidden : (hide md5 secret ((padded password).length / passBlksize) (authenticator m)
      (padded password)).length = (padded password).length := by
    have hmul : (padded password).length / passBlksize * passBlksize = (padded password).length :=
      Nat.div_mul_cancel hdvd
    rw [length_hide md5 secret hmul.symm, hmul]
  have hinsert := insert_eq hparsed (hhidden.trans_le hle) max
  rw [hhidden] at hinsert
  rw [setUserPassword, padLengths_eq hlen, bind_eq_bind, bind_some]
  simp only [hpad, hrun, bind_eq_bind, bind_some, Option.pure_def, if_true, hinsert,
    newTotal, add_assoc]

theorem carries_appended {m' : Mem} (hparsed : Parsed m' (others as) 0)
    (hauth : authenticator m' = authenticator m) (hfits : newTotal as password ≤ 65535) :
    Carries md5 password secret m
      (appended m' [userPassword, .ofNat (attrHdrSize + (padded password).length)]
        (hide md5 secret ((padded password).length / passBlksize) (authenticator m)
          (padded password))) as
      (hiddenAttr (hide md5 secret ((padded password).length / passBlksize) (authenticator m)
        (padded password))) := by
  obtain ⟨hle, hdvd⟩ := length_padded_le password
  have hmul : (padded password).length = (padded password).length / passBlksize * passBlksize :=
    (Nat.div_mul_cancel hdvd).symm
  have hhidden := length_hide md5 secret (b := authenticator m) hmul
  rw [← hmul] at hhidden
  have hrevealed := reveal_hide md5 secret (b := authenticator m) hmul
  generalize hide md5 secret ((padded password).length / passBlksize) (authenticator m)
    (padded password) = value at hhidden hrevealed ⊢
  have hvalue : (hiddenAttr value).value = value :=
    take_of_length_le (hhidden.trans_le (hle.trans (by decide)))
  have hsize : (hiddenAttr value).size = attrHdrSize + (padded password).length := by
    rw [Attr.size, hvalue, hhidden, add_comm]
  constructor
  · rfl
  · rw [hvalue, hhidden]
  · apply hparsed.appended
    · rw [Attr.bytes, hsize, hvalue]
      rfl
    · rw [total_concat, hsize, ← add_assoc]
      exact hfits
  · rw [hvalue, hhidden]
    exact hrevealed
  · rw [← hauth]
    apply authenticator_eq
    intro i hlow hi
    exact appended_of_lt hlow (hi.trans_le hparsed.le_hdrLength)

theorem newTotal_of_carries {m' : Mem} (h : Carries md5 password secret m m' as a) :
    newTotal as password ≤ 65535 := by
  have hlength := h.parsed.length
  have hlt := hdrLength_lt m'
  rw [total_concat, Attr.size, h.length, add_comm _ attrHdrSize, ← add_assoc] at hlength
  rw [newTotal]
  omega

theorem others_eq_of_total (h : total (others as) = total as) : others as = as := by
  have hle : ∀ as : List Attr, sizes (others as) + 2 * (as.length - (others as).length) ≤ sizes as ∧
      (others as).length ≤ as.length := by
    intro as
    induction as with
    | nil => exact ⟨le_rfl, le_rfl⟩
    | cons a as ih =>
      have hpos : 2 ≤ a.size := Nat.le_add_left ..
      by_cases ha : a.type = userPassword
      · have hskip : others (a :: as) = others as := filter_cons_of_neg (by simp [ha])
        rw [hskip, sizes_cons, length_cons]
        omega
      · have hkeep : others (a :: as) = a :: others as := filter_cons_of_pos (by simp [ha])
        rw [hkeep, sizes_cons, sizes_cons, length_cons, length_cons]
        omega
  obtain ⟨hsizes, hlength⟩ := hle as
  rw [total, total] at h
  have hsub : (others as).Sublist as := filter_sublist
  exact hsub.eq_of_length (by omega)

/-- In a message in which an attribute behind a password has the size of the password, a password
is set, or nothing is changed, if and only if the new message is not too long or there is no room
for it and no password in the old one. -/
theorem meets_iff (h : Parsed m as 0) (hlen : password.length + 16 ≤ intMax)
    (hsame : SameBehind as) (md5 : Md5) (max : ℤ) (secret : List UInt8) :
    Meets md5 m as max password secret ↔
      if max < newTotal as password then others as = as else newTotal as password ≤ 65535 := by
  obtain ⟨m', hparsed, hauth, hkept, hrun⟩ := setUserPassword_eq h hlen hsame md5 max secret
  rw [Meets, hrun]
  by_cases hroom : max < newTotal as password
  · rw [if_pos hroom, if_pos hroom]
    constructor
    · rintro ⟨m'', ret, ⟨⟩, ⟨hret, -⟩ | ⟨-, hsame'⟩⟩
      · exact absurd hret (by decide)
      · rw [hsame'] at hparsed
        exact others_eq_of_total (hparsed.length.symm.trans h.length)
    · exact fun hall => ⟨m', -1, rfl, .inr ⟨rfl, hkept hall⟩⟩
  · rw [if_neg hroom, if_neg hroom]
    constructor
    · rintro ⟨m'', ret, ⟨⟩, ⟨-, a, hcarries⟩ | ⟨hret, -⟩⟩
      · exact newTotal_of_carries hcarries
      · exact absurd hret (by decide)
    · exact fun hfits => ⟨_, 0, rfl, .inl ⟨rfl, _, carries_appended hparsed hauth hfits⟩⟩

def onePassword : Mem := appended (radInitialize (fun _ => 0) 1 0) [userPassword, 3] [7]

theorem parsed_onePassword : Parsed onePassword [plain userPassword [7]] 0 :=
  (message_radInitialize _ 1 0).parsed.appended rfl (by decide)

theorem sameBehind_onePassword : SameBehind [plain userPassword [7]] := ⟨fun _ => rfl, trivial⟩

theorem meets_iff_onePassword :
    Meets md5OfAccept onePassword [plain userPassword [7]] 4096 [65] [115] ↔
      if 4096 < newTotal [plain userPassword [7]] [65] then
        others [plain userPassword [7]] = [plain userPassword [7]]
      else newTotal [plain userPassword [7]] [65] ≤ 65535 :=
  meets_iff parsed_onePassword (by decide) sameBehind_onePassword md5OfAccept 4096 [115]

/-- Where there is no room for the new password, the old one is gone. -/
theorem not_meets :
    ¬∀ (md5 : Md5) (m : Mem) (as : List Attr) (max : ℤ) (password secret : List UInt8),
      Parsed m as 0 → Meets md5 m as max password secret := by
  intro h
  obtain ⟨m', ret, hrun, hmeets⟩ :=
    h md5OfAccept onePassword [plain userPassword [7]] 20 [65] [115] parsed_onePassword
  obtain ⟨m'', hparsed, -, -, hrun'⟩ := setUserPassword_eq parsed_onePassword
    (show [(65 : UInt8)].length + 16 ≤ intMax by decide) sameBehind_onePassword md5OfAccept 20 [115]
  have hfull : (20 : ℤ) < newTotal [plain userPassword [7]] [65] := by decide
  rw [hrun, if_pos hfull] at hrun'
  cases hrun'
  obtain ⟨hret, -⟩ | ⟨-, hsame⟩ := hmeets
  · exact absurd hret (by decide)
  · rw [hsame] at hparsed
    exact absurd (hparsed.length.symm.trans parsed_onePassword.length) (by decide)

end Qse.Rad.Password
