import Qse.Http.Header
import Qse.Time.Calendar
import Mathlib.Data.List.Nodup

/-!
# Times in header values

A translation of `qse_fmthttptime` and `qse_parsehttptime` in `lib/http/http.c`, with the directives
of the formatter in `lib/cmn/fmt-out.h` that the former uses, and `qse_gmtime` of `lib/cmn/time.c`.
The function `gmtime` of the C library is a parameter.
-/

open List

namespace Qse.Http.Date

open Time

/-- A piece of a format, with its argument: text, `%s`, or `%d` with a width that zeros fill. -/
inductive Piece where
  | text (s : List UInt8)
  | str (s : List UInt8)
  | int (width : ℕ) (num : ℤ)

/-- `sprintn` to the base 10, in the order in which the digits are put out. -/
def sprintn (num : ℕ) : List UInt8 :=
  if num < 10 then [UInt8.ofNat (48 + num)]
  else sprintn (num / 10) ++ [UInt8.ofNat (48 + num % 10)]

def Piece.out : Piece → List UInt8
  | text s => s
  | str s => s
  | int width num =>
    let digits := sprintn num.natAbs
    let sign := if num < 0 then [mt '-'] else []
    sign ++ List.replicate (width - (sign ++ digits).length) (mt '0') ++ digits

/-- `qse_mbsxfmt`, which leaves room for the null. -/
def mbsxfmt (bufsz : ℕ) (fmt : List Piece) : List UInt8 := (fmt.flatMap Piece.out).take (bufsz - 1)

def wdayName : List (List UInt8) :=
  [octets "Sun", octets "Mon", octets "Tue", octets "Wed", octets "Thu", octets "Fri", octets "Sat"]

def monName : List (List UInt8) :=
  [octets "Jan", octets "Feb", octets "Mar", octets "Apr", octets "May", octets "Jun", octets "Jul",
   octets "Aug", octets "Sep", octets "Oct", octets "Nov", octets "Dec"]

/-- `qse_gmtime`; the C library gives the fields of `struct tm`. -/
def gmtime (clib : ℤ → Option Btime) (nt : Ntime) : Option Btime := clib nt.sec

/-- The format of `qse_fmthttptime` with its arguments. -/
def httptimeFormat (bt : Btime) (wday mon : List UInt8) : List Piece :=
  [.str wday, .text (octets ", "), .int 0 bt.mday, .text (octets " "), .str mon,
   .text (octets " "), .int 0 (bt.year + btimeYearBase), .text (octets " "), .int 2 bt.hour,
   .text (octets ":"), .int 2 bt.min, .text (octets ":"), .int 2 bt.sec, .text (octets " GMT")]

def nameAt (names : List (List UInt8)) (i : ℤ) : Option (List UInt8) :=
  if 0 ≤ i then names[i.toNat]? else none

/-- `qse_fmthttptime`; there is no result if a name is not in its table. -/
def fmthttptime (clib : ℤ → Option Btime) (nt : Ntime) (bufsz : ℕ) : Option (List UInt8) := do
  let bt ← gmtime clib nt
  let wday ← nameAt wdayName bt.wday
  let mon ← nameAt monName bt.mon
  some (mbsxfmt bufsz (httptimeFormat bt wday mon))

/-- `return -1`, or an `int` that overflows. -/
inductive Stop where
  | failed
  | undefined

/-- A result of the type `int`. -/
def intOr (z : ℤ) : Except Stop ℤ :=
  match int z with
  | some z => .ok z
  | none => .error .undefined

def readDigits : ℤ → List UInt8 → Except Stop (ℤ × List UInt8)
  | v, [] => .ok (v, [])
  | v, c :: str =>
    if (digitToNum c).isSome then do
      let v ← intOr (v * 10)
      let v ← intOr (v + c.toNat)
      let v ← intOr (v - 48)
      readDigits v str
    else .ok (v, c :: str)

def readNumber (str : List UInt8) : Except Stop (ℤ × List UInt8) :=
  let str := str.dropWhile isspace
  if startsWith (fun c => (digitToNum c).isSome) str then readDigits 0 str else .error .failed

def readWord (str : List UInt8) : List UInt8 × List UInt8 :=
  let str := str.dropWhile isspace
  (str.takeWhile isAlphaOctet, str.dropWhile isAlphaOctet)

def findName (names : List (List UInt8)) (word : List UInt8) : Except Stop ℤ :=
  match names.findIdx? (· == word) with
  | some i => .ok i
  | none => .error .failed

/-- `if (*str != QSE_MT(':')) return -1; str++;` -/
def skipColon : List UInt8 → Except Stop (List UInt8)
  | [] => .error .failed
  | c :: str => if c = mt ':' then .ok str else .error .failed

/-- `if (*str == QSE_MT(',')) str++;` -/
def skipComma : List UInt8 → List UInt8
  | [] => []
  | c :: str => if c = mt ',' then str else c :: str

def parsehttptime (str : List UInt8) : Except Stop Ntime := do
  let (word, str) := readWord str
  let wday ← findName wdayName word
  let str := skipComma (str.dropWhile isspace)
  let (mday, str) ← readNumber str
  let (word, str) := readWord str
  let mon ← findName monName word
  let (year, str) ← readNumber str
  let year ← intOr (year - btimeYearBase)
  let (hour, str) ← readNumber str
  let str ← skipColon str
  let (min, str) ← readNumber str
  let str ← skipColon str
  let (sec, str) ← readNumber str
  let (word, str) := readWord str
  if word = octets "GMT" then
    if str.dropWhile isspace = [] then
      match timegm ⟨sec, min, hour, mday, mon, year, wday, 0, 0, 0⟩ with
      | some nt => .ok nt
      | none => .error .undefined
    else .error .failed
  else .error .failed

variable {bt : Btime} {rest : List UInt8} {c : UInt8}

theorem digitToNum_digit (d : Fin 10) :
    digitToNum (UInt8.ofNat (48 + d.val)) = some d.val ∧
      (UInt8.ofNat (48 + d.val)).toNat = 48 + d.val ∧
      isspace (UInt8.ofNat (48 + d.val)) = false := by
  revert d
  decide

variable {d n : ℕ}

theorem readDigits_digit {v : ℕ} (hv : v ≤ 999) (hd : d < 10) (rest : List UInt8) :
    readDigits v (UInt8.ofNat (48 + d) :: rest) = readDigits ((v * 10 + d : ℕ) : ℤ) rest := by
  obtain ⟨hnum, hchar, -⟩ := digitToNum_digit ⟨d, hd⟩
  simp only at hnum hchar
  have hmul : intOr (v * 10) = .ok ((v : ℤ) * 10) := by
    rw [intOr, int_eq (by omega) (by omega)]
  have hadd : intOr ((v : ℤ) * 10 + (48 + d : ℕ)) = .ok ((v : ℤ) * 10 + (48 + d : ℕ)) := by
    rw [intOr, int_eq (by omega) (by omega)]
  have hvalue : (v : ℤ) * 10 + (48 + d : ℕ) - 48 = (v * 10 + d : ℕ) := by omega
  have hsub : intOr ((v : ℤ) * 10 + (48 + d : ℕ) - 48) = .ok ((v * 10 + d : ℕ) : ℤ) := by
    rw [hvalue, intOr, int_eq (by omega) (by omega)]
  rw [readDigits, hnum, hchar, if_pos Option.isSome_some]
  simp only [bind, Except.bind, hmul, hadd, hsub]

theorem readDigits_stop (hrest : startsWith (fun c => (digitToNum c).isSome) rest = false) (v : ℤ) :
    readDigits v rest = .ok (v, rest) := by
  cases rest with
  | nil => rfl
  | cons c rest =>
    have hc : (digitToNum c).isSome = false := hrest
    rw [readDigits, if_neg (ne_true_of_eq_false hc)]

theorem readDigits_sprintn (hn : n ≤ 9999) (rest : List UInt8) :
    readDigits 0 (sprintn n ++ rest) = readDigits n rest := by
  induction n using sprintn.induct generalizing rest with
  | case1 n hlt =>
    rw [sprintn, if_pos hlt]
    have hstep := readDigits_digit (Nat.zero_le 999) hlt rest
    rwa [zero_mul, zero_add] at hstep
  | case2 n hge ih =>
    rw [sprintn, if_neg hge, append_assoc, ih (by omega), singleton_append,
      readDigits_digit (by omega) (Nat.mod_lt n (by omega))]
    congr 2
    omega

theorem readDigits_zeros (k : ℕ) (rest : List UInt8) :
    readDigits 0 (List.replicate k (mt '0') ++ rest) = readDigits 0 rest := by
  induction k with
  | zero => rfl
  | succ k ih =>
    rw [replicate_succ, cons_append]
    exact (readDigits_digit (Nat.zero_le 999) (Nat.succ_pos 9) _).trans ih

theorem out_int (width n : ℕ) :
    (Piece.int width n).out =
      List.replicate (width - (sprintn n).length) (mt '0') ++ sprintn n := by
  have hpos : ¬(n : ℤ) < 0 := by omega
  simp only [Piece.out, if_neg hpos, nil_append, Int.natAbs_natCast]

theorem exists_out_int (width n : ℕ) :
    ∃ d : Fin 10, ∃ more, (Piece.int width n).out = UInt8.ofNat (48 + d.val) :: more := by
  have hdigits (n : ℕ) : ∃ d : Fin 10, ∃ more, sprintn n = UInt8.ofNat (48 + d.val) :: more := by
    induction n using sprintn.induct with
    | case1 n hlt =>
      rw [sprintn, if_pos hlt]
      exact ⟨⟨n, hlt⟩, [], rfl⟩
    | case2 n hge ih =>
      obtain ⟨d, more, hmore⟩ := ih
      rw [sprintn, if_neg hge, hmore]
      exact ⟨d, _, rfl⟩
  rw [out_int]
  cases width - (sprintn n).length with
  | zero => exact hdigits n
  | succ k => exact ⟨0, _, rfl⟩

theorem readNumber_out (hn : n ≤ 9999) (width : ℕ)
    (hrest : startsWith (fun c => (digitToNum c).isSome) rest = false) :
    readNumber ((Piece.int width n).out ++ rest) = .ok ((n : ℤ), rest) := by
  obtain ⟨d, more, hout⟩ := exists_out_int width n
  obtain ⟨hnum, -, hspace⟩ := digitToNum_digit d
  have hskip : ((Piece.int width n).out ++ rest).dropWhile isspace =
      (Piece.int width n).out ++ rest := by
    rw [hout, cons_append, dropWhile_cons_of_neg (ne_true_of_eq_false hspace)]
  have hstart : startsWith (fun c => (digitToNum c).isSome)
      ((Piece.int width n).out ++ rest) = true := by
    rw [hout, cons_append, startsWith, hnum]
    rfl
  rw [readNumber, hskip]
  simp only [hstart, if_true]
  rw [out_int, append_assoc, readDigits_zeros, readDigits_sprintn hn, readDigits_stop hrest]

theorem readNumber_space (hn : n ≤ 9999) (width : ℕ)
    (hrest : startsWith (fun c => (digitToNum c).isSome) rest = false) :
    readNumber (mt ' ' :: ((Piece.int width n).out ++ rest)) = .ok ((n : ℤ), rest) :=
  readNumber_out hn width hrest

theorem isspace_of_alpha (hc : isAlphaOctet c = true) : isspace c = false := by
  simp only [isAlphaOctet, Bool.or_eq_true, Bool.and_eq_true, decide_eq_true_eq,
    UInt8.le_iff_toNat_le] at hc
  have hspaces : c ≠ mt ' ' ∧ ¬c ≤ 13 := by
    rw [ne_eq, ← UInt8.toNat_inj, UInt8.le_iff_toNat_le]
    rcases hc with hc | hc
    · exact ⟨fun h => absurd (h ▸ hc.1) (by decide), fun h => absurd (hc.1.trans h) (by decide)⟩
    · exact ⟨fun h => absurd (h ▸ hc.1) (by decide), fun h => absurd (hc.1.trans h) (by decide)⟩
  simp [isspace, hspaces.1, hspaces.2]

theorem readWord_name {word : List UInt8} (hword : ∀ c ∈ word, isAlphaOctet c = true)
    (hrest : startsWith isAlphaOctet rest = false) (hne : word ≠ []) :
    readWord (word ++ rest) = (word, rest) := by
  obtain ⟨c, more, rfl⟩ := exists_cons_of_ne_nil hne
  have hspace := isspace_of_alpha (hword c (.head _))
  have hskip : (c :: more ++ rest).dropWhile isspace = c :: more ++ rest := by
    rw [cons_append, dropWhile_cons_of_neg (ne_true_of_eq_false hspace)]
  rw [readWord, hskip]
  simp only [takeWhile_append_of_pos hword, dropWhile_append_of_pos hword]
  cases rest with
  | nil => simp
  | cons d rest =>
    have hd : ¬isAlphaOctet d = true := ne_true_of_eq_false hrest
    rw [takeWhile_cons_of_neg hd, dropWhile_cons_of_neg hd, append_nil]

theorem findName_nameAt {names : List (List UInt8)} {i : ℤ} {name : List UInt8}
    (hnames : names.Nodup) (hname : nameAt names i = some name) : findName names name = .ok i := by
  rw [nameAt] at hname
  split at hname
  · rename_i hpos
    have hfind : names.findIdx? (· == name) = some i.toNat := by
      obtain ⟨hlt, hget⟩ := List.getElem?_eq_some_iff.mp hname
      rw [findIdx?_eq_some_iff_getElem]
      refine ⟨hlt, by simp [hget], ?_⟩
      intro j hj
      have hne : names[j] ≠ name := by
        rw [← hget]
        exact fun heq => Nat.ne_of_lt hj (hnames.getElem_inj_iff.mp heq)
      simpa using hne
    rw [findName, hfind]
    exact congrArg Except.ok (Int.toNat_of_nonneg hpos)
  · cases hname

theorem names_ok :
    wdayName.Nodup ∧ monName.Nodup ∧
      ∀ name ∈ wdayName ++ monName, name ≠ [] ∧ ∀ c ∈ name, isAlphaOctet c = true := by
  have hall : (wdayName ++ monName).all (fun name => !name.isEmpty && name.all isAlphaOctet) =
    true := rfl
  refine ⟨by decide, by decide, fun name hname => ?_⟩
  have hok := all_eq_true.1 hall name hname
  rw [Bool.and_eq_true, Bool.not_eq_true', isEmpty_eq_false_iff, all_eq_true] at hok
  exact hok

theorem mem_of_nameAt {names : List (List UInt8)} {i : ℤ} {name : List UInt8}
    (hname : nameAt names i = some name) : name ∈ names := by
  rw [nameAt] at hname
  split at hname
  · exact mem_of_getElem? hname
  · cases hname

/-- The fields are those of a time, of which there is no leap second. -/
structure Civil (t : ℤ) (bt : Btime) : Prop where
  valid : Valid bt
  sec : bt.sec ≤ 59
  wday : bt.wday = (dayNumber bt + 4) % 7
  seconds : seconds bt = t

theorem length_sprintn_le {k : ℕ} (hn : n < 10 ^ (k + 1)) : (sprintn n).length ≤ k + 1 := by
  induction k generalizing n with
  | zero =>
    rw [sprintn, if_pos (by omega)]
    exact le_refl 1
  | succ k ih =>
    rw [sprintn]
    split
    · exact Nat.succ_le_succ (Nat.zero_le _)
    · rw [length_append, length_singleton]
      refine Nat.succ_le_succ (ih ?_)
      rw [Nat.pow_succ] at hn
      omega

theorem nameAt_some {names : List (List UInt8)} {i : ℤ} (hpos : 0 ≤ i) (hlt : i < names.length) :
    ∃ name, nameAt names i = some name := by
  have hi : i.toNat < names.length := by omega
  refine ⟨names[i.toNat], ?_⟩
  rw [nameAt, if_pos hpos]
  exact getElem?_eq_getElem _

theorem parsehttptime_out {wday mon : List UInt8} {y h m s : ℕ} {iw im : ℤ}
    (hwday : nameAt wdayName iw = some wday) (hmon : nameAt monName im = some mon) (hy : y ≤ 9999)
    (hd : d ≤ 9999) (hh : h ≤ 9999) (hm : m ≤ 9999) (hs : s ≤ 9999) {nt : Ntime}
    (htime : timegm ⟨s, m, h, d, im, y - btimeYearBase, iw, 0, 0, 0⟩ = some nt) :
    parsehttptime ([Piece.str wday, .text (octets ", "), .int 0 d, .text (octets " "), .str mon,
      .text (octets " "), .int 0 y, .text (octets " "), .int 2 h, .text (octets ":"), .int 2 m,
      .text (octets ":"), .int 2 s, .text (octets " GMT")].flatMap Piece.out) = .ok nt := by
  obtain ⟨hnodup, hnodup', hnames⟩ := names_ok
  obtain ⟨hne, halpha⟩ := hnames _ (mem_append_left _ (mem_of_nameAt hwday))
  obtain ⟨hne', halpha'⟩ := hnames _ (mem_append_right _ (mem_of_nameAt hmon))
  have hgmt : readWord (octets " GMT") = (octets "GMT", []) := by decide
  have hsec : readNumber ((Piece.int 2 s).out ++ octets " GMT") = .ok ((s : ℤ), octets " GMT") :=
    readNumber_out hs 2 rfl
  generalize htail5 : octets ":" ++ ((Piece.int 2 s).out ++ octets " GMT") = tail5
  have hmin : readNumber ((Piece.int 2 m).out ++ tail5) = .ok ((m : ℤ), tail5) :=
    readNumber_out hm 2 (by rw [← htail5]; rfl)
  generalize htail4 : octets ":" ++ ((Piece.int 2 m).out ++ tail5) = tail4
  have hhour : readNumber (octets " " ++ ((Piece.int 2 h).out ++ tail4)) = .ok ((h : ℤ), tail4) :=
    readNumber_space hh 2 (by rw [← htail4]; rfl)
  generalize htail3 : octets " " ++ ((Piece.int 2 h).out ++ tail4) = tail3 at hhour
  have hyear : readNumber (octets " " ++ ((Piece.int 0 y).out ++ tail3)) = .ok ((y : ℤ), tail3) :=
    readNumber_space hy 0 (by rw [← htail3]; rfl)
  generalize htail2 : octets " " ++ ((Piece.int 0 y).out ++ tail3) = tail2 at hyear
  have hmonth : readWord (octets " " ++ (mon ++ tail2)) = (mon, tail2) :=
    readWord_name halpha' (by rw [← htail2]; rfl) hne'
  generalize htail1 : octets " " ++ (mon ++ tail2) = tail1 at hmonth
  have hday : readNumber (octets " " ++ ((Piece.int 0 d).out ++ tail1)) = .ok ((d : ℤ), tail1) :=
    readNumber_space hd 0 (by rw [← htail1]; rfl)
  generalize htail0 : octets " " ++ ((Piece.int 0 d).out ++ tail1) = tail0 at hday
  have hweek : readWord (wday ++ (octets "," ++ tail0)) = (wday, octets "," ++ tail0) :=
    readWord_name halpha rfl hne
  have hcolon : skipColon tail4 = .ok ((Piece.int 2 m).out ++ tail5) := by
    rw [← htail4]
    rfl
  have hcolon' : skipColon tail5 = .ok ((Piece.int 2 s).out ++ octets " GMT") := by
    rw [← htail5]
    rfl
  have hcomma (str : List UInt8) : skipComma ((octets "," ++ str).dropWhile isspace) = str := rfl
  have hbase : intOr ((y : ℤ) - btimeYearBase) = .ok ((y : ℤ) - btimeYearBase) := by
    rw [intOr, int_eq (by simp only [btimeYearBase]; omega) (by simp only [btimeYearBase]; omega)]
  have htext : [Piece.str wday, .text (octets ", "), .int 0 d, .text (octets " "), .str mon,
      .text (octets " "), .int 0 y, .text (octets " "), .int 2 h, .text (octets ":"), .int 2 m,
      .text (octets ":"), .int 2 s, .text (octets " GMT")].flatMap Piece.out =
        wday ++ (octets "," ++ tail0) := by
    have hsplit : octets ", " = octets "," ++ octets " " := by decide
    have hstr (str : List UInt8) : (Piece.str str).out = str := rfl
    have htxt (str : List UInt8) : (Piece.text str).out = str := rfl
    rw [← htail0, ← htail1, ← htail2, ← htail3, ← htail4, ← htail5]
    simp only [flatMap_cons, flatMap_nil, append_nil, hstr, htxt, hsplit, append_assoc]
  rw [htext, parsehttptime, hweek]
  simp only [findName_nameAt hnodup hwday, findName_nameAt hnodup' hmon, hcomma, hday, hmonth,
    hyear, hbase, hhour, hcolon, hmin, hcolon', hsec, hgmt, htime, bind, Except.bind]
  rfl

theorem length_out_le {wday mon : List UInt8} {y h m s : ℕ} (hwday : wday.length ≤ 3)
    (hmon : mon.length ≤ 3) (hy : y < 10000) (hd : d < 100) (hh : h < 100) (hm : m < 100)
    (hs : s < 100) :
    ([Piece.str wday, .text (octets ", "), .int 0 d, .text (octets " "), .str mon,
      .text (octets " "), .int 0 y, .text (octets " "), .int 2 h, .text (octets ":"), .int 2 m,
      .text (octets ":"), .int 2 s, .text (octets " GMT")].flatMap Piece.out).length ≤ 29 := by
  have hnum {n : ℕ} (hn : n < 100) : (Piece.int 2 n).out.length = 2 := by
    have hle : (sprintn n).length ≤ 2 := length_sprintn_le (k := 1) hn
    rw [out_int, length_append, length_replicate]
    omega
  have hday : (Piece.int 0 d).out.length ≤ 2 := by
    rw [out_int, Nat.zero_sub]
    exact length_sprintn_le (k := 1) hd
  have hyear : (Piece.int 0 y).out.length ≤ 4 := by
    rw [out_int, Nat.zero_sub]
    exact length_sprintn_le (k := 3) hy
  have hstr (str : List UInt8) : (Piece.str str).out = str := rfl
  have htxt (str : List UInt8) : (Piece.text str).out = str := rfl
  have hcomma : (octets ", ").length = 2 := by decide
  have hspace : (octets " ").length = 1 := by decide
  have hcolon : (octets ":").length = 1 := by decide
  have hgmt : (octets " GMT").length = 4 := by decide
  simp only [flatMap_cons, flatMap_nil, append_nil, hstr, htxt, length_append,
    hnum hh, hnum hm, hnum hs, hcomma, hspace, hcolon, hgmt]
  omega

theorem names_length : ∀ name ∈ wdayName ++ monName, name.length ≤ 3 := by decide

/-- A time with whole seconds and a year from 1 to 9999 is read back from its text. -/
theorem parsed_formatted (clib : ℤ → Option Btime) {nt : Ntime}
    (hclib : ∀ bt, clib nt.sec = some bt → Civil nt.sec bt) {bt : Btime}
    (hbt : clib nt.sec = some bt) (hnsec : nt.nsec = 0)
    (hyear : 1 ≤ bt.year + btimeYearBase ∧ bt.year + btimeYearBase ≤ 9999) :
    ∃ text, text.length ≤ 29 ∧ ∀ bufsz, text.length < bufsz →
      fmthttptime clib nt bufsz = some text ∧ parsehttptime text = .ok nt := by
  have hcivil := hclib bt hbt
  obtain ⟨hvalid, hsecs, hday, hseconds⟩ := hcivil
  have hvalid' : Valid ⟨bt.sec, bt.min, bt.hour, bt.mday, bt.mon, bt.year, bt.wday, 0, 0, 0⟩ :=
    ⟨hvalid.sec, hvalid.min, hvalid.hour, hvalid.mon, hvalid.mday, hvalid.year⟩
  have htime : timegm ⟨bt.sec, bt.min, bt.hour, bt.mday, bt.mon, bt.year, bt.wday, 0, 0, 0⟩ =
      some nt := by
    rw [timegm_eq hvalid', if_pos (by simp only [btimeYearBase] at hyear ⊢; omega)]
    have hsame : seconds ⟨bt.sec, bt.min, bt.hour, bt.mday, bt.mon, bt.year, bt.wday, 0, 0, 0⟩ =
        seconds bt := rfl
    rw [hsame, hseconds, ← hnsec]
  obtain ⟨wday, hwday⟩ := @nameAt_some wdayName bt.wday (by omega) (by
    simp only [wdayName, length_cons, length_nil]
    omega)
  obtain ⟨mon, hmon⟩ := @nameAt_some monName bt.mon hvalid.mon.1 (by
    simp only [monName, length_cons, length_nil]
    have hle := hvalid.mon.2
    omega)
  have hmday : bt.mday ≤ 31 := by
    refine hvalid.mday.2.trans ?_
    rw [Gregorian.monthLength]
    split
    · split <;> omega
    · split <;> omega
  obtain ⟨y, hy⟩ := Int.eq_ofNat_of_zero_le (show 0 ≤ bt.year + btimeYearBase by omega)
  obtain ⟨d, hd⟩ := Int.eq_ofNat_of_zero_le (show 0 ≤ bt.mday by have h := hvalid.mday.1; omega)
  obtain ⟨h, hh⟩ := Int.eq_ofNat_of_zero_le hvalid.hour.1
  obtain ⟨m, hm⟩ := Int.eq_ofNat_of_zero_le hvalid.min.1
  obtain ⟨s, hs⟩ := Int.eq_ofNat_of_zero_le hvalid.sec.1
  have hh' := hvalid.hour.2
  have hm' := hvalid.min.2
  have hformat : httptimeFormat bt wday mon =
      [.str wday, .text (octets ", "), .int 0 d, .text (octets " "), .str mon,
        .text (octets " "), .int 0 y, .text (octets " "), .int 2 h, .text (octets ":"), .int 2 m,
        .text (octets ":"), .int 2 s, .text (octets " GMT")] := by
    rw [httptimeFormat, hd, hy, hh, hm, hs]
  have hyear' : bt.year = y - btimeYearBase := by omega
  rw [hd, hh, hm, hs, hyear'] at htime
  refine ⟨(httptimeFormat bt wday mon).flatMap Piece.out, ?_, ?_⟩
  · rw [hformat]
    apply length_out_le
    · exact names_length _ (mem_append_left _ (mem_of_nameAt hwday))
    · exact names_length _ (mem_append_right _ (mem_of_nameAt hmon))
    all_goals omega
  · intro bufsz hbufsz
    constructor
    · rw [fmthttptime, gmtime, hbt]
      simp only [Option.bind_eq_bind, Option.bind_some, hwday, hmon, mbsxfmt]
      rw [take_of_length_le (by omega)]
    · rw [hformat]
      exact parsehttptime_out hwday hmon (by omega) (by omega) (by omega) (by omega) (by omega)
        htime

def beforeEpoch (t : ℤ) : Option Btime :=
  if t = -1 then some ⟨59, 59, 23, 31, 11, 69, 3, 0, 0, 0⟩ else none

theorem civil_beforeEpoch : Civil (-1) ⟨59, 59, 23, 31, 11, 69, 3, 0, 0, 0⟩ := by
  have hyear : yearOf ⟨59, 59, 23, 31, 11, 69, 3, 0, 0, 0⟩ = 1969 := by decide
  have hmonths : Gregorian.monthsBefore 1969 11 = 334 := by decide
  have hday : dayNumber ⟨59, 59, 23, 31, 11, 69, 3, 0, 0, 0⟩ = -1 := by
    simp [dayNumber, dayOfYear, hyear, daysBefore_epoch, hmonths]
  refine ⟨⟨by decide, by decide, by decide, by decide, ?_, by decide⟩, by decide, ?_, ?_⟩
  · simp [Gregorian.monthLength]
  · rw [hday]
    decide
  · simp [seconds, hday]

theorem parsed_formatted_beforeEpoch :
    ∃ text, text.length ≤ 29 ∧ ∀ bufsz, text.length < bufsz →
      fmthttptime beforeEpoch ⟨-1, 0⟩ bufsz = some text ∧ parsehttptime text = .ok ⟨-1, 0⟩ := by
  refine @parsed_formatted beforeEpoch ⟨-1, 0⟩ ?_ ⟨59, 59, 23, 31, 11, 69, 3, 0, 0, 0⟩ rfl rfl ?_
  · intro bt hbt
    obtain rfl := Option.some.inj hbt
    exact civil_beforeEpoch
  · exact ⟨by decide, by decide⟩

end Qse.Http.Date
