import Mathlib.Algebra.Group.Nat.Defs
import Mathlib.Data.List.Basic
import Mathlib.Order.Lattice
import Mathlib.Order.Nat

/-!
# Printing a line unambiguously

`write_num` and `write_str_clearly` of `lib/sed/sed.c`, which carry out the command `l`, with
`write_char`, `write_str` and the buffer they fill. The output handler takes whatever it is
offered. Characters are their codes.
-/

open List

namespace Qse.Sed.Clearly

/-- How characters are built: narrow, or wide with two bytes or four. -/
inductive CharBuild where
  | mchar
  | wchar (short : Bool)
deriving DecidableEq

def CharBuild.size : CharBuild → ℕ
  | .mchar => 1
  | .wchar true => 2
  | .wchar false => 4

structure Out where
  taken : List ℕ
  buf : List ℕ

def Out.all (o : Out) : List ℕ := o.taken ++ o.buf

def flush (o : Out) : Out := ⟨o.taken ++ o.buf, []⟩

def writeChar (cap : ℕ) (o : Out) (c : ℕ) : Out :=
  let o' : Out := ⟨o.taken, o.buf ++ [c]⟩
  if c = 10 ∨ cap ≤ o'.buf.length then flush o' else o'

def writeStrLoop (cap : ℕ) : Out → List ℕ → Bool → Out
  | o, [], flushNeeded => if flushNeeded then flush o else o
  | o, c :: str, flushNeeded =>
    let o' : Out := ⟨o.taken, o.buf ++ [c]⟩
    if cap ≤ o'.buf.length then writeStrLoop cap (flush o') str false
    else writeStrLoop cap o' str (flushNeeded || c == 10)

def writeStr (cap : ℕ) (o : Out) (str : List ℕ) : Out := writeStrLoop cap o str false

def ntoc (n : ℕ) : ℕ := if n < 10 then 48 + n else 55 + n

/-- The first loop of `write_num`: the digits of `x` turned round into `y`, and their number.
An unsigned long has 64 bits, thus no more digits. -/
def turn (base : ℕ) : ℕ → ℕ → ℕ → ℕ → ℕ × ℕ
  | 0, _, y, dig => (y, dig)
  | fuel + 1, x, y, dig =>
    if 0 < x then turn base fuel (x / base) ((y * base + x % base) % 2 ^ 64) (dig + 1)
    else (y, dig)

/-- The loops of `write_num` that write `y`, and then zeros for the digits still missing. -/
def writeDigits (cap base : ℕ) : ℕ → Out → ℕ → ℕ → Out
  | 0, o, _, dig => (List.replicate dig 48).foldl (writeChar cap) o
  | fuel + 1, o, y, dig =>
    if 0 < y then
      writeDigits cap base fuel (writeChar cap o (ntoc (y % base))) (y / base) (dig - 1)
    else (List.replicate dig 48).foldl (writeChar cap) o

def writeNum (cap : ℕ) (o : Out) (x base width : ℕ) : Out :=
  let last := x % base
  let (y, dig) := turn base 64 (x / base) 0 0
  let o := (List.replicate (width - 1 - dig) 48).foldl (writeChar cap) o
  let o := writeDigits cap base 64 o y dig
  writeChar cap o (ntoc last)

def writeOne (b : CharBuild) (isprint : ℕ → Bool) (cap : ℕ) (o : Out) : ℕ → Out
  | 92 => writeStr cap o [92, 92]
  | 10 => writeStr cap o [36, 10]
  | 7 => writeStr cap o [92, 97]
  | 8 => writeStr cap o [92, 98]
  | 12 => writeStr cap o [92, 102]
  | 13 => writeStr cap o [92, 114]
  | 9 => writeStr cap o [92, 116]
  | 11 => writeStr cap o [92, 118]
  | c =>
    if isprint c then writeChar cap o c
    else
      match b with
      | .mchar => writeNum cap (writeChar cap o 92) c 8 (b.size * 3)
      | .wchar short =>
        writeNum cap (writeStr cap o [92, if short then 117 else 85]) c 16 (b.size * 2)

def writeStrClearly (b : CharBuild) (isprint : ℕ → Bool) (cap : ℕ) (o : Out) (str : List ℕ) : Out :=
  let o := str.foldl (writeOne b isprint cap) o
  if 1 < str.length ∧ str.getLast? ≠ some 10 then writeStr cap o [36, 10] else o

def digits (base : ℕ) : ℕ → ℕ → List ℕ
  | 0, _ => []
  | n + 1, x => digits base n (x / base) ++ [ntoc (x % base)]

def escape (b : CharBuild) (isprint : ℕ → Bool) : ℕ → List ℕ
  | 92 => [92, 92]
  | 10 => [36, 10]
  | 7 => [92, 97]
  | 8 => [92, 98]
  | 12 => [92, 102]
  | 13 => [92, 114]
  | 9 => [92, 116]
  | 11 => [92, 118]
  | c =>
    if isprint c then [c]
    else
      match b with
      | .mchar => 92 :: digits 8 (b.size * 3) c
      | .wchar short => 92 :: (if short then 117 else 85) :: digits 16 (b.size * 2) c

def turned (base : ℕ) : ℕ → ℕ → List ℕ
  | 0, _ => []
  | n + 1, y => ntoc (y % base) :: turned base n (y / base)

variable {b : CharBuild} {isprint : ℕ → Bool} {cap base : ℕ}

@[simp] theorem all_flush (o : Out) : (flush o).all = o.all := by
  simp [flush, Out.all]

@[simp] theorem all_writeChar (o : Out) (c : ℕ) : (writeChar cap o c).all = o.all ++ [c] := by
  rw [writeChar]
  dsimp only
  split
  · rw [all_flush, Out.all, Out.all, append_assoc]
  · rw [Out.all, Out.all, append_assoc]

@[simp] theorem all_foldl_writeChar (o : Out) (str : List ℕ) :
    (str.foldl (writeChar cap) o).all = o.all ++ str := by
  induction str generalizing o with
  | nil => exact (append_nil _).symm
  | cons c str ih =>
    rw [foldl_cons, ih, all_writeChar, append_assoc, singleton_append]

theorem all_writeStrLoop (o : Out) (str : List ℕ) (flushNeeded : Bool) :
    (writeStrLoop cap o str flushNeeded).all = o.all ++ str := by
  induction str generalizing o flushNeeded with
  | nil =>
    rw [writeStrLoop, append_nil]
    split
    · exact all_flush o
    · rfl
  | cons c str ih =>
    have hput : o.all ++ c :: str = (⟨o.taken, o.buf ++ [c]⟩ : Out).all ++ str := by
      simp [Out.all]
    rw [writeStrLoop, hput]
    dsimp only
    split
    · rw [ih, all_flush]
    · rw [ih]

@[simp] theorem all_writeStr (o : Out) (str : List ℕ) : (writeStr cap o str).all = o.all ++ str :=
  all_writeStrLoop o str false

/-! ## Numbers -/

theorem turned_zero (n : ℕ) : turned base n 0 = List.replicate n 48 := by
  induction n with
  | zero => rfl
  | succ n ih =>
    rw [turned, Nat.zero_mod, Nat.zero_div, ih, replicate_succ]
    rfl

theorem digits_zero (n : ℕ) : digits base n 0 = List.replicate n 48 := by
  induction n with
  | zero => rfl
  | succ n ih =>
    rw [digits, Nat.zero_mod, Nat.zero_div, ih, replicate_succ']
    rfl

variable {n fuel c : ℕ} {str : List ℕ}

theorem all_writeDigits (hfuel : n ≤ fuel) (o : Out) {y : ℕ}
    (hy : y < base ^ n) : (writeDigits cap base fuel o y n).all = o.all ++ turned base n y := by
  induction fuel generalizing n o y with
  | zero =>
    obtain rfl : n = 0 := Nat.le_zero.mp hfuel
    exact (append_nil _).symm
  | succ fuel ih =>
    rw [writeDigits]
    by_cases hpos : 0 < y
    · rw [if_pos hpos]
      cases n with
      | zero => exact absurd hy (by rw [Nat.pow_zero]; omega)
      | succ n =>
        have hrest : y / base < base ^ n := by
          apply Nat.div_lt_of_lt_mul
          rwa [Nat.mul_comm, ← Nat.pow_succ]
        rw [Nat.add_sub_cancel, ih (by omega) _ hrest, all_writeChar, append_assoc]
        rfl
    · obtain rfl : y = 0 := by omega
      rw [if_neg hpos, all_foldl_writeChar, turned_zero]

theorem turned_turn (hbase : 2 ≤ base) (hfuel : n ≤ fuel) {x y : ℕ} (dig : ℕ) (hx : x < base ^ n)
    (hy : y < base ^ dig) (hword : base ^ (dig + n) ≤ 2 ^ 64) :
    (turn base fuel x y dig).2 ≤ dig + n ∧
      (turn base fuel x y dig).1 < base ^ (turn base fuel x y dig).2 ∧
      List.replicate (dig + n - (turn base fuel x y dig).2) 48 ++
          turned base (turn base fuel x y dig).2 (turn base fuel x y dig).1 =
        digits base n x ++ turned base dig y := by
  induction fuel generalizing n x y dig with
  | zero =>
    obtain rfl : n = 0 := Nat.le_zero.mp hfuel
    rw [turn, Nat.add_zero, Nat.sub_self]
    exact ⟨le_rfl, hy, rfl⟩
  | succ fuel ih =>
    rw [turn]
    by_cases hpos : 0 < x
    · rw [if_pos hpos]
      cases n with
      | zero => exact absurd hx (by rw [Nat.pow_zero]; omega)
      | succ n =>
        have hmod : x % base < base := Nat.mod_lt _ (by omega)
        have hrest : x / base < base ^ n := by
          apply Nat.div_lt_of_lt_mul
          rwa [Nat.mul_comm, ← Nat.pow_succ]
        have hnext : y * base + x % base < base ^ (dig + 1) := by
          calc y * base + x % base < y * base + base := by omega
            _ = (y + 1) * base := (Nat.succ_mul _ _).symm
            _ ≤ base ^ dig * base := Nat.mul_le_mul_right _ hy
            _ = base ^ (dig + 1) := (Nat.pow_succ _ _).symm
        have hle : base ^ (dig + 1) ≤ base ^ (dig + (n + 1)) :=
          Nat.pow_le_pow_right (by omega) (by omega)
        rw [Nat.mod_eq_of_lt (Nat.lt_of_lt_of_le hnext (Nat.le_trans hle hword))]
        have hsum : dig + 1 + n = dig + (n + 1) := by omega
        have hturn := ih (n := n) (by omega) (dig + 1) hrest hnext (by rw [hsum]; exact hword)
        rw [hsum] at hturn
        refine ⟨hturn.1, hturn.2.1, hturn.2.2.trans ?_⟩
        have hlast : turned base (dig + 1) (y * base + x % base) =
            ntoc (x % base) :: turned base dig y := by
          rw [turned, Nat.mul_comm, Nat.mul_add_mod, Nat.mod_mod,
            Nat.mul_add_div (by omega), Nat.div_eq_of_lt hmod, Nat.add_zero]
        rw [hlast, digits, append_assoc, singleton_append]
    · obtain rfl : x = 0 := by omega
      rw [if_neg hpos]
      refine ⟨by omega, hy, ?_⟩
      rw [digits_zero, Nat.add_sub_cancel_left]

theorem all_writeNum (hbase : 2 ≤ base) (width : ℕ) (hwidth : width < 64) (o : Out) {x : ℕ}
    (hx : x < base ^ (width + 1)) (hword : base ^ width ≤ 2 ^ 64) :
    (writeNum cap o x base (width + 1)).all = o.all ++ digits base (width + 1) x := by
  have hrest : x / base < base ^ width := by
    apply Nat.div_lt_of_lt_mul
    rwa [Nat.mul_comm, ← Nat.pow_succ]
  have hturn := turned_turn hbase (Nat.le_of_lt hwidth) (y := 0) 0 hrest
    (by rw [Nat.pow_zero]; exact Nat.one_pos) (by rwa [Nat.zero_add])
  rw [Nat.zero_add] at hturn
  obtain ⟨hdig, hlt, hdigits⟩ := hturn
  have hturned : turned base 0 0 = [] := rfl
  rw [hturned, append_nil] at hdigits
  rw [writeNum]
  dsimp only
  rw [all_writeChar, all_writeDigits (by omega) _ hlt, all_foldl_writeChar,
    Nat.add_sub_cancel, append_assoc o.all, hdigits, append_assoc, digits]

def CharBuild.Has (b : CharBuild) (c : ℕ) : Prop := c < 256 ^ b.size

instance (b : CharBuild) (c : ℕ) : Decidable (b.Has c) := Nat.decLt _ _

theorem all_writeOne (o : Out) (hc : b.Has c) :
    (writeOne b isprint cap o c).all = o.all ++ escape b isprint c := by
  rw [CharBuild.Has] at hc
  unfold writeOne escape
  split
  case h_9 =>
    by_cases hprint : isprint c
    · rw [if_pos hprint, if_pos hprint, all_writeChar]
    rw [if_neg hprint, if_neg hprint]
    cases b with
    | mchar =>
      have hlt : c < 8 ^ 3 := Nat.lt_trans hc (by decide)
      have hnum := @all_writeNum cap 8 (by decide) 2 (by decide) (writeChar cap o 92) c hlt
        (by decide)
      exact hnum.trans (by rw [all_writeChar, append_assoc]; rfl)
    | wchar short =>
      cases short with
      | true =>
        have hnum := @all_writeNum cap 16 (by decide) 3
          (by decide) (writeStr cap o [92, 117]) c hc (by decide)
        exact hnum.trans (by rw [all_writeStr, append_assoc]; rfl)
      | false =>
        have hnum := @all_writeNum cap 16 (by decide) 7
          (by decide) (writeStr cap o [92, 85]) c hc (by decide)
        exact hnum.trans (by rw [all_writeStr, append_assoc]; rfl)
  all_goals exact all_writeStr _ _

theorem all_foldl_writeOne (o : Out) (hstr : ∀ c ∈ str, b.Has c) :
    (str.foldl (writeOne b isprint cap) o).all = o.all ++ str.flatMap (escape b isprint) := by
  induction str generalizing o with
  | nil => exact (append_nil _).symm
  | cons c str ih =>
    have hrest : ∀ c' ∈ str, b.Has c' := fun c' hc' => hstr c' (mem_cons_of_mem c hc')
    rw [foldl_cons, ih _ hrest, all_writeOne o (hstr c (.head _)), flatMap_cons, append_assoc]

def line (str : List ℕ) : List ℕ := if str.getLast? = some 10 then str else str ++ [10]

theorem all_writeStrClearly (o : Out) (hstr : ∀ c ∈ str, b.Has c) (hne : str ≠ []) :
    (writeStrClearly b isprint cap o str).all = o.all ++
      (if str.length = 1 ∧ str ≠ [10] then str else line str).flatMap (escape b isprint) := by
  rw [writeStrClearly, line]
  by_cases hlast : str.getLast? = some 10
  · rw [if_neg (fun h => h.2 hlast), all_foldl_writeOne o hstr, if_pos hlast, ite_self]
  have hnl : str ≠ [10] := by
    rintro rfl
    exact hlast rfl
  have hpos := length_pos_iff.mpr hne
  by_cases hlen : 1 < str.length
  · rw [if_pos ⟨hlen, hlast⟩, if_neg (fun h => Nat.ne_of_gt hlen h.1), if_neg hlast,
      all_writeStr, all_foldl_writeOne o hstr, flatMap_append, append_assoc]
    rfl
  · rw [if_neg (fun h => hlen h.1), if_pos ⟨by omega, hnl⟩, all_foldl_writeOne o hstr]

/-! ## Undoing the escapes -/

def digitValue (base c : ℕ) : Option ℕ := (List.range base).find? fun n => ntoc n == c

def readDigits (base : ℕ) : ℕ → ℕ → List ℕ → Option (ℕ × List ℕ)
  | 0, x, s => some (x, s)
  | n + 1, x, c :: s => (digitValue base c).bind fun d => readDigits base n (x * base + d) s
  | _ + 1, _, [] => none

def unescape (b : CharBuild) : List ℕ → Option (ℕ × List ℕ)
  | 92 :: s => some (92, s)
  | 97 :: s => some (7, s)
  | 98 :: s => some (8, s)
  | 102 :: s => some (12, s)
  | 114 :: s => some (13, s)
  | 116 :: s => some (9, s)
  | 118 :: s => some (11, s)
  | s =>
    match b, s with
    | .mchar, s => readDigits 8 (b.size * 3) 0 s
    | .wchar short, c :: s =>
      if c = (if short then 117 else 85) then readDigits 16 (b.size * 2) 0 s else none
    | .wchar _, [] => none

/-- Undoing the escapes; a `$` with a newline behind it is the newline. -/
def undo (b : CharBuild) : ℕ → List ℕ → Option (List ℕ)
  | _, [] => some []
  | 0, _ :: _ => none
  | fuel + 1, 92 :: s => (unescape b s).bind fun r => (undo b fuel r.2).map (r.1 :: ·)
  | fuel + 1, 36 :: 10 :: s => (undo b fuel s).map (10 :: ·)
  | fuel + 1, c :: s => (undo b fuel s).map (c :: ·)

theorem digitValue_ntoc (hn : n < base) : digitValue base (ntoc n) = some n := by
  rw [digitValue, find?_eq_some_iff_getElem]
  refine ⟨beq_self_eq_true _, n, by rwa [length_range], getElem_range _, ?_⟩
  intro j hj
  rw [getElem_range]
  simp only [ntoc, Bool.not_eq_true', beq_eq_false_iff_ne]
  split <;> split <;> omega

theorem readDigits_digits (hbase : 2 ≤ base) (n acc : ℕ) {m x : ℕ}
    (hx : x < base ^ n) (s : List ℕ) :
    readDigits base (n + m) acc (digits base n x ++ s) =
      readDigits base m (acc * base ^ n + x) s := by
  induction n generalizing m x s with
  | zero =>
    obtain rfl : x = 0 := by rw [Nat.pow_zero] at hx; omega
    rw [digits, nil_append, Nat.zero_add, Nat.pow_zero, Nat.mul_one, Nat.add_zero]
  | succ n ih =>
    have hrest : x / base < base ^ n := by
      apply Nat.div_lt_of_lt_mul
      rwa [Nat.mul_comm, ← Nat.pow_succ]
    have hsum : n + 1 + m = n + (m + 1) := by omega
    rw [digits, append_assoc, singleton_append, hsum, ih hrest, readDigits,
      digitValue_ntoc (Nat.mod_lt _ (Nat.lt_of_lt_of_le Nat.two_pos hbase)), Option.bind_some]
    congr 1
    calc (acc * base ^ n + x / base) * base + x % base
        = acc * (base ^ n * base) + (base * (x / base) + x % base) := by
          rw [Nat.add_mul, Nat.mul_assoc, Nat.add_assoc, Nat.mul_comm base]
      _ = acc * base ^ (n + 1) + x := by rw [Nat.div_add_mod, ← Nat.pow_succ]

theorem ntoc_digit (hn : n < 8) : 48 ≤ ntoc n ∧ ntoc n < 56 := by
  rw [ntoc, if_pos (by omega)]
  omega

theorem unescape_octal (x : ℕ) (s : List ℕ) :
    unescape .mchar (digits 8 3 x ++ s) = readDigits 8 3 0 (digits 8 3 x ++ s) := by
  have hfirst := ntoc_digit (Nat.mod_lt (x / 8 / 8) (by decide : 0 < 8))
  have hform : digits 8 3 x ++ s =
      ntoc (x / 8 / 8 % 8) :: (ntoc (x / 8 % 8) :: ntoc (x % 8) :: s) := rfl
  rw [hform]
  generalize ntoc (x / 8 / 8 % 8) = d at hfirst
  unfold unescape
  split
  case h_8 => rfl
  all_goals
    rename_i heq
    have hd := (List.cons.inj heq).1
    omega

theorem unescape_wide (short : Bool) (s : List ℕ) :
    unescape (.wchar short) ((if short then 117 else 85) :: s) =
      readDigits 16 ((CharBuild.wchar short).size * 2) 0 s := by
  cases short with
  | true => rfl
  | false => rfl

theorem CharBuild.Has.lt_pow {short : Bool} (hc : (CharBuild.wchar short).Has c) :
    c < 16 ^ ((CharBuild.wchar short).size * 2) := by
  rw [Nat.mul_comm, Nat.pow_mul]
  exact hc

/-- A character is had back from its escape, if no newline follows that would be taken with a
`$`. -/
theorem undo_escape (hc : b.Has c) (fuel : ℕ) {s : List ℕ} (hs : s.head? ≠ some 10) :
    undo b (fuel + 1) (escape b isprint c ++ s) = (undo b fuel s).map (c :: ·) := by
  unfold escape
  split
  case h_9 hslash hnl _ _ _ _ _ _ =>
    by_cases hprint : isprint c
    · rw [if_pos hprint, singleton_append, undo]
      · exact fun h => hslash h
      · rintro s' - rfl
        exact hs rfl
    rw [if_neg hprint]
    cases b with
    | mchar =>
      have hlt : c < 8 ^ 3 := Nat.lt_trans hc (by decide)
      have hread := readDigits_digits (m := 0) (by decide) 3 0 hlt s
      rw [Nat.zero_mul, Nat.zero_add] at hread
      dsimp only [CharBuild.size]
      rw [cons_append, undo, unescape_octal, hread]
      rfl
    | wchar short =>
      have hread := readDigits_digits (m := 0) (by decide)
        ((CharBuild.wchar short).size * 2) 0 hc.lt_pow s
      rw [Nat.add_zero, Nat.zero_mul, Nat.zero_add] at hread
      dsimp only
      rw [cons_append, cons_append, undo, unescape_wide, hread]
      rfl
  all_goals rfl

theorem escape_ne_nil (c : ℕ) : escape b isprint c ≠ [] := by
  unfold escape
  split
  case h_9 =>
    split
    · exact cons_ne_nil _ _
    · cases b with
      | mchar | wchar short => exact cons_ne_nil _ _
  all_goals exact cons_ne_nil _ _

theorem ntoc_ne_newline (n : ℕ) : ntoc n ≠ 10 := by
  rw [ntoc]
  split <;> omega

theorem newline_not_mem_digits (n x : ℕ) : 10 ∉ digits base n x := by
  induction n generalizing x with
  | zero => exact not_mem_nil
  | succ n ih =>
    rw [digits, mem_append, mem_singleton]
    rintro (h | h)
    · exact ih _ h
    · exact ntoc_ne_newline _ h.symm

theorem newline_not_mem_escape {c : ℕ} (hc : c ≠ 10) : 10 ∉ escape b isprint c := by
  unfold escape
  split
  case h_2 => exact absurd rfl hc
  case h_9 =>
    split
    · rw [mem_singleton]
      exact hc.symm
    cases b with
    | mchar =>
      dsimp only
      rw [mem_cons]
      rintro (h | h)
      · exact absurd h (by decide)
      · exact newline_not_mem_digits _ _ h
    | wchar short =>
      dsimp only
      rw [mem_cons, mem_cons]
      rintro (h | h | h)
      · exact absurd h (by decide)
      · cases short with
        | true | false => exact absurd h (by decide)
      · exact newline_not_mem_digits _ _ h
  all_goals decide

theorem head_escape (c : ℕ) (s : List ℕ) : (escape b isprint c ++ s).head? ≠ some 10 := by
  by_cases hc : c = 10
  · subst hc
    exact fun h => absurd (Option.some.inj h) (by decide)
  · intro h
    rw [head?_append_of_ne_nil _ (escape_ne_nil c)] at h
    exact newline_not_mem_escape hc (mem_of_head? h)

theorem undo_flatMap (hstr : ∀ c ∈ str, b.Has c) (hfuel : str.length ≤ fuel) :
    undo b fuel (str.flatMap (escape b isprint)) = some str := by
  induction str generalizing fuel with
  | nil => exact undo.eq_1 b fuel
  | cons c str ih =>
    have hrest : ∀ c' ∈ str, b.Has c' := fun c' hc' => hstr c' (mem_cons_of_mem c hc')
    have hhead : (str.flatMap (escape b isprint)).head? ≠ some 10 := by
      cases str with
      | nil => exact fun h => by cases h
      | cons d str => exact head_escape d _
    rw [length_cons] at hfuel
    obtain ⟨fuel, rfl⟩ : ∃ f, fuel = f + 1 := ⟨fuel - 1, by omega⟩
    rw [flatMap_cons, undo_escape (hstr c (.head _)) _ hhead,
      ih hrest (by omega), Option.map_some]

theorem length_le_flatMap (str : List ℕ) :
    str.length ≤ (str.flatMap (escape b isprint)).length := by
  induction str with
  | nil => exact le_rfl
  | cons c str ih =>
    have hpos := length_pos_iff.mpr (@escape_ne_nil b isprint c)
    rw [flatMap_cons, length_append, length_cons]
    omega

/-! ## Unambiguous output -/

structure Clear (b : CharBuild) (str out : List ℕ) : Prop where
  ends : [36, 10] <:+ out
  marked : ∀ before after, out = before ++ 10 :: after → [36] <:+ before
  undone : undo b out.length out = some (line str)

theorem marked_append {part rest : List ℕ} (hpart : 10 ∉ part)
    (hrest : ∀ before after, rest = before ++ 10 :: after → [36] <:+ before)
    {before after : List ℕ} (h : part ++ rest = before ++ 10 :: after) : [36] <:+ before := by
  rcases append_eq_append_iff.mp h with ⟨more, hbefore, hmore⟩ | ⟨more, hpart', hmore⟩
  · rw [hbefore]
    exact (hrest more after hmore).trans (suffix_append part more)
  · cases more with
    | nil => exact absurd (hrest [] after hmore.symm) (by simp)
    | cons c more =>
      obtain rfl := (List.cons.inj hmore).1
      exact absurd (hpart' ▸ mem_append_right _ (.head _)) hpart

theorem marked_flatMap (str : List ℕ) :
    ∀ before after, str.flatMap (escape b isprint) = before ++ 10 :: after → [36] <:+ before := by
  induction str with
  | nil =>
    intro before after h
    cases before with
    | nil | cons c before => cases h
  | cons c str ih =>
    intro before after h
    rw [flatMap_cons] at h
    by_cases hc : c = 10
    · subst hc
      rcases before with _ | ⟨d, _ | ⟨e, before⟩⟩
      · exact absurd (List.cons.inj h).1 (by decide)
      · obtain rfl := (List.cons.inj h).1
        exact suffix_refl _
      · have htail := (List.cons.inj (List.cons.inj h).2).2
        exact (ih before after htail).trans (suffix_append [d, e] before)
    · exact marked_append (newline_not_mem_escape hc) ih h

theorem line_eq (str : List ℕ) : ∃ text, line str = text ++ [10] := by
  rw [line]
  split
  · rename_i hlast
    exact ⟨str.dropLast, (dropLast_append_getLast? 10 hlast).symm⟩
  · exact ⟨str, rfl⟩

theorem clear_flatMap (hline : ∀ c ∈ line str, b.Has c) :
    Clear b str ((line str).flatMap (escape b isprint)) := by
  constructor
  · obtain ⟨text, htext⟩ := line_eq str
    rw [htext, flatMap_append]
    exact suffix_append _ _
  · exact marked_flatMap _
  · exact undo_flatMap hline (length_le_flatMap _)

theorem has_newline (b : CharBuild) : b.Has 10 := by
  rcases b with _ | _ | _ <;> exact (by decide)

theorem has_line (hstr : ∀ c ∈ str, b.Has c) : ∀ c ∈ line str, b.Has c := by
  intro c hc
  rw [line] at hc
  split at hc
  · exact hstr c hc
  · rcases mem_append.mp hc with hc | hc
    · exact hstr c hc
    · obtain rfl := mem_singleton.mp hc
      exact has_newline b

/-- What is printed for a line is unambiguous just when the line is not a single character other
than a newline. -/
theorem clear_iff {str : List ℕ} (hstr : ∀ c ∈ str, b.Has c) (hne : str ≠ []) (o : Out) :
    (∃ out, (writeStrClearly b isprint cap o str).all = o.all ++ out ∧ Clear b str out) ↔
      ¬(str.length = 1 ∧ str ≠ [10]) := by
  rw [all_writeStrClearly o hstr hne]
  constructor
  · rintro ⟨out, hout, hclear⟩ ⟨hlen, hnl⟩
    rw [if_pos ⟨hlen, hnl⟩] at hout
    obtain ⟨c, rfl⟩ := length_eq_one_iff.mp hlen
    have hc : c ≠ 10 := fun h => hnl (h ▸ rfl)
    have hescape : escape b isprint c = out := by
      simpa using hout
    obtain ⟨body, hbody⟩ := hclear.ends
    have hnone := @newline_not_mem_escape b isprint c hc
    apply hnone
    rw [hescape, ← hbody]
    simp
  · intro hlen
    rw [if_neg hlen]
    exact ⟨_, rfl, clear_flatMap (has_line hstr)⟩

def isGraphic (c : ℕ) : Bool := 32 ≤ c && c < 127

/-- `a$`, a tab, `\x01` and a newline. -/
theorem clear_iff_mixed :
    (∃ out, (writeStrClearly .mchar isGraphic 2048 ⟨[], []⟩ [97, 36, 9, 1, 10]).all = [] ++ out ∧
        Clear .mchar [97, 36, 9, 1, 10] out) ↔
      ¬([97, 36, 9, 1, 10].length = 1 ∧ [97, 36, 9, 1, 10] ≠ [10]) :=
  clear_iff (by decide) (by decide) ⟨[], []⟩

/-- Nothing shows where a line ends that is the letter `a`. -/
theorem not_clear :
    ¬∀ (b : CharBuild) (isprint : ℕ → Bool) (cap : ℕ) (o : Out) (str : List ℕ),
      (∀ c ∈ str, b.Has c) → str ≠ [] →
        ∃ out, (writeStrClearly b isprint cap o str).all = o.all ++ out ∧ Clear b str out := by
  intro hall
  obtain ⟨out, hout, hclear⟩ := hall .mchar isGraphic 2048 ⟨[], []⟩ [97]
    (by decide) (by decide)
  have hshort : out = [97] := hout.symm
  obtain ⟨body, hbody⟩ := hclear.ends
  rw [hshort] at hbody
  have hlen := congrArg List.length hbody
  rw [length_append] at hlen
  exact absurd hlen (by simp)

end Qse.Sed.Clearly
