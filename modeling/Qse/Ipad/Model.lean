import Qse.Text.Mchar
import Mathlib.Data.Nat.Bitwise

/-!
# Internet addresses from text

A translation of `str_to_ip4ad` for multibyte strings and of `qse_mbsntoip6ad` in
`lib/cmn/ipad.c`. A string is the list of its bytes, and a pointer into it is
the list of the bytes from there on. An address is the list of its bytes in
network order.
-/

namespace Qse.Ipad

/-- The local variables of `str_to_ip4ad`. -/
structure Ip4Scan where
  dots : ℕ
  digits : ℕ
  acc : ℕ
  addr : ℕ

/-- The loop of `str_to_ip4ad`, with the final `addr`. -/
@[grind =] def ip4Loop : List UInt8 → Ip4Scan → Option ℕ
  | [], st =>
    if st.dots < 3 ∨ st.digits = 0 then none
    else some (st.addr <<< 8 ||| st.acc)
  | c :: str, st =>
    if mt '0' ≤ c ∧ c ≤ mt '9' then
      if 0 < st.digits ∧ st.acc = 0 then none
      else
        let acc := st.acc * 10 + (c - mt '0').toNat
        if 255 < acc then none
        else ip4Loop str { st with acc := acc, digits := st.digits + 1 }
    else if c = mt '.' then
      if 3 ≤ st.dots ∨ st.digits = 0 then none
      else
        ip4Loop str
          { dots := st.dots + 1, digits := 0, acc := 0, addr := st.addr <<< 8 ||| st.acc }
    else none

/-- The bytes of `qse_hton32 (addr)`. -/
def hton32 (addr : ℕ) : List UInt8 :=
  [UInt8.ofNat (addr >>> 24), UInt8.ofNat (addr >>> 16), UInt8.ofNat (addr >>> 8), UInt8.ofNat addr]

/-- `qse_mbsntoip4ad`: the address, none for `-1`. -/
def mbsntoip4ad (str : List UInt8) : Option (List UInt8) :=
  (ip4Loop str ⟨0, 0, 0, 0⟩).map hton32

def xdigit (ch : UInt8) : Option ℕ :=
  if mt '0' ≤ ch ∧ ch ≤ mt '9' then some (ch - mt '0').toNat
  else if mt 'A' ≤ ch ∧ ch ≤ mt 'F' then some ((ch - mt 'A').toNat + 10)
  else if mt 'a' ≤ ch ∧ ch ≤ mt 'f' then some ((ch - mt 'a').toNat + 10)
  else none

/-- The local variables of `qse_mbsntoip6ad`. `tp` and `colonp` are offsets into
the 16 bytes of `tmp`. -/
structure Ip6Scan where
  tmp : List UInt8
  tp : ℕ
  colonp : Option ℕ
  curtok : List UInt8
  sawXdigit : Bool
  val : ℕ

def Ip6Scan.push (st : Ip6Scan) (b : UInt8) : Option Ip6Scan :=
  if st.tp < st.tmp.length then some { st with tmp := st.tmp.set st.tp b, tp := st.tp + 1 }
  else none

def Ip6Scan.pushGroup (st : Ip6Scan) : Option Ip6Scan := do
  let st ← st.push (UInt8.ofNat (st.val >>> 8) &&& 0xff)
  st.push (UInt8.ofNat st.val &&& 0xff)

def Ip6Scan.pushQuad (st : Ip6Scan) (ip : List UInt8) : Option Ip6Scan :=
  ip.foldlM Ip6Scan.push st

/-- How a part of `qse_mbsntoip6ad` ends: by going on, with `-1`, or by writing
outside of `tmp`. -/
inductive Outcome (α : Type) where
  | ok (a : α)
  | reject
  | stray
deriving DecidableEq

/-- A store that has to stay inside of `tmp`. -/
def Outcome.ofStore {α : Type} : Option α → Outcome α
  | some a => .ok a
  | none => .stray

def Outcome.bind {α β : Type} (o : Outcome α) (f : α → Outcome β) : Outcome β :=
  match o with
  | .ok a => f a
  | .reject => .reject
  | .stray => .stray

/-- The loop of `qse_mbsntoip6ad`. -/
def ip6Loop : List UInt8 → Ip6Scan → Outcome Ip6Scan
  | [], st => .ok st
  | ch :: src, st =>
    match xdigit ch with
    | some v1 =>
      let val := st.val <<< 4 ||| v1
      if 0xffff < val then .reject
      else ip6Loop src { st with val := val, sawXdigit := true }
    | none =>
      if ch = mt ':' then
        let st := { st with curtok := src }
        if ¬st.sawXdigit then
          if st.colonp.isSome then .reject
          else ip6Loop src { st with colonp := some st.tp }
        else if src = [] then .reject
        else
          match st.pushGroup with
          | none => .stray
          | some st => ip6Loop src { st with sawXdigit := false, val := 0 }
      else if ch = mt '.' ∧ st.tp + 4 ≤ 16 then
        match mbsntoip4ad st.curtok with
        | some ip => (Outcome.ofStore (st.pushQuad ip)).bind fun st =>
          .ok { st with sawXdigit := false }
        | none => .reject
      else .reject

/-- `if (saw_xdigit) { ... }` -/
def flushGroup (st : Ip6Scan) : Outcome Ip6Scan :=
  if st.sawXdigit then
    if 16 < st.tp + 2 then .reject else Outcome.ofStore st.pushGroup
  else .ok st

/-- The loop that shifts the `n` bytes from `colonp` on to the end, with `k`
rounds to go. -/
def shiftGap (colonp n : ℕ) : ℕ → List UInt8 → List UInt8
  | 0, tmp => tmp
  | k + 1, tmp =>
    let i := n - k
    shiftGap colonp n k
      ((tmp.set (16 - i) (tmp.getD (colonp + (n - i)) 0)).set (colonp + (n - i)) 0)

/-- The end of `qse_mbsntoip6ad`: the address in `tmp`. -/
def openGap (st : Ip6Scan) : Outcome (List UInt8) :=
  match st.colonp with
  | some colonp =>
    let n := st.tp - colonp
    .ok (shiftGap colonp n n st.tmp)
  | none => if st.tp ≠ 16 then .reject else .ok st.tmp

/-- "Leading :: requires some special handling." -/
def skipLeading : List UInt8 → Outcome (List UInt8)
  | [] => .ok []
  | ch :: src =>
    if ch = mt ':' then if src.head? ≠ some (mt ':') then .reject else .ok src
    else .ok (ch :: src)

/-- The address that `qse_mbsntoip6ad` computes. -/
def parseIp6 (src : List UInt8) : Outcome (List UInt8) :=
  (skipLeading src).bind fun src =>
    (ip6Loop src ⟨List.replicate 16 0, 0, none, src, false, 0⟩).bind fun st =>
      (flushGroup st).bind openGap

/-- `qse_mbsntoip6ad` with the address found at `ipad`: `true` for `0` and
`false` for `-1`, and the address at `ipad` afterwards. There is no result when
it writes outside of its temporary address. -/
def mbsntoip6ad (src : List UInt8) (ipad : List UInt8) : Option (Bool × List UInt8) :=
  match parseIp6 src with
  | .ok tmp => some (true, tmp)
  | .reject => some (false, ipad)
  | .stray => none

end Qse.Ipad
