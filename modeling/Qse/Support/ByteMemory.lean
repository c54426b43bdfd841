import Mathlib.Data.Nat.ModEq
import Mathlib.Tactic.Ring

/-!
# Byte-addressed memory with little-endian words

A memory is a total map from addresses to bytes. `load m a n` reads the `n`-byte little-endian
number at `a`, and `store m a n v` writes one. `CStr` is a string that ends with a null. Buffers are
memories of a known size, where an access outside of it has no result.
-/

open Function List

namespace ByteMemory

abbrev Mem := ℕ → UInt8

/-- Read an `n`-byte little-endian number. -/
@[grind =] def load (m : Mem) (a : ℕ) : ℕ → ℕ
  | 0 => 0
  | n + 1 => (m a).toNat + 256 * load m (a + 1) n

/-- Write an `n`-byte little-endian number. -/
def store (m : Mem) (a n v : ℕ) : Mem := fun i =>
  if a ≤ i ∧ i < a + n then UInt8.ofNat (v / 256 ^ (i - a)) else m i

/-- Write the same byte `n` times. -/
def fill (m : Mem) (a n : ℕ) (v : UInt8) : Mem := fun i =>
  if a ≤ i ∧ i < a + n then v else m i

@[grind =] def copyForward (m : Mem) (d s : ℕ) : ℕ → Mem
  | 0 => m
  | n + 1 => copyForward (update m d (m s)) (d + 1) (s + 1) n

variable {m m' : Mem} {a n v i k d p : ℕ} {s t : List UInt8}

theorem load_congr (h : ∀ i, a ≤ i → i < a + n → m' i = m i) : load m' a n = load m a n := by
  induction n generalizing a with
  | zero => rfl
  | succ n ih =>
    have hhead : m' a = m a := h a (le_refl a) (by omega)
    have htail : load m' (a + 1) n = load m (a + 1) n :=
      ih fun i hi hin => h i (by omega) (by omega)
    rw [load, load, hhead, htail]

theorem load_lt (m : Mem) (a n : ℕ) : load m a n < 256 ^ n := by
  induction n generalizing a with
  | zero => simp [load]
  | succ n ih =>
    have hbyte : (m a).toNat < 256 := (m a).toNat_lt
    have htail := ih (a + 1)
    rw [load, pow_succ]
    omega

theorem load_of_bytes (h : ∀ k, k < n → m (a + k) = UInt8.ofNat (v / 256 ^ k)) :
    load m a n = v % 256 ^ n := by
  induction n generalizing a v with
  | zero => simp [load, Nat.mod_one]
  | succ n ih =>
    have hhead : (m a).toNat = v % 256 := by
      have h0 := h 0 (by omega)
      simp only [add_zero, pow_zero, Nat.div_one] at h0
      rw [h0]
      exact UInt8.toNat_ofNat'
    have htail : load m (a + 1) n = v / 256 % 256 ^ n := by
      apply ih
      intro k hk
      have hk' := h (k + 1) (by omega)
      rw [show a + 1 + k = a + (k + 1) by omega, hk', pow_succ', Nat.div_div_eq_div_mul]
    rw [load, hhead, htail, pow_succ', Nat.mod_mul]

@[simp] theorem load_store_same (m : Mem) (a n v : ℕ) : load (store m a n v) a n = v % 256 ^ n := by
  apply load_of_bytes
  intro k hk
  simp [store, hk]

theorem store_of_apart (h : i < a ∨ a + n ≤ i) : store m a n v i = m i := by
  rw [store, if_neg (by omega)]

theorem load_store_apart {b : ℕ}
    (h : a + n ≤ b ∨ b + k ≤ a) : load (store m a n v) b k = load m b k :=
  load_congr fun _ _ _ => store_of_apart (by omega)

theorem fill_of_apart {v : UInt8} (h : i < a ∨ a + n ≤ i) : fill m a n v i = m i := by
  rw [fill, if_neg (by omega)]

theorem copyForward_of_apart {s : ℕ} (h : i < d ∨ d + n ≤ i) : copyForward m d s n i = m i := by
  induction n generalizing m d s with
  | zero => rfl
  | succ n ih =>
    rw [copyForward, ih (by omega), update_of_ne (by omega)]

theorem copyForward_at {s : ℕ} (hk : k < n) (h : d < s ∨ s + k < d ∨ d + n ≤ s + k) :
    copyForward m d s n (d + k) = m (s + k) := by
  induction n generalizing m d s k with
  | zero => omega
  | succ n ih =>
    rw [copyForward]
    cases k with
    | zero =>
      rw [copyForward_of_apart (by omega), add_zero, update_self, add_zero]
    | succ k =>
      have hstep := ih (m := update m d (m s)) (d := d + 1) (s := s + 1)
        (k := k) (by omega) (by omega)
      rw [show d + (k + 1) = d + 1 + k by omega, hstep,
        update_of_ne (by omega), show s + 1 + k = s + (k + 1) by omega]

theorem copyForward_of_lt {s : ℕ} (hk : k < n) (h : s + k < d ∨ d + n ≤ s + k) :
    copyForward m d s n (d + k) = m (s + k) := copyForward_at hk (.inr h)

theorem copyForward_moved {s : ℕ} (h : d < s) (hk : k < n) :
    copyForward m d s n (d + k) = m (s + k) := copyForward_at hk (.inl h)

/-- The `n` bytes at `a`. -/
def read (m : Mem) (a n : ℕ) : List UInt8 := (List.range n).map fun i => m (a + i)

/-- Write the bytes at `a`. -/
def write (m : Mem) (a : ℕ) (bytes : List UInt8) : Mem := fun i =>
  if a ≤ i ∧ i < a + bytes.length then bytes.getD (i - a) 0 else m i

@[simp] theorem length_read (m : Mem) (a n : ℕ) : (read m a n).length = n := by
  simp [read]

theorem read_succ (m : Mem) (a n : ℕ) : read m a (n + 1) = m a :: read m (a + 1) n := by
  simp only [read, range_succ_eq_map, map_cons, map_map, add_zero]
  congr 1
  refine map_congr_left fun i _ => ?_
  simp only [comp_apply]
  congr 1
  omega

theorem read_add (m : Mem) (a n k : ℕ) : read m a (n + k) = read m a n ++ read m (a + n) k := by
  induction n generalizing a with
  | zero => simp [read]
  | succ n ih =>
    rw [Nat.succ_add, read_succ, read_succ, ih, cons_append, add_assoc, add_comm 1 n]

theorem read_congr (h : ∀ i, a ≤ i → i < a + n → m' i = m i) : read m' a n = read m a n :=
  map_congr_left fun i hi => h _ (Nat.le_add_right a i)
    (Nat.add_lt_add_left (mem_range.mp hi) a)

theorem write_of_apart {bytes : List UInt8}
    (h : i < a ∨ a + bytes.length ≤ i) : write m a bytes i = m i := by
  rw [write, if_neg (by omega)]

theorem read_write_apart {b : ℕ} {bytes : List UInt8}
    (h : a + bytes.length ≤ b ∨ b + n ≤ a) : read (write m a bytes) b n = read m b n :=
  read_congr fun _ _ _ => write_of_apart (by omega)

theorem read_write_same (m : Mem) (a : ℕ) (bytes : List UInt8) :
    read (write m a bytes) a bytes.length = bytes := by
  refine ext_getElem (by simp) fun i hi hi' => ?_
  rw [length_read] at hi
  have hwritten : write m a bytes (a + i) = bytes[i] := by
    rw [write, if_pos ⟨by omega, by omega⟩, Nat.add_sub_cancel_left]
    simp [hi']
  simpa [read] using hwritten

theorem write_read (m : Mem) (a n : ℕ) : write m a (read m a n) = m := by
  funext i
  rw [write, length_read]
  split
  case isTrue h =>
    have hi : i - a < n := by omega
    simp only [read, getD_eq_getElem?_getD, getElem?_map, getElem?_range hi,
      Option.map_some, Option.getD_some, Nat.add_sub_cancel' h.1]
  case isFalse => rfl

theorem write_write (m : Mem) (a : ℕ) {first last : List UInt8} (h : first.length = last.length) :
    write (write m a first) a last = write m a last := by
  funext i
  rw [write, write, write, h]
  split <;> rfl

theorem read_copyForward {s : ℕ} (h : d < s) (n : ℕ) :
    read (copyForward m d s n) d n = read m s n :=
  map_congr_left fun _ hi => copyForward_moved h (mem_range.mp hi)

def CStr (m : Mem) : ℕ → List UInt8 → Prop
  | p, [] => m p = 0
  | p, c :: s => c ≠ 0 ∧ m p = c ∧ CStr m (p + 1) s

theorem CStr.congr (hs : CStr m p s)
    (hsame : ∀ i, p ≤ i → i ≤ p + s.length → m' i = m i) : CStr m' p s := by
  induction s generalizing p with
  | nil => exact (hsame p (le_refl p) (le_refl p)).trans hs
  | cons c s ih =>
    obtain ⟨hc, hp, hrest⟩ := hs
    refine ⟨hc, ?_, ?_⟩
    · exact (hsame p (le_refl p) (by omega)).trans hp
    · apply ih hrest
      intro i hlo hhi
      exact hsame i (by omega) (by simp only [length_cons]; omega)

theorem CStr.of_read (hs : ∀ c ∈ s, c ≠ 0) (hread : read m p s.length = s)
    (hend : m (p + s.length) = 0) : CStr m p s := by
  induction s generalizing p with
  | nil => exact hend
  | cons c s ih =>
    rw [length_cons, read_succ] at hread
    obtain ⟨hp, hrest⟩ := List.cons.inj hread
    refine ⟨hs c (.head _), hp, ?_⟩
    apply ih
    · exact fun d hd => hs d (mem_cons_of_mem c hd)
    · exact hrest
    · rw [add_assoc, add_comm 1]
      exact hend

theorem CStr.ne_zero (hs : CStr m p s) : 0 ∉ s := by
  induction s generalizing p with
  | nil => exact not_mem_nil
  | cons c s ih =>
    obtain ⟨hc, -, hrest⟩ := hs
    rw [mem_cons, not_or]
    exact ⟨hc.symm, ih hrest⟩

theorem CStr.update {c : UInt8} (hs : CStr m p s)
    (hi : i < p ∨ p + s.length < i) : CStr (update m i c) p s :=
  hs.congr fun j _ _ => update_of_ne (by omega) c m

theorem CStr.of_append (hs : CStr m p (s ++ t)) : CStr m (p + s.length) t := by
  induction s generalizing p with
  | nil => exact hs
  | cons c s ih =>
    obtain ⟨-, -, hrest⟩ := hs
    have htail := ih hrest
    rwa [add_assoc, add_comm 1] at htail

theorem CStr.read_prefix (hs : CStr m p (s ++ t)) : read m p s.length = s := by
  induction s generalizing p with
  | nil => rfl
  | cons c s ih =>
    obtain ⟨-, hp, hrest⟩ := hs
    rw [length_cons, read_succ, hp, ih hrest]

theorem read_of_isPrefix (h : s <+: t) (hread : read m p t.length = t) : read m p s.length = s := by
  obtain ⟨u, rfl⟩ := h
  rw [length_append, read_add] at hread
  exact (append_inj hread (length_read m p s.length)).1

def readByte (m : Mem) (n i : ℕ) : Option UInt8 := if i < n then some (m i) else none

/-- Write a byte of a buffer of `n` bytes. -/
def writeByte (m : Mem) (n i : ℕ) (b : UInt8) : Option Mem :=
  if i < n then some (update m i b) else none

theorem readByte_of_lt (h : i < n) : readByte m n i = some (m i) := if_pos h

theorem readByte_of_le (h : n ≤ i) : readByte m n i = none :=
  if_neg (not_lt.2 h)

theorem writeByte_of_lt {b : UInt8} (h : i < n) :
    writeByte m n i b = some (update m i b) := if_pos h

end ByteMemory
