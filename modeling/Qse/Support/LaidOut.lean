import Mathlib.Algebra.BigOperators.Group.List.Basic
import Qse.Support.ByteMemory

/-!
# Items in a memory

Items that have bytes are laid out one behind the other. What is laid out is taken apart at any
item, and it is there in every memory that has the same bytes.
-/

open List

namespace LaidOut

open ByteMemory

variable {α : Type} (bytes : α → List UInt8)

def sizes (as : List α) : ℕ := (as.map fun a => (bytes a).length).sum

def encode (as : List α) : List UInt8 := as.flatMap bytes

def Laid (m : Mem) (p : ℕ) (as : List α) : Prop := read m p (sizes bytes as) = encode bytes as

variable {bytes} {m m' : Mem} {p : ℕ} {a : α} {as bs : List α}

@[simp] theorem sizes_nil : sizes bytes [] = 0 := rfl

theorem sizes_cons (a : α) (as : List α) :
    sizes bytes (a :: as) = (bytes a).length + sizes bytes as := by
  rw [sizes, map_cons, sum_cons]
  rfl

theorem sizes_append (as bs : List α) :
    sizes bytes (as ++ bs) = sizes bytes as + sizes bytes bs := by
  rw [sizes, map_append, sum_append]
  rfl

theorem encode_cons (a : α) (as : List α) : encode bytes (a :: as) = bytes a ++ encode bytes as :=
  flatMap_cons

theorem encode_append (as bs : List α) :
    encode bytes (as ++ bs) = encode bytes as ++ encode bytes bs := flatMap_append

theorem length_encode (as : List α) : (encode bytes as).length = sizes bytes as := by
  induction as with
  | nil => rfl
  | cons a as ih => rw [encode_cons, length_append, sizes_cons, ih]

theorem laid_nil (m : Mem) (p : ℕ) : Laid bytes m p [] := rfl

theorem laid_append :
    Laid bytes m p (as ++ bs) ↔ Laid bytes m p as ∧ Laid bytes m (p + sizes bytes as) bs := by
  rw [Laid, sizes_append, read_add, encode_append]
  constructor
  · intro h
    exact append_inj h (by rw [length_read, length_encode])
  · rintro ⟨has, hbs⟩
    rw [has, hbs]

theorem laid_singleton : Laid bytes m p [a] ↔ read m p (bytes a).length = bytes a := by
  have hsize : sizes bytes [a] = (bytes a).length := sizes_cons a []
  have hbytes : encode bytes [a] = bytes a := append_nil _
  rw [Laid, hsize, hbytes]

theorem laid_cons : Laid bytes m p (a :: as) ↔
    read m p (bytes a).length = bytes a ∧ Laid bytes m (p + (bytes a).length) as := by
  have hsize : sizes bytes [a] = (bytes a).length := sizes_cons a []
  have happend : Laid bytes m p ([a] ++ as) ↔ _ := laid_append
  rwa [laid_singleton, hsize] at happend

theorem laid_congr (h : ∀ i, p ≤ i → i < p + sizes bytes as → m' i = m i)
    (hlaid : Laid bytes m p as) : Laid bytes m' p as := (read_congr h).trans hlaid

theorem laid_write (m : Mem) (p : ℕ) (as : List α) :
    Laid bytes (write m p (encode bytes as)) p as := by
  rw [Laid, ← length_encode]
  exact read_write_same m p (encode bytes as)

end LaidOut
