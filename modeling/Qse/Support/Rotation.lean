import Mathlib.Data.Finset.Card

/-!
# Positions on a circle

`N` places in a circle. `place N a k` is the place `k` steps after `a`, and `offset N a s` the
number of steps from `a` to `s`; both are written with a comparison in place of a remainder.
-/

namespace Qse.Rotation

def place (N a k : ℕ) : ℕ := if a + k < N then a + k else a + k - N

def offset (N a s : ℕ) : ℕ := if a ≤ s then s - a else s + N - a

variable {N a b k s t x y z : ℕ}

theorem place_lt (ha : a < N) (hk : k < N) : place N a k < N := by
  rw [place]
  split <;> omega

theorem offset_lt (ha : a < N) (hs : s < N) : offset N a s < N := by
  rw [offset]
  split <;> omega

theorem place_eq_mod (ha : a < N) (hk : k < N) : place N a k = (a + k) % N := by
  rw [place]
  split
  · rename_i hlt
    exact (Nat.mod_eq_of_lt hlt).symm
  · rename_i hge
    have hle := not_lt.mp hge
    rw [Nat.mod_eq_sub_mod hle, Nat.mod_eq_of_lt (by omega)]

theorem offset_place (ha : a < N) (hk : k < N) : offset N a (place N a k) = k := by
  rw [place]
  split <;> rw [offset] <;> split <;> omega

theorem place_offset (ha : a < N) (hs : s < N) : place N a (offset N a s) = s := by
  rw [offset]
  split <;> rw [place] <;> split <;> omega

theorem offset_inj (ha : a < N) (hs : s < N) (ht : t < N) (h : offset N a s = offset N a t) :
    s = t := by
  rw [← place_offset ha hs, h, place_offset ha ht]

theorem offset_succ (ha : a < N) (hs : s < N) :
    offset N a ((s + 1) % N) = if offset N a s + 1 < N then offset N a s + 1 else 0 := by
  rcases lt_or_ge (s + 1) N with hlt | hge
  · rw [Nat.mod_eq_of_lt hlt, offset, offset]
    split <;> split <;> split <;> omega
  · have heq : s + 1 = N := by omega
    rw [heq, Nat.mod_self, offset, offset]
    split <;> split <;> split <;> omega

theorem offset_place_add (ha : a < N) (hs : s < N) (hk : offset N a s + k < N) :
    offset N a (place N s k) = offset N a s + k := by
  simp only [offset, place] at hk ⊢
  split at hk <;> split <;> split <;> omega

theorem offset_shift (hb : b < N) (hz : z < N) (hs : s < N) :
    offset N z s = offset N (offset N b z) (offset N b s) := by
  simp only [offset]
  split <;> split <;> split <;> split <;> omega

theorem offset_le_iff (hb : b < N) (hz : z < N) (hs : s < N) (ht : t < N)
    (hzs : offset N b z ≤ offset N b s) :
    offset N z t ≤ offset N z s ↔ offset N b z ≤ offset N b t ∧ offset N b t ≤ offset N b s := by
  have hzlt := offset_lt hb hz
  have hslt := offset_lt hb hs
  rw [offset_shift hb hz ht, offset_shift hb hz hs]
  generalize offset N b z = i at hzs hzlt ⊢
  generalize offset N b s = j at hzs hslt ⊢
  generalize offset N b t = k
  rw [offset, offset, if_pos hzs]
  split <;> omega

theorem offset_le_of_last (ha : a < N) (hz : z < N) (hlast : s ≠ a → ¬offset N z a ≤ offset N z s) :
    offset N ((a + 1) % N) z ≤ offset N ((a + 1) % N) s := by
  rcases lt_or_ge (a + 1) N with hlt | hge
  · rw [Nat.mod_eq_of_lt hlt]
    by_cases hsa : s = a
    · subst hsa
      rw [offset, offset]
      split <;> split <;> omega
    · have hout := hlast hsa
      simp only [offset] at hout ⊢
      split at hout <;> split at hout <;> split <;> split <;> omega
  · have heq : a + 1 = N := by omega
    rw [heq, Nat.mod_self]
    by_cases hsa : s = a
    · rw [offset, offset, if_pos (Nat.zero_le z), if_pos (Nat.zero_le s)]
      omega
    · have hout := hlast hsa
      simp only [offset] at hout ⊢
      split at hout <;> split at hout <;> split <;> split <;> omega

/-- How a comparison of places that goes around the circle reads from `b` on. -/
theorem passes_iff (hb : b < N) (hx : x < N) (hy : y < N) (hz : z < N)
    (hxy : offset N b x < offset N b y) (hzy : offset N b z ≤ offset N b y) :
    (y > x ∧ (z ≤ x ∨ z > y) ∨ y < x ∧ z ≤ x ∧ z > y) ↔ offset N b z ≤ offset N b x := by
  simp only [offset] at hxy hzy ⊢
  split at hxy <;> split at hxy <;> split at hzy <;> split <;> omega

theorem not_passes (hb : b < N) (hx : x < N) (hy : y < N) (hz : z < N)
    (hyx : offset N b y ≤ offset N b x) (hzy : offset N b z ≤ offset N b y) :
    ¬(y > x ∧ (z ≤ x ∨ z > y) ∨ y < x ∧ z ≤ x ∧ z > y) := by
  simp only [offset] at hyx hzy
  split at hyx <;> split at hyx <;> split at hzy <;> omega

theorem le_card_of_places (ha : a < N) (hk : k ≤ N) {S : Finset ℕ}
    (h : ∀ i < k, place N a i ∈ S) : k ≤ S.card := by
  have hinj : Set.InjOn (place N a) (Finset.range k : Set ℕ) := by
    intro i hi j hj hij
    rw [Finset.coe_range, Set.mem_Iio] at hi hj
    rw [← offset_place ha (hi.trans_le hk), hij, offset_place ha (hj.trans_le hk)]
  have hsub : (Finset.range k).image (place N a) ⊆ S := by
    intro s hs
    obtain ⟨i, hi, rfl⟩ := Finset.mem_image.mp hs
    exact h i (Finset.mem_range.mp hi)
  calc k = ((Finset.range k).image (place N a)).card := by
        rw [Finset.card_image_of_injOn hinj, Finset.card_range]
    _ ≤ S.card := Finset.card_le_card hsub

end Qse.Rotation
