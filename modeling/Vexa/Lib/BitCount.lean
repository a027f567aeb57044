import Mathlib.Data.Finset.Card
import Mathlib.Data.Finset.Range
import Mathlib.Data.Nat.Size
import Mathlib.Tactic.Ring

/-!
# Counting bits

The set bits of a number of `w` bits: how many there are, where the lowest one is, and how far the
highest one is from the top. The zero number has no lowest and no highest bit, and both distances
are `w` there.

Each count is given one bit at a time from the bottom (`ones_succ`, `size_mod_two_pow_succ`), except
the position of the lowest bit: there a lower bit overrides what the bits above it say
(`trailingZeros_eq_foldr`).

## Main definitions

* `BitCount.ones`, `BitCount.trailingZeros`, `BitCount.leadingZeros`
-/

namespace BitCount

/-- The number of set bits below `w`. -/
def ones (w x : ℕ) : ℕ := ((Finset.range w).filter fun i => x.testBit i).card

/-- The position of the lowest set bit, and `w` when no bit below `w` is set. -/
def trailingZeros (w x : ℕ) : ℕ := ((List.range w).find? x.testBit).getD w

/-- The number of zero bits above the highest set bit of a number of `w` bits. -/
def leadingZeros (w x : ℕ) : ℕ := w - x.size

@[simp] theorem ones_zero (x : ℕ) : ones 0 x = 0 := rfl

theorem ones_succ (w x : ℕ) : ones (w + 1) x = ones w x + (x.testBit w).toNat := by
  rw [ones, ones, Finset.range_add_one, Finset.filter_insert]
  cases x.testBit w with
  | false => simp
  | true => simp

theorem ones_le (w x : ℕ) : ones w x ≤ w := by
  have := Finset.card_filter_le (Finset.range w) fun i => x.testBit i
  rwa [Finset.card_range] at this

/-- Scanning down from the top, a set bit overrides the bits above it. -/
theorem find?_getD_eq_foldr (p : ℕ → Bool) (l : List ℕ) (w : ℕ) :
    (l.find? p).getD w = l.foldr (fun i r => if p i then i else r) w := by
  induction l with
  | nil => rfl
  | cons i l ih =>
    cases h : p i with
    | false => rw [List.find?_cons_of_neg (by simp [h]), ih, List.foldr_cons, h]; rfl
    | true => rw [List.find?_cons_of_pos h, List.foldr_cons, h]; rfl

theorem trailingZeros_eq_foldr (w x : ℕ) :
    trailingZeros w x = (List.range w).foldr (fun i r => if x.testBit i then i else r) w :=
  find?_getD_eq_foldr x.testBit _ w

/-- The bit length of the low `k + 1` bits. -/
theorem size_mod_two_pow_succ (x k : ℕ) :
    (x % 2 ^ (k + 1)).size = if x.testBit k then k + 1 else (x % 2 ^ k).size := by
  have hlow : x % 2 ^ k < 2 ^ k := Nat.mod_lt _ (Nat.two_pow_pos k)
  have hsplit : x % 2 ^ (k + 1) = x % 2 ^ k + 2 ^ k * (x.testBit k).toNat := by
    rw [pow_succ, Nat.mod_mul, Nat.toNat_testBit]
  cases hbit : x.testBit k with
  | false => rw [hsplit, hbit]; simp
  | true =>
    rw [hsplit, hbit, Bool.toNat_true, Nat.mul_one, if_pos rfl]
    apply le_antisymm
    · exact Nat.size_le.mpr (by rw [pow_succ]; omega)
    · exact Nat.lt_size.mpr (by omega)

end BitCount
