import Vexa.Lib.LittleEndian
import Mathlib.Data.BitVec

/-!
# Little-endian byte memories

A memory is a total function from `w`-bit addresses to bytes; addresses wrap around. `load` reads
`k` consecutive bytes as a number and `store` writes the `k` low bytes of one.

## Main results

* `load_store_self` — a load of the range just stored returns the stored number
* `store_load_self` — storing back what was loaded changes nothing
-/

namespace ByteMemory

open LittleEndian

variable {w : ℕ}

/-- A byte for every address. -/
abbrev Memory (w : ℕ) := BitVec w → BitVec 8

/-- The `k` bytes from `a` on, as a little-endian number. -/
def load (m : Memory w) (a : BitVec w) (k : ℕ) : ℕ :=
  ofBytes ((List.range k).map fun i => m (a + BitVec.ofNat w i))

/-- The `k` low bytes of `n`, written from `a` on. -/
def store (m : Memory w) (a : BitVec w) (k n : ℕ) : Memory w := fun x =>
  if (x - a).toNat < k then byte n (x - a).toNat else m x

/-- The distance from `a` to `a + i`. -/
theorem toNat_add_ofNat_sub {i : ℕ} (a : BitVec w) (h : i < 2 ^ w) :
    (a + BitVec.ofNat w i - a).toNat = i := by
  rw [BitVec.add_comm, BitVec.add_sub_cancel, BitVec.toNat_ofNat, Nat.mod_eq_of_lt h]

theorem add_ofNat_toNat_sub (a x : BitVec w) : a + BitVec.ofNat w (x - a).toNat = x := by
  rw [BitVec.ofNat_toNat, BitVec.setWidth_eq, BitVec.add_comm, BitVec.sub_add_cancel]

theorem load_lt (m : Memory w) (a : BitVec w) (k : ℕ) : load m a k < 256 ^ k := by
  simpa [load] using ofBytes_lt ((List.range k).map fun i => m (a + BitVec.ofNat w i))

/-- Byte `i` of a load. -/
theorem byte_load (m : Memory w) (a : BitVec w) {k i : ℕ} (h : i < k) :
    byte (load m a k) i = m (a + BitVec.ofNat w i) := by
  rw [load, byte_ofBytes (by simpa using h)]
  simp

/-- Loads of the same bytes, perhaps from different addresses. -/
theorem load_eq {m m' : Memory w} {a a' : BitVec w} {k : ℕ}
    (h : ∀ i < k, m (a + BitVec.ofNat w i) = m' (a' + BitVec.ofNat w i)) :
    load m a k = load m' a' k := by
  rw [load, load]
  congr 1
  exact List.map_congr_left fun i hi => h i (List.mem_range.mp hi)

theorem load_congr {m m' : Memory w} {a : BitVec w} {k : ℕ}
    (h : ∀ i < k, m (a + BitVec.ofNat w i) = m' (a + BitVec.ofNat w i)) :
    load m a k = load m' a k := load_eq h

theorem store_of_lt {m : Memory w} {a x : BitVec w} {k : ℕ} (n : ℕ) (h : (x - a).toNat < k) :
    store m a k n x = byte n (x - a).toNat := if_pos h

theorem store_of_not_lt {m : Memory w} {a x : BitVec w} {k : ℕ} (n : ℕ)
    (h : ¬ (x - a).toNat < k) : store m a k n x = m x := if_neg h

/-- **Load after store**, for ranges that do not wrap onto themselves. -/
theorem load_store_self {m : Memory w} {a : BitVec w} {k n : ℕ} (hk : k ≤ 2 ^ w) :
    load (store m a k n) a k = n % 256 ^ k := by
  have hbytes : ∀ i ∈ List.range k, store m a k n (a + BitVec.ofNat w i) = byte n (0 + i) := by
    intro i hi
    have hik := List.mem_range.mp hi
    rw [store_of_lt, toNat_add_ofNat_sub a (hik.trans_le hk), Nat.zero_add]
    rwa [toNat_add_ofNat_sub a (hik.trans_le hk)]
  rw [load, List.map_congr_left hbytes, ofBytes_map_byte]
  simp

/-- **Storing back what was loaded**, or the low part of it. -/
theorem store_load_self (m : Memory w) (a : BitVec w) {j k : ℕ} (hj : j ≤ k) :
    store m a j (load m a k) = m := by
  funext x
  by_cases h : (x - a).toNat < j
  · rw [store_of_lt _ h, byte_load m a (h.trans_le hj), add_ofNat_toNat_sub]
  · rw [store_of_not_lt _ h]

/-- Of two stores to one range the second counts. -/
theorem store_store (m : Memory w) (a : BitVec w) (k n n' : ℕ) :
    store (store m a k n) a k n' = store m a k n' := by
  funext x
  by_cases h : (x - a).toNat < k
  · rw [store_of_lt _ h, store_of_lt _ h]
  · rw [store_of_not_lt _ h, store_of_not_lt _ h, store_of_not_lt _ h]

/-- Stores to disjoint ranges commute. -/
theorem store_comm (m : Memory w) {a b : BitVec w} {k j : ℕ}
    (h : ∀ x : BitVec w, ¬ ((x - a).toNat < k ∧ (x - b).toNat < j)) (n n' : ℕ) :
    store (store m a k n) b j n' = store (store m b j n') a k n := by
  funext x
  by_cases ha : (x - a).toNat < k
  · have hb : ¬ (x - b).toNat < j := fun hb => h x ⟨ha, hb⟩
    rw [store_of_not_lt _ hb, store_of_lt _ ha, store_of_lt _ ha]
  · by_cases hb : (x - b).toNat < j
    · rw [store_of_lt _ hb, store_of_not_lt _ ha, store_of_lt _ hb]
    · rw [store_of_not_lt _ hb, store_of_not_lt _ ha, store_of_not_lt _ ha, store_of_not_lt _ hb]

/-- A load after a store to a disjoint range. -/
theorem load_store_of_disjoint (m : Memory w) {a b : BitVec w} {k j : ℕ} (hk : k ≤ 2 ^ w)
    (h : ∀ x : BitVec w, ¬ ((x - a).toNat < k ∧ (x - b).toNat < j)) (n : ℕ) :
    load (store m b j n) a k = load m a k := by
  refine load_congr fun i hi => store_of_not_lt _ fun hb => h _ ⟨?_, hb⟩
  rwa [toNat_add_ofNat_sub a (hi.trans_le hk)]

/-- Only the low `k` bytes of the number are stored. -/
theorem store_mod (m : Memory w) (a : BitVec w) (k n : ℕ) :
    store m a k (n % 256 ^ k) = store m a k n := by
  funext x
  by_cases h : (x - a).toNat < k
  · rw [store_of_lt _ h, store_of_lt _ h, byte_mod h]
  · rw [store_of_not_lt _ h, store_of_not_lt _ h]

/-! ### Byte by byte -/

/-- One more byte of a load. -/
theorem load_succ (m : Memory w) (a : BitVec w) (k : ℕ) :
    load m a (k + 1) = load m a k + 256 ^ k * (m (a + BitVec.ofNat w k)).toNat := by
  rw [load, List.range_succ, List.map_append, ofBytes_append, List.length_map, List.length_range]
  simp [load]

/-- One more byte of a store. -/
theorem store_succ (m : Memory w) (a : BitVec w) {k : ℕ} (hk : k < 2 ^ w) (n : ℕ) :
    store (store m a k n) (a + BitVec.ofNat w k) 1 (n / 256 ^ k) = store m a (k + 1) n := by
  funext x
  by_cases hx : x = a + BitVec.ofNat w k
  · subst hx
    have hdist := toNat_add_ofNat_sub a hk
    rw [store_of_lt _ (by simp), store_of_lt _ (by rw [hdist]; exact Nat.lt_succ_self k), hdist,
      byte_div, BitVec.sub_self]
    rfl
  · have hne : (x - a).toNat ≠ k := fun h => hx (by rw [← h, add_ofNat_toNat_sub])
    have hfar : ¬ (x - (a + BitVec.ofNat w k)).toNat < 1 := fun h =>
      hx (by rw [← add_ofNat_toNat_sub (a + BitVec.ofNat w k) x, Nat.lt_one_iff.mp h]; simp)
    rw [store_of_not_lt _ hfar]
    by_cases hlt : (x - a).toNat < k
    · rw [store_of_lt _ hlt, store_of_lt _ (hlt.trans (Nat.lt_succ_self k))]
    · rw [store_of_not_lt _ hlt, store_of_not_lt _ (by omega)]

end ByteMemory
