import Mathlib.Data.Nat.Digits.Defs
import Mathlib.Tactic.Ring

/-!
# Little-endian numbers

A list of bytes, lowest first, read as a natural number, and the single bytes of a natural number.
Both directions are total: `ofBytes` accepts every list and `byte n i` is defined past the last
significant byte of `n`, where it is zero.

## Main definitions

* `LittleEndian.ofBytes` — the number a list of bytes denotes
* `LittleEndian.byte` — byte `i` of a number

## Main results

* `ofBytes_append`, `ofBytes_lt` — concatenation, and the bound
* `byte_ofBytes` — reading back one byte
* `ofBytes_map_byte` — the bytes `j, …, j + k - 1` of `n`, reassembled
-/

namespace LittleEndian

/-- The number denoted by a list of bytes, lowest byte first. -/
def ofBytes : List (BitVec 8) → ℕ
  | [] => 0
  | b :: bs => b.toNat + 256 * ofBytes bs

/-- Byte `i` of `n`. -/
def byte (n i : ℕ) : BitVec 8 := BitVec.ofNat 8 (n / 256 ^ i)

theorem two_pow_eight_mul (i : ℕ) : 2 ^ (8 * i) = 256 ^ i := by
  rw [pow_mul, show 2 ^ 8 = 256 from rfl]

@[simp] theorem toNat_byte (n i : ℕ) : (byte n i).toNat = n / 256 ^ i % 256 := by
  simp [byte]

theorem byte_zero (n : ℕ) : byte n 0 = BitVec.ofNat 8 n := by
  simp [byte]

/-- Two numbers that agree below `256 ^ k` have the same bytes below `k`. -/
theorem byte_mod {n k i : ℕ} (h : i < k) : byte (n % 256 ^ k) i = byte n i := by
  apply BitVec.eq_of_toNat_eq
  rw [toNat_byte, toNat_byte]
  obtain ⟨d, rfl⟩ := Nat.exists_eq_add_of_lt h
  rw [show 256 ^ (i + d + 1) = 256 ^ i * (256 * 256 ^ d) by ring, Nat.mod_mul_right_div_self,
    Nat.mod_mod_of_dvd _ (Dvd.intro _ rfl)]

/-- Shifting by whole bytes shifts the byte index. -/
theorem byte_div (n j i : ℕ) : byte (n / 256 ^ j) i = byte n (j + i) := by
  rw [byte, byte, Nat.div_div_eq_div_mul, ← pow_add]

@[simp] theorem ofBytes_nil : ofBytes [] = 0 := rfl

@[simp] theorem ofBytes_cons (b : BitVec 8) (bs : List (BitVec 8)) :
    ofBytes (b :: bs) = b.toNat + 256 * ofBytes bs := rfl

theorem ofBytes_singleton (b : BitVec 8) : ofBytes [b] = b.toNat := by simp

theorem ofBytes_append (xs ys : List (BitVec 8)) :
    ofBytes (xs ++ ys) = ofBytes xs + 256 ^ xs.length * ofBytes ys := by
  induction xs with
  | nil => simp
  | cons b xs ih =>
    rw [List.cons_append, ofBytes_cons, ofBytes_cons, ih, List.length_cons, pow_succ]
    ring

theorem ofBytes_lt (bs : List (BitVec 8)) : ofBytes bs < 256 ^ bs.length := by
  induction bs with
  | nil => simp
  | cons b bs ih =>
    have hb : b.toNat < 256 := b.isLt
    calc ofBytes (b :: bs) = b.toNat + 256 * ofBytes bs := rfl
      _ < 256 * (ofBytes bs + 1) := by omega
      _ ≤ 256 * 256 ^ bs.length := Nat.mul_le_mul_left _ ih
      _ = 256 ^ (b :: bs).length := by rw [List.length_cons, pow_succ, Nat.mul_comm]

/-- **Reading back one byte.** -/
theorem byte_ofBytes {bs : List (BitVec 8)} {i : ℕ} (h : i < bs.length) :
    byte (ofBytes bs) i = bs[i] := by
  induction bs generalizing i with
  | nil => simp at h
  | cons b bs ih =>
    have hb : b.toNat < 256 := b.isLt
    cases i with
    | zero =>
      apply BitVec.eq_of_toNat_eq
      simp only [toNat_byte, ofBytes_cons, pow_zero, Nat.div_one, List.getElem_cons_zero]
      omega
    | succ i =>
      have hdiv : ofBytes (b :: bs) / 256 ^ (i + 1) = ofBytes bs / 256 ^ i := by
        rw [pow_succ', ← Nat.div_div_eq_div_mul, ofBytes_cons,
          Nat.add_mul_div_left _ _ (by decide), Nat.div_eq_of_lt hb, Nat.zero_add]
      rw [byte, hdiv, List.getElem_cons_succ]
      exact ih (by simpa using h)

/-- The `k` bytes of `n` starting at byte `j`, reassembled. -/
theorem ofBytes_map_byte (n j k : ℕ) :
    ofBytes ((List.range k).map fun i => byte n (j + i)) = n / 256 ^ j % 256 ^ k := by
  induction k with
  | zero => simp [Nat.mod_one]
  | succ k ih =>
    rw [List.range_succ, List.map_append, ofBytes_append, ih, List.length_map, List.length_range,
      List.map_singleton, ofBytes_singleton, toNat_byte, pow_add, ← Nat.div_div_eq_div_mul,
      pow_succ, Nat.mod_mul]

/-- A number below `256 ^ k` is what its own `k` bytes denote. -/
theorem ofBytes_map_byte_of_lt {n k : ℕ} (h : n < 256 ^ k) :
    ofBytes ((List.range k).map (byte n)) = n := by
  have := ofBytes_map_byte n 0 k
  simpa [Nat.mod_eq_of_lt h] using this

end LittleEndian
