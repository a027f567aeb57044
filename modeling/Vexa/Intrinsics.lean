import Vexa.Emulator
import Vexa.Lib.BitCount
import Vexa.Lib.ExceptBind
import Vexa.Lib.LittleEndian

/-!
# Calls of LLVM intrinsics

`handle_llvm_intrinsics` writes the intrinsics that survive optimization as terms. Most of them have
no operator of their own: a count is a chain of one summand or one `ITE` for each bit of the operand,
a byte swap a chain of concatenations, and a funnel shift a shift of both operands at twice their
width.

## Widths

The width of the operand and the width of the result are read into a `uint8_t` in most branches, so a
chain is as long as the operand only up to 255 bits. An integer type is below `2 ^ 23` bits wide, so
the branches that use `uint32_t` lose nothing.

## Main definitions

* `LlvmIntrinsic`, `CallInst` — the call
* `ctpopTerm`, `funnelTerm`, `bswapTerm`, `cttzTerm`, `ctlzTerm`, `handleLlvmIntrinsics`
* `LlvmIntrinsic.result` — what the call returns in LLVM

## Main results

* `handleLlvmIntrinsics_exact` — counts, byte swaps and funnel shifts denote what LLVM returns
-/

namespace Vexa

/-- The intrinsics `handle_llvm_intrinsics` tells apart. -/
inductive LlvmIntrinsic
  | ctpop | fshl | fshr | bswap | cttz | ctlz
  | umax | usubSat | abs
  | lifetimeStart | lifetimeEnd
  | other (name : String)
deriving DecidableEq, Repr

/-- A call of an intrinsic. `width` is the size in bits of its type. -/
structure CallInst where
  callee : LlvmIntrinsic
  operand : ℕ → Operand Name
  width : ℕ

/-- A number stored in a `uint8_t`. -/
def uint8 (n : ℕ) : ℕ := n % 2 ^ 8

/-! ### The terms -/

/-- `ctpop`: the sum of the bits. -/
def ctpopTerm (src : Value) (dstBitWidth : ℕ) : Term :=
  let bit i := Term.zeroExtend (dstBitWidth - 1) (src.extract i i).term
  (List.range' 1 (uint8 src.size - 1)).foldl (fun total i => .binary .bvAdd total (bit i)) (bit 0)

/-- `fshl` and `fshr`, up to the extraction: both operands side by side, shifted by `shift` modulo
their width. -/
def funnelTerm (op : BinaryKind) (x y shift : Value) : Term :=
  let bitWidth := uint8 x.size
  let sMod := Term.binary .bvUrem shift.term (.value shift.size bitWidth)
  let sWide := Term.zeroExtend bitWidth sMod
  .binary op (.binary .bvConcat x.term y.term) sWide

def fshlTerm (x y shift : Value) : Term :=
  .extract (2 * uint8 x.size - 1) (uint8 x.size) (funnelTerm .bvShl x y shift)

def fshrTerm (x y shift : Value) : Term :=
  .extract (uint8 x.size - 1) 0 (funnelTerm .bvShr x y shift)

/-- `bswap`: the lowest byte first becomes the highest. -/
def bswapTerm (src : Value) : Term :=
  (List.range' 8 (src.size / 8 - 1) 8).foldl
    (fun result i => .binary .bvConcat result (src.extract (i + 7) i).term) (src.extract 7 0).term

/-- One link of the chains of `cttz` and `ctlz`: `idx` when bit `i` is set. -/
def bitIte (src : Value) (dstBitWidth i idx : ℕ) (result : Term) : Term :=
  .ite (.binary .equal (src.extract i i).term (.value 1 1)) (.value dstBitWidth idx) result

/-- `cttz`: the loop runs down, so the lowest bit is asked first. -/
def cttzTerm (src : Value) (dstBitWidth : ℕ) : Term :=
  (List.range src.size).reverse.foldl (fun result i => bitIte src dstBitWidth i i result)
    (.value dstBitWidth src.size)

/-- `ctlz`: the loop runs up, so the highest bit is asked first. -/
def ctlzTerm (src : Value) (dstBitWidth : ℕ) : Term :=
  (List.range src.size).foldl
    (fun result i => bitIte src dstBitWidth i (src.size - 1 - i) result)
    (.value dstBitWidth src.size)

/-- `cpu::emulator::handle_llvm_intrinsics`. -/
def handleLlvmIntrinsics (symex : Symex) (I : CallInst) : Except String Value := do
  let dstBitWidth := uint8 I.width
  match I.callee with
  | .ctpop =>
    let src ← symex.get (I.operand 0)
    vexaAssert (dstBitWidth ≠ 0) "dst_bit_width"
    return .ofTerm (ctpopTerm src dstBitWidth)
  | .fshl =>
    let result := fshlTerm (← symex.get (I.operand 0)) (← symex.get (I.operand 1))
      (← symex.get (I.operand 2))
    vexaAssert (dstBitWidth = result.bits) "dst_bit_width == result.sort().bv_size()"
    return .ofTerm result
  | .fshr =>
    let result := fshrTerm (← symex.get (I.operand 0)) (← symex.get (I.operand 1))
      (← symex.get (I.operand 2))
    vexaAssert (dstBitWidth = result.bits) "dst_bit_width == result.sort().bv_size()"
    return .ofTerm result
  | .bswap =>
    let src ← symex.get (I.operand 0)
    vexaAssert (src.size % 8 = 0)
      "bit_width % 8 == 0 && \"bswap bit width must be a multiple of 8\""
    let result := bswapTerm src
    vexaAssert (dstBitWidth = result.bits) "dst_bit_width == result.sort().bv_size()"
    return .ofTerm result
  | .cttz =>
    let src ← symex.get (I.operand 0)
    vexaAssert (dstBitWidth ≠ 0) "dst_bit_width"
    let result := cttzTerm src dstBitWidth
    vexaAssert (dstBitWidth = result.bits) "dst_bit_width == result.sort().bv_size()"
    return .ofTerm result
  | .ctlz =>
    let src ← symex.get (I.operand 0)
    vexaAssert (dstBitWidth ≠ 0) "dst_bit_width"
    let result := ctlzTerm src dstBitWidth
    vexaAssert (dstBitWidth = result.bits) "dst_bit_width == result.sort().bv_size()"
    return .ofTerm result
  | .umax =>
    let src0 ← symex.get (I.operand 0)
    let src1 ← symex.get (I.operand 1)
    let bitWidth := uint8 src0.size
    vexaAssert (src1.size = bitWidth) "src1->size() == bit_width"
    let result := Term.ite (src0.binary .bvUge src1).term src0.term src1.term
    vexaAssert (dstBitWidth = bitWidth) "dst_bit_width == bit_width"
    vexaAssert (dstBitWidth = result.bits) "dst_bit_width == result.sort().bv_size()"
    return .ofTerm result
  | .usubSat =>
    let src0 ← symex.get (I.operand 0)
    let src1 ← symex.get (I.operand 1)
    let bitWidth := uint8 src0.size
    vexaAssert (dstBitWidth = bitWidth) "dst_bit_width == bit_width"
    let sub := (src0.binary .bvSub src1).term
    let result := Term.ite (src0.binary .bvUlt src1).term (.value dstBitWidth 0) sub
    vexaAssert (dstBitWidth = result.bits) "dst_bit_width == result.sort().bv_size()"
    return .ofTerm result
  | .abs =>
    let src ← symex.get (I.operand 0)
    vexaAssert (src.size > 0) "bit_width > 0"
    vexaAssert (I.width = src.size) "dst_bit_width == bit_width"
    let x := src.term
    let zero := Term.value src.size 0
    let result := Term.ite (.binary .bvSlt x zero) (.binary .bvSub zero x) x
    vexaAssert (I.width = result.bits) "dst_bit_width == result.sort().bv_size()"
    return .ofTerm result
  | .lifetimeStart | .lifetimeEnd => return .concrete 0 64
  | .other name => throw ("CallInst: unimplemented llvm intrinsic -> " ++ name)

/-! ### What the calls return in LLVM -/

namespace LlvmIntrinsic

/-- The number of integer operands that decide the result. -/
def arity : LlvmIntrinsic → ℕ
  | ctpop | bswap | cttz | ctlz | abs => 1
  | umax | usubSat => 2
  | fshl | fshr => 3
  | lifetimeStart | lifetimeEnd | other _ => 0

/-- The result on operands of `w` bits. The funnel shifts work on the `2 * w` bits of their first two
operands. -/
def result (w : ℕ) (x : ℕ → ℕ) : LlvmIntrinsic → ℕ
  | ctpop => BitCount.ones w (x 0)
  | cttz => BitCount.trailingZeros w (x 0)
  | ctlz => BitCount.leadingZeros w (x 0)
  | bswap => LittleEndian.ofBytes ((List.range (w / 8)).reverse.map (LittleEndian.byte (x 0)))
  | fshl => (x 0 * 2 ^ w + x 1) * 2 ^ (x 2 % w) % 2 ^ (2 * w) / 2 ^ w
  | fshr => (x 0 * 2 ^ w + x 1) / 2 ^ (x 2 % w) % 2 ^ w
  | umax => max (x 0) (x 1)
  | usubSat => x 0 - x 1
  | abs => (BitVec.ofNat w (x 0)).abs.toNat
  | lifetimeStart | lifetimeEnd | other _ => 0

end LlvmIntrinsic

/-! ### The terms denote the results -/

section

variable {ν : Valuation} {w : ℕ}

theorem uint8_of_le (h : w ≤ 255) : uint8 w = w := Nat.mod_eq_of_lt (by omega)

/-- A one-bit extraction is the bit. -/
theorem eval_extract_bit (ν : Valuation) (v : Value) (i : ℕ) :
    (v.extract i i).eval ν = ((v.eval ν).testBit i).toNat := by
  rw [Value.eval_extract, Nat.toNat_testBit, show i + 1 - i = 1 by omega, pow_one]

theorem eval_bvAdd (ν : Valuation) (a b : Term) :
    (Term.binary .bvAdd a b).eval ν = (a.eval ν + b.eval ν) % 2 ^ a.bits := by
  simp [Term.eval, BinaryKind.eval]

/-! #### `ctpop` -/

theorem ctpopTerm_spec {src : Value} (hsize : src.size = w) (hpos : 1 ≤ w) (hw : w ≤ 255) :
    (ctpopTerm src w).bits = w ∧ (ctpopTerm src w).eval ν = BitCount.ones w (src.eval ν) := by
  -- the total after the lowest `k + 1` bits; no count reaches `2 ^ w`
  have hloop : ∀ k < w,
      let total := (List.range' 1 k).foldl (fun total i => Term.binary .bvAdd total
        (.zeroExtend (w - 1) (src.extract i i).term)) (.zeroExtend (w - 1) (src.extract 0 0).term)
      total.bits = w ∧ total.eval ν = BitCount.ones (k + 1) (src.eval ν) := by
    intro k hk
    induction k with
    | zero =>
      refine ⟨?_, ?_⟩
      · show 0 + 1 - 0 + (w - 1) = w
        omega
      · rw [BitCount.ones_succ, BitCount.ones_zero, Nat.zero_add]
        exact eval_extract_bit ν src 0
    | succ k ih =>
      obtain ⟨hbits, heval⟩ := ih (by omega)
      have hlt : k + 2 < 2 ^ w := by
        have := Nat.lt_two_pow_self (n := w)
        omega
      have hle := BitCount.ones_le (k + 1 + 1) (src.eval ν)
      rw [List.range'_1_concat, List.foldl_append]
      refine ⟨hbits, ?_⟩
      rw [List.foldl_cons, List.foldl_nil, eval_bvAdd, hbits, heval, Nat.add_comm 1 k]
      have hbit := eval_extract_bit ν src (k + 1)
      rw [Value.eval] at hbit
      rw [Term.eval, hbit, ← BitCount.ones_succ, Nat.mod_eq_of_lt (by omega)]
  obtain ⟨k, rfl⟩ : ∃ k, w = k + 1 := ⟨w - 1, by omega⟩
  rw [ctpopTerm, hsize, uint8_of_le hw]
  exact hloop k (by omega)

/-! #### Funnel shifts -/

/-- The two operands side by side, and the distance modulo the width. -/
theorem funnelTerm_operands {x y shift : Value} (hx : x.size = w) (hy : y.size = w)
    (hs : shift.size = w) (hw : w ≤ 255) (op : BinaryKind) :
    (funnelTerm op x y shift).eval ν =
      op.eval (2 * w) (2 * w) (x.eval ν * 2 ^ w + y.eval ν) (shift.eval ν % w) := by
  have hwlt : w < 2 ^ w := Nat.lt_two_pow_self
  have hslt : shift.eval ν < 2 ^ w := hs ▸ Value.eval_lt ν shift
  have hmod : (Term.binary .bvUrem shift.term (.value shift.size (uint8 x.size))).eval ν =
      shift.eval ν % w := by
    have hbits : shift.term.bits = w := hs
    rw [Term.eval, Term.eval_value, hbits, hs, hx, uint8_of_le hw]
    simp only [BinaryKind.eval, BitVec.toNat_umod, BitVec.toNat_ofNat, Nat.mod_mod]
    rw [Nat.mod_eq_of_lt hwlt, Nat.mod_eq_of_lt (a := Term.eval ν shift.term) hslt]
    rfl
  have hwide : (Term.binary .bvConcat x.term y.term).bits = 2 * w := by
    rw [two_mul]
    exact congrArg₂ (· + ·) hx hy
  have hdist : (Term.zeroExtend (uint8 x.size)
      (Term.binary .bvUrem shift.term (.value shift.size (uint8 x.size)))).bits = 2 * w := by
    rw [two_mul]
    exact congrArg₂ (· + ·) hs ((congrArg uint8 hx).trans (uint8_of_le hw))
  have hconcat : (Term.binary .bvConcat x.term y.term).eval ν =
      x.eval ν * 2 ^ w + y.eval ν := hy ▸ Term.eval_concat ν x.term y.term
  rw [funnelTerm, Term.eval, hwide, hdist, hconcat, Term.eval, hmod]

/-- A number of two words, from its halves. -/
theorem mul_add_lt {x y : ℕ} (hx : x < 2 ^ w) (hy : y < 2 ^ w) : x * 2 ^ w + y < 2 ^ (2 * w) := by
  calc x * 2 ^ w + y < x * 2 ^ w + 2 ^ w := by omega
    _ = (x + 1) * 2 ^ w := (Nat.succ_mul _ _).symm
    _ ≤ 2 ^ w * 2 ^ w := Nat.mul_le_mul_right _ hx
    _ = 2 ^ (2 * w) := by rw [two_mul, pow_add]

theorem mod_width_lt (s : ℕ) (hpos : 1 ≤ w) : s % w < 2 ^ (2 * w) := by
  have hs : s % w < w := Nat.mod_lt _ hpos
  have hw : 2 * w < 2 ^ (2 * w) := Nat.lt_two_pow_self
  omega

section

variable {x y shift : Value} (hx : x.size = w) (hy : y.size = w) (hs : shift.size = w)

include hx hy hs

theorem fshlTerm_spec (hpos : 1 ≤ w) (hw : w ≤ 255) :
    (fshlTerm x y shift).bits = w ∧
    (fshlTerm x y shift).eval ν =
      (x.eval ν * 2 ^ w + y.eval ν) * 2 ^ (shift.eval ν % w) % 2 ^ (2 * w) / 2 ^ w := by
  have hwidth : uint8 x.size = w := by rw [hx, uint8_of_le hw]
  have hhigh : 2 * w - 1 + 1 - w = w := by omega
  refine ⟨?_, ?_⟩
  · rw [fshlTerm, hwidth]
    exact hhigh
  · rw [fshlTerm, hwidth, Term.eval, funnelTerm_operands hx hy hs hw, hhigh]
    simp only [BinaryKind.eval, BitVec.shiftLeft_eq', BitVec.toNat_shiftLeft, BitVec.toNat_ofNat,
      Nat.mod_eq_of_lt (mod_width_lt _ hpos), Nat.shiftLeft_eq, Nat.mod_mul_mod]
    -- the high half of `2 * w` bits has `w` bits
    apply Nat.mod_eq_of_lt
    rw [Nat.div_lt_iff_lt_mul (Nat.two_pow_pos w), ← pow_add, ← two_mul]
    exact Nat.mod_lt _ (Nat.two_pow_pos _)

theorem fshrTerm_spec (hpos : 1 ≤ w) (hw : w ≤ 255) :
    (fshrTerm x y shift).bits = w ∧
    (fshrTerm x y shift).eval ν =
      (x.eval ν * 2 ^ w + y.eval ν) / 2 ^ (shift.eval ν % w) % 2 ^ w := by
  have hwidth : uint8 x.size = w := by rw [hx, uint8_of_le hw]
  have hlow : w - 1 + 1 - 0 = w := by omega
  have hwide := mul_add_lt (hx ▸ Value.eval_lt ν x : x.eval ν < 2 ^ w)
    (hy ▸ Value.eval_lt ν y : y.eval ν < 2 ^ w)
  refine ⟨?_, ?_⟩
  · rw [fshrTerm, hwidth]
    exact hlow
  · rw [fshrTerm, hwidth, Term.eval, funnelTerm_operands hx hy hs hw, hlow, pow_zero,
      Nat.div_one]
    simp only [BinaryKind.eval, BitVec.ushiftRight_eq', BitVec.toNat_ushiftRight,
      BitVec.toNat_ofNat, Nat.mod_eq_of_lt (mod_width_lt _ hpos), Nat.mod_eq_of_lt hwide,
      Nat.shiftRight_eq_div_pow]

end

/-! #### `bswap` -/

theorem bswapTerm_spec {src : Value} {n : ℕ} (hsize : src.size = 8 * n) (hpos : 1 ≤ n) :
    (bswapTerm src).bits = 8 * n ∧
    (bswapTerm src).eval ν = LittleEndian.ofBytes
      ((List.range n).reverse.map (LittleEndian.byte (src.eval ν))) := by
  have hbyte : ∀ i, (src.extract (i + 7) i).eval ν = src.eval ν / 2 ^ i % 2 ^ 8 := fun i => by
    rw [Value.eval_extract, show i + 7 + 1 - i = 8 by omega]
  -- after `k + 1` bytes the result holds the lowest of them, the first one on top
  have hloop : ∀ k,
      let result := (List.range' 8 k 8).foldl (fun result i =>
        Term.binary .bvConcat result (src.extract (i + 7) i).term) (src.extract 7 0).term
      result.bits = 8 * (k + 1) ∧ result.eval ν = LittleEndian.ofBytes
        ((List.range (k + 1)).reverse.map (LittleEndian.byte (src.eval ν))) := by
    intro k
    induction k with
    | zero =>
      refine ⟨rfl, ?_⟩
      rw [show (List.range (0 + 1)).reverse = [0] from rfl, List.map_singleton,
        LittleEndian.ofBytes_singleton, LittleEndian.toNat_byte, pow_zero]
      exact hbyte 0
    | succ k ih =>
      obtain ⟨hbits, heval⟩ := ih
      rw [List.range'_concat, List.foldl_append, List.foldl_cons, List.foldl_nil]
      refine ⟨?_, ?_⟩
      · show Term.bits _ + (8 + 8 * k + 7 + 1 - (8 + 8 * k)) = 8 * (k + 1 + 1)
        rw [hbits]
        omega
      · have hwidth : (src.extract (8 + 8 * k + 7) (8 + 8 * k)).term.bits = 8 := by
          show 8 + 8 * k + 7 + 1 - (8 + 8 * k) = 8
          omega
        have hnext := hbyte (8 + 8 * k)
        rw [Value.eval] at hnext
        have hrange : (List.range (k + 1 + 1)).reverse = (k + 1) :: (List.range (k + 1)).reverse := by
          rw [List.range_succ, List.reverse_append, List.reverse_singleton, List.singleton_append]
        rw [Term.eval_concat, heval, hnext, hwidth, hrange, List.map_cons,
          LittleEndian.ofBytes_cons, LittleEndian.toNat_byte, ← LittleEndian.two_pow_eight_mul,
          show 8 * (k + 1) = 8 + 8 * k by omega, show (2 : ℕ) ^ 8 = 256 from rfl, Nat.add_comm,
          Nat.mul_comm 256]
  obtain ⟨k, rfl⟩ : ∃ k, n = k + 1 := ⟨n - 1, by omega⟩
  rw [bswapTerm, hsize, Nat.mul_div_cancel_left _ (by decide)]
  exact hloop k

/-! #### `cttz` and `ctlz` -/

/-- One link of the chain: the index when the bit is set, else what the chain said before. -/
theorem bitIte_spec (src : Value) (i : ℕ) {idx : ℕ} (hidx : idx < 2 ^ w) {result : Term}
    (hbits : result.bits = w) :
    (bitIte src w i idx result).bits = w ∧
    (bitIte src w i idx result).eval ν =
      if (src.eval ν).testBit i then idx else result.eval ν := by
  refine ⟨rfl, ?_⟩
  have hbit := eval_extract_bit ν src i
  rw [Value.eval] at hbit
  rw [bitIte, Term.eval_ite ν _ (by rw [hbits, Term.bits_value]), Term.eval_equal, hbit,
    Term.eval_value, Term.eval_value, Nat.mod_eq_of_lt hidx]
  cases (src.eval ν).testBit i with
  | false => rfl
  | true => rfl

theorem cttzTerm_spec {src : Value} (hsize : src.size = w) :
    (cttzTerm src w).bits = w ∧
    (cttzTerm src w).eval ν = BitCount.trailingZeros w (src.eval ν) := by
  have hw : w < 2 ^ w := Nat.lt_two_pow_self
  -- the part of the chain that has asked the bits of a list of indices
  have hloop : ∀ l : List ℕ, (∀ i ∈ l, i < w) →
      let result := l.foldr (fun i result => bitIte src w i i result) (.value w w)
      result.bits = w ∧ result.eval ν =
        l.foldr (fun i r => if (src.eval ν).testBit i then i else r) w := by
    intro l hl
    induction l with
    | nil => exact ⟨rfl, Nat.mod_eq_of_lt hw⟩
    | cons i l ih =>
      obtain ⟨hbits, heval⟩ := ih fun j hj => hl j (List.mem_cons_of_mem i hj)
      have hi : i < w := hl i List.mem_cons_self
      rw [List.foldr_cons, List.foldr_cons, ← heval]
      exact bitIte_spec src i (hi.trans hw) hbits
  rw [cttzTerm, hsize, List.foldl_reverse, BitCount.trailingZeros_eq_foldr]
  exact hloop _ fun i hi => List.mem_range.mp hi

theorem ctlzTerm_spec {src : Value} (hsize : src.size = w) :
    (ctlzTerm src w).bits = w ∧
    (ctlzTerm src w).eval ν = BitCount.leadingZeros w (src.eval ν) := by
  have hw : w < 2 ^ w := Nat.lt_two_pow_self
  -- the chain after the lowest `k` bits counts the zeros above the highest of those
  have hloop : ∀ k ≤ w,
      let result := (List.range k).foldl
        (fun result i => bitIte src w i (w - 1 - i) result) (.value w w)
      result.bits = w ∧ result.eval ν = w - (src.eval ν % 2 ^ k).size := by
    intro k hk
    induction k with
    | zero =>
      refine ⟨rfl, ?_⟩
      rw [pow_zero, Nat.mod_one, Nat.size_zero]
      exact Nat.mod_eq_of_lt hw
    | succ k ih =>
      obtain ⟨hbits, heval⟩ := ih (by omega)
      rw [List.range_succ, List.foldl_append, List.foldl_cons, List.foldl_nil]
      have hidx : w - 1 - k < 2 ^ w := by omega
      obtain ⟨hbits', heval'⟩ := bitIte_spec (ν := ν) src k hidx hbits
      refine ⟨hbits', ?_⟩
      rw [heval', heval, BitCount.size_mod_two_pow_succ]
      split
      · omega
      · rfl
  have hx : src.eval ν % 2 ^ w = src.eval ν :=
    Nat.mod_eq_of_lt (hsize ▸ Value.eval_lt ν src)
  have h := hloop w le_rfl
  rw [hx] at h
  rw [ctlzTerm, hsize]
  exact h

/-! #### The intrinsics of one operator and a choice -/

theorem umaxTerm_spec {x y : Value} (hx : x.size = w) (hy : y.size = w) :
    (Term.ite (x.binary .bvUge y).term x.term y.term).eval ν = max (x.eval ν) (y.eval ν) := by
  have hxlt : x.term.eval ν < 2 ^ w := hx ▸ Value.eval_lt ν x
  have hylt : y.term.eval ν < 2 ^ w := hy ▸ Value.eval_lt ν y
  have hbits : x.term.bits = w := hx
  rw [Term.eval_ite ν _ (hx.trans hy.symm)]
  simp only [Value.binary, Value.term_ofTerm, Term.eval, BinaryKind.eval, hbits, BitVec.ule,
    BitVec.toNat_ofNat, Nat.mod_eq_of_lt hxlt, Nat.mod_eq_of_lt hylt, Value.eval]
  by_cases h : y.term.eval ν ≤ x.term.eval ν
  · simp [h]
  · simp [h, Nat.le_of_not_le h]

theorem usubSatTerm_spec {x y : Value} (hx : x.size = w) (hy : y.size = w) :
    (Term.ite (x.binary .bvUlt y).term (.value w 0) (x.binary .bvSub y).term).eval ν =
      x.eval ν - y.eval ν := by
  have hxlt : x.term.eval ν < 2 ^ w := hx ▸ Value.eval_lt ν x
  have hylt : y.term.eval ν < 2 ^ w := hy ▸ Value.eval_lt ν y
  have hbits : x.term.bits = w := hx
  have hsub : (x.binary .bvSub y).term.bits = w := hx
  rw [Term.eval_ite ν _ (show (Term.value w 0).bits = _ from hsub.symm)]
  simp only [Value.binary, Value.term_ofTerm, Term.eval, BinaryKind.eval, hbits, BitVec.ult,
    BitVec.toNat_sub, BitVec.toNat_ofNat, Nat.mod_eq_of_lt hxlt, Nat.mod_eq_of_lt hylt, Value.eval]
  by_cases h : x.term.eval ν < y.term.eval ν
  · simp [h, Nat.sub_eq_zero_of_le h.le]
  · have hsplit : 2 ^ w - y.term.eval ν + x.term.eval ν =
        2 ^ w + (x.term.eval ν - y.term.eval ν) := by omega
    rw [hsplit, Nat.add_mod_left, Nat.mod_eq_of_lt (by omega)]
    simp [h]

theorem absTerm_spec {x : Value} (hx : x.size = w) :
    (Term.ite (.binary .bvSlt x.term (.value w 0)) (.binary .bvSub (.value w 0) x.term)
      x.term).eval ν = (BitVec.ofNat w (x.eval ν)).abs.toNat := by
  obtain rfl : w = x.term.bits := hx.symm
  have hxlt : x.term.eval ν < 2 ^ x.term.bits := Term.eval_lt ν x.term
  have hbits : (Term.binary .bvSub (.value x.term.bits 0) x.term).bits = x.term.bits := rfl
  rw [Term.eval_ite ν _ hbits, BitVec.abs, BitVec.msb_eq_toInt]
  have hslt : (Term.binary .bvSlt x.term (.value x.term.bits 0)).eval ν =
      (decide ((BitVec.ofNat x.term.bits (x.term.eval ν)).toInt < 0)).toNat := by
    simp [Term.eval, BinaryKind.eval, BitVec.slt]
  have hsub : (Term.binary .bvSub (.value x.term.bits 0) x.term).eval ν =
      (-BitVec.ofNat x.term.bits (x.term.eval ν)).toNat := by
    show (BitVec.ofNat x.term.bits (0 % 2 ^ x.term.bits) - BitVec.ofNat x.term.bits _).toNat = _
    rw [Nat.zero_mod]
    simp
  rw [hslt, hsub]
  by_cases h : (BitVec.ofNat x.term.bits (x.term.eval ν)).toInt < 0
  · simp [h, Value.eval]
  · simp [h, Value.eval, Nat.mod_eq_of_lt hxlt]

end

/-! ### The calls -/

@[simp] theorem vexaAssert_true (text : String) : vexaAssert true text = .ok () := rfl

/-- **A call of an intrinsic denotes what it returns in LLVM**, on operands of up to 255 bits. -/
theorem handleLlvmIntrinsics_exact (symex : Symex) {I : CallInst} {v : ℕ → Value}
    (hget : ∀ i < I.callee.arity, symex.get (I.operand i) = .ok (v i))
    (hsize : ∀ i < I.callee.arity, (v i).size = I.width)
    (hpos : 1 ≤ I.width) (hwidth : I.width ≤ 255) (hbswap : I.callee = .bswap → 16 ∣ I.width)
    (hinteger : I.callee.arity ≠ 0) :
    ∃ r, handleLlvmIntrinsics symex I = .ok r ∧ r.size = I.width ∧
      ∀ ν, r.eval ν = I.callee.result I.width fun i => (v i).eval ν := by
  obtain ⟨callee, operand, width⟩ := I
  simp only at hget hsize hpos hwidth hbswap hinteger
  have hw8 : uint8 width = width := uint8_of_le hwidth
  have hne : width ≠ 0 := by omega
  cases callee with
  | ctpop =>
    have h0 := hget 0 Nat.zero_lt_one
    have hspec := fun ν => ctpopTerm_spec (ν := ν) (hsize 0 Nat.zero_lt_one) hpos hwidth
    refine ⟨.ofTerm (ctpopTerm (v 0) width), ?_, (hspec fun _ => 0).1, fun ν => (hspec ν).2⟩
    simp [handleLlvmIntrinsics, h0, hw8, hne, Except.ok_bind]
  | fshl =>
    have h0 := hget 0 (by decide)
    have h1 := hget 1 (by decide)
    have h2 := hget 2 (by decide)
    have hspec := fun ν => fshlTerm_spec (ν := ν) (hsize 0 (by decide)) (hsize 1 (by decide))
      (hsize 2 (by decide)) hpos hwidth
    have hbits := (hspec fun _ => 0).1
    refine ⟨.ofTerm (fshlTerm (v 0) (v 1) (v 2)), ?_, hbits, fun ν => (hspec ν).2⟩
    simp [handleLlvmIntrinsics, h0, h1, h2, hw8, hbits, Except.ok_bind]
  | fshr =>
    have h0 := hget 0 (by decide)
    have h1 := hget 1 (by decide)
    have h2 := hget 2 (by decide)
    have hspec := fun ν => fshrTerm_spec (ν := ν) (hsize 0 (by decide)) (hsize 1 (by decide))
      (hsize 2 (by decide)) hpos hwidth
    have hbits := (hspec fun _ => 0).1
    refine ⟨.ofTerm (fshrTerm (v 0) (v 1) (v 2)), ?_, hbits, fun ν => (hspec ν).2⟩
    simp [handleLlvmIntrinsics, h0, h1, h2, hw8, hbits, Except.ok_bind]
  | bswap =>
    have h0 := hget 0 Nat.zero_lt_one
    obtain ⟨n, rfl⟩ : ∃ n, width = 8 * n := by
      obtain ⟨m, rfl⟩ := hbswap rfl
      exact ⟨2 * m, by omega⟩
    have hspec := fun ν => bswapTerm_spec (ν := ν) (hsize 0 Nat.zero_lt_one) (by omega)
    have hbits := (hspec fun _ => 0).1
    have hsize0 := hsize 0 Nat.zero_lt_one
    refine ⟨.ofTerm (bswapTerm (v 0)), ?_, hbits, fun ν => ?_⟩
    · simp [handleLlvmIntrinsics, h0, hw8, hbits, hsize0, Except.ok_bind]
    · rw [LlvmIntrinsic.result, Nat.mul_div_cancel_left _ (by decide)]
      exact (hspec ν).2
  | cttz =>
    have h0 := hget 0 Nat.zero_lt_one
    have hspec := fun ν => cttzTerm_spec (ν := ν) (hsize 0 Nat.zero_lt_one)
    have hbits := (hspec fun _ => 0).1
    refine ⟨.ofTerm (cttzTerm (v 0) width), ?_, hbits, fun ν => (hspec ν).2⟩
    simp [handleLlvmIntrinsics, h0, hw8, hne, hbits, Except.ok_bind]
  | ctlz =>
    have h0 := hget 0 Nat.zero_lt_one
    have hspec := fun ν => ctlzTerm_spec (ν := ν) (hsize 0 Nat.zero_lt_one)
    have hbits := (hspec fun _ => 0).1
    refine ⟨.ofTerm (ctlzTerm (v 0) width), ?_, hbits, fun ν => (hspec ν).2⟩
    simp [handleLlvmIntrinsics, h0, hw8, hne, hbits, Except.ok_bind]
  | umax =>
    have h0 := hget 0 (by decide)
    have h1 := hget 1 (by decide)
    have hs0 := hsize 0 (by decide)
    have hs1 := hsize 1 (by decide)
    refine ⟨.ofTerm (.ite ((v 0).binary .bvUge (v 1)).term (v 0).term (v 1).term), ?_, hs0,
      fun ν => umaxTerm_spec hs0 hs1⟩
    have hbits : (Term.ite ((v 0).binary .bvUge (v 1)).term (v 0).term (v 1).term).bits = width :=
      hs0
    simp [handleLlvmIntrinsics, h0, h1, hw8, hs0, hs1, hbits, Except.ok_bind]
  | usubSat =>
    have h0 := hget 0 (by decide)
    have h1 := hget 1 (by decide)
    have hs0 := hsize 0 (by decide)
    have hs1 := hsize 1 (by decide)
    refine ⟨.ofTerm (.ite ((v 0).binary .bvUlt (v 1)).term (.value width 0)
      ((v 0).binary .bvSub (v 1)).term), ?_, rfl, fun ν => usubSatTerm_spec hs0 hs1⟩
    have hbits : (Term.ite ((v 0).binary .bvUlt (v 1)).term (.value width 0)
      ((v 0).binary .bvSub (v 1)).term).bits = width := rfl
    simp [handleLlvmIntrinsics, h0, h1, hw8, hs0, hbits, Except.ok_bind]
  | abs =>
    have h0 := hget 0 Nat.zero_lt_one
    have hs0 := hsize 0 Nat.zero_lt_one
    refine ⟨.ofTerm (.ite (.binary .bvSlt (v 0).term (.value width 0))
      (.binary .bvSub (.value width 0) (v 0).term) (v 0).term), ?_, rfl, fun ν => absTerm_spec hs0⟩
    have hbits : (Term.ite (.binary .bvSlt (v 0).term (.value width 0))
      (.binary .bvSub (.value width 0) (v 0).term) (v 0).term).bits = width := rfl
    simp [handleLlvmIntrinsics, h0, hs0, hbits, Nat.pos_of_ne_zero hne, Except.ok_bind]
  | lifetimeStart | lifetimeEnd | other name => exact absurd rfl hinteger

/-- A funnel shift of three bits by more than its width: `101 010` moves left by `7 % 3`. -/
theorem fshl_three_bits :
    ∃ r, handleLlvmIntrinsics ⟨⟨fun _ => .empty, 0, 0⟩, fun _ => none⟩
        ⟨.fshl, fun i => .const 3 ([5, 2, 7].getD i 0), 3⟩ = .ok r ∧ r.size = 3 ∧
      ∀ ν, r.eval ν = 2 := by
  obtain ⟨r, hr, hsize, heval⟩ := handleLlvmIntrinsics_exact ⟨⟨fun _ => .empty, 0, 0⟩, fun _ => none⟩
    (I := ⟨.fshl, fun i => .const 3 ([5, 2, 7].getD i 0), 3⟩)
    (v := fun i => .concrete ([5, 2, 7].getD i 0) 3)
    (fun _ _ => rfl) (fun _ _ => rfl) (by decide) (by decide) nofun (by decide)
  exact ⟨r, hr, hsize, fun ν => (heval ν).trans (by simp [LlvmIntrinsic.result])⟩

end Vexa
