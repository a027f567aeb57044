import Vexa.Memory

/-!
# The page translation

`cpu::get_page` and `cpu::calculate_pointer`: a concrete address belongs to the stack page when it
is within half the stack size of zero, seen as a signed number, and to global memory otherwise. The
stack page is addressed relative to its middle.

The pages that stay for a whole run are numbered here once and for all. `initialize_arch` allocates
global memory and the state page, the entry block the three `alloca`s.

## Main results

* `locate_injective` — different addresses are at different places
* `calculatePointer_sound` — the pointer of a literal address resolves to its place
-/

namespace Vexa

/-! ### Pages -/

def globalPage : PageId := 0

def statePage : PageId := 1

def stackPage : PageId := 2

def nextPcPage : PageId := 3

def branchTakenPage : PageId := 4

/-- `stack_size`. -/
def stackSize : ℤ := 32768

/-- The test of `get_page`. -/
def inStack (addr : Addr) : Bool :=
  -stackSize / 2 ≤ addr.toInt ∧ addr.toInt < stackSize / 2

/-- `cpu::stack_ptr`, the middle of the stack page. The source gets it by folding a
`getelementptr`. -/
def stackPtr : Pointer := .concrete 16384 stackPage

/-- `cpu::mem_ptr`. -/
def memPtr : Pointer := .concrete 0 globalPage

/-- `value::as_uint64`. -/
def Value.asUint64? (v : Value) : Except String Addr :=
  match v.asUint64 with
  | some a => .ok a
  | none => .error "cannot concretize value"

/-- `cpu::get_page`. -/
def getPage (value : Value) : Except String Pointer := do
  let addr ← value.asUint64?
  return if inStack addr then stackPtr else memPtr

/-- `cpu::calculate_pointer`. -/
def calculatePointer (addr : Value) : Except String Pointer := do
  let page ← getPage addr
  return .ofValue (page.binary .bvAdd addr) page.page

/-- Where a concrete address is. -/
def locate (addr : Addr) : PageId × Addr :=
  if inStack addr then (stackPage, 16384 + addr) else (globalPage, addr)

theorem locate_injective : Function.Injective locate := by
  intro a b h
  by_cases ha : inStack a <;> by_cases hb : inStack b <;>
    simp only [locate, ha, hb, if_true, if_false, Bool.false_eq_true, Prod.mk.injEq] at h
  · exact BitVec.add_right_inj _ |>.mp h.2
  · exact absurd h.1 (by decide)
  · exact absurd h.1 (by decide)
  · exact h.2

variable {S : Solver}

/-- The rewriter folds the sum of two literals. -/
theorem asUint64_simplify_add (hS : S.Sound) {a : Addr} {n : ℕ} (page : PageId) :
    ((Pointer.ofValue ((Value.concrete a.toNat 64).binary .bvAdd (.ofTerm (.literal (.bv 64) n)))
      page).simplify S).asUint64 = some (a + BitVec.ofNat 64 n) := by
  set t : Term := .binary .bvAdd (.value 64 (a.toNat % 2 ^ 64)) (.literal (.bv 64) n)
  have heval : t.eval (fun _ => 0) = (a + BitVec.ofNat 64 n).toNat := by
    have hbase : BitVec.ofNat 64 (a.toNat % 2 ^ 64 % 2 ^ 64) = a := by
      apply BitVec.eq_of_toNat_eq
      simp [a.isLt]
    have hoffset : BitVec.ofNat 64 (n % 2 ^ 64 % 2 ^ 64) = BitVec.ofNat 64 n := by
      apply BitVec.eq_of_toNat_eq
      simp
    show (BitVec.ofNat 64 (a.toNat % 2 ^ 64 % 2 ^ 64)
      + BitVec.ofNat 64 (n % 2 ^ 64 % 2 ^ 64)).toNat = _
    rw [hbase, hoffset]
  have hvalue := hS.isValue_simplify t rfl
  have hsort : (S.simplify t).sort = .bv 64 := hS.sort_simplify t
  change (S.simplify t).asUint64 = _
  rw [Term.asUint64_of_isValue hvalue hsort fun _ => 0, hS.eval_simplify, heval,
    BitVec.ofNat_toNat, BitVec.setWidth_eq]

theorem asUint64?_literal (n : ℕ) :
    (Value.ofTerm (.literal (.bv 64) n)).asUint64? = .ok (BitVec.ofNat 64 n) := by
  have h : (Value.ofTerm (.literal (.bv 64) n)).asUint64 = some (BitVec.ofNat 64 n) := by
    refine congrArg some (BitVec.eq_of_toNat_eq ?_)
    simp
  rw [Value.asUint64?, h]

/-- **The pointer of a literal address resolves to its place.** -/
theorem calculatePointer_sound (hS : S.Sound) (n : ℕ) :
    ∃ ptr, calculatePointer (.ofTerm (.literal (.bv 64) n)) = .ok ptr ∧
      ptr.page = (locate (BitVec.ofNat 64 n)).1 ∧
      (ptr.simplify S).asUint64 = some (locate (BitVec.ofNat 64 n)).2 := by
  by_cases h : inStack (BitVec.ofNat 64 n)
  · refine ⟨.ofValue (stackPtr.binary .bvAdd (.ofTerm (.literal (.bv 64) n))) stackPage, ?_, ?_, ?_⟩
    · simp [calculatePointer, getPage, asUint64?_literal, h, bind, Except.bind, pure, Except.pure]
      rfl
    · rw [locate, if_pos h]; rfl
    · rw [locate, if_pos h]; exact asUint64_simplify_add hS stackPage
  · refine ⟨.ofValue (memPtr.binary .bvAdd (.ofTerm (.literal (.bv 64) n))) globalPage, ?_, ?_, ?_⟩
    · simp [calculatePointer, getPage, asUint64?_literal, h, bind, Except.bind, pure, Except.pure]
      rfl
    · rw [locate, if_neg h]; rfl
    · rw [locate, if_neg h]
      refine (asUint64_simplify_add hS globalPage (a := 0)).trans (congrArg some ?_)
      exact BitVec.zero_add _

end Vexa
