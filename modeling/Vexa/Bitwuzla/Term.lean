import Mathlib.Data.BitVec

/-!
# Bitwuzla terms

The fragment of the solver's term language that VEXA builds: symbols made by `mk_const`, literals,
the operators `vexa::value` wraps, `ITE`, `BV_EXTRACT` and the two extensions, together with the
value a term denotes under a valuation of the symbols.

## Total semantics

Terms are untyped trees with a computed sort, and every tree denotes a number: a term of sort
`bv w` one below `2 ^ w`, a Boolean term `0` or `1`. No well-sortedness predicate is threaded
through the statements; where an operator would be rejected by the solver for the sorts of its
operands, the value is a convention that nothing relies on.

## Symbols

`mk_const` returns a new constant on every call, also for a name it has seen. A symbol is
therefore its origin (what the name string of the source encodes) together with the number of
constants made before it.

## Main definitions

* `Symbol`, `Term`, `Term.sort`, `Term.eval`
* `Term.isValue`, `Term.literal`, `Term.asUint64` — literals, and reading them back
* `Satisfies` — a valuation satisfies a list of assumptions

## Main results

* `Term.eval_lt` — the bound every denotation obeys
* `Term.eval_ground` — a term without symbols has one value
-/

namespace Vexa

/-- A 64-bit machine word: an address, a program counter or a virtual program counter. -/
abbrev Addr := BitVec 64

/-- The identity of a `mem_page`. -/
abbrev PageId := ℕ

/-- The fields of a `remill::Register` that the lifter reads; sizes are in bytes. -/
structure Register where
  name : String
  offset : Addr
  size : ℕ
  hasParent : Bool
deriving DecidableEq, Repr

/-- What a symbol stands for. The source spells it into the name it gives to `mk_const`. -/
inductive Origin
  | register (r : Register)
  | uninit (page : PageId) (address : Addr)
  | read
  | tsc
deriving DecidableEq, Repr

/-- A constant made by `mk_const`; `id` tells apart two constants with the same name. -/
structure Symbol where
  origin : Origin
  id : ℕ
  width : ℕ
deriving DecidableEq, Repr

/-- A value for every symbol. Only the low `width` bits of it are used. -/
abbrev Valuation := Symbol → ℕ

inductive TermSort
  | bool
  | bv (width : ℕ)
deriving DecidableEq, Repr

/-- The number of bits of a value of the sort. -/
@[simp] def TermSort.bits : TermSort → ℕ
  | .bool => 1
  | .bv w => w

/-- The one-operand members of `bw::Kind` that VEXA uses. -/
inductive UnaryKind
  | not | bvNeg | bvNot
deriving DecidableEq, Repr

/-- The two-operand members of `bw::Kind` that VEXA uses. -/
inductive BinaryKind
  | bvAdd | bvSub | bvMul | bvSdiv | bvSrem | bvUdiv | bvUrem
  | bvAnd | bvOr | bvXor | bvShl | bvShr | bvAshr
  | equal | distinct
  | bvSlt | bvSle | bvSgt | bvSge | bvUlt | bvUle | bvUgt | bvUge
  | bvConcat
deriving DecidableEq, Repr

/-- The sort of an application, from the sorts of its operands. -/
def BinaryKind.sort : BinaryKind → TermSort → TermSort → TermSort
  | .equal, _, _ | .distinct, _, _
  | .bvSlt, _, _ | .bvSle, _, _ | .bvSgt, _, _ | .bvSge, _, _
  | .bvUlt, _, _ | .bvUle, _, _ | .bvUgt, _, _ | .bvUge, _, _ => .bool
  | .bvConcat, a, b => .bv (a.bits + b.bits)
  | _, a, _ => .bv a.bits

/-- The value of an application: `w` and `v` are the widths of the operands. -/
def BinaryKind.eval (op : BinaryKind) (w v x y : ℕ) : ℕ :=
  let X := BitVec.ofNat w x
  let Y := BitVec.ofNat w y
  match op with
  | .bvAdd => (X + Y).toNat
  | .bvSub => (X - Y).toNat
  | .bvMul => (X * Y).toNat
  | .bvSdiv => (X.smtSDiv Y).toNat
  | .bvSrem => (X.srem Y).toNat
  | .bvUdiv => (X.smtUDiv Y).toNat
  | .bvUrem => (X % Y).toNat
  | .bvAnd => (X &&& Y).toNat
  | .bvOr => (X ||| Y).toNat
  | .bvXor => (X ^^^ Y).toNat
  | .bvShl => (X <<< Y).toNat
  | .bvShr => (X >>> Y).toNat
  | .bvAshr => (X.sshiftRight' Y).toNat
  | .equal => (decide (x = y)).toNat
  | .distinct => (decide (x ≠ y)).toNat
  | .bvSlt => (X.slt Y).toNat
  | .bvSle => (X.sle Y).toNat
  | .bvSgt => (Y.slt X).toNat
  | .bvSge => (Y.sle X).toNat
  | .bvUlt => (X.ult Y).toNat
  | .bvUle => (X.ule Y).toNat
  | .bvUgt => (Y.ult X).toNat
  | .bvUge => (Y.ule X).toNat
  | .bvConcat => x % 2 ^ w * 2 ^ v + y % 2 ^ v

/-- The sort of a one-operand application. -/
def UnaryKind.sort : UnaryKind → TermSort → TermSort
  | .not, _ => .bool
  | _, a => .bv a.bits

def UnaryKind.eval (op : UnaryKind) (w x : ℕ) : ℕ :=
  match op with
  | .not => (decide (x = 0)).toNat
  | .bvNeg => (-BitVec.ofNat w x).toNat
  | .bvNot => (~~~BitVec.ofNat w x).toNat

inductive Term
  | const (s : Symbol)
  | value (width n : ℕ)
  | boolean (b : Bool)
  | unary (op : UnaryKind) (t : Term)
  | binary (op : BinaryKind) (a b : Term)
  | ite (c a b : Term)
  | extract (high low : ℕ) (t : Term)
  | zeroExtend (amount : ℕ) (t : Term)
  | signExtend (amount : ℕ) (t : Term)
deriving DecidableEq, Repr

namespace Term

def sort : Term → TermSort
  | const s => .bv s.width
  | value w _ => .bv w
  | boolean _ => .bool
  | unary op t => op.sort t.sort
  | binary op a b => op.sort a.sort b.sort
  | ite _ a _ => a.sort
  | extract high low _ => .bv (high + 1 - low)
  | zeroExtend n t => .bv (t.sort.bits + n)
  | signExtend n t => .bv (t.sort.bits + n)

/-- The number of bits of the term's value. -/
def bits (t : Term) : ℕ := t.sort.bits

/-- The value a term denotes under a valuation of its symbols. -/
def eval (ν : Valuation) : Term → ℕ
  | const s => ν s % 2 ^ s.width
  | value w n => n % 2 ^ w
  | boolean b => b.toNat
  | unary op t => op.eval t.bits (t.eval ν)
  | binary op a b => op.eval a.bits b.bits (a.eval ν) (b.eval ν)
  | ite c a b => if c.eval ν = 0 then b.eval ν % 2 ^ a.bits else a.eval ν
  | extract high low t => t.eval ν / 2 ^ low % 2 ^ (high + 1 - low)
  | zeroExtend _ t => t.eval ν
  | signExtend n t => ((BitVec.ofNat t.bits (t.eval ν)).signExtend (t.bits + n)).toNat

/-- The symbols a term mentions. -/
def symbols : Term → List Symbol
  | const s => [s]
  | value _ _ | boolean _ => []
  | unary _ t | extract _ _ t | zeroExtend _ t | signExtend _ t => t.symbols
  | binary _ a b => a.symbols ++ b.symbols
  | ite c a b => c.symbols ++ (a.symbols ++ b.symbols)

/-- `Term::is_value`: the term is a literal. -/
def isValue : Term → Bool
  | value _ _ | boolean _ => true
  | _ => false

/-- The literal of a sort. -/
def literal : TermSort → ℕ → Term
  | .bool, n => boolean (n % 2 = 1)
  | .bv w, n => value w (n % 2 ^ w)

/-- `value::as_uint64` of a term. Only a bit-vector literal has one; wide literals are
truncated. -/
def asUint64 : Term → Option Addr
  | value w n => some (BitVec.ofNat 64 (n % 2 ^ w))
  | _ => none

end Term

theorem BinaryKind.eval_lt (op : BinaryKind) {a b : TermSort} (x y : ℕ) :
    op.eval a.bits b.bits x y < 2 ^ (op.sort a b).bits := by
  cases op with
  | bvConcat =>
    have hx := Nat.mod_lt x (Nat.two_pow_pos a.bits)
    have hy := Nat.mod_lt y (Nat.two_pow_pos b.bits)
    calc x % 2 ^ a.bits * 2 ^ b.bits + y % 2 ^ b.bits
        < x % 2 ^ a.bits * 2 ^ b.bits + 2 ^ b.bits := by omega
      _ = (x % 2 ^ a.bits + 1) * 2 ^ b.bits := by rw [Nat.succ_mul]
      _ ≤ 2 ^ a.bits * 2 ^ b.bits := Nat.mul_le_mul_right _ hx
      _ = 2 ^ (a.bits + b.bits) := (pow_add _ _ _).symm
  | _ =>
    first
    | exact BitVec.isLt _
    | exact Bool.toNat_lt _

theorem UnaryKind.eval_lt (op : UnaryKind) {a : TermSort} (x : ℕ) :
    op.eval a.bits x < 2 ^ (op.sort a).bits := by
  cases op with
  | not => exact Bool.toNat_lt _
  | bvNeg | bvNot => exact BitVec.isLt _

namespace Term

/-- **Every denotation fits its sort.** -/
theorem eval_lt (ν : Valuation) (t : Term) : t.eval ν < 2 ^ t.bits := by
  induction t with
  | const s => exact Nat.mod_lt _ (Nat.two_pow_pos _)
  | value w n => exact Nat.mod_lt _ (Nat.two_pow_pos _)
  | boolean b => exact Bool.toNat_lt b
  | unary op t ih => exact op.eval_lt _
  | binary op a b iha ihb => exact op.eval_lt _ _
  | ite c a b ihc iha ihb =>
    simp only [eval]
    split
    · exact Nat.mod_lt _ (Nat.two_pow_pos _)
    · exact iha
  | extract high low t ih => exact Nat.mod_lt _ (Nat.two_pow_pos _)
  | zeroExtend n t ih =>
    exact ih.trans_le (Nat.pow_le_pow_right (by decide) (Nat.le_add_right _ _))
  | signExtend n t ih => exact BitVec.isLt _

/-- Two valuations that agree on the symbols of a term give it the same value. -/
theorem eval_congr {ν μ : Valuation} {t : Term} (h : ∀ s ∈ t.symbols, ν s = μ s) :
    t.eval ν = t.eval μ := by
  induction t with
  | const s => rw [eval, eval, h s (List.mem_singleton_self s)]
  | value w n | boolean b => rfl
  | unary op t ih | extract _ _ t ih | zeroExtend _ t ih | signExtend _ t ih =>
    simp only [eval, ih h]
  | binary op a b iha ihb =>
    simp only [symbols, List.mem_append] at h
    rw [eval, eval, iha fun s hs => h s (.inl hs), ihb fun s hs => h s (.inr hs)]
  | ite c a b ihc iha ihb =>
    simp only [symbols, List.mem_append] at h
    rw [eval, eval, ihc fun s hs => h s (.inl hs), iha fun s hs => h s (.inr (.inl hs)),
      ihb fun s hs => h s (.inr (.inr hs))]

/-- A term without symbols has one value. -/
theorem eval_ground {t : Term} (h : t.symbols = []) (ν μ : Valuation) : t.eval ν = t.eval μ :=
  eval_congr (by simp [h])

@[simp] theorem bits_value (w n : ℕ) : (value w n).bits = w := rfl

@[simp] theorem eval_value (ν : Valuation) (w n : ℕ) : (value w n).eval ν = n % 2 ^ w := rfl

@[simp] theorem sort_literal (s : TermSort) (n : ℕ) : (literal s n).sort = s := by
  cases s <;> rfl

@[simp] theorem isValue_literal (s : TermSort) (n : ℕ) : (literal s n).isValue = true := by
  cases s <;> rfl

theorem eval_literal (ν : Valuation) {s : TermSort} {n : ℕ} (h : n < 2 ^ s.bits) :
    (literal s n).eval ν = n := by
  cases s with
  | bool =>
    have : n = 0 ∨ n = 1 := by simp only [TermSort.bits] at h; omega
    rcases this with rfl | rfl <;> rfl
  | bv w => simp only [TermSort.bits] at h; simp [literal, Nat.mod_eq_of_lt h]

/-- The literal a valuation gives to a term denotes the term's value. -/
theorem eval_literal_eval (ν μ : Valuation) (t : Term) :
    (literal t.sort (t.eval μ)).eval ν = t.eval μ :=
  eval_literal ν (eval_lt μ t)

theorem eval_equal (ν : Valuation) (a b : Term) :
    (binary .equal a b).eval ν = (decide (a.eval ν = b.eval ν)).toNat := rfl

theorem eval_distinct (ν : Valuation) (a b : Term) :
    (binary .distinct a b).eval ν = (decide (a.eval ν ≠ b.eval ν)).toNat := rfl

theorem eval_concat (ν : Valuation) (a b : Term) :
    (binary .bvConcat a b).eval ν = a.eval ν * 2 ^ b.bits + b.eval ν := by
  simp only [eval, BinaryKind.eval, Nat.mod_eq_of_lt (eval_lt ν a), Nat.mod_eq_of_lt (eval_lt ν b)]

/-- `ITE` between two arms of one width. -/
theorem eval_ite (ν : Valuation) (c : Term) {a b : Term} (h : a.bits = b.bits) :
    (ite c a b).eval ν = if c.eval ν = 0 then b.eval ν else a.eval ν := by
  rw [eval, h, Nat.mod_eq_of_lt (eval_lt ν b)]

/-- A bit-vector literal reads back as what it denotes. -/
theorem asUint64_of_isValue {t : Term} {w : ℕ} (hv : t.isValue = true) (hs : t.sort = .bv w)
    (ν : Valuation) : t.asUint64 = some (BitVec.ofNat 64 (t.eval ν)) := by
  cases t with
  | value w n => rfl
  | boolean b => cases hs
  | _ => cases hv

/-- A Boolean term is false or true. -/
theorem eval_bool {t : Term} (h : t.sort = .bool) (ν : Valuation) :
    t.eval ν = 0 ∨ t.eval ν = 1 := by
  have hlt := eval_lt ν t
  rw [bits, h] at hlt
  simp only [TermSort.bits] at hlt
  omega

end Term

/-! ### Assumptions -/

/-- The valuation satisfies every assumption. -/
def Satisfies (ν : Valuation) (assumptions : List Term) : Prop :=
  ∀ a ∈ assumptions, a.eval ν = 1

@[simp] theorem satisfies_nil (ν : Valuation) : Satisfies ν [] := by simp [Satisfies]

@[simp] theorem satisfies_append (ν : Valuation) (A B : List Term) :
    Satisfies ν (A ++ B) ↔ Satisfies ν A ∧ Satisfies ν B := by
  simp only [Satisfies, List.mem_append]
  exact ⟨fun h => ⟨fun a ha => h a (.inl ha), fun a ha => h a (.inr ha)⟩,
    fun h a ha => ha.elim (h.1 a) (h.2 a)⟩

@[simp] theorem satisfies_singleton (ν : Valuation) (t : Term) :
    Satisfies ν [t] ↔ t.eval ν = 1 := by
  simp [Satisfies]

end Vexa
