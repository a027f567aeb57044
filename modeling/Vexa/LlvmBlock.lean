import Vexa.SymbolicExecution

/-!
# LLVM blocks with pointer values

Straight-line blocks before the lifter has looked at them. Pointers are values like integers, made by
`alloca` and moved by `getelementptr`, and a page is allocated while the block runs. What LLVM says
such a block computes is defined here, and what the visitors of `cpu::emulator` make of it.

## LLVM's side

A pointer is a page and an offset into it. Where in the address space a page lies is a parameter that
only comparisons of pointers see, and so is what memory holds before it is written. An instruction
without a result has undefined behaviour or yields poison there. The flags that make more results poison
(`nsw`, `nuw`, `exact`, `inbounds`, `nneg`, `disjoint`, `samesign`) are left out, and an access
outside its allocation is not ruled out.

## Rewriting in place

`simplify` updates the object it is called on, and the object may be shared by memory cells and by
other names. Which objects are shared is not recorded. Instead any values may have been rewritten
after any instruction.

## Main definitions

* `Scalar`, `LlvmInst`, `LlvmInst.exec`, `execBlock` — blocks and what they compute
* `Object`, `LlvmSymex`, `LlvmInst.visit` — the emulator
* `LlvmSymex.Rewritten`, `BlockRun` — runs of `run_block`
-/

namespace Vexa

variable {N : Type}

/-! ### LLVM -/

/-- A first-class value. -/
inductive Scalar
  | int (width : ℕ) (bits : BitVec width)
  | ptr (page : PageId) (offset : Addr)
deriving DecidableEq

inductive LlvmType
  | int (width : ℕ)
  | ptr
deriving DecidableEq, Repr

inductive LlvmInst (N : Type)
  | binary (dst : N) (op : Opcode) (width : ℕ) (lhs rhs : Operand N)
  | icmp (dst : N) (predicate : Predicate) (lhs rhs : Operand N)
  | cast (dst : N) (op : CastOp) (src width : ℕ) (value : Operand N)
  | select (dst : N) (condition trueValue falseValue : Operand N)
  | freeze (dst : N) (value : Operand N)
  | alloca (dst : N) (size : ℕ)
  | getElementPtr (dst ptr : N) (offset : Addr)
  | load (dst : N) (width : ℕ) (ptr : N)
  | store (value : Operand N) (ptr : N)
deriving DecidableEq, Repr

/-- The values of the names, the memory, and the number of pages allocated. -/
structure LlvmState (N : Type) where
  env : N → Option Scalar
  mem : Bytes
  pages : PageId

namespace Scalar

def type : Scalar → LlvmType
  | int w _ => .int w
  | ptr .. => .ptr

/-- The integer, if it is one of this width. -/
def asInt (w : ℕ) : Scalar → Option (BitVec w)
  | int v x => if v = w then some (x.setWidth w) else none
  | ptr .. => none

def asPtr : Scalar → Option (PageId × Addr)
  | int .. => none
  | ptr page offset => some (page, offset)

/-- `icmp`. Pointers are compared by their addresses. -/
def compare (layout : PageId → Addr) (p : Predicate) : Scalar → Scalar → Option Bool
  | int w x, int v y => if v = w then some (p.eval w x.toNat y.toNat) else none
  | ptr q x, ptr r y => some (p.eval 64 (layout q + x).toNat (layout r + y).toNat)
  | _, _ => none

end Scalar

/-- LLVM's binary operators. Division by zero, the quotient that overflows, and shifts by the width
or more have no result. -/
def Opcode.exec (op : Opcode) {w : ℕ} (x y : BitVec w) : Option (BitVec w) :=
  match op with
  | add => some (x + y)
  | sub => some (x - y)
  | mul => some (x * y)
  | udiv => if y = 0 then none else some (x / y)
  | urem => if y = 0 then none else some (x % y)
  | sdiv => if y = 0 ∨ x = BitVec.intMin w ∧ y = -1 then none else some (x.sdiv y)
  | srem => if y = 0 ∨ x = BitVec.intMin w ∧ y = -1 then none else some (x.srem y)
  | and => some (x &&& y)
  | or => some (x ||| y)
  | xor => some (x ^^^ y)
  | shl => if y.toNat < w then some (x <<< y.toNat) else none
  | lshr => if y.toNat < w then some (x >>> y.toNat) else none
  | ashr => if y.toNat < w then some (x.sshiftRight y.toNat) else none

/-- LLVM's casts, between the widths its verifier accepts. -/
def CastOp.exec (op : CastOp) {src : ℕ} (w : ℕ) (x : BitVec src) : Option (BitVec w) :=
  match op with
  | zext => if src < w then some (x.setWidth w) else none
  | sext => if src < w then some (x.signExtend w) else none
  | trunc => if 0 < w ∧ w < src then some (x.setWidth w) else none

def Operand.scalar (env : N → Option Scalar) : Operand N → Option Scalar
  | const w n => some (.int w (BitVec.ofNat w n))
  | ssa name => env name

/-- The operand as an integer of this width. -/
def Operand.int (env : N → Option Scalar) (w : ℕ) (a : Operand N) : Option (BitVec w) :=
  (a.scalar env).bind (Scalar.asInt w)

namespace LlvmState

def set [DecidableEq N] (t : LlvmState N) (dst : N) (x : Scalar) : LlvmState N :=
  { t with env := Function.update t.env dst (some x) }

/-- Where the pointer of this name points. -/
def place (t : LlvmState N) (ptr : N) : Option (PageId × Addr) := (t.env ptr).bind Scalar.asPtr

/-- `alloca`: a new page with what `σ` says it holds. -/
def allocate (σ : Bytes) (t : LlvmState N) : LlvmState N :=
  { t with mem := Function.update t.mem t.pages (σ t.pages), pages := t.pages + 1 }

end LlvmState

/-- What LLVM says an instruction does. Integers are stored and loaded as whole bytes. -/
def LlvmInst.exec [DecidableEq N] (layout : PageId → Addr) (σ : Bytes) (i : LlvmInst N)
    (t : LlvmState N) : Option (LlvmState N) :=
  match i with
  | binary dst op w a b => do
    let z ← op.exec (← a.int t.env w) (← b.int t.env w)
    return t.set dst (.int w z)
  | icmp dst p a b => do
    let c ← Scalar.compare layout p (← a.scalar t.env) (← b.scalar t.env)
    return t.set dst (.int 1 (BitVec.ofBool c))
  | cast dst op src w a => do
    let z ← op.exec w (← a.int t.env src)
    return t.set dst (.int w z)
  | select dst c a b => do
    let bit ← c.int t.env 1
    let x ← a.scalar t.env
    let y ← b.scalar t.env
    if x.type = y.type then return t.set dst (if bit = 1 then x else y) else none
  | freeze dst a => do return t.set dst (← a.scalar t.env)
  | alloca dst _ => return (t.allocate σ).set dst (.ptr t.pages 0)
  | getElementPtr dst ptr offset => do
    let place ← t.place ptr
    return t.set dst (.ptr place.1 (place.2 + offset))
  | load dst w ptr => do
    let place ← t.place ptr
    if 0 < w ∧ w % 8 = 0 then
      return t.set dst (.int w (BitVec.ofNat w (t.mem.load place (w / 8))))
    else none
  | store a ptr => do
    let place ← t.place ptr
    match ← a.scalar t.env with
    | .int w x =>
      if 0 < w ∧ w % 8 = 0 then
        return { t with mem := t.mem.store place.1 place.2 (w / 8) x.toNat }
      else none
    | .ptr .. => none

/-- What LLVM says straight-line code does. -/
def execBlock [DecidableEq N] (layout : PageId → Addr) (σ : Bytes) (insts : List (LlvmInst N))
    (t : LlvmState N) : Option (LlvmState N) :=
  insts.foldlM (fun t i => i.exec layout σ t) t

/-! ### The emulator -/

/-- What a `vexa::value *` points to. -/
inductive Object
  | value (v : Value)
  | pointer (p : Pointer)
deriving DecidableEq, Repr

namespace Object

def toValue : Object → Value
  | value v => v
  | pointer p => p.toValue

/-- `value::simplify`. -/
def simplify (S : Solver) : Object → Object
  | value v => value (v.simplify S)
  | pointer p => pointer (p.simplify S)

/-- `to_ptr`. The visitors use the null pointer without looking. -/
def toPtr : Object → Except String Pointer
  | value _ => throw "null vexa::pointer"
  | pointer p => return p

end Object

/-- `vexa::symex` with what it works on, and the number of pages of `vexa::memory`. -/
structure LlvmSymex (N : Type) where
  context : Context
  pages : PageId
  vars : N → Option Object

namespace LlvmSymex

/-- `symex::get`. `getZExtValue` has the 64 low bits of a constant. -/
def get (s : LlvmSymex N) : Operand N → Except String Object
  | .const w n => return .value (.concrete (n % 2 ^ w % 2 ^ 64) w)
  | .ssa name =>
    match s.vars name with
    | some o => return o
    | none => throw "value not in symex vars"

/-- `symex::set`. -/
def set [DecidableEq N] (s : LlvmSymex N) (name : N) (o : Object) : LlvmSymex N :=
  { s with vars := Function.update s.vars name (some o) }

@[simp] theorem vars_set_self [DecidableEq N] (s : LlvmSymex N) (name : N) (o : Object) :
    (s.set name o).vars name = some o := Function.update_self ..

/-- `memory::allocate`. -/
def allocate (s : LlvmSymex N) : LlvmSymex N :=
  { s with
    context.memory := Function.update s.context.memory s.pages MemPage.empty
    pages := s.pages + 1 }

end LlvmSymex

/-- `emulator::run` with the visitors. -/
def LlvmInst.visit [DecidableEq N] (S : Solver) (pathConstraints : List Term) (i : LlvmInst N)
    (s : LlvmSymex N) : Except String (LlvmSymex N) :=
  match i with
  | binary dst op _ a b => do
    let expr := (← s.get a).toValue.binary op.kind (← s.get b).toValue
    return s.set dst (.value expr)
  | icmp dst p a b => do
    let expr := (← s.get a).toValue.binary p.kind (← s.get b).toValue
    return s.set dst (.value (.ofTerm (.ite expr.term (.value 1 1) (.value 1 0))))
  | cast dst op src w a => do
    let v := (← s.get a).toValue
    vexaAssert (v.size = src) "src->size() == I.getSrcTy()->getPrimitiveSizeInBits()"
    match op with
    | .zext => return s.set dst (.value (v.zext (w - v.size)))
    | .sext => return s.set dst (.value (v.sext (w - v.size)))
    | .trunc => return s.set dst (.value (v.extract (w - 1) 0))
  | select dst c a b => do
    let cond := (← s.get c).toValue
    return s.set dst (.value (cond.ite (← s.get a).toValue (← s.get b).toValue))
  | freeze dst a => do return s.set dst (← s.get a)
  | alloca dst _ => return s.allocate.set dst (.pointer (.concrete 0 s.pages))
  | getElementPtr dst ptr offset => do
    let p ← (← s.get (.ssa ptr)).toPtr
    return s.set dst (.pointer (gep p offset))
  | load dst w ptr => do
    match (← s.get (.ssa ptr)).simplify S with
    | .pointer p =>
      let read ← readMemory S pathConstraints s.context p ((w + 7) / 8 * 8)
      return { s with context := read.2 }.set dst (.value read.1)
    | .value _ => throw "LoadInst: pointer operand is not a vexa::pointer"
  | store a ptr => do
    let p ← (← s.get (.ssa ptr)).toPtr
    let val := (← s.get a).toValue
    return { s with context := ← writeMemory S pathConstraints s.context p val }

/-! ### Runs -/

/-- `value::simplify` on the value of a cell. -/
def MemCell.simplify (S : Solver) (cell : MemCell) : MemCell :=
  { cell with originalVal := cell.originalVal.simplify S }

/-- `s'` is `s` with some values rewritten. -/
structure LlvmSymex.Rewritten (S : Solver) (s s' : LlvmSymex N) : Prop where
  vars : ∀ name, s'.vars name = s.vars name ∨ s'.vars name = (s.vars name).map (Object.simplify S)
  cells : ∀ p a, (s'.context.memory p).find a = (s.context.memory p).find a ∨
    (s'.context.memory p).find a = ((s.context.memory p).find a).map (MemCell.simplify S)
  fresh : s'.context.fresh = s.context.fresh
  checks : s'.context.checks = s.context.checks
  pages : s'.pages = s.pages

theorem LlvmSymex.Rewritten.refl (S : Solver) (s : LlvmSymex N) : s.Rewritten S s :=
  ⟨fun _ => .inl rfl, fun _ _ => .inl rfl, rfl, rfl, rfl⟩

/-- If the instruction is a load or a store, its pointer is concrete once it has been rewritten. -/
def LlvmInst.ThroughConcrete (S : Solver) (s : LlvmSymex N) : LlvmInst N → Prop
  | load _ _ ptr | store _ ptr =>
    ∀ p, s.vars ptr = some (.pointer p) → ((p.simplify S).asUint64).isSome
  | _ => True

/-- A run of `run_block` whose loads and stores go through concrete pointers. After every instruction
some values may have been rewritten in place. -/
inductive BlockRun [DecidableEq N] (S : Solver) (pathConstraints : List Term) :
    List (LlvmInst N) → LlvmSymex N → LlvmSymex N → Prop
  | nil (s) : BlockRun S pathConstraints [] s s
  | cons {i insts s s₁ s₂ s'} : i.ThroughConcrete S s → i.visit S pathConstraints s = .ok s₁ →
      s₁.Rewritten S s₂ → BlockRun S pathConstraints insts s₂ s' →
      BlockRun S pathConstraints (i :: insts) s s'

end Vexa
