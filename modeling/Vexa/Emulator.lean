import Vexa.Ir
import Vexa.PointerAccess

/-!
# The emulator

`cpu::emulator` runs the instructions of a block on symbolic values. On the way it replaces every
memory intrinsic by loads and stores: it asks the solver for the values of the address and emits an
access to one constant address, or a chain of accesses guarded by comparisons, or an access through
`inttoptr`.

## Emission

An intrinsic settles a `Resolution` of its address and the code put in its place is a function of
that (`lowerRead`, `lowerWrite`). The value of the call is used under the name of the call, so that
replacing its uses is not a step of its own, and the call itself is dropped at once.

## Main definitions

* `Symex` — the symbolic values of names, and the context
* `Resolution.lowerRead`, `Resolution.lowerWrite` — the code that replaces an intrinsic
* `visit`, `readMemoryIntrinsic`, `writeMemoryIntrinsic`, `Emulator.run`, `runBlock`
-/

namespace Vexa

/-- `VEXA_ASSERT`. -/
def vexaAssert (condition : Bool) (text : String) : Except String Unit :=
  if condition then return () else throw ("assert failed: " ++ text)

/-! ### Symbolic values -/

/-- `vexa::symex` with what it works on. -/
structure Symex where
  context : Context
  vars : Name → Option Value

namespace Symex

/-- `symex::get`. -/
def get (s : Symex) : Operand Name → Except String Value
  | .const w n => return .concrete n w
  | .ssa name =>
    match s.vars name with
    | some v => return v
    | none => throw "value not in symex vars"

/-- `symex::set`. -/
def set (s : Symex) (name : Name) (v : Value) : Symex :=
  { s with vars := Function.update s.vars name (some v) }

/-- `symex::set` of an operand. Constants are found without a table. -/
def setOperand (s : Symex) : Operand Name → Value → Symex
  | .const _ _, _ => s
  | .ssa name, v => s.set name v

@[simp] theorem get_const (s : Symex) (w n : ℕ) : s.get (.const w n) = .ok (.concrete n w) := rfl

@[simp] theorem get_set_self (s : Symex) (name : Name) (v : Value) :
    (s.set name v).get (.ssa name) = .ok v := by
  simp [get, set, pure, Except.pure]

@[simp] theorem context_set (s : Symex) (name : Name) (v : Value) :
    (s.set name v).context = s.context := rfl

@[simp] theorem context_setOperand (s : Symex) (op : Operand Name) (v : Value) :
    (s.setOperand op v).context = s.context := by
  cases op <;> rfl

end Symex

/-- `cpu::state_ptr`. -/
def statePtr : Pointer := .concrete 0 statePage

/-- `builder::inbounds_gep` and `visitGetElementPtrInst`. -/
def gep (base : Pointer) (offset : Addr) : Pointer :=
  .ofValue (base.binary .bvAdd (.concrete offset.toNat 64)) base.page

/-- The symbolic value of a pointer. -/
def Symex.pointer (s : Symex) : Ptr Name → Except String Pointer
  | .state offset => return gep statePtr offset
  | .nextPc => return .concrete 0 nextPcPage
  | .branchTaken => return .concrete 0 branchTakenPage
  | .stack offset => return gep stackPtr offset
  | .memory offset => return gep memPtr offset
  | .intToPtr value => do return .ofValue (← s.get value) globalPage

/-! ### The instructions -/

/-- The operator `visitBinaryOperator` applies. -/
def Opcode.kind : Opcode → BinaryKind
  | add => .bvAdd
  | sub => .bvSub
  | mul => .bvMul
  | udiv => .bvUdiv
  | urem => .bvUrem
  | sdiv => .bvSdiv
  | srem => .bvSrem
  | and => .bvAnd
  | or => .bvOr
  | xor => .bvXor
  | shl => .bvShl
  | lshr => .bvShr
  | ashr => .bvAshr

/-- The operator `visitICmpInst` applies. -/
def Predicate.kind : Predicate → BinaryKind
  | eq => .equal
  | ne => .distinct
  | ugt => .bvUgt
  | uge => .bvUge
  | ult => .bvUlt
  | ule => .bvUle
  | sgt => .bvSgt
  | sge => .bvSge
  | slt => .bvSlt
  | sle => .bvSle

section

variable (S : Solver) (pathConstraints : List Term)

/-- `visitLoadInst`. -/
def visitLoad (dst : Name) (width : ℕ) (ptr : Ptr Name) (s : Symex) : Except String Symex := do
  let ptr ← s.pointer ptr
  let read ← readMemory S pathConstraints s.context (ptr.simplify S) ((width + 7) / 8 * 8)
  return { s with context := read.2 }.set dst read.1

/-- `visitStoreInst`. -/
def visitStore (value : Operand Name) (ptr : Ptr Name) (s : Symex) : Except String Symex := do
  let ptr ← s.pointer ptr
  let val ← s.get value
  return { s with context := ← writeMemory S pathConstraints s.context ptr val }

/-- The visitors of the instructions that are not memory intrinsics. -/
def visit (i : Inst Name) (s : Symex) : Except String Symex :=
  match i with
  | .binary dst op _ a b => do
    return s.set dst ((← s.get a).binary op.kind (← s.get b))
  | .icmp dst p _ a b => do
    let expr := (← s.get a).binary p.kind (← s.get b)
    return s.set dst (.ofTerm (.ite expr.term (.value 1 1) (.value 1 0)))
  | .cast dst .zext src w a => do
    let v ← s.get a
    vexaAssert (v.size = src) "src->size() == I.getSrcTy()->getPrimitiveSizeInBits()"
    return s.set dst (v.zext (w - v.size))
  | .cast dst .sext src w a => do
    let v ← s.get a
    vexaAssert (v.size = src) "src->size() == I.getSrcTy()->getPrimitiveSizeInBits()"
    return s.set dst (v.sext (w - v.size))
  | .cast dst .trunc src w a => do
    let v ← s.get a
    vexaAssert (v.size = src) "src->size() == I.getSrcTy()->getPrimitiveSizeInBits()"
    return s.set dst (v.extract (w - 1) 0)
  | .select dst _ c a b => do
    return s.set dst ((← s.get c).ite (← s.get a) (← s.get b))
  | .freeze dst _ a => do return s.set dst (← s.get a)
  | .load dst w ptr => visitLoad S pathConstraints dst w ptr s
  | .store _ a ptr => visitStore S pathConstraints a ptr s
  | .unsupported _ _ opcode => throw ("unsupported instruction -> " ++ opcode)
  | .br _ | .condBr .. => throw "unsupported instruction -> br"
  | .ret => throw "unsupported instruction -> ret"
  | .unreachable => throw "unsupported instruction -> unreachable"
  | .readMemory .. | .writeMemory .. => return s

/-! ### The code an intrinsic is replaced by -/

/-- The pointer `value_to_pointer` makes for a constant address. -/
def pagePtr {N : Type} (address : Addr) : Ptr N :=
  if inStack address then .stack address else .memory address

/-- The values after the first in the chain of selects; the last select stands for the call. -/
def emitReads (dst : Name) (size : ℕ) (address : Operand Name) :
    ℕ → Operand Name → List Addr → List (Inst Name)
  | _, _, [] => []
  | j, final, a :: as =>
    let name := if as = [] then dst else dst.temp j 3
    [.load (dst.temp j 1) size (pagePtr a),
      .icmp (dst.temp j 2) .eq 64 address (.const 64 a.toNat),
      .select name size (.ssa (dst.temp j 2)) (.ssa (dst.temp j 1)) final] ++
    emitReads dst size address (j + 1) (.ssa name) as

/-- The loads that replace `__remill_read_memory`. -/
def Resolution.lowerRead (dst : Name) (size : ℕ) (address : Operand Name) :
    Resolution → List (Inst Name)
  | literal a => [.load dst size (pagePtr a)]
  | among [] => []
  | among (a :: as) =>
    .load (dst.temp 0 1) size (pagePtr a) ::
      emitReads dst size address 1 (.ssa (dst.temp 0 1)) as
  | unresolved => [.load dst size (.intToPtr address)]

/-- One guarded store for every address. -/
def emitWrites (dst : Name) (size : ℕ) (address value : Operand Name) :
    ℕ → List Addr → List (Inst Name)
  | _, [] => []
  | j, a :: as =>
    [.icmp (dst.temp j 1) .eq 64 address (.const 64 a.toNat),
      .load (dst.temp j 2) size (pagePtr a),
      .select (dst.temp j 3) size (.ssa (dst.temp j 1)) value (.ssa (dst.temp j 2)),
      .store size (.ssa (dst.temp j 3)) (pagePtr a)] ++
    emitWrites dst size address value (j + 1) as

/-- The stores that replace `__remill_write_memory`. -/
def Resolution.lowerWrite (dst : Name) (size : ℕ) (address value : Operand Name) :
    Resolution → List (Inst Name)
  | literal a => [.store size value (pagePtr a)]
  | among as => emitWrites dst size address value 0 as
  | unresolved => [.store size value (.intToPtr address)]

/-! ### The intrinsics -/

/-- `cpu::value_to_pointer`: the pointer it makes, as the resolution it stands for. -/
def valueToPointer (addr : Operand Name) (s : Symex) : Except String (Resolution × Symex) := do
  let v ← s.get addr
  let simplified := v.simplifyUnder S pathConstraints s.context.checks
  let s := { s with context.checks := simplified.2 }.setOperand addr (v.simplify S)
  if simplified.1.isConcrete then return (.literal (← simplified.1.asUint64?), s)
  else
    let found := possibleValues S pathConstraints s.context.checks simplified.1.term
    let s := { s with context.checks := found.2.2 }
    -- the value read back is the symbolic one, not the one found
    if found.1 ≠ [] then return (.literal (← simplified.1.asUint64?), s)
    else return (.unresolved, s)

/-- The pointer `value_to_pointer` returns. -/
def Resolution.ptr (address : Operand Name) : Resolution → Ptr Name
  | literal a => pagePtr a
  | among _ | unresolved => .intToPtr address

/-- What the two intrinsics do first with an address: its values, if it has several and all of them
were found. A single value found is recorded as the value of the address. -/
def enumerateAddress (address : Operand Name) (addrSym : Value) (s : Symex) :
    Option (List Term) × Symex :=
  if addrSym.isConcrete then (none, s)
  else
    let found := possibleValues S pathConstraints s.context.checks addrSym.term
    let s := { s with context.checks := found.2.2 }
    if 1 < found.1.length ∧ found.2.1 = .unsat then (some found.1, s)
    else match found.1 with
      | [value] => (none, s.setOperand address (.ofTerm value))
      | _ => (none, s)

/-- The stores of `write_memory_intrinsic` to a complete enumeration. -/
def writeValues (addr val : Value) : List Term → Context → Except String Context
  | [], c => return c
  | value :: values, c => do
    let currAddr := Value.ofTerm value
    let currPtr ← calculatePointer currAddr
    let oldSym := c.read S currPtr val.size
    let condV := addr.binary .equal currAddr
    let newSym := (condV.ite val oldSym.1).simplify S
    writeValues addr val values (oldSym.2.write S currPtr newSym)

/-- `emulator::write_memory_intrinsic`. -/
def writeMemoryIntrinsic (size : ℕ) (address value : Operand Name) (s : Symex) :
    Except String (Resolution × Symex) := do
  let addr ← s.get address
  let addrSym := addr.simplifyUnder S pathConstraints s.context.checks
  let s := { s with context.checks := addrSym.2 }.setOperand address (addr.simplify S)
  match enumerateAddress S pathConstraints address addrSym.1 s with
  | (some values, s) => do
    let valSym ← s.get value
    vexaAssert (valSym.size = size) "val_sym.v->size() == val->getType()->getPrimitiveSizeInBits()"
    let c ← writeValues S addrSym.1 valSym values s.context
    let addresses ← values.mapM fun t => (Value.ofTerm t).asUint64?
    return (.among addresses, { s with context := c })
  | (none, s) => do
    let ptr ← valueToPointer S pathConstraints address s
    let valSym ← ptr.2.get value
    vexaAssert (valSym.size = size) "val_sym.v->size() == val->getType()->getPrimitiveSizeInBits()"
    return (ptr.1, ← visitStore S pathConstraints value (ptr.1.ptr address) ptr.2)

/-- The loads of `read_memory_intrinsic` from the addresses after the first. -/
def readValues (dst : Name) (size : ℕ) (addr : Value) :
    ℕ → List Term → Value → Symex → Except String (Value × Symex)
  | _, [], finalSym, s => return (finalSym, s)
  | j, value :: values, finalSym, s => do
    let currAddr := Value.ofTerm value
    let currPtr ← calculatePointer currAddr
    let currSym := s.context.read S currPtr size
    let s := { s with context := currSym.2 }.set (dst.temp j 1) currSym.1
    let condV := addr.binary .equal currAddr
    readValues dst size addr (j + 1) values (condV.ite currSym.1 finalSym) s

/-- `emulator::read_memory_intrinsic`. -/
def readMemoryIntrinsic (dst : Name) (size : ℕ) (address : Operand Name) (s : Symex) :
    Except String (Resolution × Symex) := do
  let addr ← s.get address
  let addrSym := addr.simplify S
  let s := s.setOperand address addrSym
  match enumerateAddress S pathConstraints address addrSym s with
  | (some [], s) => return (.among [], s)
  | (some (value :: values), s) => do
    let firstPtr ← calculatePointer (.ofTerm value)
    let firstSym := s.context.read S firstPtr size
    let s := { s with context := firstSym.2 }.set (dst.temp 0 1) firstSym.1
    let final ← readValues S dst size addrSym 1 values firstSym.1 s
    let addresses ← (value :: values).mapM fun t => (Value.ofTerm t).asUint64?
    return (.among addresses, final.2.set dst (final.1.simplify S))
  | (none, s) => do
    let ptr ← valueToPointer S pathConstraints address s
    return (ptr.1, ← visitLoad S pathConstraints dst size (ptr.1.ptr address) ptr.2)

/-! ### Blocks -/

/-- What the visit of one instruction leaves in its place, and what it settled. -/
structure Emitted where
  insts : List (Inst Name)
  resolutions : List Resolution

def Emitted.append (e e' : Emitted) : Emitted :=
  ⟨e.insts ++ e'.insts, e.resolutions ++ e'.resolutions⟩

/-- `emulator::run`. -/
def Emulator.run (i : Inst Name) (s : Symex) : Except String (Emitted × Symex) :=
  match i with
  | .readMemory dst size address => do
    let r ← readMemoryIntrinsic S pathConstraints dst size address s
    return (⟨r.1.lowerRead dst size address, [r.1]⟩, r.2)
  | .writeMemory dst size address value => do
    let r ← writeMemoryIntrinsic S pathConstraints size address value s
    return (⟨r.1.lowerWrite dst size address value, [r.1]⟩, r.2)
  | i => do return (⟨[i], []⟩, ← visit S pathConstraints i s)

/-- `emulator::run_block`. -/
def runBlock : List (Inst Name) → Symex → Except String (Emitted × Symex)
  | [], s => return (⟨[], []⟩, s)
  | i :: is, s =>
    if i.isTerminator then do
      let rest ← runBlock is s
      return (Emitted.append ⟨[i], []⟩ rest.1, rest.2)
    else do
      let first ← Emulator.run S pathConstraints i s
      let rest ← runBlock is first.2
      return (first.1.append rest.1, rest.2)

end

end Vexa
