import Vexa.Pages

/-!
# The lifted IR

The instructions of the functions the lifter produces, and what they do. An instruction is generic in
the names of its results: remill's semantics of one machine instruction number their results from
zero, and inside the lifted function a name also says which block it belongs to.

## Pointers

Only constant offsets from five bases and `inttoptr` occur, so a `getelementptr` is not an instruction
of its own but the address of the load or store that uses it. An integer cast to a pointer is resolved
by the page translation, as `write_memory` resolves the values of a symbolic pointer.

## Memory intrinsics

`readMemory` and `writeMemory` are the calls remill leaves for the accesses of the program. Their meaning
here is the access through the page translation; the lifter replaces every one of them. The memory
token they pass around has no bits and is left out.

## Undefined results

Where LLVM leaves a result undefined (division by zero, shifts by the width or more), the value is
the solver's.

## Main definitions

* `Inst`, `Inst.exec` — instructions and their effect
* `Inst.Typed`, `Semantics` — straight-line code that LLVM's verifier accepts
* `BasicBlock`, `execInsts`, `Visits` — executing a function of blocks
-/

namespace Vexa

/-! ### Operators -/

/-- The opcodes `visitBinaryOperator` accepts. -/
inductive Opcode
  | add | sub | mul | udiv | urem | sdiv | srem | and | or | xor | shl | lshr | ashr
deriving DecidableEq, Repr

/-- The result of the operation on two `w`-bit numbers. -/
def Opcode.eval (op : Opcode) (w x y : ℕ) : ℕ :=
  let X := BitVec.ofNat w x
  let Y := BitVec.ofNat w y
  match op with
  | .add => (X + Y).toNat
  | .sub => (X - Y).toNat
  | .mul => (X * Y).toNat
  | .udiv => (X.smtUDiv Y).toNat
  | .urem => (X % Y).toNat
  | .sdiv => (X.smtSDiv Y).toNat
  | .srem => (X.srem Y).toNat
  | .and => (X &&& Y).toNat
  | .or => (X ||| Y).toNat
  | .xor => (X ^^^ Y).toNat
  | .shl => (X <<< Y).toNat
  | .lshr => (X >>> Y).toNat
  | .ashr => (X.sshiftRight' Y).toNat

/-- The predicates `visitICmpInst` accepts. -/
inductive Predicate
  | eq | ne | ugt | uge | ult | ule | sgt | sge | slt | sle
deriving DecidableEq, Repr

def Predicate.eval (p : Predicate) (w x y : ℕ) : Bool :=
  let X := BitVec.ofNat w x
  let Y := BitVec.ofNat w y
  match p with
  | .eq => X = Y
  | .ne => X ≠ Y
  | .ugt => Y.ult X
  | .uge => Y.ule X
  | .ult => X.ult Y
  | .ule => X.ule Y
  | .sgt => Y.slt X
  | .sge => Y.sle X
  | .slt => X.slt Y
  | .sle => X.sle Y

inductive CastOp
  | zext | sext | trunc
deriving DecidableEq, Repr

/-- The result of the cast from `src` to `dst` bits. -/
def CastOp.eval (op : CastOp) (src dst x : ℕ) : ℕ :=
  match op with
  | .zext => x
  | .sext => ((BitVec.ofNat src x).signExtend dst).toNat
  | .trunc => x % 2 ^ dst

/-! ### Instructions -/

/-- The identity of an `llvm::BasicBlock`. -/
abbrev BlockId := ℕ

variable {N : Type}

inductive Operand (N : Type)
  | const (width n : ℕ)
  | ssa (name : N)
deriving DecidableEq, Repr

def Operand.eval (env : N → ℕ) : Operand N → ℕ
  | const w n => n % 2 ^ w
  | ssa name => env name

/-- The pointers instructions use: a register, the two variables of remill's calling convention, the
middle of the stack and the memory argument with an offset, and the fallback of `value_to_pointer`. -/
inductive Ptr (N : Type)
  | state (offset : Addr)
  | nextPc
  | branchTaken
  | stack (offset : Addr)
  | memory (offset : Addr)
  | intToPtr (value : Operand N)
deriving DecidableEq, Repr

/-- Where a pointer points. -/
def Ptr.place (env : N → ℕ) : Ptr N → PageId × Addr
  | state offset => (statePage, offset)
  | nextPc => (nextPcPage, 0)
  | branchTaken => (branchTakenPage, 0)
  | stack offset => (stackPage, 16384 + offset)
  | memory offset => (globalPage, offset)
  | intToPtr value => locate (BitVec.ofNat 64 (value.eval env))

inductive Inst (N : Type)
  | binary (dst : N) (op : Opcode) (width : ℕ) (lhs rhs : Operand N)
  | icmp (dst : N) (predicate : Predicate) (width : ℕ) (lhs rhs : Operand N)
  | cast (dst : N) (op : CastOp) (src width : ℕ) (value : Operand N)
  | select (dst : N) (width : ℕ) (condition trueValue falseValue : Operand N)
  | freeze (dst : N) (width : ℕ) (value : Operand N)
  | load (dst : N) (width : ℕ) (ptr : Ptr N)
  | store (width : ℕ) (value : Operand N) (ptr : Ptr N)
  | readMemory (dst : N) (size : ℕ) (address : Operand N)
  | writeMemory (dst : N) (size : ℕ) (address value : Operand N)
  | unsupported (dst : N) (width : ℕ) (opcode : String)
  | br (target : BlockId)
  | condBr (condition : Operand N) (ifTrue ifFalse : BlockId)
  | ret
  | unreachable
deriving DecidableEq, Repr

/-- The values of the names, and the memory. -/
structure IrState (N : Type) where
  env : N → ℕ
  mem : Bytes

/-- The little-endian number in `k` bytes of memory. -/
def Bytes.load (m : Bytes) (place : PageId × Addr) (k : ℕ) : ℕ :=
  ByteMemory.load (m place.1) place.2 k

namespace IrState

def set [DecidableEq N] (s : IrState N) (dst : N) (n : ℕ) : IrState N :=
  { s with env := Function.update s.env dst n }

def store (s : IrState N) (place : PageId × Addr) (k n : ℕ) : IrState N :=
  { s with mem := s.mem.store place.1 place.2 k n }

@[simp] theorem mem_set [DecidableEq N] (s : IrState N) (dst : N) (n : ℕ) :
    (s.set dst n).mem = s.mem := rfl

@[simp] theorem env_set [DecidableEq N] (s : IrState N) (dst : N) (n : ℕ) :
    (s.set dst n).env = Function.update s.env dst n := rfl

@[simp] theorem env_store (s : IrState N) (place : PageId × Addr) (k n : ℕ) :
    (s.store place k n).env = s.env := rfl

@[simp] theorem mem_store (s : IrState N) (place : PageId × Addr) (k n : ℕ) :
    (s.store place k n).mem = s.mem.store place.1 place.2 k n := rfl

end IrState

namespace Inst

/-- The effect of an instruction that is not a terminator. -/
def exec [DecidableEq N] (i : Inst N) (s : IrState N) : IrState N :=
  match i with
  | binary dst op w a b => s.set dst (op.eval w (a.eval s.env) (b.eval s.env))
  | icmp dst p w a b => s.set dst (p.eval w (a.eval s.env) (b.eval s.env)).toNat
  | cast dst op src w a => s.set dst (op.eval src w (a.eval s.env))
  | select dst _ c a b => s.set dst (if c.eval s.env = 1 then a.eval s.env else b.eval s.env)
  | freeze dst _ a => s.set dst (a.eval s.env)
  | load dst w ptr => s.set dst (s.mem.load (ptr.place s.env) (w / 8))
  | store w a ptr => s.store (ptr.place s.env) (w / 8) (a.eval s.env)
  | readMemory dst size a => s.set dst (s.mem.load (locate (BitVec.ofNat 64 (a.eval s.env))) (size / 8))
  | writeMemory _ size a v => s.store (locate (BitVec.ofNat 64 (a.eval s.env))) (size / 8) (v.eval s.env)
  | unsupported .. | br _ | condBr .. | ret | unreachable => s

/-- `Instruction::isTerminator`. -/
def isTerminator : Inst N → Bool
  | br _ | condBr .. | ret | unreachable => true
  | _ => false

/-- The integer an instruction defines: its name and its width. -/
def result : Inst N → Option (N × ℕ)
  | binary dst _ w _ _ | cast dst _ _ w _ | select dst w _ _ _ | freeze dst w _ | load dst w _
  | readMemory dst w _ | unsupported dst w _ => some (dst, w)
  | icmp dst _ _ _ _ => some (dst, 1)
  | store .. | writeMemory .. | br _ | condBr .. | ret | unreachable => none

end Inst

/-- Straight-line execution. -/
def execAll [DecidableEq N] (insts : List (Inst N)) (s : IrState N) : IrState N :=
  insts.foldl (fun s i => i.exec s) s

section Renaming

variable {N' : Type} (f : N → N')

def Operand.map : Operand N → Operand N'
  | const w n => const w n
  | ssa name => ssa (f name)

def Ptr.map : Ptr N → Ptr N'
  | state offset => state offset
  | nextPc => nextPc
  | branchTaken => branchTaken
  | stack offset => stack offset
  | memory offset => memory offset
  | intToPtr value => intToPtr (value.map f)

/-- The same instruction with other names. -/
def Inst.map : Inst N → Inst N'
  | binary dst op w a b => binary (f dst) op w (a.map f) (b.map f)
  | icmp dst p w a b => icmp (f dst) p w (a.map f) (b.map f)
  | cast dst op src w a => cast (f dst) op src w (a.map f)
  | select dst w c a b => select (f dst) w (c.map f) (a.map f) (b.map f)
  | freeze dst w a => freeze (f dst) w (a.map f)
  | load dst w ptr => load (f dst) w (ptr.map f)
  | store w a ptr => store w (a.map f) (ptr.map f)
  | readMemory dst size a => readMemory (f dst) size (a.map f)
  | writeMemory dst size a v => writeMemory (f dst) size (a.map f) (v.map f)
  | unsupported dst w opcode => unsupported (f dst) w opcode
  | br target => br target
  | condBr c t e => condBr (c.map f) t e
  | ret => ret
  | unreachable => unreachable

end Renaming

/-! ### Well-typed code -/

/-- The widths of the names defined so far. -/
abbrev Types (N : Type) := N → Option ℕ

def Operand.width (types : Types N) : Operand N → Option ℕ
  | const w _ => some w
  | ssa name => types name

/-- Widths that are whole bytes and whose byte count fits `uint8_t`. -/
def ByteWidth (w : ℕ) : Prop := w % 8 = 0 ∧ 0 < w ∧ w < 2048

instance (w : ℕ) : Decidable (ByteWidth w) := inferInstanceAs (Decidable (_ ∧ _))

/-- The pointers lifted code loads from. -/
def Ptr.Loadable : Ptr N → Prop
  | intToPtr _ => False
  | _ => True

/-- Constant pointers do not depend on the values of names. -/
theorem Ptr.Loadable.place_congr {ptr : Ptr N} (hptr : ptr.Loadable) (env env' : N → ℕ) :
    ptr.place env = ptr.place env' := by
  cases ptr with
  | intToPtr value => exact hptr.elim
  | _ => rfl

/-- The pointers lifted code stores to. The two variables are only stored to as a whole. -/
def Ptr.Storable (w : ℕ) : Ptr N → Prop
  | intToPtr _ => False
  | nextPc => w = 64
  | branchTaken => w = 8
  | state _ | stack _ | memory _ => True

/-- The operands of the instruction have the widths it needs. -/
def Inst.OperandsTyped (types : Types N) : Inst N → Prop
  | binary _ _ w a b => 0 < w ∧ a.width types = some w ∧ b.width types = some w
  | icmp _ _ w a b => a.width types = some w ∧ b.width types = some w
  | cast _ .zext src w a | cast _ .sext src w a => src < w ∧ a.width types = some src
  | cast _ .trunc src w a => (0 < w ∧ w < src) ∧ a.width types = some src
  | select _ w c a b =>
    c.width types = some 1 ∧ a.width types = some w ∧ b.width types = some w
  | freeze _ w a => a.width types = some w
  | load _ w ptr => ByteWidth w ∧ ptr.Loadable
  | store w a ptr => ByteWidth w ∧ a.width types = some w ∧ ptr.Storable w
  | readMemory _ size a => size ∈ [8, 16, 32, 64] ∧ a.width types = some 64
  | writeMemory _ size a v =>
    size ∈ [8, 16, 32, 64] ∧ a.width types = some 64 ∧ v.width types = some size
  | unsupported .. => True
  | br _ | condBr .. | ret | unreachable => False

/-- The names defined after an instruction. -/
def Inst.extend [DecidableEq N] (types : Types N) (i : Inst N) : Types N :=
  match i.result with
  | some (dst, w) => Function.update types dst (some w)
  | none => types

/-- Straight-line code in which every operand is defined before with the right width, and every
name once. -/
def Typed [DecidableEq N] (types : Types N) : List (Inst N) → Prop
  | [] => True
  | i :: is =>
    i.OperandsTyped types ∧ (∀ dst w, i.result = some (dst, w) → types dst = none) ∧
      Typed (i.extend types) is

/-- What `LiftIntoBlock` puts into a block: straight-line code that LLVM's verifier accepts. -/
structure Semantics where
  insts : List (Inst ℕ)
  typed : Typed (fun _ => none) insts

/-! ### Blocks -/

/-- The name of a value of the lifted function: the block it was made for, the number of the lifted
instruction it belongs to, and which of the values made for this instruction it is. -/
structure Name where
  block : BlockId
  index : ℕ
  part : ℕ × ℕ
deriving DecidableEq, Repr

/-- The result of a lifted instruction. -/
def Name.lifted (block : BlockId) (index : ℕ) : Name := ⟨block, index, (0, 0)⟩

/-- A value made while an access is lowered, at the `j`-th address. -/
def Name.temp (name : Name) (j k : ℕ) : Name := { name with part := (j + 1, k) }

/-- What the lifter settled about the address of an access: it is one address, or one of several, or
nothing is known. -/
inductive Resolution
  | literal (address : Addr)
  | among (addresses : List Addr)
  | unresolved
deriving DecidableEq, Repr

/-- A block of the lifted function. Only `insts` is part of the source's block; the other fields record
what `lift_instruction` made it from: the program counter, what was settled about the accesses, and
the targets an indirect jump was resolved to. -/
structure BasicBlock where
  pc : Option Addr
  insts : List (Inst Name)
  resolutions : List Resolution
  targets : List Addr

/-- How a block is left. -/
inductive Exit
  | goto (target : BlockId)
  | ret
  | unreachable
deriving DecidableEq, Repr

/-- Execution up to the first terminator. -/
def execInsts : List (Inst Name) → IrState Name → IrState Name × Option Exit
  | [], s => (s, none)
  | .br target :: _, s => (s, some (.goto target))
  | .condBr c ifTrue ifFalse :: _, s =>
    (s, some (.goto (if c.eval s.env = 1 then ifTrue else ifFalse)))
  | .ret :: _, s => (s, some .ret)
  | .unreachable :: _, s => (s, some .unreachable)
  | i :: is, s => execInsts is (i.exec s)

/-- The blocks of a function. -/
abbrev Function := BlockId → BasicBlock

/-- Execution from the start of one block to the start of another, with the program counters of the
blocks executed on the way. -/
inductive Visits (function : Function) : BlockId × IrState Name → List Addr →
    BlockId × IrState Name → Prop
  | refl (b) : Visits function b [] b
  | step {b c d s s' t pcs} : Visits function (b, s) pcs (c, s') →
      execInsts (function c).insts s' = (t, some (.goto d)) →
      Visits function (b, s) (pcs ++ (function c).pc.toList) (d, t)

end Vexa
