import Vexa.StraightLine
import Vexa.Lib.BlockRun

/-!
# The functions the passes work on

After lifting, the function is handed to the passes as LLVM code. Integers are the only values that
are kept in names; pointers are made from three kinds of base by `getelementptr`.

## Pointers

A `getelementptr` only computes, so it is part of the address of the load or store that uses it. Its
indices are integers of any type, sign-extended to the width of an address and scaled. The index of
a field of a struct is the offset of the field, once.

## Memory

The state, the memory argument and every `alloca` are objects of their own, so an offset that leaves
one of them does not arrive in another. An `alloca` is one object for the whole call. That a
`getelementptr` is `inbounds` is left out, and so is what LLVM leaves undefined.

## Main definitions

* `PassPtr`, `PassInst`, `Terminator` — the instructions
* `PassInst.runAll`, `PassFunction.step` — what they do, and what the loads among them return
-/

namespace Vexa

variable {N : Type}

/-! ### Pointers -/

/-- The objects of a function: the state, the memory argument, and its `alloca`s. -/
inductive PassRegion
  | state
  | memory
  | alloca (id : ℕ)
deriving DecidableEq, Repr

/-- The identity of an `llvm::Type`. -/
abbrev TypeId := ℕ

/-- `i8`, the type `getelementptr` counts bytes in. -/
def int8Type : TypeId := 8

/-- An index of a `getelementptr`: how many bytes it stands for, and its type. -/
structure GepIndex (N : Type) where
  stride : ℕ
  width : ℕ
  value : Operand N
deriving DecidableEq, Repr

inductive PassPtr (N : Type)
  | base (region : PassRegion)
  | gep (source : TypeId) (ptr : PassPtr N) (indices : List (GepIndex N))
deriving DecidableEq, Repr

/-- An index of this value. It is sign-extended to 64 bits. -/
def GepIndex.scale (i : GepIndex N) (n : ℕ) : Addr :=
  BitVec.ofNat 64 i.stride * (BitVec.ofNat i.width n).signExtend 64

/-- How far the indices move a pointer. -/
def gepOffset (env : N → ℕ) (indices : List (GepIndex N)) : Addr :=
  (indices.map fun i => i.scale (i.value.eval env)).sum

/-- `GetElementPtrInst::accumulateConstantOffset`. -/
def accumulateConstantOffset : List (GepIndex N) → Option Addr
  | [] => some 0
  | ⟨stride, width, .const w n⟩ :: indices => do
    let offset ← accumulateConstantOffset indices
    return GepIndex.scale (N := N) ⟨stride, width, .const w n⟩ (n % 2 ^ w) + offset
  | ⟨_, _, .ssa _⟩ :: _ => none

/-- The object a pointer is made from. -/
def PassPtr.region : PassPtr N → PassRegion
  | base r => r
  | gep _ ptr _ => ptr.region

def PassPtr.offset (env : N → ℕ) : PassPtr N → Addr
  | base _ => 0
  | gep _ ptr indices => ptr.offset env + gepOffset env indices

theorem PassPtr.offset_base (r : PassRegion) (env : N → ℕ) : (base r).offset env = 0 := rfl

theorem gepOffset_of_accumulate (env : N → ℕ) : ∀ {indices : List (GepIndex N)} {offset : Addr},
    accumulateConstantOffset indices = some offset → gepOffset env indices = offset
  | [], _, h => Option.some.inj h
  | ⟨stride, width, .const w n⟩ :: indices, offset, h => by
    rw [accumulateConstantOffset, Option.bind_eq_bind, Option.bind_eq_some_iff] at h
    obtain ⟨rest, hrest, heq⟩ := h
    rw [gepOffset, List.map_cons, List.sum_cons, ← Option.some.inj heq]
    exact congrArg _ (gepOffset_of_accumulate env hrest)
  | ⟨_, _, .ssa _⟩ :: _, _, h => nomatch h

/-! ### Instructions -/

/-- Loads, stores and computations; `other` stands for the computations no pass makes or looks at. -/
inductive PassInst (N : Type)
  | binary (dst : N) (op : Opcode) (width : ℕ) (lhs rhs : Operand N)
  | cast (dst : N) (op : CastOp) (src width : ℕ) (value : Operand N)
  | other (dst : N) (args : List (Operand N)) (compute : List ℕ → ℕ)
  | load (dst : N) (width : ℕ) (ptr : PassPtr N)
  | store (width : ℕ) (value : Operand N) (ptr : PassPtr N)

/-- `br` is a `switch` without cases or with one. -/
inductive Terminator (N : Type)
  | switch (value : Operand N) (cases : List (ℕ × BlockId)) (default : BlockId)
  | ret
  | unreachable
deriving DecidableEq, Repr

structure PassBlock (N : Type) where
  insts : List (PassInst N)
  terminator : Terminator N

/-- `llvm::successors`. -/
def Terminator.successors : Terminator N → List BlockId
  | switch _ cases default => default :: cases.map Prod.snd
  | ret | unreachable => []

/-- A function: its blocks, and the order in which it lists them, the entry first. Blocks only branch to
blocks of the function. -/
structure PassFunction (N : Type) where
  order : List BlockId
  block : BlockId → PassBlock N
  nodup : order.Nodup
  nonempty : order ≠ []
  closed : ∀ b ∈ order, ∀ c ∈ (block b).terminator.successors, c ∈ order

theorem nodup_entryOnly : ([0] : List BlockId).Nodup := List.nodup_singleton 0

theorem entryOnly_ne_nil : ([0] : List BlockId) ≠ [] := List.cons_ne_nil 0 []

/-- The values of the names, and what the objects hold. -/
structure PassState (N : Type) where
  env : N → ℕ
  mem : PassRegion → ByteMemory.Memory 64

/-- `DataLayout::getTypeStoreSize` of an integer type. -/
def typeStoreSize (width : ℕ) : ℕ := (width + 7) / 8

theorem typeStoreSize_eight_mul (k : ℕ) : typeStoreSize (8 * k) = k := by
  rw [typeStoreSize]
  omega

namespace PassState

variable [DecidableEq N]

def set (s : PassState N) (dst : N) (n : ℕ) : PassState N :=
  { s with env := Function.update s.env dst n }

/-- Write the low `k` bytes of `n`. -/
def store (s : PassState N) (region : PassRegion) (offset : Addr) (k n : ℕ) : PassState N :=
  { s with mem := Function.update s.mem region (ByteMemory.store (s.mem region) offset k n) }

@[simp] theorem mem_set (s : PassState N) (dst : N) (n : ℕ) : (s.set dst n).mem = s.mem := rfl

@[simp] theorem env_set (s : PassState N) (dst : N) (n : ℕ) :
    (s.set dst n).env = Function.update s.env dst n := rfl

omit [DecidableEq N] in
@[simp] theorem env_store (s : PassState N) (r : PassRegion) (a : Addr) (k n : ℕ) :
    (s.store r a k n).env = s.env := rfl

omit [DecidableEq N] in
theorem mem_store_self (s : PassState N) (r : PassRegion) (a : Addr) (k n : ℕ) :
    (s.store r a k n).mem r = ByteMemory.store (s.mem r) a k n := Function.update_self ..

omit [DecidableEq N] in
theorem mem_store_of_ne (s : PassState N) {r r' : PassRegion} (h : r' ≠ r) (a : Addr) (k n : ℕ) :
    (s.store r a k n).mem r' = s.mem r' := Function.update_of_ne h ..

omit [DecidableEq N] in
/-- One byte after a store. -/
theorem mem_store_apply (s : PassState N) (r r' : PassRegion) (a x : Addr) (k n : ℕ) :
    (s.store r a k n).mem r' x
      = if r' = r ∧ (x - a).toNat < k then LittleEndian.byte n (x - a).toNat else s.mem r' x := by
  by_cases hr : r' = r
  · subst hr
    rw [mem_store_self, ByteMemory.store]
    simp only [true_and]
  · rw [mem_store_of_ne s hr, if_neg fun h => hr h.1]

end PassState

namespace PassInst

variable [DecidableEq N]

def exec (i : PassInst N) (s : PassState N) : PassState N :=
  match i with
  | binary dst op w a b => s.set dst (op.eval w (a.eval s.env) (b.eval s.env))
  | cast dst op src w a => s.set dst (op.eval src w (a.eval s.env))
  | other dst args compute => s.set dst (compute (args.map fun a => a.eval s.env))
  | load dst w ptr =>
    s.set dst (ByteMemory.load (s.mem ptr.region) (ptr.offset s.env) (typeStoreSize w) % 2 ^ w)
  | store w a ptr => s.store ptr.region (ptr.offset s.env) (typeStoreSize w) (a.eval s.env % 2 ^ w)

/-- What the instruction returns if it is a load, with its name. -/
def loaded (i : PassInst N) (s : PassState N) : List (N × ℕ) :=
  match i with
  | load dst w ptr =>
    [(dst, ByteMemory.load (s.mem ptr.region) (ptr.offset s.env) (typeStoreSize w) % 2 ^ w)]
  | _ => []

/-- Straight-line execution, with what the loads return. -/
def runAll : List (PassInst N) → PassState N → List (N × ℕ) × PassState N
  | [], s => ([], s)
  | i :: is, s => (i.loaded s ++ (runAll is (i.exec s)).1, (runAll is (i.exec s)).2)

@[simp] theorem runAll_nil (s : PassState N) : runAll [] s = ([], s) := rfl

theorem runAll_cons (i : PassInst N) (is : List (PassInst N)) (s : PassState N) :
    runAll (i :: is) s
      = (i.loaded s ++ (runAll is (i.exec s)).1, (runAll is (i.exec s)).2) := rfl

theorem runAll_append : ∀ (is js : List (PassInst N)) (s : PassState N),
    runAll (is ++ js) s
      = ((runAll is s).1 ++ (runAll js (runAll is s).2).1, (runAll js (runAll is s).2).2)
  | [], js, s => rfl
  | i :: is, js, s => by
    rw [List.cons_append, runAll_cons, runAll_cons, runAll_append is js, List.append_assoc]

end PassInst

/-- Where control goes behind a block. -/
def Terminator.exit (t : Terminator N) (s : PassState N) : BlockRun.Exit BlockId (PassState N) :=
  match t with
  | switch value cases default => .goto ((cases.lookup (value.eval s.env)).getD default) s
  | ret => .ret s
  | unreachable => .stuck

theorem Terminator.mem_successors {t : Terminator N} {s s' : PassState N} {b : BlockId}
    (h : t.exit s = .goto b s') : b ∈ t.successors := by
  cases t with
  | switch value cases default =>
    rw [exit] at h
    injection h with hb _
    rw [successors, ← hb]
    cases hlookup : cases.lookup (value.eval s.env) with
    | none => exact List.mem_cons_self ..
    | some c =>
      obtain ⟨front, back, hcases, _⟩ := List.lookup_eq_some_iff.mp hlookup
      rw [hcases, List.map_append, List.map_cons]
      exact List.mem_cons_of_mem _ (List.mem_append_right _ (List.mem_cons_self ..))
  | ret | unreachable => cases h

/-- One block: what its loads return, and where control goes. -/
def PassFunction.step [DecidableEq N] (f : PassFunction N) (b : BlockId) (s : PassState N) :
    List (N × ℕ) × BlockRun.Exit BlockId (PassState N) :=
  ((PassInst.runAll (f.block b).insts s).1,
    (f.block b).terminator.exit (PassInst.runAll (f.block b).insts s).2)

/-- The entry block. -/
def PassFunction.entry (f : PassFunction N) : BlockId := f.order.head f.nonempty

/-! ### Other names -/

/-- The names after a pass: those of before, and those of the code it emits for one instruction. -/
inductive PassName (N : Type)
  | old (name : N)
  | temp (block : BlockId) (index byte part : ℕ)
deriving DecidableEq, Repr

section Renaming

variable {N' : Type} (f : N → N')

def GepIndex.map (i : GepIndex N) : GepIndex N' := ⟨i.stride, i.width, i.value.map f⟩

def PassPtr.map : PassPtr N → PassPtr N'
  | base r => base r
  | gep source ptr indices => gep source ptr.map (indices.map (GepIndex.map f))

/-- The same instruction with other names. -/
def PassInst.map : PassInst N → PassInst N'
  | binary dst op w a b => binary (f dst) op w (a.map f) (b.map f)
  | cast dst op src w a => cast (f dst) op src w (a.map f)
  | other dst args compute => other (f dst) (args.map (Operand.map f)) compute
  | load dst w ptr => load (f dst) w (ptr.map f)
  | store w a ptr => store w (a.map f) (ptr.map f)

def Terminator.map : Terminator N → Terminator N'
  | switch value cases default => switch (value.map f) cases default
  | ret => ret
  | unreachable => unreachable

end Renaming

theorem Operand.eval_map {N' : Type} {f : N → N'} {env : N → ℕ} {env' : N' → ℕ}
    (h : ∀ name, env' (f name) = env name) (a : Operand N) : (a.map f).eval env' = a.eval env := by
  cases a with
  | const w n => rfl
  | ssa name => exact h name

theorem gepOffset_map {N' : Type} {f : N → N'} {env : N → ℕ} {env' : N' → ℕ}
    (h : ∀ name, env' (f name) = env name) (indices : List (GepIndex N)) :
    gepOffset env' (indices.map (GepIndex.map f)) = gepOffset env indices := by
  rw [gepOffset, gepOffset, List.map_map]
  congr 1
  refine List.map_congr_left fun i _ => ?_
  rw [Function.comp_apply, GepIndex.map, Operand.eval_map h]
  rfl

theorem PassPtr.region_map {N' : Type} (f : N → N') : ∀ p : PassPtr N, (p.map f).region = p.region
  | base _ => rfl
  | gep _ ptr _ => region_map f ptr

theorem PassPtr.offset_map {N' : Type} {f : N → N'} {env : N → ℕ} {env' : N' → ℕ}
    (h : ∀ name, env' (f name) = env name) : ∀ p : PassPtr N,
    (p.map f).offset env' = p.offset env
  | base _ => rfl
  | gep _ ptr indices => by
    rw [PassPtr.map, offset, offset, offset_map h ptr, gepOffset_map h]

theorem Terminator.successors_map {N' : Type} (f : N → N') (t : Terminator N) :
    (t.map f).successors = t.successors := by cases t <;> rfl

theorem Terminator.exit_map {N' : Type} {f : N → N'} {s : PassState N} {t : PassState N'}
    (h : ∀ name, t.env (f name) = s.env name) {R : BlockId → PassState N → PassState N' → Prop}
    {Q : PassState N → PassState N' → Prop} (terminator : Terminator N)
    (hgoto : ∀ b ∈ terminator.successors, R b s t) (hret : Q s t) :
    BlockRun.Exit.Related R Q (terminator.exit s) ((terminator.map f).exit t) := by
  cases terminator with
  | switch value cases default =>
    rw [Terminator.map, exit, exit, Operand.eval_map h]
    exact .goto (hgoto _ (mem_successors (s := s) rfl))
  | ret => exact .ret hret
  | unreachable => exact .stuck

end Vexa
