import Vexa.Cpu
import Vexa.SymbolicExecution

/-!
# Sync hypercalls

`CPUID` and `RDTSC` reach the emulator as calls of `__remill_sync_hyper_call`. `visitCallInst` writes
their results to registers of the symbolic state, and leaves the call and the users of its token to be
deleted. Unlike for every other instruction nothing in the emitted code does what was done to the
symbolic state: its registers keep what they had.

## When it does not show

Loads and stores only move bytes. Where a byte of a register comes from at the end of a block, a constant,
a byte of the state before it or a time stamp, can therefore be read off the block. The emitted code
leaves the registers the symbolic state has, from every state, when every byte comes from the same place
with the hypercalls as without them.

## Main definitions

* `SyncInst`, `visitHyperCall`, `emulateBlock`, `eraseDeleted` — blocks with hypercalls
* `Source`, `Flow` — where the bytes of registers and values come from
* `SyncBlock.InStep` — the emitted code leaves the registers of the symbolic state

## Main results

* `emulate_realises`, `execSync_realises` — both sides follow the flow of bytes
* `inStep_iff`
-/

namespace Vexa

open LittleEndian

/-! ### The block -/

/-- The hypercalls `visitCallInst` tells apart by the last argument of the call. -/
inductive HyperCallId
  | x86CPUID
  | x86ReadTSC
  | other (id : ℕ)
  | notConstant
deriving DecidableEq, Repr

/-- An instruction of a block with hypercalls. The tokens for the memory have names of their own: a call
takes one and returns one, and the last one is stored to a variable. -/
inductive SyncInst
  | inst (i : Inst Name)
  | hyperCall (token memory : ℕ) (id : HyperCallId)
  | storeMemory (token : ℕ)
deriving DecidableEq, Repr

/-- The registers hypercalls write: `amd64::RAX` to `amd64::RDX`. -/
structure HyperRegisters where
  rax : Register
  rbx : Register
  rcx : Register
  rdx : Register

/-- Positions of the users of a token. -/
def usersOf (block : List SyncInst) (token : ℕ) : List ℕ :=
  (block.zipIdx.filter fun i =>
    match i.1 with
    | .inst _ => false
    | .hyperCall _ memory _ => memory = token
    | .storeMemory t => t = token).map Prod.snd

/-- What the visit of an instruction passes to `deleteLater`: for a call its users and itself. -/
def SyncInst.deletes (block : List SyncInst) (position : ℕ) : SyncInst → List ℕ
  | hyperCall token _ _ => usersOf block token ++ [position]
  | _ => []

/-- `eraseDeletedInstructions`. -/
def eraseDeleted (block : List SyncInst) (toDelete : List ℕ) : List SyncInst :=
  (block.zipIdx.filter fun i => i.2 ∉ toDelete).map Prod.fst

/-- What an instruction does when the lifted code runs. The variable tokens are stored to has no bits. -/
def SyncInst.exec : SyncInst → IrState Name → IrState Name
  | inst i, t => i.exec t
  | hyperCall .., t => t -- all of them are deleted
  | storeMemory _, t => t

def execSync (block : List SyncInst) (t : IrState Name) : IrState Name :=
  block.foldl (fun t i => i.exec t) t

section

variable (M : Machine) (R : HyperRegisters) (concretizeRdtsc : Bool) (pathConstraints : List Term)

/-- `visitCallInst` for `sync_hyper_call`. -/
def visitHyperCall (id : HyperCallId) (c : Context) : Except String Context :=
  match id with
  | .x86CPUID =>
    let c := Cpu.writeRegister M R.rax (.concrete 0x00A50F00 64) c
    let c := Cpu.writeRegister M R.rbx (.concrete 0x000C0800 64) c
    let c := Cpu.writeRegister M R.rcx (.concrete 0x7EF8320B 64) c
    return Cpu.writeRegister M R.rdx (.concrete 0x178BFBFF 64) c
  | .x86ReadTSC =>
    let tsc := if concretizeRdtsc then (Value.concrete 0 64, c) else c.symbolic .tsc 64
    let rax := (Value.concrete 0 32).concat (tsc.1.extract 31 0)
    let c := Cpu.writeRegister M R.rax rax tsc.2
    let rdx := (Value.concrete 0 32).concat (tsc.1.extract 63 32)
    return Cpu.writeRegister M R.rdx rdx c
  | .other id => throw ("unimplemented SyncHyperCall id -> " ++ toString id)
  | .notConstant => throw "SyncHyperCall ID is not a constant"

/-- `emulator::run`. -/
def SyncInst.run (i : SyncInst) (s : Symex) : Except String Symex :=
  match i with
  | inst i => visit M.solver pathConstraints i s
  | hyperCall _ _ id => do return { s with context := ← visitHyperCall M R concretizeRdtsc id s.context }
  | storeMemory _ => return s -- to a variable of its own, which nothing reads

/-- `emulator::run_block`, with the instructions numbered by their positions. -/
def emulateInsts (block : List SyncInst) :
    List (SyncInst × ℕ) → Symex → List ℕ → Except String (Symex × List ℕ)
  | [], s, toDelete => return (s, toDelete)
  | (i, position) :: is, s, toDelete => do
    let s ← i.run M R concretizeRdtsc pathConstraints s
    emulateInsts block is s (toDelete ++ i.deletes block position)

def emulateBlock (block : List SyncInst) (s : Symex) : Except String (Symex × List ℕ) :=
  emulateInsts M R concretizeRdtsc pathConstraints block block.zipIdx s []

end

/-- Loads and stores through constant pointers. -/
def Inst.IsAccess : Inst Name → Prop
  | .load .. | .store .. => True
  | _ => False

theorem Inst.IsAccess.address {i : Inst Name} (hi : i.IsAccess) : i.address = none := by
  cases i <;> first | rfl | exact hi.elim

/-- Well-typed accesses, and hypercalls that are implemented. -/
def SyncTyped (types : Types Name) : List SyncInst → Prop
  | [] => True
  | .inst i :: is =>
    i.IsAccess ∧ i.OperandsTyped types ∧ (∀ dst w, i.result = some (dst, w) → types dst = none) ∧
      SyncTyped (i.extend types) is
  | .hyperCall _ _ id :: is => (id = .x86CPUID ∨ id = .x86ReadTSC) ∧ SyncTyped types is
  | .storeMemory _ :: is => SyncTyped types is

/-- A block of `CPUID` and `RDTSC` hypercalls, loads and stores. -/
structure SyncBlock where
  insts : List SyncInst
  typed : SyncTyped (fun _ => none) insts

/-- From every state the emulation goes through, and what is emitted leaves the registers the symbolic
state then denotes. -/
def SyncBlock.InStep (M : Machine) (R : HyperRegisters) (concretizeRdtsc : Bool) (block : SyncBlock) :
    Prop :=
  ∀ (pathConstraints : List Term) (s : Symex) (ν : Valuation) (σ : Bytes) (t : IrState Name),
    Unwritten ν σ → s.Denotes ν σ (fun _ => none) t →
    ∃ s' toDelete,
      emulateBlock M R concretizeRdtsc pathConstraints block.insts s = .ok (s', toDelete) ∧
      ∀ r ∈ M.registers, (s'.context.memory.denote ν σ).load (statePage, r.offset) r.size =
        (execSync (eraseDeleted block.insts toDelete) t).mem.load (statePage, r.offset) r.size

/-! ### Where bytes come from -/

/-- A byte of the state before the block, a constant, or a byte of a time stamp. -/
inductive Source
  | initial (page : PageId) (address : Addr)
  | constant (b : BitVec 8)
  | stamp
deriving DecidableEq, Repr

/-- Where the bytes of memory and of the values of the block come from. -/
structure Flow where
  mem : PageId → Addr → Source
  names : Name → ℕ → Source

namespace Flow

/-- At the begin of a block. -/
def start : Flow := ⟨.initial, fun _ _ => .constant 0⟩

/-- A store of `k` bytes. -/
def store (f : Flow) (place : PageId × Addr) (k : ℕ) (bytes : ℕ → Source) : Flow :=
  { f with mem := fun p x =>
      if p = place.1 ∧ (x - place.2).toNat < k then bytes (x - place.2).toNat else f.mem p x }

/-- The bytes of an operand. -/
def operand (f : Flow) : Operand Name → ℕ → Source
  | .const w n => fun j => .constant (byte (n % 2 ^ w) j)
  | .ssa name => f.names name

/-- An access. -/
def access (f : Flow) : Inst Name → Flow
  | .load dst _ ptr =>
    let place := ptr.place fun _ => 0
    { f with names := Function.update f.names dst fun j => f.mem place.1 (place.2 + BitVec.ofNat 64 j) }
  | .store w value ptr => f.store (ptr.place fun _ => 0) (w / 8) (f.operand value)
  | _ => f

/-- A register is written. -/
def storeRegister (f : Flow) (r : Register) (bytes : ℕ → Source) : Flow :=
  f.store (statePage, r.offset) 8 bytes

/-- Half a time stamp, extended with zeros. -/
def halfStamp (concretizeRdtsc : Bool) (j : ℕ) : Source :=
  if j < 4 ∧ concretizeRdtsc = false then .stamp else .constant 0

/-- The registers a hypercall writes. -/
def hyperCall (R : HyperRegisters) (concretizeRdtsc : Bool) (f : Flow) : HyperCallId → Flow
  | .x86CPUID =>
    (((f.storeRegister R.rax fun j => .constant (byte 0x00A50F00 j)).storeRegister R.rbx
      fun j => .constant (byte 0x000C0800 j)).storeRegister R.rcx
      fun j => .constant (byte 0x7EF8320B j)).storeRegister R.rdx
      fun j => .constant (byte 0x178BFBFF j)
  | .x86ReadTSC =>
    (f.storeRegister R.rax (halfStamp concretizeRdtsc)).storeRegister R.rdx (halfStamp concretizeRdtsc)
  | _ => f

end Flow

/-- One instruction, with the hypercalls or past them. -/
def SyncInst.flow (R : HyperRegisters) (concretizeRdtsc hyperCalls : Bool) (f : Flow) : SyncInst → Flow
  | inst i => f.access i
  | hyperCall _ _ id => if hyperCalls then f.hyperCall R concretizeRdtsc id else f
  | storeMemory _ => f

/-- Where the bytes come from at the end of a block. -/
def flowSync (R : HyperRegisters) (concretizeRdtsc hyperCalls : Bool) (block : List SyncInst) (f : Flow) :
    Flow :=
  block.foldl (SyncInst.flow R concretizeRdtsc hyperCalls) f

/-- The byte is one that comes from there: the time stamps are made of the byte in `stamps`, if any. -/
def Source.Is (m₀ : Bytes) (stamps : Option (BitVec 8)) : Source → BitVec 8 → Prop
  | initial p a, x => x = m₀ p a
  | constant b, x => x = b
  | stamp, x => ∀ b ∈ stamps, x = b

/-- All bytes of a state come from where the flow says. -/
structure Flow.Realises (m₀ : Bytes) (stamps : Option (BitVec 8)) (types : Types Name) (f : Flow)
    (t : IrState Name) : Prop where
  mem : ∀ p x, (f.mem p x).Is m₀ stamps (t.mem p x)
  names : ∀ name w, types name = some w → ∀ j < w / 8, (f.names name j).Is m₀ stamps (byte (t.env name) j)

namespace Flow.Realises

variable {m₀ : Bytes} {stamps : Option (BitVec 8)} {types : Types Name} {f : Flow} {t : IrState Name}

theorem operand (h : f.Realises m₀ stamps types t) {a : Operand Name} {w : ℕ}
    (ha : a.width types = some w) : ∀ j < w / 8, (f.operand a j).Is m₀ stamps (byte (a.eval t.env) j) := by
  cases a with
  | const w n => exact fun _ _ => rfl
  | ssa name => exact h.names name w ha

theorem store (h : f.Realises m₀ stamps types t) (place : PageId × Addr) {k n : ℕ} {bytes : ℕ → Source}
    (hbytes : ∀ j < k, (bytes j).Is m₀ stamps (byte n j)) :
    (f.store place k bytes).Realises m₀ stamps types (t.store place k n) := by
  refine ⟨fun p x => ?_, h.names⟩
  rw [IrState.mem_store]
  by_cases hp : p = place.1
  · subst hp
    rw [Bytes.store_self]
    by_cases hx : (x - place.2).toNat < k
    · rw [ByteMemory.store_of_lt n hx, Flow.store]
      simp only [hx, and_self, if_true]
      exact hbytes _ hx
    · rw [ByteMemory.store_of_not_lt n hx, Flow.store]
      simp only [hx, and_false, if_false]
      exact h.mem _ x
  · rw [Bytes.store_of_ne _ hp, Flow.store]
    simp only [hp, false_and, if_false]
    exact h.mem p x

/-- **One access.** -/
theorem access (h : f.Realises m₀ stamps types t) {i : Inst Name} (hi : i.IsAccess)
    (htyped : i.OperandsTyped types) : (f.access i).Realises m₀ stamps (i.extend types) (i.exec t) := by
  cases i with
  | load dst w ptr =>
    refine ⟨h.mem, fun name w' hname j hj => ?_⟩
    have hflow : (f.access (.load dst w ptr)).names = Function.update f.names dst fun j =>
        f.mem (ptr.place fun _ => 0).1 ((ptr.place fun _ => 0).2 + BitVec.ofNat 64 j) := rfl
    have hexec : ((Inst.load dst w ptr).exec t).env
        = Function.update t.env dst (t.mem.load (ptr.place fun _ => 0) (w / 8)) := by
      rw [Inst.exec, IrState.env_set, Ptr.Loadable.place_congr htyped.2 t.env fun _ => 0]
    have htypes : (Inst.load dst w ptr).extend types = Function.update types dst (some w) := rfl
    rw [htypes] at hname
    rw [hflow, hexec]
    by_cases hd : name = dst
    · subst hd
      rw [Function.update_self] at hname
      obtain rfl := Option.some.inj hname
      rw [Function.update_self, Function.update_self, Bytes.load, ByteMemory.byte_load _ _ hj]
      exact h.mem _ _
    · rw [Function.update_of_ne hd] at hname
      rw [Function.update_of_ne hd, Function.update_of_ne hd]
      exact h.names name w' hname j hj
  | store w value ptr =>
    obtain ⟨-, hvalue, hptr⟩ := htyped
    rw [Flow.access, Inst.exec,
      Ptr.Loadable.place_congr (Renamed.loadable_of_storable hptr) t.env fun _ => 0]
    exact h.store _ (h.operand hvalue)
  | _ => exact hi.elim

end Flow.Realises

/-! ### The emitted code -/

variable {M : Machine} {R : HyperRegisters} {concretizeRdtsc : Bool} {σ m₀ : Bytes}
  {stamps : Option (BitVec 8)} {types : Types Name} {f : Flow} {t : IrState Name}

/-- Only calls and stores of tokens are deleted. -/
theorem exec_of_mem_deletes {block : List SyncInst} {i j : SyncInst} {p q : ℕ}
    (hj : (j, q) ∈ block.zipIdx) (hq : q ∈ i.deletes block p) (hi : (i, p) ∈ block.zipIdx) :
    ∀ t, j.exec t = t := by
  have hunique : ∀ {j' : SyncInst}, (j', q) ∈ block.zipIdx → j' = j := fun hj' =>
    Option.some.inj ((List.mk_mem_zipIdx_iff_getElem?.mp hj').symm.trans
      (List.mk_mem_zipIdx_iff_getElem?.mp hj))
  cases i with
  | inst i => exact absurd hq List.not_mem_nil
  | storeMemory token => exact absurd hq List.not_mem_nil
  | hyperCall token memory id =>
    rcases List.mem_append.mp hq with huser | hself
    · obtain ⟨⟨j', q'⟩, hfilter, rfl⟩ := List.mem_map.mp huser
      obtain ⟨hmem, huses⟩ := List.mem_filter.mp hfilter
      obtain rfl := hunique hmem
      cases j' with
      | inst i => exact absurd huses Bool.false_ne_true
      | _ => exact fun _ => rfl
    · obtain rfl := List.mem_singleton.mp hself
      obtain rfl := hunique hi
      exact fun _ => rfl

/-- Leaving out instructions that do nothing. -/
theorem execSync_filter (keep : SyncInst × ℕ → Bool) : ∀ (insts : List (SyncInst × ℕ)) (t : IrState Name),
    (∀ i ∈ insts, keep i = false → ∀ t, i.1.exec t = t) →
    execSync ((insts.filter keep).map Prod.fst) t = execSync (insts.map Prod.fst) t
  | [], _, _ => rfl
  | i :: insts, t, h => by
    have hrest := fun t => execSync_filter keep insts t fun i hi => h i (List.mem_cons_of_mem _ hi)
    rw [List.filter_cons]
    cases hkeep : keep i with
    | true => exact hrest (i.1.exec t)
    | false =>
      have hnothing := h i (List.mem_cons_self ..) hkeep t
      calc execSync ((insts.filter keep).map Prod.fst) t
          = execSync (insts.map Prod.fst) t := hrest t
        _ = execSync (insts.map Prod.fst) (i.1.exec t) := by rw [hnothing]

/-- The instructions deleted after the emulation of a block. -/
def deletedBy (block : List SyncInst) : List ℕ :=
  block.zipIdx.flatMap fun i => i.1.deletes block i.2

/-- **The emitted code** does what the block does without its hypercalls. -/
theorem execSync_eraseDeleted (block : List SyncInst) (t : IrState Name) :
    execSync (eraseDeleted block (deletedBy block)) t = execSync block t := by
  have hblock : block.zipIdx.map Prod.fst = block := List.zipIdx_map_fst 0 block
  rw [eraseDeleted, execSync_filter, hblock]
  intro j hj hdeleted
  obtain ⟨i, hi, hq⟩ := List.mem_flatMap.mp (not_not.mp (of_decide_eq_false hdeleted))
  exact exec_of_mem_deletes hj hq hi

/-- No hypercall is left. -/
theorem hyperCall_not_mem_eraseDeleted {block : List SyncInst} {token memory : ℕ} {id : HyperCallId} :
    .hyperCall token memory id ∉ eraseDeleted block (deletedBy block) := by
  intro hmem
  obtain ⟨⟨i, p⟩, hkept, rfl⟩ := List.mem_map.mp hmem
  obtain ⟨hi, hkeep⟩ := List.mem_filter.mp hkept
  refine of_decide_eq_true hkeep (List.mem_flatMap.mpr ⟨_, hi, ?_⟩)
  exact List.mem_append_right _ (List.mem_singleton_self p)

/-- **The flow past the hypercalls** is the one of the emitted code. -/
theorem execSync_realises {insts : List SyncInst} (htyped : SyncTyped types insts)
    (h : f.Realises m₀ stamps types t) :
    ∃ types', (flowSync R concretizeRdtsc false insts f).Realises m₀ stamps types' (execSync insts t) := by
  induction insts generalizing types f t with
  | nil => exact ⟨types, h⟩
  | cons i is ih =>
    cases i with
    | inst i =>
      obtain ⟨hi, hoperands, -, hrest⟩ := htyped
      exact ih hrest (h.access hi hoperands)
    | hyperCall token memory id => exact ih htyped.2 h
    | storeMemory token => exact ih htyped h

/-! ### The symbolic state -/

variable {pathConstraints : List Term} {ν : Valuation} {s : Symex} {c : Context} {m : Bytes}

/-- A register of the symbolic state is written. -/
theorem writeRegister_denotes (hS : M.solver.Sound) (h : c.Denotes ν σ m) (r : Register) {val : Value}
    (hsize : val.size = 64) :
    (Cpu.writeRegister M r val c).Denotes ν σ (m.store statePage r.offset 8 (val.eval ν)) :=
  h.write hS (Pointer.asUint64_simplify_concrete M.solver r.offset statePage) hsize (by omega)

/-- The valuation makes all time stamps of one byte. -/
def Stamped (ν : Valuation) (stamps : Option (BitVec 8)) : Prop :=
  ∀ b ∈ stamps, ∀ id, ∀ j < 8, byte (ν ⟨.tsc, id, 64⟩) j = b

/-- Half of a number, extended with zeros. -/
theorem eval_half (ν : Valuation) (v : Value) {high low : ℕ} (h : high = low + 31) :
    ((Value.concrete 0 32).concat (v.extract high low)).eval ν = v.eval ν / 2 ^ low % 2 ^ 32 := by
  subst h
  rw [Value.eval_concat, Value.eval_concrete, Value.eval_extract, Nat.zero_mod, Nat.zero_mul,
    Nat.zero_add, show low + 31 + 1 - low = 32 by omega]

/-- The bytes of half a time stamp. -/
theorem halfStamp_is {x k : ℕ} (hzero : concretizeRdtsc = true → x = 0)
    (hstamped : concretizeRdtsc = false → ∀ b ∈ stamps, ∀ j < 8, byte x j = b) (hk : k = 0 ∨ k = 4) :
    ∀ j < 8, (Flow.halfStamp concretizeRdtsc j).Is m₀ stamps (byte (x / 256 ^ k % 256 ^ 4) j) := by
  intro j hj
  cases hconcretize : concretizeRdtsc with
  | true =>
    rw [hzero hconcretize, Nat.zero_div, Nat.zero_mod, Flow.halfStamp, if_neg (by simp), byte,
      Nat.zero_div]
    rfl
  | false =>
    by_cases hlow : j < 4
    · rw [byte_mod hlow, byte_div, Flow.halfStamp, if_pos ⟨hlow, rfl⟩]
      exact fun b hb => hstamped hconcretize b hb (k + j) (by omega)
    · have hlt : x / 256 ^ k % 256 ^ 4 < 256 ^ j :=
        (Nat.mod_lt _ (by norm_num)).trans_le (Nat.pow_le_pow_right (by norm_num) (not_lt.mp hlow))
      rw [byte, Nat.div_eq_of_lt hlt, Flow.halfStamp, if_neg fun h => hlow h.1]
      rfl

/-- **One hypercall**: the symbolic state goes to one whose bytes come from where the flow says. -/
theorem visitHyperCall_realises (hS : M.solver.Sound) (hstamped : Stamped ν stamps) {id : HyperCallId}
    (hid : id = .x86CPUID ∨ id = .x86ReadTSC) (hc : c.Denotes ν σ t.mem)
    (h : f.Realises m₀ stamps types t) :
    ∃ c' m', visitHyperCall M R concretizeRdtsc id c = .ok c' ∧ c'.Denotes ν σ m' ∧
      (f.hyperCall R concretizeRdtsc id).Realises m₀ stamps types { t with mem := m' } := by
  rcases hid with rfl | rfl
  · refine ⟨_, _, rfl, writeRegister_denotes hS (writeRegister_denotes hS (writeRegister_denotes hS
      (writeRegister_denotes hS hc R.rax rfl) R.rbx rfl) R.rcx rfl) R.rdx rfl, ?_⟩
    have hconstant : ∀ n, n < 2 ^ 64 → ∀ j < 8, (Source.constant (byte n j)).Is m₀ stamps
        (byte ((Value.concrete n 64).eval ν) j) := by
      intro n hn j _
      rw [Value.eval_concrete, Nat.mod_eq_of_lt hn]
      rfl
    exact (((h.store _ (hconstant _ (by norm_num))).store _ (hconstant _ (by norm_num))).store _
      (hconstant _ (by norm_num))).store _ (hconstant _ (by norm_num))
  · obtain ⟨tsc, htsc, hden, hzero, hbytes⟩ : ∃ tsc : Value × Context,
        tsc = (if concretizeRdtsc then (Value.concrete 0 64, c) else c.symbolic .tsc 64) ∧
        tsc.2.Denotes ν σ t.mem ∧ (concretizeRdtsc = true → tsc.1.eval ν = 0) ∧
        (concretizeRdtsc = false → ∀ b ∈ stamps, ∀ j < 8, byte (tsc.1.eval ν) j = b) := by
      refine ⟨_, rfl, ?_⟩
      cases concretizeRdtsc with
      | true => exact ⟨hc, fun _ => Value.eval_concrete ν 0 64, nofun⟩
      | false =>
        refine ⟨⟨hc.mem, hc.wf⟩, nofun, fun _ b hb j hj => ?_⟩
        rw [← hstamped b hb c.fresh j hj]
        exact byte_mod (k := 8) hj
    refine ⟨_, _, by rw [visitHyperCall, ← htsc]; rfl, writeRegister_denotes hS
      (writeRegister_denotes hS hden R.rax rfl) R.rdx rfl, ?_⟩
    rw [eval_half ν tsc.1 rfl, eval_half ν tsc.1 rfl]
    exact (h.store _ (halfStamp_is hzero hbytes (.inl rfl))).store _
      (halfStamp_is hzero hbytes (.inr rfl))

/-- Accesses through constant pointers go through. -/
theorem exists_visit (hS : M.solver.Sound) (hs : s.Denotes ν σ types t) {i : Inst Name}
    (hi : i.IsAccess) (htyped : i.OperandsTyped types) :
    ∃ s', visit M.solver pathConstraints i s = .ok s' := by
  have hpointer : ∀ {ptr : Ptr Name}, ptr.Loadable → ∃ p, s.pointer ptr = .ok p ∧
      (p.simplify M.solver).asUint64 = some (ptr.place t.env).2 := by
    intro ptr hptr
    obtain ⟨p, hp⟩ : ∃ p, s.pointer ptr = .ok p := by
      cases ptr with
      | intToPtr value => exact hptr.elim
      | _ => exact ⟨_, rfl⟩
    exact ⟨p, hp, (Symex.pointer_place hS hptr hp t.env).2⟩
  cases i with
  | load dst w ptr =>
    obtain ⟨p, hp, hbase⟩ := hpointer htyped.2
    simp only [visit, visitLoad, hp, Except.ok_bind]
    rw [readMemory_of_asUint64 hbase]
    exact ⟨_, rfl⟩
  | store w value ptr =>
    obtain ⟨-, hvalue, hptr⟩ := htyped
    obtain ⟨p, hp, hbase⟩ := hpointer (Renamed.loadable_of_storable hptr)
    obtain ⟨v, hv⟩ := hs.exists_get hvalue
    simp only [visit, visitStore, hp, hv, Except.ok_bind]
    rw [writeMemory_of_asUint64 hbase]
    exact ⟨_, rfl⟩
  | _ => exact hi.elim

/-- **Emulation**: it goes through, and the bytes of the symbolic state come from where the flow with the
hypercalls says. -/
theorem emulate_realises (hS : M.solver.Sound) (hσ : Unwritten ν σ) (hstamped : Stamped ν stamps)
    (block : List SyncInst) {insts : List SyncInst} {k : ℕ} (toDelete : List ℕ)
    (htyped : SyncTyped types insts) (hs : s.Denotes ν σ types t) (h : f.Realises m₀ stamps types t) :
    ∃ s' types' t', emulateInsts M R concretizeRdtsc pathConstraints block (insts.zipIdx k) s toDelete
        = .ok (s', toDelete ++ (insts.zipIdx k).flatMap fun i => i.1.deletes block i.2) ∧
      s'.Denotes ν σ types' t' ∧
      (flowSync R concretizeRdtsc true insts f).Realises m₀ stamps types' t' := by
  induction insts generalizing types f s t k toDelete with
  | nil => exact ⟨s, types, t, by simp [emulateInsts, pure, Except.pure], hs, h⟩
  | cons i is ih =>
    obtain ⟨s₁, types₁, t₁, hrun, hrest, hs₁, h₁⟩ : ∃ s₁ types₁ t₁,
        i.run M R concretizeRdtsc pathConstraints s = .ok s₁ ∧ SyncTyped types₁ is ∧
        s₁.Denotes ν σ types₁ t₁ ∧
        (SyncInst.flow R concretizeRdtsc true f i).Realises m₀ stamps types₁ t₁ := by
      cases i with
      | inst i =>
        obtain ⟨hi, hoperands, -, hrest⟩ := htyped
        obtain ⟨s₁, hvisit⟩ : ∃ s₁, visit M.solver pathConstraints i s = .ok s₁ :=
          exists_visit hS hs hi hoperands
        exact ⟨s₁, _, _, hvisit, hrest, visit_sound hS hσ hs hoperands (hi.address) hvisit,
          h.access hi hoperands⟩
      | hyperCall token memory id =>
        obtain ⟨c', m', hvisit, hden, h'⟩ := visitHyperCall_realises hS hstamped htyped.1 hs.context h
        exact ⟨_, types, _, by rw [SyncInst.run, hvisit]; rfl, htyped.2, hs.withContext hden, h'⟩
      | storeMemory token => exact ⟨s, types, t, rfl, htyped, hs, h⟩
    obtain ⟨s', types', t', hemulate, hs', h'⟩ := ih (k := k + 1)
      (toDelete ++ i.deletes block k) hrest hs₁ h₁
    refine ⟨s', types', t', ?_, hs', h'⟩
    rw [List.zipIdx_cons, emulateInsts, hrun]
    exact hemulate.trans (by simp)

/-! ### When the two views agree -/

/-- Two sources are told apart by some state and some time stamps, if the second is not a stamp. -/
theorem Source.exists_ne {a b : Source} (hne : a ≠ b) (hb : b ≠ .stamp) :
    ∃ (m₀ : Bytes) (ones : Bool), ∀ x y, a.Is m₀ (some (if ones then 255 else 0)) x →
      b.Is m₀ (some (if ones then 255 else 0)) y → x ≠ y := by
  cases b with
  | stamp => exact absurd rfl hb
  | constant c =>
    obtain ⟨ones, hones⟩ : ∃ ones : Bool, (if ones then 255 else 0 : BitVec 8) ≠ c := by
      by_cases hc : c = 0
      · exact ⟨true, by rw [hc]; decide⟩
      · exact ⟨false, fun h => hc h.symm⟩
    refine ⟨fun _ _ => if ones then 255 else 0, ones, ?_⟩
    rintro x y hx rfl
    cases a with
    | constant c' =>
      obtain rfl := hx
      exact fun h => hne (congrArg _ h)
    | initial p x' =>
      obtain rfl := hx
      exact hones
    | stamp => rw [hx _ rfl]; exact hones
  | initial p y' =>
    cases a with
    | constant c =>
      refine ⟨fun _ _ => ~~~c, false, ?_⟩
      rintro x y rfl rfl
      have hnot : ∀ b : BitVec 8, b ≠ ~~~b := by decide
      exact hnot x
    | stamp =>
      refine ⟨fun _ _ => 0, true, ?_⟩
      rintro x y hx rfl
      rw [hx _ rfl]
      exact (by decide : (255 : BitVec 8) ≠ 0)
    | initial q x' =>
      refine ⟨fun p' z => if p' = p ∧ z = y' then 1 else 0, false, ?_⟩
      rintro x y rfl rfl
      have hplace : ¬ (q = p ∧ x' = y') := by
        rintro ⟨rfl, rfl⟩
        exact hne rfl
      simp only [hplace, and_self, if_true, if_false]
      decide

/-- Past the hypercalls nothing comes from a time stamp. -/
theorem flowSync_ne_stamp (insts : List SyncInst) (hmem : ∀ p x, f.mem p x ≠ .stamp)
    (hnames : ∀ name j, f.names name j ≠ .stamp) (p : PageId) (x : Addr) :
    (flowSync R concretizeRdtsc false insts f).mem p x ≠ .stamp := by
  induction insts generalizing f with
  | nil => exact hmem p x
  | cons i is ih =>
    cases i with
    | hyperCall token memory id => exact ih hmem hnames
    | storeMemory token => exact ih hmem hnames
    | inst i =>
      cases i with
      | load dst w ptr =>
        refine ih hmem fun name j => ?_
        by_cases hd : name = dst
        · subst hd
          exact (congrFun (Function.update_self ..) j).trans_ne (hmem _ _)
        · exact (congrFun (Function.update_of_ne hd ..) j).trans_ne (hnames name j)
      | store w value ptr =>
        refine ih (fun p x => ?_) hnames
        have hvalue : ∀ j, f.operand value j ≠ .stamp := by
          cases value with
          | const w n => exact fun _ => nofun
          | ssa name => exact hnames name
        show ite _ _ _ ≠ Source.stamp
        split
        · exact hvalue _
        · exact hmem p x
      | _ => exact ih hmem hnames

/-- A time stamp all of whose bytes are ones, or zeros. -/
theorem stamped_withMemory (σ : Bytes) (ones : Bool) :
    Stamped (Valuation.withMemory (fun _ => if ones then 2 ^ 64 - 1 else 0) σ)
      (some (if ones then 255 else 0)) := by
  rintro b hb id j hj
  obtain rfl := Option.some.inj hb
  show byte (if ones then 2 ^ 64 - 1 else 0) j = if ones then 255 else 0
  revert j ones
  decide

/-- Before the block every byte comes from itself. -/
theorem Flow.realises_start (t : IrState Name) (stamps : Option (BitVec 8)) :
    Flow.start.Realises t.mem stamps (fun _ => none) t where
  mem _ _ := rfl
  names _ _ h := absurd h nofun

/-- Registers have the same value when their bytes are the same. -/
theorem load_eq_iff (m m' : Bytes) (r : Register) :
    m.load (statePage, r.offset) r.size = m'.load (statePage, r.offset) r.size ↔
      ∀ j < r.size, m statePage (r.offset + BitVec.ofNat 64 j)
        = m' statePage (r.offset + BitVec.ofNat 64 j) := by
  refine ⟨fun h j hj => ?_, ByteMemory.load_congr⟩
  have hbyte := congrArg (fun n => byte n j) h
  simp only [Bytes.load, ByteMemory.byte_load _ _ hj] at hbyte
  exact hbyte

variable (concretizeRdtsc pathConstraints) in
/-- **Both views** of a block: the bytes of the symbolic state come from where the flow with the hypercalls
says, those the emitted code leaves from where the flow past them says. -/
theorem emulateBlock_realises (hS : M.solver.Sound) (hσ : Unwritten ν σ) (hstamped : Stamped ν stamps)
    (block : SyncBlock) (hs : s.Denotes ν σ (fun _ => none) t) :
    ∃ s', emulateBlock M R concretizeRdtsc pathConstraints block.insts s
        = .ok (s', deletedBy block.insts) ∧
      ∀ p x, ((flowSync R concretizeRdtsc true block.insts .start).mem p x).Is t.mem stamps
          (s'.context.memory.denote ν σ p x) ∧
        ((flowSync R concretizeRdtsc false block.insts .start).mem p x).Is t.mem stamps
          ((execSync (eraseDeleted block.insts (deletedBy block.insts)) t).mem p x) := by
  obtain ⟨s', _, t', hrun, hs', hflow⟩ := emulate_realises (M := M) (R := R) (k := 0) hS hσ hstamped
    block.insts [] block.typed hs (Flow.realises_start t stamps)
  obtain ⟨_, hcode⟩ := execSync_realises block.typed (Flow.realises_start t stamps)
  refine ⟨s', hrun, fun p x => ⟨?_, ?_⟩⟩
  · rw [hs'.context.mem]
    exact hflow.mem p x
  · rw [execSync_eraseDeleted]
    exact hcode.mem p x

/-- Apart from time stamps a source is one byte. -/
theorem Source.Is.unique {a : Source} (ha : a ≠ .stamp) {x y : BitVec 8} (hx : a.Is m₀ stamps x)
    (hy : a.Is m₀ stamps y) : x = y := by
  cases a with
  | stamp => exact absurd rfl ha
  | _ => exact Eq.trans hx (Eq.symm hy)

/-- **Hypercalls**: the emitted code leaves the registers the symbolic state has, from every state, exactly
when every byte of a register comes from the same place with the hypercalls as without them. -/
theorem inStep_iff (hS : M.solver.Sound) (block : SyncBlock) :
    block.InStep M R concretizeRdtsc ↔ ∀ r ∈ M.registers, ∀ j < r.size,
      (flowSync R concretizeRdtsc true block.insts .start).mem statePage (r.offset + BitVec.ofNat 64 j)
        = (flowSync R concretizeRdtsc false block.insts .start).mem statePage
          (r.offset + BitVec.ofNat 64 j) := by
  have hne : ∀ x, (flowSync R concretizeRdtsc false block.insts .start).mem statePage x ≠ .stamp :=
    flowSync_ne_stamp block.insts (fun p x => (nofun : Source.initial p x ≠ .stamp))
      (fun _ _ => (nofun : Source.constant 0 ≠ .stamp)) statePage
  constructor
  · intro h r hr j hj
    by_contra hsource
    obtain ⟨m₀, ones, hdiffer⟩ := Source.exists_ne hsource (hne _)
    have hσ := unwritten_withMemory (fun _ => if ones then 2 ^ 64 - 1 else 0) m₀
    have hs := denotes_empty (Valuation.withMemory (fun _ => if ones then 2 ^ 64 - 1 else 0) m₀) m₀
      fun _ => 0
    obtain ⟨s', hrun, hbytes⟩ := emulateBlock_realises (R := R) concretizeRdtsc [] hS hσ
      (stamped_withMemory m₀ ones) block hs
    obtain ⟨s'', toDelete, hrun', hregisters⟩ := h [] _ _ m₀ _ hσ hs
    obtain ⟨rfl, rfl⟩ := Prod.mk.inj (Except.ok.inj (hrun'.symm.trans hrun))
    obtain ⟨hsymbolic, hcode⟩ := hbytes statePage (r.offset + BitVec.ofNat 64 j)
    exact hdiffer _ _ hsymbolic hcode ((load_eq_iff _ _ r).mp (hregisters r hr) j hj)
  · intro h pathConstraints s ν σ t hσ hs
    have hstamped : Stamped ν none := fun _ hb => nomatch hb
    obtain ⟨s', hrun, hbytes⟩ := emulateBlock_realises (R := R) concretizeRdtsc pathConstraints hS hσ
      hstamped block hs
    refine ⟨s', _, hrun, fun r hr => (load_eq_iff _ _ r).mpr fun j hj => ?_⟩
    obtain ⟨hsymbolic, hcode⟩ := hbytes statePage (r.offset + BitVec.ofNat 64 j)
    rw [h r hr j hj] at hsymbolic
    exact hsymbolic.unique (hne _) hcode

/-- The registers of `amd64`, as far as hypercalls write them. -/
def amd64Registers : HyperRegisters where
  rax := ⟨"RAX", 2216, 8, false⟩
  rbx := ⟨"RBX", 2232, 8, false⟩
  rcx := ⟨"RCX", 2248, 8, false⟩
  rdx := ⟨"RDX", 2264, 8, false⟩

def amd64Machine : Machine :=
  { Machine.bare .folding with
    registers := [amd64Registers.rax, amd64Registers.rbx, amd64Registers.rcx, amd64Registers.rdx] }

/-- A time stamp that is read as zero into registers that were set to zero. -/
def clearedBlock : SyncBlock where
  insts := [.inst (.store 64 (.const 64 0) (.state 2216)), .inst (.store 64 (.const 64 0) (.state 2264)),
    .hyperCall 1 0 .x86ReadTSC, .storeMemory 1]
  typed := ⟨trivial, ⟨by decide, rfl, trivial⟩, nofun, trivial, ⟨by decide, rfl, trivial⟩, nofun, .inr rfl,
    trivial⟩

theorem clearedBlock_inStep : clearedBlock.InStep amd64Machine amd64Registers true :=
  (inStep_iff Solver.folding_sound clearedBlock).mpr (by decide +kernel)

/-- A `CPUID` at the end of a block. -/
def cpuidBlock : SyncBlock where
  insts := [.hyperCall 1 0 .x86CPUID, .storeMemory 1]
  typed := ⟨.inl rfl, trivial⟩

/-- The symbolic `RAX` is `0x00A50F00`, the one of the lifted code still zero. -/
theorem cpuidBlock_not_inStep : ¬ cpuidBlock.InStep amd64Machine amd64Registers true := by
  intro h
  obtain ⟨s', toDelete, hrun, hregisters⟩ := h [] _ _ (fun _ _ => 0) _ (unwritten_withMemory (fun _ => 0) _)
    (denotes_empty _ _ fun _ => 0)
  obtain ⟨rfl, rfl⟩ := Prod.mk.inj (Except.ok.inj hrun)
  have hrax := hregisters amd64Registers.rax (List.mem_cons_self ..)
  revert hrax
  decide +kernel

end Vexa
