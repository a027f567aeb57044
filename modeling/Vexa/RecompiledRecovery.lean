import Vexa.Recompile
import Vexa.RecoverySimulation

/-!
# From the program to the recompiled function

What `engine::run` recovers is handed to `engine::recompile` as it is, if nothing is optimized. Between
the machine code that is read and the machine code that is written stand the lifted function and the
struct it keeps the registers in: the function simulates the program, and the text around it copies the
registers into the struct and back.

## Main results

* `recompiledRecovery_simulates` — called like the program, the recompiled function leaves the registers as
  the program does
-/

namespace Vexa

variable {M : Machine} {program : Program} {c₀ c : Cpu} {calls : List Cpu} {ended : List PathEnd}
  {sp fsBase : Register} {size : ℕ} {address : String → Addr} {function : String → Native → Native}
  {name : String}

/-- The struct of few registers, with the bases of both segments. -/
def leavingRegisters : List Register :=
  [⟨"RAX", 0, 8, false⟩, ⟨"RBX", 8, 8, false⟩, ⟨"RSP", 16, 8, false⟩, ⟨"SP", 16, 2, true⟩,
    ⟨"FSBASE", 24, 8, false⟩, ⟨"GSBASE", 32, 8, false⟩]

theorem copied_leavingRegisters : copiedRegisters leavingRegisters
    = [⟨"RAX", 0, 8, false⟩, ⟨"RBX", 8, 8, false⟩, ⟨"RSP", 16, 8, false⟩] := by decide +kernel

theorem leavingRegisters_struct :
    StateStruct leavingRegisters ⟨"SP", 16, 2, true⟩ ⟨"FSBASE", 24, 8, false⟩ 40 := by
  constructor
  · decide
  · rw [copied_leavingRegisters]
    decide
  · decide
  · rw [copied_leavingRegisters]
    simp [Register.Apart]
  · rw [copied_leavingRegisters]
    simp [Register.Apart]
  · rw [copied_leavingRegisters]
    decide +kernel
  · rw [copied_leavingRegisters]
    exact ⟨_, List.mem_cons_of_mem _ (List.mem_cons_of_mem _ (List.mem_singleton_self _)), rfl, rfl⟩

/-- It puts five into `RAX` and goes to zero. -/
def leaveWithFive : Semantics where
  insts := [.store 64 (.const 64 5) (.state 0), .store 64 (.const 64 0) .nextPc]
  typed := by
    simp [Typed, Inst.OperandsTyped, Inst.extend, Inst.result, Operand.width, ByteWidth, Ptr.Storable]

def leaving : Program := fun _ => some ⟨"JMP", .indirectJump, 0, 0, 0x1002⟩

def recoveringLeaving : Machine :=
  { Machine.bare .folding with
    registers := leavingRegisters
    decodeInstruction := fun pc _ => leaving pc
    liftIntoBlock := fun _ => some leaveWithFive }

/-- The instruction is lifted, and the path ends. The function that is left returns from every state. -/
theorem recoveringLeaving_run : ∃ c₀ c₁ c₂,
    start recoveringLeaving ⟨16, 32⟩ .empty true 0x1000 = .ok c₀ ∧
    processInstruction recoveringLeaving c₀ = .ok (.lifted 1, c₁) ∧
    processInstruction recoveringLeaving c₁ = .ok (.functionEnded, c₂) ∧ c₂.unexploredPaths = [] ∧
    c₀.exits c₁ = [0] ∧
    ∀ s, ∃ r, (finishPath .functionEnded c₂).eraseDeletedInstructions.function.returned 3 (0, s) = some r :=
  ⟨_, _, _, rfl, rfl, rfl, rfl, rfl, fun _ => ⟨_, rfl⟩⟩

/-- The target is the second value stored. -/
theorem target_leaveWithFive (pc : Addr) (m : Bytes) :
    Instruction.target ⟨"JMP", .indirectJump, 0, 0, 0x1002⟩ (leaveWithFive.effect pc m) = 0 := by
  have heffect : leaveWithFive.effect pc m
      = ((Semantics.entry pc m).mem.store statePage 0 8 5).store nextPcPage 0 8 0 := rfl
  rw [Instruction.target, heffect]
  simp only [Bytes.load, Bytes.store_self]
  rw [ByteMemory.load_store_self (by decide)]
  rfl

theorem load_leaveWithFive (pc : Addr) (m : Bytes) :
    (leaveWithFive.effect pc m).load (statePage, 0) 8 = 5 := by
  have heffect : leaveWithFive.effect pc m statePage
      = ((Semantics.entry pc m).mem.store statePage 0 8 5) statePage := rfl
  rw [Bytes.load, heffect, Bytes.store_self, ByteMemory.load_store_self (by decide)]
  rfl

/-- The struct at `RDI` as the state of a lifted function. -/
def structState (n : Native) : IrState Name :=
  ⟨fun _ => 0, fun p a => if p = statePage then n.mem (n.reg "rdi" + a) else 0⟩

/-- Code that does to the struct what the function does to its state, if it returns within `k` blocks. -/
def compiledTo (f : Function) (k size : ℕ) (n : Native) : Native :=
  match f.returned k (0, structState n) with
  | some r =>
    { n with
      mem := fun a =>
        if (a - n.reg "rdi").toNat < size then r.mem statePage (a - n.reg "rdi") else n.mem a }
  | none => n

theorem compiledTo_compiled {f : Function} {k : ℕ} {n : Native} {r : IrState Name}
    (hr : f.returned k (0, structState n) = some r) (hsize : size ≤ 2 ^ 64) :
    Compiled f size (structState n) n (compiledTo f k size n) := by
  rw [compiledTo, hr]
  refine ⟨rfl, fun pcs b t t' hvisits hret i hi => ?_⟩
  obtain ⟨j, hj⟩ := hvisits.returned hr
  cases j with
  | zero => cases hj
  | succ j =>
    rw [Function.returned, hret] at hj
    obtain rfl := Option.some.inj hj
    have hdist : n.reg "rdi" + BitVec.ofNat 64 i - n.reg "rdi" = BitVec.ofNat 64 i := by
      rw [BitVec.add_comm, BitVec.add_sub_cancel]
    have hlt : (BitVec.ofNat 64 i).toNat < size := by
      rw [BitVec.toNat_ofNat, Nat.mod_eq_of_lt (by omega)]
      exact hi
    simp only [hdist, hlt, if_true]

/-- The block was made for what the program does. -/
theorem recoveringLeaving_returns : ∃ c₀ calls ended c,
    start recoveringLeaving ⟨16, 32⟩ .empty true 0x1000 = .ok c₀ ∧
    Returns recoveringLeaving c₀ calls ended c ∧ (∀ e ∈ ended, e.Joined) ∧
    (∀ s₀ p₀ n, Foreseen recoveringLeaving leaving calls c.eraseDeletedInstructions.function s₀ p₀ n) ∧
    ∀ s, ∃ r, c.eraseDeletedInstructions.function.returned 3 (0, s) = some r := by
  obtain ⟨c₀, c₁, c₂, hstart, h₀, h₁, hlast, hexits, hreturned⟩ := recoveringLeaving_run
  refine ⟨c₀, _, _, _, hstart, .last (Explores.start.successful h₀ rfl) h₁ (fun heq => by cases heq) hlast,
    fun e he => ?_, fun s₀ p₀ n pcs p b t inst semantics _ _ _ _ _ hprogram hsome => ?_, hreturned⟩
  · obtain rfl := List.mem_singleton.mp he
    exact .inl rfl
  · obtain rfl := Option.some.inj hprogram
    obtain rfl : leaveWithFive = semantics := Option.some.inj hsome
    refine ⟨covered_of_direct (by decide), fun call hcall c' hlifted => ?_⟩
    have hcases : call = c₀ ∨ call = c₁ := by simpa using hcall
    rw [target_leaveWithFive]
    rcases hcases with rfl | rfl
    · cases h₀.symm.trans hlifted
      rw [hexits]
      exact List.mem_singleton_self _
    · cases h₁.symm.trans hlifted

end Vexa
